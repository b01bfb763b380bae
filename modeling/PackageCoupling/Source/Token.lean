import PackageCoupling.Text.Utf8

/-!
Tokens of source files.

A source is cut into tokens that cover all of it, white space and comments included, so that the
text between any two tokens can be given back as it was written. What a token means is up to the
language; the kinds here are the distinctions that finding imports needs.
-/

namespace PackageCoupling.Source

inductive TokenKind where
  | blank
  /-- The end of a line, where lines matter. -/
  | newline
  | comment
  /-- An identifier or a keyword. -/
  | word
  | number
  /-- A quoted string that stands for itself. -/
  | string
  /-- Any other literal: a character, a template, a pattern, a private name. -/
  | literal
  | punct
  /-- Text and tags of markup inside a source. -/
  | markup
  deriving DecidableEq, Repr

structure Token where
  kind : TokenKind
  glyphs : List Glyph
  deriving DecidableEq, Repr

namespace Token

/-- Whether the token only separates others. -/
def isTrivia (t : Token) : Bool := t.kind == .blank || t.kind == .comment

/-- Whether the token is spelled like this. -/
def spells (t : Token) (s : String) : Bool := t.glyphs == s.toList.map Glyph.char

def isWord (t : Token) (s : String) : Bool := t.kind == .word && t.spells s

def isPunct (t : Token) (s : String) : Bool := t.kind == .punct && t.spells s

end Token

/-- The text of consecutive tokens, if it holds no stray bytes. -/
def textOf? (ts : List Token) : Option String :=
  (Utf8.chars? (ts.flatMap (·.glyphs))).map String.ofList

/-! ## Looking at the front of a source -/

/-- The glyphs of a source. A byte order mark in front is no part of it. -/
def glyphs (content : Bytes) : List Glyph :=
  match Utf8.decode content with
  | .char c :: rest => if c.toNat == 0xFEFF then rest else .char c :: rest
  | gs => gs

def startsWith : List Char → List Glyph → Bool
  | [], _ => true
  | c :: cs, .char d :: gs => c == d && startsWith cs gs
  | _ :: _, _ => false

def headIs (p : Char → Bool) : List Glyph → Bool
  | .char c :: _ => p c
  | _ => false

/-- How many leading glyphs are characters that satisfy `p`. -/
def runLength (p : Char → Bool) : List Glyph → Nat
  | .char c :: gs => if p c then runLength p gs + 1 else 0
  | _ => 0

/-- How many glyphs there are before the end of the line. -/
def lineLength : List Glyph → Nat
  | [] => 0
  | g :: gs => if g == .char '\n' then 0 else lineLength gs + 1

/-- How many glyphs there are up to the end of the first `close`. -/
def upTo? (close : List Char) : List Glyph → Option Nat
  | [] => if close.isEmpty then some 0 else none
  | g :: gs =>
    if startsWith close (g :: gs) then some close.length else (upTo? close gs).map (· + 1)

/-- How many glyphs there are up to the end of the first `close`, or of the source. -/
def upToOrAll (close : List Char) (gs : List Glyph) : Nat := (upTo? close gs).getD gs.length

/-- How many glyphs there are up to the closing quote and with it. A backslash takes the next
character with it; one of `stops` ends the search. -/
def quoteEnd? (quote : Char) (stops : List Char) : List Glyph → Option Nat
  | [] => none
  | .char '\\' :: .char '\r' :: .char '\n' :: rest => (quoteEnd? quote stops rest).map (· + 3)
  | .char '\\' :: _ :: rest => (quoteEnd? quote stops rest).map (· + 2)
  | .char c :: rest =>
    if c == quote then some 1
    else if stops.contains c then none
    else (quoteEnd? quote stops rest).map (· + 1)
  | .stray _ :: rest => (quoteEnd? quote stops rest).map (· + 1)

def isAsciiSpace (c : Char) : Bool := c == ' ' || (9 ≤ c.toNat && c.toNat ≤ 13)

/-- Letters of identifiers; every character beyond ASCII counts as one. -/
def isWordStart (c : Char) : Bool := c.isAlpha || c == '_' || 128 ≤ c.toNat

def isWordPart (c : Char) : Bool := isWordStart c || c.isDigit

/-- The token of `more` glyphs behind `g`. -/
def piece (kind : TokenKind) (more : Nat) (g : Glyph) (rest : List Glyph) (next : σ) :
    Cut Token σ :=
  ⟨⟨kind, g :: rest.take more⟩, more, next⟩

end PackageCoupling.Source
