import PackageCoupling.Source.Token

/-!
The tokens of JavaScript and its relatives.

A slash may start a pattern or divide, a brace may close a block or return to the text of a
template, and an angle bracket may start a markup tag. The state behind each token holds what
decides: whether an operand may start here, and the contexts that are open.
-/

namespace PackageCoupling.Source

/-- What a dialect adds to the base language. -/
structure Dialect where
  markup : Bool
  types : Bool
  deriving DecidableEq, Repr

namespace Script

inductive Context where
  /-- Parentheses; the flag says that they belong to the head of a statement. -/
  | paren (head : Bool)
  | square
  | block
  | object
  /-- The braces of a template's part. -/
  | template
  /-- Between the name and the end of an opening tag. -/
  | tag
  /-- Between an opening and a closing tag. -/
  | children
  /-- The braces of a markup expression. -/
  | hole
  deriving DecidableEq, Repr

structure State where
  contexts : List Context
  /-- Whether an operand may start here, rather than an operator. -/
  operand : Bool
  /-- The last token that is neither white space nor a comment. -/
  previous : Option Token
  /-- Whether anything has been read. -/
  started : Bool
  deriving DecidableEq, Repr

def State.initial : State := ⟨[], true, none, false⟩

/-! ## Characters -/

/-- White space and the format characters that count as such. -/
def isSpace (c : Char) : Bool :=
  let n := c.toNat
  isAsciiSpace c || n == 0xA0 || n == 0x1680 || (0x2000 ≤ n && n ≤ 0x200B) || n == 0x2028 ||
    n == 0x2029 || n == 0x202F || n == 0x205F || n == 0x2060 || n == 0x3000 || n == 0xFEFF

/-- Letters of identifiers, with the backslash of an escaped one. -/
def isNameStart (c : Char) : Bool :=
  (isWordStart c || c == '$' || c == '\\') && !isSpace c

def isNamePart (c : Char) : Bool := isNameStart c || c.isDigit

def isTagPart (c : Char) : Bool := isNamePart c || c == '-' || c == ':' || c == '.'

/-! ## Lengths -/

/-- How many glyphs the text of a template takes up to its end or its next part, and whether a part
follows. -/
def templateText : List Glyph → Nat × Bool
  | [] => (0, false)
  | .char '\\' :: _ :: rest => let (n, part) := templateText rest; (n + 2, part)
  | .char '$' :: .char '{' :: _ => (2, true)
  | g :: rest =>
    if g == .char '\x60' then (1, false)
    else let (n, part) := templateText rest; (n + 1, part)

/-- How many glyphs a pattern takes behind its opening slash. The flag says that a class is open. -/
def patternEnd? : Bool → List Glyph → Option Nat
  | _, [] => none
  | inClass, .char '\\' :: g :: rest =>
    if g == .char '\n' then none else (patternEnd? inClass rest).map (· + 2)
  | inClass, g :: rest =>
    if g == .char '\n' || g == .char '\r' then none
    else if g == .char '/' && !inClass then some 1
    else
      (patternEnd? (if g == .char '[' then true else if g == .char ']' then false else inClass)
        rest).map (· + 1)

/-- How many glyphs there are up to the angle bracket that closes `depth` open ones. -/
def angleEnd : Nat → List Glyph → Nat
  | 0, _ => 0
  | _, [] => 0
  | depth + 1, g :: rest =>
    angleEnd
      (if g == .char '<' then depth + 2 else if g == .char '>' then depth else depth + 1) rest + 1

/-- The length of markup text. -/
def textLength : List Glyph → Nat
  | [] => 0
  | g :: rest => if g == .char '<' || g == .char '{' then 0 else textLength rest + 1

def occursIn (cs : List Char) : List Glyph → Bool
  | [] => cs.isEmpty
  | g :: rest => startsWith cs (g :: rest) || occursIn cs rest

def charsOf (gs : List Glyph) : List Char :=
  gs.filterMap fun
    | .char c => some c
    | .stray _ => none

/-! ## States -/

namespace State

def after (s : State) (t : Token) (operand : Bool) : State :=
  ⟨s.contexts, operand, some t, true⟩

def push (s : State) (c : Context) : State := { s with contexts := c :: s.contexts }

def pop (s : State) : State := { s with contexts := s.contexts.drop 1 }

def previousIs (s : State) (words puncts : List String) : Bool :=
  match s.previous with
  | some t => words.any t.isWord || puncts.any t.isPunct
  | none => false

/-- Whether the last token makes the next word a property. -/
def behindDot (s : State) : Bool := s.previousIs [] [".", "?."]

/-- Whether a brace opens a block here. -/
def opensBlock (s : State) : Bool :=
  !s.operand || s.previous.isNone ||
    s.previousIs ["else", "do", "try", "finally"] [";", "\x7b", "\x7d", "=>", ")"]

end State

/-- Words behind which an operand starts. -/
def operandWords : List String :=
  ["return", "typeof", "instanceof", "in", "of", "new", "delete", "void", "throw", "case",
   "do", "else", "yield", "await", "default", "extends"]

/-! ## Markup -/

/-- Whether an angle bracket in front of `rest` starts an element: a name that is closed somewhere
and not a type parameter. -/
def startsElement (d : Dialect) (rest : List Glyph) : Bool :=
  if startsWith ['>'] rest then occursIn ['<', '/'] rest
  else if headIs isNameStart rest then
    let n := runLength isTagPart rest
    let after := (rest.drop n).drop (runLength isSpace (rest.drop n))
    let parameter := d.types && (startsWith [','] after || startsWith "extends ".toList after)
    !parameter && (occursIn ['/', '>'] rest || occursIn ('<' :: '/' :: charsOf (rest.take n)) rest)
  else false

/-- An opening tag up to its name, or an opening tag without one. -/
def openTag (s : State) (g : Glyph) (rest : List Glyph) : Cut Token State :=
  if startsWith ['>'] rest then
    let t : Token := ⟨.markup, g :: rest.take 1⟩
    ⟨t, 1, (s.after t false).push .children⟩
  else
    let n := runLength isTagPart rest
    let t : Token := ⟨.markup, g :: rest.take n⟩
    ⟨t, n, (s.after t false).push .tag⟩

/-- The token at the front between tags. -/
def inChildren (s : State) (g : Glyph) (rest : List Glyph) : Cut Token State :=
  if g == .char '{' then
    let t : Token := ⟨.punct, [g]⟩
    ⟨t, 0, (s.after t true).push .hole⟩
  else if g == .char '<' then
    if startsWith ['/'] (rest.drop (runLength isSpace rest)) then
      let n := upToOrAll ['>'] rest
      let t : Token := ⟨.markup, g :: rest.take n⟩
      ⟨t, n, (s.after t false).pop⟩
    else openTag s g rest
  else
    let n := textLength rest
    let t : Token := ⟨.markup, g :: rest.take n⟩
    ⟨t, n, s.after t false⟩

/-- The token at the front inside an opening tag. -/
def inTag (s : State) (g : Glyph) (rest : List Glyph) : Cut Token State :=
  let markup (n : Nat) (change : State → State) : Cut Token State :=
    let t : Token := ⟨.markup, g :: rest.take n⟩
    ⟨t, n, change (s.after t false)⟩
  match g with
  | .stray _ => markup 0 id
  | .char c =>
    if isSpace c then piece .blank (runLength isSpace rest) g rest s
    else if c == '/' && startsWith ['/'] rest then piece .comment (lineLength rest) g rest s
    else if c == '/' && startsWith ['*'] rest then
      piece .comment (upToOrAll ['*', '/'] (rest.drop 1) + 1) g rest s
    else if c == '"' || c == '\'' then markup (upToOrAll [c] rest) id
    else if c == '{' then
      let t : Token := ⟨.punct, [g]⟩
      ⟨t, 0, (s.after t true).push .hole⟩
    else if c == '/' then
      let blanks := runLength isSpace rest
      if startsWith ['>'] (rest.drop blanks) then markup (blanks + 1) State.pop else markup 0 id
    else if c == '>' then markup 0 (fun s => s.pop.push .children)
    else if c == '<' then
      if (s.previous.map (·.spells "=")).getD false then openTag s g rest
      else markup (angleEnd 1 rest) id
    else markup (runLength isTagPart rest) id

/-! ## Code -/

def closing (s : State) (t : Token) : State :=
  match s.contexts with
  | .paren head :: _ => (s.after t head).pop
  | .block :: _ => (s.after t true).pop
  | _ => (s.after t false).pop

/-- The token at the front of code. -/
def inCode (d : Dialect) (s : State) (g : Glyph) (rest : List Glyph) : Cut Token State :=
  let token (kind : TokenKind) (n : Nat) (operand : Bool) (change : State → State) :
      Cut Token State :=
    let t : Token := ⟨kind, g :: rest.take n⟩
    ⟨t, n, change (s.after t operand)⟩
  match g with
  | .stray _ => token .punct 0 true id
  | .char c =>
    if c == '#' && !s.started && startsWith ['!'] rest then
      piece .comment (lineLength rest) g rest { s with started := true }
    else if isSpace c then piece .blank (runLength isSpace rest) g rest { s with started := true }
    else if c == '/' && startsWith ['/'] rest then
      piece .comment (lineLength rest) g rest { s with started := true }
    else if c == '/' && startsWith ['*'] rest then
      piece .comment (upToOrAll ['*', '/'] (rest.drop 1) + 1) g rest { s with started := true }
    else if s.operand &&
        ((c == '<' && startsWith ['!', '-', '-'] rest) ||
          (c == '-' && startsWith ['-', '>'] rest)) then
      piece .comment (lineLength rest) g rest { s with started := true }
    else if c == '"' || c == '\'' then
      match quoteEnd? c ['\n', '\r'] rest with
      | some n => token .string n false id
      | none => token .punct 0 true id
    else if c == '\x60' then
      let (n, part) := templateText rest
      token .literal n part (fun s => if part then s.push .template else s)
    else if c == '}' && s.contexts.head? == some .template then
      let (n, part) := templateText rest
      token .literal n part (fun s => if part then s else s.pop)
    else if isNameStart c then
      let n := runLength isNamePart rest
      let word : Token := ⟨.word, g :: rest.take n⟩
      token .word n (!s.behindDot && operandWords.any word.spells) id
    else if c.isDigit || (c == '.' && headIs Char.isDigit rest) then
      token .number (runLength (fun c => isNamePart c || c == '.') rest) false id
    else if c == '#' && headIs isNameStart rest then
      token .literal (runLength isNamePart rest) false id
    else if c == '/' && s.operand then
      match patternEnd? false rest with
      | some n => token .literal (n + runLength isNamePart (rest.drop n)) false id
      | none => token .punct 0 true id
    else if c == '<' && s.operand && d.markup && startsElement d rest then openTag s g rest
    else if c == '(' then
      token .punct 0 true (·.push (.paren (s.previousIs ["if", "while", "for", "with"] [])))
    else if c == '[' then token .punct 0 true (·.push .square)
    else if c == '{' then
      token .punct 0 true (·.push (if s.opensBlock then .block else .object))
    else if c == ')' || c == ']' || c == '}' then
      let t : Token := ⟨.punct, [g]⟩
      ⟨t, 0, closing s t⟩
    else if c == '?' && startsWith ['.'] rest && !headIs Char.isDigit (rest.drop 1) then
      token .punct 1 true id
    else if c == '=' && startsWith ['>'] rest then token .punct 1 true id
    else if c == '.' && startsWith ['.', '.'] rest then token .punct 2 true id
    else if (c == '+' || c == '-') && startsWith [c] rest then token .punct 1 s.operand id
    else if c == '!' && !s.operand && !startsWith ['='] rest then token .punct 0 false id
    else token .punct 0 true id

def front (d : Dialect) (s : State) (g : Glyph) (rest : List Glyph) : Cut Token State :=
  match s.contexts.head? with
  | some .children => inChildren s g rest
  | some .tag => inTag s g rest
  | _ => inCode d s g rest

def tokens (d : Dialect) (gs : List Glyph) : List Token := cutAll (front d) 0 .initial gs

end Script

end PackageCoupling.Source
