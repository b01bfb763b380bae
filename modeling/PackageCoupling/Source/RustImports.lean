import PackageCoupling.Source.Capture

/-!
The `use` and `extern crate` declarations of a Rust source.

Declarations may stand at any depth. The contents of attributes and of macro calls are no
declarations. A `use` declaration is given up at the first token that no path can hold.
-/

namespace PackageCoupling.Source.RustImports

/-- How many glyphs there are up to the end of a block comment. Block comments nest. -/
def commentEnd : Nat → List Glyph → Nat
  | 0, _ => 0
  | _, [] => 0
  | depth + 1, .char '*' :: .char '/' :: rest => commentEnd depth rest + 2
  | depth + 1, .char '/' :: .char '*' :: rest => commentEnd (depth + 2) rest + 2
  | depth + 1, _ :: rest => commentEnd (depth + 1) rest + 1

/-- The length of a raw string from its first `#` or quote on. -/
def rawString? (gs : List Glyph) : Option Nat :=
  let hashes := runLength (· == '#') gs
  match gs.drop hashes with
  | .char '"' :: rest =>
    (upTo? ('"' :: List.replicate hashes '#') rest).map (· + hashes + 1)
  | _ => none

/-- The length of a string behind the letters in front of it. -/
def lettered? (letters : List Char) (gs : List Glyph) : Option (TokenKind × Nat) :=
  if letters == ['r'] || letters == ['b', 'r'] || letters == ['c', 'r'] then
    (rawString? gs).map (.string, ·)
  else if letters == ['b'] || letters == ['c'] then
    match gs with
    | .char '"' :: rest => (quoteEnd? '"' [] rest).map fun n => (.string, n + 1)
    | .char '\'' :: rest =>
      if letters == ['b'] then (quoteEnd? '\'' ['\n'] rest).map fun n => (.literal, n + 1)
      else none
    | _ => none
  else none

/-- The characters of the leading letters. -/
def letters : List Glyph → List Char
  | .char c :: gs => if isWordPart c then c :: letters gs else []
  | _ => []

/-- A quote starts a character if a backslash follows or the next but one is a quote, otherwise a
lifetime. -/
def afterQuote (rest : List Glyph) : TokenKind × Nat :=
  match rest with
  | .char '\\' :: _ => (.literal, (quoteEnd? '\'' ['\n'] rest).getD 0)
  | _ :: .char '\'' :: _ => (.literal, 2)
  | _ => (.literal, runLength isWordPart rest)

def front (first : Bool) (g : Glyph) (rest : List Glyph) : Cut Token Bool :=
  match g with
  | .stray _ => piece .punct 0 g rest false
  | .char c =>
    if first && c == '#' && startsWith ['!'] rest && !startsWith ['!', '['] rest then
      piece .comment (lineLength rest) g rest false
    else if isAsciiSpace c then piece .blank (runLength isAsciiSpace rest) g rest false
    else if c == '/' && startsWith ['/'] rest then piece .comment (lineLength rest) g rest false
    else if c == '/' && startsWith ['*'] rest then
      piece .comment (commentEnd 1 (rest.drop 1) + 1) g rest false
    else if isWordStart c then
      let n := runLength isWordPart rest
      match lettered? (c :: letters rest) (rest.drop n) with
      | some (kind, m) => piece kind (n + m) g rest false
      | none =>
        if c == 'r' && n == 0 && startsWith ['#'] rest && headIs isWordStart (rest.drop 1) then
          piece .word (runLength isWordPart (rest.drop 1) + 1) g rest false
        else piece .word n g rest false
    else if c.isDigit then piece .number (runLength isWordPart rest) g rest false
    else if c == '"' then
      match quoteEnd? '"' [] rest with
      | some n => piece .string n g rest false
      | none => piece .punct 0 g rest false
    else if c == '\'' then
      let (kind, n) := afterQuote rest
      piece kind n g rest false
    else piece .punct 0 g rest false

def tokens (gs : List Glyph) : List Token := cutAll front 0 true gs

def isOpening (t : Token) : Bool := t.isPunct "(" || t.isPunct "[" || t.isPunct "\x7b"

def isClosing (t : Token) : Bool := t.isPunct ")" || t.isPunct "]" || t.isPunct "\x7d"

/-- Words that do not name a macro. -/
def keywords : List String :=
  ["as", "break", "const", "continue", "crate", "else", "enum", "extern", "fn", "for", "if", "impl",
   "in", "let", "loop", "match", "mod", "move", "mut", "pub", "ref", "return", "static", "struct",
   "trait", "type", "unsafe", "use", "where", "while", "async", "await", "dyn"]

def isMacroName (t : Token) : Bool := t.kind == .word && !keywords.any t.spells

/-- How the search goes on. -/
inductive Mode where
  | code
  /-- Behind a word that may name a macro. -/
  | name
  /-- Behind a macro's exclamation mark; the flag says that a name has followed it. -/
  | bang (named : Bool)
  /-- Behind the `#` of an attribute. -/
  | hash
  /-- Inside the brackets of an attribute or a macro call. -/
  | skipping (depth : Nat)
  /-- Behind `use`, with the tokens so far, the latest first. -/
  | using (tokens : List Token)
  | external
  | crateName
  deriving Repr

/-- The mode behind a token outside of declarations. -/
def inCode (t : Token) : Mode :=
  if t.isWord "use" then .using []
  else if t.isWord "extern" then .external
  else if t.isPunct "#" then .hash
  else if isMacroName t then .name
  else .code

/-- The marks that can stand between the names of a declaration. -/
def pathMarks : List String := [":", ",", "*", "<", ">", "$", "\x7b", "\x7d"]

def inPath (t : Token) : Bool := t.isTrivia || t.kind == .word || pathMarks.any t.isPunct

/-- The tokens between the first and the last that are no trivia. -/
def core (ts : List Token) : List Token :=
  ((ts.dropWhile Token.isTrivia).reverse.dropWhile Token.isTrivia).reverse

def step (m : Mode) (t : Token) : List Capture × Mode :=
  match m with
  | .using ts =>
    if t.isPunct ";" then (capture .importName (core ts.reverse), .code)
    else if inPath t && !(t.isPunct "<" && ts.all Token.isTrivia) then ([], .using (t :: ts))
    else ([], inCode t)
  | m =>
    if t.isTrivia then ([], m)
    else
      match m with
      | .name => if t.isPunct "!" then ([], .bang false) else ([], inCode t)
      | .bang named =>
        if isOpening t then ([], .skipping 1)
        else if t.kind == .word && !named then ([], .bang true)
        else ([], inCode t)
      | .hash =>
        if t.isPunct "[" then ([], .skipping 1)
        else if t.isPunct "!" then ([], .hash)
        else ([], inCode t)
      | .skipping depth =>
        if isOpening t then ([], .skipping (depth + 1))
        else if isClosing t then ([], if depth ≤ 1 then .code else .skipping (depth - 1))
        else ([], .skipping depth)
      | .external => if t.isWord "crate" then ([], .crateName) else ([], inCode t)
      | .crateName =>
        if t.kind == .word && !t.spells "self" then (capture .importName [t], .code)
        else ([], inCode t)
      | _ => ([], inCode t)

def walk : Mode → List Token → List Capture
  | _, [] => []
  | m, t :: ts => (step m t).1 ++ walk (step m t).2 ts

def captures (gs : List Glyph) : List Capture := walk .code (tokens gs)

end PackageCoupling.Source.RustImports
