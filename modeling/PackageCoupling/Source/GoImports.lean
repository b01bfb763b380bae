import PackageCoupling.Source.Capture

/-!
The package clause and the imports of a Go source.
-/

namespace PackageCoupling.Source.GoImports

def front (_ : Unit) (g : Glyph) (rest : List Glyph) : Cut Token Unit :=
  match g with
  | .stray _ => piece .punct 0 g rest ()
  | .char c =>
    if isAsciiSpace c then piece .blank (runLength isAsciiSpace rest) g rest ()
    else if c == '/' && startsWith ['/'] rest then piece .comment (lineLength rest) g rest ()
    else if c == '/' && startsWith ['*'] rest then
      piece .comment (upToOrAll ['*', '/'] (rest.drop 1) + 1) g rest ()
    else if isWordStart c then piece .word (runLength isWordPart rest) g rest ()
    else if c.isDigit then piece .number (runLength isWordPart rest) g rest ()
    else if c == '"' then
      match quoteEnd? '"' ['\n'] rest with
      | some n => piece .string n g rest ()
      | none => piece .punct 0 g rest ()
    else if c == '\x60' then
      match upTo? ['\x60'] rest with
      | some n => piece .string n g rest ()
      | none => piece .punct 0 g rest ()
    else if c == '\'' then
      match quoteEnd? '\'' ['\n'] rest with
      | some n => piece .literal n g rest ()
      | none => piece .punct 0 g rest ()
    else piece .punct 0 g rest ()

def tokens (gs : List Glyph) : List Token := cutAll front 0 () gs

/-- What the search expects next. Declarations stand outside of all brackets. -/
inductive Mode where
  | top
  | packageName
  /-- An import without parentheses; the flag says that its alias has been seen. -/
  | single (aliased : Bool)
  /-- A parenthesised list of imports. -/
  | group (aliased : Bool)
  | brackets (depth : Nat)
  deriving DecidableEq, Repr

def isAlias (t : Token) : Bool := t.kind == .word || t.isPunct "."

def isOpening (t : Token) : Bool := t.isPunct "(" || t.isPunct "[" || t.isPunct "\x7b"

def isClosing (t : Token) : Bool := t.isPunct ")" || t.isPunct "]" || t.isPunct "\x7d"

def atTop (t : Token) : Mode :=
  if t.isWord "package" then .packageName
  else if t.isWord "import" then .single false
  else if isOpening t then .brackets 1
  else .top

def step (m : Mode) (t : Token) : List Capture × Mode :=
  match m with
  | .top => ([], atTop t)
  | .packageName => if t.kind == .word then (capture .package [t], .top) else ([], atTop t)
  | .single aliased =>
    if t.kind == .string then (capture .importName [t], .top)
    else if t.isPunct "(" && !aliased then ([], .group false)
    else if isAlias t && !aliased then ([], .single true)
    else ([], atTop t)
  | .group aliased =>
    if t.kind == .string then (capture .importName [t], .group false)
    else if t.isPunct ")" then ([], .top)
    else if isAlias t && !aliased then ([], .group true)
    else ([], .group false)
  | .brackets depth =>
    if isOpening t then ([], .brackets (depth + 1))
    else if isClosing t then ([], if depth ≤ 1 then .top else .brackets (depth - 1))
    else ([], .brackets depth)

def walk : Mode → List Token → List Capture
  | _, [] => []
  | m, t :: ts => (step m t).1 ++ walk (step m t).2 ts

def captures (gs : List Glyph) : List Capture :=
  walk .top ((tokens gs).filter (!·.isTrivia))

end PackageCoupling.Source.GoImports
