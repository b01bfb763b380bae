import PackageCoupling.Source.Capture

/-!
The import statements of a Python source.

Statements are found by their places: at the start of a logical line, behind a semicolon, or behind
the colon of a compound statement. A statement whose names are malformed gives nothing, not even the
names that are well formed.
-/

namespace PackageCoupling.Source.PythonImports

/-! ## Strings -/

/-- The quotes that end a string. -/
structure Quotes where
  mark : Char
  triple : Bool
  deriving DecidableEq, Repr

def Quotes.close (q : Quotes) : List Char := List.replicate (if q.triple then 3 else 1) q.mark

/-- The place in a string whose parts in braces hold code. -/
inductive Place where
  | text (quotes : Quotes) (formatted : Bool)
  /-- Inside braces, with that many brackets open. -/
  | code (depth : Nat)
  /-- Behind the colon that starts a format, inside braces. -/
  | format
  deriving DecidableEq, Repr

/-- The quotes at the front. -/
def quotesAt? (gs : List Glyph) : Option Quotes :=
  match gs with
  | .char c :: rest =>
    if c == '"' || c == '\'' then some ⟨c, startsWith [c, c] rest⟩ else none
  | _ => none

/-- How many glyphs a string takes behind its opening quotes. The first number counts glyphs that
belong to a mark already seen; the places are those around the current one, the innermost first. -/
def stringEnd? : Nat → List Place → List Glyph → Option Nat
  | 0, [], _ => some 0
  | _, _, [] => none
  | skip + 1, places, _ :: rest => (stringEnd? skip places rest).map (· + 1)
  | 0, .text quotes formatted :: outer, g :: rest =>
    if startsWith quotes.close (g :: rest) then
      if outer.isEmpty then some quotes.close.length
      else (stringEnd? (quotes.close.length - 1) outer rest).map (· + 1)
    else if g == .char '\n' && !quotes.triple then none
    else
      (match g with
       | .char '\\' => stringEnd? 1 (.text quotes formatted :: outer) rest
       | .char '{' =>
         if !formatted then stringEnd? 0 (.text quotes formatted :: outer) rest
         else if startsWith ['{'] rest then stringEnd? 1 (.text quotes formatted :: outer) rest
         else stringEnd? 0 (.code 0 :: .text quotes formatted :: outer) rest
       | _ => stringEnd? 0 (.text quotes formatted :: outer) rest).map (· + 1)
  | 0, .code depth :: outer, g :: rest =>
    match quotesAt? (g :: rest) with
    | some quotes =>
      (stringEnd? (quotes.close.length - 1) (.text quotes false :: .code depth :: outer) rest).map
        (· + 1)
    | none =>
      (match g with
       | .char '}' =>
         if depth == 0 then stringEnd? 0 outer rest
         else stringEnd? 0 (.code (depth - 1) :: outer) rest
       | .char ':' =>
         stringEnd? 0 (if depth == 0 then .format :: outer else .code depth :: outer) rest
       | .char c =>
         if c == '(' || c == '[' || c == '{' then stringEnd? 0 (.code (depth + 1) :: outer) rest
         else if c == ')' || c == ']' then stringEnd? 0 (.code (depth - 1) :: outer) rest
         else stringEnd? 0 (.code depth :: outer) rest
       | .stray _ => stringEnd? 0 (.code depth :: outer) rest).map (· + 1)
  | 0, .format :: outer, g :: rest =>
    (match g with
     | .char '}' => stringEnd? 0 outer rest
     | .char '{' => stringEnd? 0 (.code 0 :: .format :: outer) rest
     | _ => stringEnd? 0 (.format :: outer) rest).map (· + 1)

/-- The length of a string that starts with its quotes. -/
def quoted? (formatted : Bool) (gs : List Glyph) : Option Nat :=
  (quotesAt? gs).bind fun q =>
    let n := q.close.length
    (stringEnd? 0 [.text q formatted] (gs.drop n)).map (· + n)

def isStringLetter (c : Char) : Bool :=
  ['r', 'R', 'b', 'B', 'u', 'U', 'f', 'F', 't', 'T'].contains c

def isFormatLetter (c : Char) : Bool := ['f', 'F', 't', 'T'].contains c

/-- The length of a string, from the letters in front of its quotes on. -/
def lettered? (gs : List Glyph) : Option Nat :=
  let n := runLength isStringLetter gs
  let formatted := (gs.take n).any fun
    | .char c => isFormatLetter c
    | .stray _ => false
  (quoted? formatted (gs.drop n)).map (· + n)

/-! ## Tokens -/

def isSpace (c : Char) : Bool :=
  c == ' ' || c == '\t' || c == '\r' || c.toNat == 11 || c.toNat == 12 || c.toNat == 0xFEFF ||
    c.toNat == 0x200B || c.toNat == 0x2060

def front (_ : Unit) (g : Glyph) (rest : List Glyph) : Cut Token Unit :=
  match g with
  | .stray _ => piece .punct 0 g rest ()
  | .char c =>
    if c == '\n' then piece .newline 0 g rest ()
    else if isSpace c then piece .blank (runLength isSpace rest) g rest ()
    else if c == '\\' && startsWith ['\n'] rest then piece .blank 1 g rest ()
    else if c == '\\' && startsWith ['\r', '\n'] rest then piece .blank 2 g rest ()
    else if c == '#' then piece .comment (lineLength rest) g rest ()
    else
      match lettered? (g :: rest) with
      | some n => piece .string (n - 1) g rest ()
      | none =>
        if isWordStart c then piece .word (runLength isWordPart rest) g rest ()
        else if c.isDigit then piece .number (runLength isWordPart rest) g rest ()
        else piece .punct 0 g rest ()

def tokens (gs : List Glyph) : List Token := cutAll front 0 () gs

/-! ## Statements -/

/-- Splits a list at the elements that satisfy `p`, which are dropped. -/
def splitWhere (p : α → Bool) : List α → List (List α)
  | [] => [[]]
  | a :: rest =>
    if p a then [] :: splitWhere p rest
    else
      match splitWhere p rest with
      | [] => [[a]]
      | s :: more => (a :: s) :: more

def isOpening (t : Token) : Bool := t.isPunct "(" || t.isPunct "[" || t.isPunct "\x7b"

def isClosing (t : Token) : Bool := t.isPunct ")" || t.isPunct "]" || t.isPunct "\x7d"

/-- Whether a token outside of brackets ends a statement or its head. -/
def endsStatement (t : Token) : Bool := t.kind == .newline || t.isPunct ";" || t.isPunct ":"

/-- Marks the tokens that end a statement: those outside of all brackets. -/
def marked : Nat → List Token → List (Token × Bool)
  | _, [] => []
  | depth, t :: ts =>
    (t, depth == 0 && endsStatement t) ::
      marked (if isOpening t then depth + 1 else if isClosing t then depth - 1 else depth) ts

/-- The statements and heads of statements, each with its white space. -/
def statements (ts : List Token) : List (List Token) :=
  (splitWhere (·.2) (marked 0 ts)).map (·.map (·.1))

def isFiller (t : Token) : Bool := t.isTrivia || t.kind == .newline

def trimmed (ts : List Token) : List Token :=
  ((ts.dropWhile isFiller).reverse.dropWhile isFiller).reverse

/-- Whether the tokens are names with dots between them. -/
def isDotted : List Token → Bool
  | [t] => t.kind == .word
  | t :: dot :: rest => t.kind == .word && dot.isPunct "." && isDotted rest
  | [] => false

def solid (ts : List Token) : List Token := ts.filter (!isFiller ·)

/-- An item of a list of names: a dotted name, maybe with an alias. Gives the tokens of the name. -/
def item? (ts : List Token) : Option (List Token) :=
  let name := ts.takeWhile (!·.isWord "as")
  let tail := solid (ts.dropWhile (!·.isWord "as"))
  let tailOk :=
    match tail with
    | [] => true
    | [_, t] => t.kind == .word
    | _ => false
  if isDotted (solid name) && tailOk then some (trimmed name) else none

/-- The names of a list with commas, all of them or none. -/
def itemList? (ts : List Token) : Option (List (List Token)) :=
  (splitWhere (·.isPunct ",") ts).mapM item?

/-- Whether what follows `import` in a `from` statement is a list of names, with or without
parentheses, or a star. -/
def isImportedList (ts : List Token) : Bool :=
  match solid ts with
  | [t] => t.isPunct "*" || t.kind == .word
  | t :: rest =>
    if t.isPunct "(" then
      let inner := rest.takeWhile (!·.isPunct ")")
      let after := rest.dropWhile (!·.isPunct ")")
      let names := if (inner.getLast?.map (·.isPunct ",")).getD false then inner.dropLast else inner
      after.length == 1 && (itemList? names).isSome
    else (itemList? (t :: rest)).isSome
  | [] => false

/-- Whether the tokens name a module: dots, a dotted name, or dots in front of one. -/
def isModule (ts : List Token) : Bool :=
  let name := (solid ts).dropWhile (·.isPunct ".")
  !(solid ts).isEmpty && (name.isEmpty || isDotted name)

def isFuture (ts : List Token) : Bool :=
  match solid ts with
  | [t] => t.spells "__future__"
  | _ => false

/-- The captures of one statement. -/
def ofStatement (ts : List Token) : List Capture :=
  match ts.dropWhile isFiller with
  | t :: rest =>
    if t.isWord "import" then
      ((itemList? rest).getD []).flatMap (capture .importName)
    else if t.isWord "from" then
      let source := rest.takeWhile (!·.isWord "import")
      let names := (rest.dropWhile (!·.isWord "import")).drop 1
      if isModule source && !isFuture source && isImportedList names then
        capture .importName (trimmed source)
      else []
    else []
  | [] => []

def captures (gs : List Glyph) : List Capture := (statements (tokens gs)).flatMap ofStatement

end PackageCoupling.Source.PythonImports
