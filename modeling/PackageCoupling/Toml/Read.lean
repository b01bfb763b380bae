import PackageCoupling.Cut
import PackageCoupling.Toml.Quoted
import PackageCoupling.Toml.Scalar
import PackageCoupling.Toml.Table

/-!
Reading TOML documents.
-/

namespace PackageCoupling.Toml

/-- How many arrays and inline tables may be open at once, and how many keys a dotted key may have.
-/
def maxDepth : Nat := 79

def skipSpaces (cs : List Char) : List Char := cs.dropWhile isSpace

/-! ## Keys -/

def isBareKeyChar (c : Char) : Bool := c.isAlphanum || c == '_' || c == '-'

/-- A key without dots. -/
def simpleKey? (cs : List Char) : Option (String × List Char) :=
  match cs with
  | '"' :: rest => (basic? 0 rest).map fun (k, tail) => (String.ofList k, tail)
  | '\'' :: rest => (literal? rest).map fun (k, tail) => (String.ofList k, tail)
  | cs =>
    let key := cs.takeWhile isBareKeyChar
    if key.isEmpty then none else some (String.ofList key, cs.dropWhile isBareKeyChar)

/-- The keys of a dotted key, at most `limit` of them, with white space around each. -/
def dottedKey? : Nat → List Char → Option (List String × List Char)
  | 0, _ => none
  | limit + 1, cs => do
    let (key, rest) ← simpleKey? (skipSpaces cs)
    match skipSpaces rest with
    | '.' :: rest =>
      let (keys, tail) ← dottedKey? limit rest
      some (key :: keys, tail)
    | tail => some ([key], tail)

/-! ## White space and comments -/

/-- What follows a comment that may start here, up to the end of its line. -/
def afterComment? (cs : List Char) : Option (List Char) :=
  match cs with
  | '#' :: rest => some (rest.dropWhile isPlain)
  | cs => some cs

/-- What follows white space, line ends and comments. The flag says that a comment is open. -/
def skipFiller : Bool → List Char → List Char
  | _, [] => []
  | inComment, c :: rest =>
    if inComment && isPlain c then skipFiller true rest
    else if c == '\n' then skipFiller false rest
    else if c == '\r' && rest.head? == some '\n' then skipFiller inComment rest
    else if isSpace c then skipFiller false rest
    else if c == '#' then skipFiller true rest
    else c :: rest

/-- What follows the end of a line, before which a comment may stand. -/
def lineEnd? (cs : List Char) : Option (List Char) := do
  match ← afterComment? (skipSpaces cs) with
  | [] => some []
  | '\n' :: rest => some rest
  | '\r' :: '\n' :: rest => some rest
  | _ => none

/-! ## Values -/

/-- The items of an array behind its bracket, at most as many as the number says. -/
def items? (item? : List Char → Option (Toml × List Char)) :
    Nat → List Char → Option (List Toml × List Char)
  | 0, _ => none
  | limit + 1, cs =>
    match skipFiller false cs with
    | ']' :: rest => some ([], rest)
    | cs => do
      let (v, rest) ← item? cs
      match skipFiller false rest with
      | ',' :: rest =>
        let (vs, tail) ← items? item? limit rest
        some (v :: vs, tail)
      | ']' :: rest => some ([v], rest)
      | _ => none

/-- The entries of an inline table behind its brace, at most as many as the number says. -/
def pairs? (item? : List Char → Option (Toml × List Char)) :
    Nat → List Char → Option (List (List String × Toml) × List Char)
  | 0, _ => none
  | limit + 1, cs => do
    let (path, rest) ← dottedKey? maxDepth cs
    match rest with
    | '=' :: rest =>
      let (v, rest) ← item? (skipSpaces rest)
      match skipSpaces rest with
      | ',' :: rest =>
        let (more, tail) ← pairs? item? limit rest
        some ((path, v) :: more, tail)
      | '}' :: rest => some ([(path, v)], rest)
      | _ => none
    | _ => none

/-- The table that the entries in braces make. -/
def inlineTable? (pairs : List (List String × Toml)) : Option Toml :=
  (pairs.foldlM (fun es (path, v) => assign path v .inline es) []).map (.table .inline)

def stringOrScalar? (cs : List Char) : Option (Toml × List Char) :=
  if cs.head? == some '"' || cs.head? == some '\'' then
    (string? cs).map fun (s, rest) => (.str (String.ofList s), rest)
  else
    let (first, rest) := splitScalar cs
    (scalar? first).map (·, rest)

/-- The value at the front. The number says how many containers it may open inside each other. -/
def value? : Nat → List Char → Option (Toml × List Char)
  | 0, cs => stringOrScalar? cs
  | depth + 1, cs =>
    match cs with
    | '[' :: rest =>
      (items? (value? depth) (rest.length + 1) rest).map fun (vs, tail) => (.arr vs, tail)
    | '{' :: rest =>
      match skipSpaces rest with
      | '}' :: tail => some (.table .inline [], tail)
      | rest => do
        let (pairs, tail) ← pairs? (value? depth) rest.length rest
        let t ← inlineTable? pairs
        some (t, tail)
    | cs => stringOrScalar? cs

/-! ## Lines -/

/-- The statement at the front, if there is one before the end of the line, and what follows that
line. -/
def statement? (cs : List Char) : Option (Option Statement × List Char) :=
  match skipSpaces cs with
  | '[' :: '[' :: rest => do
    let (path, rest) ← dottedKey? maxDepth rest
    match rest with
    | ']' :: ']' :: rest => some (some (.element path), ← lineEnd? rest)
    | _ => none
  | '[' :: rest => do
    let (path, rest) ← dottedKey? maxDepth rest
    match rest with
    | ']' :: rest => some (some (.header path), ← lineEnd? rest)
    | _ => none
  | cs =>
    match lineEnd? cs with
    | some rest => some (none, rest)
    | none => do
      let (path, rest) ← dottedKey? maxDepth cs
      match rest with
      | '=' :: rest =>
        let (v, rest) ← value? maxDepth (skipSpaces rest)
        some (some (.assign path v), ← lineEnd? rest)
      | _ => none

/-- The line at the front; a malformed one takes all that follows with it. -/
def frontLine (_ : Unit) (c : Char) (rest : List Char) : Cut (Option (Option Statement)) Unit :=
  match statement? (c :: rest) with
  | some (s, tail) => ⟨some s, rest.length - tail.length, ()⟩
  | none => ⟨none, rest.length, ()⟩

/-- The statements of a document, if every line is well-formed. -/
def statements? (cs : List Char) : Option (List Statement) :=
  ((cutAll frontLine 0 () cs).mapM id).map (·.filterMap id)

/-- The table that a document holds, if it is well-formed. A byte order mark may stand in front. -/
def read? (text : String) : Option Toml :=
  let cs :=
    match text.toList with
    | c :: rest => if c.toNat == 0xFEFF then rest else c :: rest
    | [] => []
  (statements? cs).bind ofStatements?

end PackageCoupling.Toml
