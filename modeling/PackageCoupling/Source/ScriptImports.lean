import PackageCoupling.Source.Capture
import PackageCoupling.Source.ScriptTokens

/-!
The imports of JavaScript and its relatives: import and export statements with a source, and calls
of `require` and `import` with a string.
-/

namespace PackageCoupling.Source.ScriptImports

/-- The tokens without comments. -/
def significant (ts : List Token) : List Token := ts.filter (·.kind != .comment)

/-- The source of a clause: the string behind `from`, outside of braces. Between there may only be
names, commas and stars. -/
def clauseSource? : Nat → List Token → Option Token
  | depth, t :: ts =>
    if t.isPunct "\x7b" then clauseSource? (depth + 1) ts
    else if t.isPunct "\x7d" then clauseSource? (depth - 1) ts
    else if t.isWord "from" && depth == 0 then
      match ts with
      | u :: _ => if u.kind == .string then some u else clauseSource? depth ts
      | [] => none
    else if t.kind == .word || t.isPunct "," || t.isPunct "*" || t.kind == .string then
      clauseSource? depth ts
    else none
  | _, [] => none

/-- The source of an import statement, from behind `import` on. -/
def importSource? (ts : List Token) : Option Token :=
  match significant ts with
  | t :: rest => if t.kind == .string then some t else clauseSource? 0 (t :: rest)
  | [] => none

/-- The source of an export statement, from behind `export` on. -/
def exportSource? (ts : List Token) : Option Token :=
  let ts := significant ts
  let clause := if (ts.head?.map (·.isWord "type")).getD false then ts.drop 1 else ts
  match clause with
  | t :: rest =>
    if t.isPunct "*" || t.isPunct "\x7b" then clauseSource? 0 (t :: rest) else none
  | [] => none

/-- How many tokens an import by assignment takes behind `import`: up to its closing parenthesis. -/
def assignment? : List Token → Option Nat
  | t :: ts =>
    if t.isPunct "=" then
      match significant ts with
      | r :: _ =>
        if r.isWord "require" then
          some ((ts.takeWhile (!·.isPunct ")")).length + 1)
        else none
      | [] => none
    else if t.kind == .word || t.kind == .comment then (assignment? ts).map (· + 1)
    else none
  | [] => none

/-- Behind type arguments. The number counts the angle brackets that are open. -/
def behindTypes : Nat → List Token → List Token
  | 0, ts => ts
  | _, [] => []
  | depth + 1, t :: ts =>
    behindTypes (if t.isPunct "<" then depth + 2 else if t.isPunct ">" then depth else depth + 1) ts

def dropComments (ts : List Token) : List Token := ts.dropWhile (·.kind == .comment)

/-- The first argument of a call, from behind the opening parenthesis on, if it is a string and
nothing else. -/
def stringArgument? : List Token → Option Token
  | t :: ts =>
    match dropComments ts with
    | u :: _ =>
      if t.kind == .string && (u.isPunct "," || u.isPunct ")") then some t else none
    | [] => none
  | [] => none

/-- The first argument of a call, from behind what is called on. -/
def callArgument? (d : Dialect) (ts : List Token) : Option Token :=
  match dropComments ts with
  | t :: rest =>
    if t.isPunct "(" then stringArgument? rest
    else
      let rest :=
        if t.isPunct "?." then dropComments rest
        else if t.isPunct "<" && d.types then dropComments (behindTypes 1 rest)
        else []
      match rest with
      | u :: rest => if u.isPunct "(" then stringArgument? rest else none
      | [] => none
  | [] => none

/-- Whether the token in front makes a word part of something larger. -/
def isMember (previous : Option Token) : Bool :=
  match previous with
  | some t => t.isPunct "." || t.isPunct "?."
  | none => false

def isConstructed (previous : Option Token) : Bool :=
  match previous with
  | some t => t.isWord "new"
  | none => false

/-- What a word brings in, and how many tokens behind it are done with. -/
def atWord (d : Dialect) (previous : Option Token) (t : Token) (rest : List Token) :
    Option Token × Nat :=
  if isMember previous then (none, 0)
  else if t.isWord "import" then
    match callArgument? d rest with
    | some u => (some u, 0)
    | none =>
      match assignment? rest with
      | some n => (none, n)
      | none => (importSource? rest, 0)
  else if t.isWord "export" then (exportSource? rest, 0)
  else if t.isWord "require" && !isConstructed previous then (callArgument? d rest, 0)
  else (none, 0)

/-- The number counts tokens that are done with. -/
def walk (d : Dialect) : Nat → Option Token → List Token → List Capture
  | _, _, [] => []
  | skip + 1, _, t :: ts => walk d skip (some t) ts
  | 0, previous, t :: ts =>
    if t.kind == .comment then walk d 0 previous ts
    else
      let (found, skip) := atWord d previous t ts
      (found.toList.flatMap fun u => capture .importName [u]) ++ walk d skip (some t) ts

def captures (d : Dialect) (gs : List Glyph) : List Capture :=
  walk d 0 none ((Script.tokens d gs).filter (·.kind != .blank))

end PackageCoupling.Source.ScriptImports
