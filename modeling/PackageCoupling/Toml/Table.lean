import PackageCoupling.Toml.Basic

/-!
Adding entries to TOML tables.
-/

namespace PackageCoupling.Toml

abbrev Entries := List (String × Toml)

def setEntry (key : String) (v : Toml) : Entries → Entries
  | [] => [(key, v)]
  | (k, w) :: rest => if k == key then (key, v) :: rest else (k, w) :: setEntry key v rest

/-- Changes the table that a path of keys leads to, and gives back what the change gives. Missing
tables are made on the way, of the form that the kind of path gives. A dotted key does not lead into
a table with a header of its own, and nothing leads into a value. -/
def descend (byDots : Bool) (change : TableForm → Entries → Option (Entries × β)) :
    List String → TableForm → Entries → Option (Entries × β)
  | [], form, es => change form es
  | key :: rest, _, es =>
    match es.lookup key with
    | none =>
      let form : TableForm := if byDots then .dotted else .implied
      (descend byDots change rest form []).map fun (inner, b) =>
        (es ++ [(key, .table form inner)], b)
    | some (.table form inner) =>
      if form == .inline || (byDots && form == .header) then none
      else
        (descend byDots change rest form inner).map fun (inner, b) =>
          (setEntry key (.table form inner) es, b)
    | some (.tables items) =>
      match items.getLast? with
      | some last =>
        (descend byDots change rest .header last).map fun (inner, b) =>
          (setEntry key (.tables (items.dropLast ++ [inner])) es, b)
      | none => none
    | some _ => none

/-- Adds a new entry. -/
def addNew (key : String) (v : Toml) (es : Entries) : Option Entries :=
  if (es.lookup key).isSome then none else some (es ++ [(key, v)])

/-- Sets a dotted key. Only a table that dotted keys made takes an entry by a dotted key. -/
def assign (path : List String) (v : Toml) (form : TableForm) (es : Entries) : Option Entries := do
  let key ← path.getLast?
  let (es, _) ← descend true (fun form es =>
    if (form == .dotted) == path.dropLast.isEmpty then none
    else (addNew key v es).map (·, ())) path.dropLast form es
  some es

/-! ## Documents -/

/-- A line of a document. -/
inductive Statement where
  | assign (path : List String) (v : Toml)
  | header (path : List String)
  /-- A header in double brackets. -/
  | element (path : List String)
  deriving Repr

/-- A document that is being read: what is complete, and the table that is being filled, with the
path of its header. -/
structure Draft where
  root : Entries
  current : Entries
  path : List String
  isElement : Bool

namespace Draft

def start : Draft := ⟨[], [], [], false⟩

/-- Puts the table that was being filled in its place. -/
def settle (d : Draft) : Option Entries :=
  match d.path.getLast? with
  | none => some d.current
  | some key => do
    let (root, _) ← descend false (fun _ es =>
      (if d.isElement then
        match es.lookup key with
        | none => some (es ++ [(key, .tables [d.current])])
        | some (.tables items) => some (setEntry key (.tables (items ++ [d.current])) es)
        | some _ => none
      else addNew key (.table .header d.current) es).map (·, ())) d.path.dropLast .header d.root
    some root

/-- Takes a table out so that it can be filled. If there is one already, other headers have to have
implied it. -/
def takeOut (key : String) (es : Entries) : Option (Entries × Entries) :=
  match es.lookup key with
  | none => some (es, [])
  | some (.table .implied inner) => some (es.filter (·.1 != key), inner)
  | some _ => none

/-- Whether tables may be added under a key. -/
def takesElements (key : String) (es : Entries) : Bool :=
  match es.lookup key with
  | none => true
  | some (.tables _) => true
  | some _ => false

def step (d : Draft) : Statement → Option Draft
  | .assign path v => (Toml.assign path v .header d.current).map fun es => { d with current := es }
  | .header path => do
    let key ← path.getLast?
    let (root, inner) ←
      descend false (fun _ es => takeOut key es) path.dropLast .header (← d.settle)
    some ⟨root, inner, path, false⟩
  | .element path => do
    let key ← path.getLast?
    let (root, _) ← descend false (fun _ es =>
      if takesElements key es then some (es, ()) else none) path.dropLast .header (← d.settle)
    some ⟨root, [], path, true⟩

end Draft

/-- The table that the lines of a document make, if none contradicts another. -/
def ofStatements? (statements : List Statement) : Option Toml := do
  let d ← statements.foldlM Draft.step Draft.start
  (d.settle).map (.table .header)

end PackageCoupling.Toml
