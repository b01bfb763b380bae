/-!
TOML values.

A table remembers how it came to be, because that decides whether later parts of the document may
add to it.
-/

namespace PackageCoupling

/-- How a table was introduced. -/
inductive TableForm where
  /-- By its own header. -/
  | header
  /-- By the header of a table inside it. -/
  | implied
  /-- By a dotted key. -/
  | dotted
  /-- In braces. -/
  | inline
  deriving DecidableEq, Repr

inductive Toml where
  | str (s : String)
  | int (n : Int)
  | float (x : Float)
  | bool (b : Bool)
  | moment (literal : String)
  | arr (items : List Toml)
  | table (form : TableForm) (entries : List (String × Toml))
  /-- Tables that share a header in double brackets, in order. -/
  | tables (items : List (List (String × Toml)))
  deriving Repr

namespace Toml

instance : Inhabited Toml := ⟨.bool false⟩

def str? : Toml → Option String
  | .str s => some s
  | _ => none

/-- The value reached by keys, one table after the other. -/
def get? : List String → Toml → Option Toml
  | [], v => some v
  | key :: rest, .table _ entries => (entries.lookup key).bind (get? rest)
  | _ :: _, _ => none

end Toml

end PackageCoupling
