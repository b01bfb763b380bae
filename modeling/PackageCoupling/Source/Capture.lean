import PackageCoupling.Source.Token

/-!
What is found in a source: the declared package and the imports, as they are written.
-/

namespace PackageCoupling.Source

inductive CaptureKind where
  | package
  | importName
  deriving DecidableEq, Repr

structure Capture where
  kind : CaptureKind
  text : String
  deriving DecidableEq, Repr

/-- The text of consecutive tokens as a capture; nothing if it holds stray bytes. -/
def capture (kind : CaptureKind) (ts : List Token) : List Capture :=
  ((textOf? ts).map fun s => ⟨kind, s⟩).toList

def declared (captures : List Capture) : Option String :=
  (captures.find? (·.kind == .package)).map (·.text)

def imported (captures : List Capture) : List String :=
  (captures.filter (·.kind == .importName)).map (·.text)

end PackageCoupling.Source
