import PackageCoupling.Text.Blank

/-!
The languages whose imports are understood, and the descriptor files that name their modules.
-/

namespace PackageCoupling

/-- The file that declares the identifier of a module. -/
inductive DescriptorKind where
  | goModule
  | cargoManifest
  | pyProject
  | packageManifest
  deriving DecidableEq, Repr

def DescriptorKind.fileName : DescriptorKind → String
  | .goModule => "go.mod"
  | .cargoManifest => "Cargo.toml"
  | .pyProject => "pyproject.toml"
  | .packageManifest => "package.json"

def DescriptorKind.all : List DescriptorKind :=
  [.goModule, .cargoManifest, .pyProject, .packageManifest]

def DescriptorKind.ofFileName? (name : String) : Option DescriptorKind :=
  all.find? (·.fileName == name)

/-- Where the last part of a package's path comes from: a declaration in the source, or the
directory of the file. -/
inductive PackageNaming where
  | declared
  | directory
  deriving DecidableEq, Repr

inductive Language where
  | go
  | rust
  | python
  | javaScript
  | typeScript
  | tsx
  deriving DecidableEq, Repr

namespace Language

def all : List Language := [.go, .rust, .python, .javaScript, .typeScript, .tsx]

def name : Language → String
  | .go => "Go"
  | .rust => "Rust"
  | .python => "Python"
  | .javaScript => "JavaScript"
  | .typeScript => "TypeScript"
  | .tsx => "TSX"

/-- The spelling in data files. -/
def tag (l : Language) : String := Text.lower l.name

def extensions : Language → List String
  | .go => ["go"]
  | .rust => ["rs"]
  | .python => ["py", "pyi"]
  | .javaScript => ["js", "jsx", "mjs", "cjs"]
  | .typeScript => ["ts", "mts", "cts"]
  | .tsx => ["tsx"]

def descriptor : Language → DescriptorKind
  | .go => .goModule
  | .rust => .cargoManifest
  | .python => .pyProject
  | .javaScript | .typeScript | .tsx => .packageManifest

def naming : Language → PackageNaming
  | .go => .declared
  | _ => .directory

def ofExtension? (ext : String) : Option Language := all.find? (·.extensions.contains ext)

/-- The words by which a user may ask for a language. -/
def aliases : Language → List String
  | .go => ["go", "golang"]
  | .rust => ["rust", "rs"]
  | .python => ["python", "py"]
  | .javaScript => ["javascript", "js", "jsx"]
  | .typeScript => ["typescript", "ts"]
  | .tsx => ["tsx"]

/-- Reads a language as a user writes it; a failure gives the word that is unknown. -/
def parse (text : String) : Except String Language :=
  let word := Text.lower (Text.trim text)
  match all.find? (·.aliases.contains word) with
  | some l => .ok l
  | none => .error word

def unknownMessage (word : String) : String := "language not supported: " ++ word

end Language

end PackageCoupling
