import PackageCoupling.Extraction.Registry
import PackageCoupling.Extraction.Unquote
import PackageCoupling.Fault
import PackageCoupling.FileTree.Resolve
import PackageCoupling.Graph
import PackageCoupling.Modules.Map
import PackageCoupling.Source.Scan

/-!
What one source file contributes to the graph.
-/

namespace PackageCoupling

namespace Extraction

open Source

/-- The name that the last part of a package's path is to have. -/
def packageName? (language : Language) (captures : List Capture) (directory : String) :
    Option String :=
  match language.naming with
  | .declared => (declared captures).map Text.trim
  | .directory => some (Path.baseName directory)

/-- The different identifiers that captures import, in the order of their first occurrence. -/
def importsOf (captures : List Capture) : List String :=
  (((imported captures).map unquote).filter (· != "")).eraseDups

/-- The contribution of a source file in which this was found. -/
def ofCaptures (language : Language) (modules : ModuleMap) (path : String)
    (captures : List Capture) : Except Fault FileImports :=
  let directory := modules.directoryPath (Path.slash path)
  match packageName? language captures directory with
  | some name =>
    .ok ⟨Path.slash path, canonicalPackage name directory, importsOf captures⟩
  | none => .error (.missingPackage path language)

/-- The contribution of a source file with this content. -/
def ofSource (language : Language) (modules : ModuleMap) (path : String) (content : Bytes) :
    Except Fault FileImports :=
  ofCaptures language modules path (scan language content)

/-- The contribution of the file at `path` below `root`. A file that cannot be read does not load a
parser; a poisoned parser fails before a cancelled run does. -/
def ofFile (tree : Node) (root : RawText) (language : Language) (modules : ModuleMap)
    (cancelled : Bool) (registry : Registry) (path : RawText) :
    Except Fault FileImports × Registry :=
  match tree.read (root.append path) with
  | .error e => (.error (.readFailure path.text e.message), registry)
  | .ok content =>
    let registry := registry.acquire language
    if registry.isPoisoned language then (.error (.poisonedParser language), registry)
    else if cancelled then (.error .canceled, registry)
    else (ofSource language modules path.text content, registry)

section OfFile

variable {tree : Node} {root path : RawText} (language : Language) (modules : ModuleMap)
  (cancelled : Bool) (registry : Registry)

theorem ofFile_of_unread {e : FileError} (unread : tree.read (root.append path) = .error e) :
    ofFile tree root language modules cancelled registry path =
      (.error (.readFailure path.text e.message), registry) := by
  unfold ofFile
  rw [unread]

theorem ofFile_of_read {content : Bytes} (read : tree.read (root.append path) = .ok content) :
    ofFile tree root language modules cancelled registry path =
      (if registry.isPoisoned language then .error (.poisonedParser language)
        else if cancelled then .error .canceled
        else ofSource language modules path.text content, registry.acquire language) := by
  unfold ofFile
  rw [read]
  dsimp only
  rw [Registry.isPoisoned, Registry.poisoned_acquire, ← Registry.isPoisoned]
  split
  · rfl
  · split <;> rfl

end OfFile

end Extraction

end PackageCoupling
