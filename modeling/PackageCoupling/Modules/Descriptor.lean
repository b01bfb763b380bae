import PackageCoupling.Fault
import PackageCoupling.FileTree.Resolve
import PackageCoupling.Json.Read
import PackageCoupling.Modules.GoDirective
import PackageCoupling.Modules.Map
import PackageCoupling.Toml.Read

/-!
The module identifiers that descriptor files declare. Of a malformed descriptor it is known that it
is malformed, not where.
-/

namespace PackageCoupling

namespace Descriptor

/-- The places in a TOML document where a name may stand. -/
def namePlaces : DescriptorKind → List (List String)
  | .cargoManifest => [["package", "name"]]
  | .pyProject => [["project", "name"], ["tool", "poetry", "name"]]
  | _ => []

/-- The different names in a TOML document. -/
def tomlNames (kind : DescriptorKind) (t : Toml) : List String :=
  ((namePlaces kind).filterMap fun place => (t.get? place).bind Toml.str?).eraseDups

/-- The identifiers that a descriptor declares; nothing if it is malformed. -/
def identifiers? (kind : DescriptorKind) (content : String) : Option (List String) :=
  match kind with
  | .goModule => some (GoDirective.identifiers content)
  | .cargoManifest | .pyProject => (Toml.read? content).map (tomlNames kind)
  | .packageManifest =>
    (Json.read? content).map fun j => ((j.get? "name").bind Json.str?).toList

/-- The one identifier that a descriptor declares. -/
def identifier (kind : DescriptorKind) (path content : String) : Except Fault String :=
  match identifiers? kind content with
  -- The readers do not say what is malformed, so the fault is reported without the detail that
  -- its message has room for.
  | none => .error (.descriptorParse path none)
  | some [id] => .ok id
  | some ids => .error (.ambiguousModule path ids.length)

/-- The identifier of the descriptor at `path` below `root`. -/
def ofFile (tree : Node) (root : RawText) (kind : DescriptorKind) (path : RawText) :
    Except Fault String :=
  match tree.readText (root.append path) with
  | .error e => .error (.readFailure path.text e.message)
  | .ok content => identifier kind path.text content

/-- Takes one descriptor into account. -/
def resolveStep (tree : Node) (root : RawText) (kind : DescriptorKind)
    (s : ModuleMap × List Diagnostic) (path : RawText) : ModuleMap × List Diagnostic :=
  match ofFile tree root kind path with
  | .ok id => (s.1.insert path.directory id, s.2)
  | .error fault => (s.1, s.2 ++ [.of path.slash none fault])

/-- The modules that descriptors of one kind declare, and a diagnostic for each that fails. Of two
in one directory the later counts. -/
def resolve (tree : Node) (root : RawText) (kind : DescriptorKind) (paths : List RawText) :
    ModuleMap × List Diagnostic :=
  paths.foldl (resolveStep tree root kind) (Table.empty, [])

end Descriptor

end PackageCoupling
