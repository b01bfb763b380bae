import PackageCoupling.Analysis.Run
import PackageCoupling.Checked.Coupling
import PackageCoupling.Checked.Extraction

/-!
Analysing a file tree with every operation checked.
-/

namespace PackageCoupling.Checked

open Analysis

/-! ## Descriptors -/

/-- The one identifier that a descriptor declares. -/
def identifier (kind : DescriptorKind) (path content : String) : Checked (Except Fault String) :=
  match Descriptor.identifiers? kind content with
  | none => .ok (.error (.descriptorParse path none))
  | some ids =>
    if ids.length = 1 then do .ok (.ok (← get ids 0))
    else .ok (.error (.ambiguousModule path ids.length))

def resolveStep (tree : Node) (root : RawText) (kind : DescriptorKind)
    (s : ModuleMap × List Diagnostic) (path : RawText) : Checked (ModuleMap × List Diagnostic) := do
  let result ←
    match tree.readText (root.append path) with
    | .error e => .ok (.error (.readFailure path.text e.message))
    | .ok content => identifier kind path.text content
  match result with
  | .ok id => .ok (s.1.insert path.directory id, s.2)
  | .error fault => .ok (s.1, s.2 ++ [.of path.slash none fault])

def resolve (tree : Node) (root : RawText) (kind : DescriptorKind) (paths : List RawText) :
    Checked (ModuleMap × List Diagnostic) :=
  paths.foldlM (resolveStep tree root kind) (Table.empty, [])

/-! ## Sources -/

def extractAll (tree : Node) (root : RawText) (modules : DescriptorKind → ModuleMap)
    (cancelled : Bool) : Registry → List (RawText × Language) →
    Checked (Except Fault (List FileImports × List Diagnostic) × Registry)
  | registry, [] => .ok (.ok ([], []), registry)
  | registry, (path, l) :: rest => do
    match ← ofFile tree root l (modules l.descriptor) cancelled registry path with
    | (.ok file, registry) =>
      let (result, registry) ← extractAll tree root modules cancelled registry rest
      .ok (result.map fun (files, ds) => (file :: files, ds), registry)
    | (.error fault, registry) =>
      if fault.isFatal then .ok (.error fault, registry)
      else
        let d := Diagnostic.of path.slash (some l.name) fault
        let (result, registry) ← extractAll tree root modules cancelled registry rest
        .ok (result.map fun (files, ds) => (files, d :: ds), registry)

/-! ## Runs -/

def ofFiles (tree : Node) (root : RawText) (o : AnalyzeOptions) (cancelled : Bool)
    (registry : Registry) (files : List RawText) : Checked (Except Fault Analysis × Registry) := do
  let moduleMaps ← (kindsOf o.languages).mapM fun kind => do
    .ok (kind, ← resolve tree root kind (ofKind files kind))
  let descriptorFaults := moduleMaps.flatMap (·.2.2)
  let classes :=
    (files.filter (descriptorKind? · == none)).map (classify tree root o.languages)
  let work := classes.filterMap Class.source?
  let modules := fun kind => ((moduleMaps.lookup kind).map (·.1)).getD Table.empty
  match ← extractAll tree root modules cancelled registry work with
  | (.error fault, registry) => .ok (.error fault, registry)
  | (.ok (contributions, failures), registry) =>
    let graph ← graphOf contributions
    .ok (.ok { graph
               diagnostics :=
                 sortByPath (descriptorFaults ++ classes.filterMap Class.skipped? ++ failures)
               filesAnalyzed := work.length }, registry)

def run (tree : Node) (root : RawText) (o : AnalyzeOptions) (cancelled : Bool)
    (registry : Registry) : Checked (Except Fault Analysis × Registry) :=
  match listFiles tree root (listOptions o) with
  | .error fault => .ok (.error fault, registry)
  | .ok files =>
    if cancelled then .ok (.error .canceled, registry)
    else ofFiles tree root o cancelled registry files

end PackageCoupling.Checked
