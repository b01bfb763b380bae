import PackageCoupling.Analysis.Basic
import PackageCoupling.Extraction.Basic
import PackageCoupling.FileTree.Listing
import PackageCoupling.Language.Detect
import PackageCoupling.Modules.Descriptor

/-!
Analysing a file tree: list the files, resolve the modules, tell the languages, and collect what
each source file contributes.
-/

namespace PackageCoupling

structure AnalyzeOptions where
  languages : List Language
  /-- Names of directories to leave out, besides the hidden ones. -/
  exclude : List String
  respectIgnoreFiles : Bool
  deriving DecidableEq, Repr

def AnalyzeOptions.default : AnalyzeOptions := ⟨Language.all, [], true⟩

namespace Analysis

def listOptions (o : AnalyzeOptions) : ListOptions :=
  ⟨o.respectIgnoreFiles, [.hidden, .dirs o.exclude]⟩

def descriptorKind? (path : RawText) : Option DescriptorKind :=
  (path.fileName?.bind RawText.text?).bind DescriptorKind.ofFileName?

/-- The kinds of descriptors that languages use, each once. -/
def kindsOf (languages : List Language) : List DescriptorKind :=
  (languages.map Language.descriptor).eraseDups

/-- The descriptors of one kind. -/
def ofKind (files : List RawText) (kind : DescriptorKind) : List RawText :=
  files.filter (descriptorKind? · == some kind)

/-- The modules of one kind that the files declare. -/
def modulesOf (tree : Node) (root : RawText) (files : List RawText) (kind : DescriptorKind) :
    ModuleMap × List Diagnostic :=
  Descriptor.resolve tree root kind (ofKind files kind)

/-- What is to be done with a file that is no descriptor. -/
inductive Class where
  | source (path : RawText) (language : Language)
  | skipped (d : Diagnostic)
  | unconcerned

def classify (tree : Node) (root : RawText) (languages : List Language) (path : RawText) : Class :=
  match tree.readHead (root.append path) detectionBytes with
  | .error e => .skipped (.of path.slash none (.readFailure path.text e.message))
  | .ok head =>
    match detect? path head with
    | none => .unconcerned
    | some (.supported l) => if languages.contains l then .source path l else .unconcerned
    | some (.other name) =>
      .skipped (.of path.slash (some name) (.unsupportedLanguage path.text name))

def Class.source? : Class → Option (RawText × Language)
  | .source path l => some (path, l)
  | _ => none

def Class.skipped? : Class → Option Diagnostic
  | .skipped d => some d
  | _ => none

/-- What the sources contribute: the files, a diagnostic for each that fails, and the registry at
the end. A fatal fault ends the run. -/
def extractAll (tree : Node) (root : RawText) (modules : DescriptorKind → ModuleMap)
    (cancelled : Bool) : Registry → List (RawText × Language) →
    Except Fault (List FileImports × List Diagnostic) × Registry
  | registry, [] => (.ok ([], []), registry)
  | registry, (path, l) :: rest =>
    match Extraction.ofFile tree root l (modules l.descriptor) cancelled registry path with
    | (.ok file, registry) =>
      let (result, registry) := extractAll tree root modules cancelled registry rest
      (result.map fun (files, ds) => (file :: files, ds), registry)
    | (.error fault, registry) =>
      if fault.isFatal then (.error fault, registry)
      else
        let d := Diagnostic.of path.slash (some l.name) fault
        let (result, registry) := extractAll tree root modules cancelled registry rest
        (result.map fun (files, ds) => (files, d :: ds), registry)

-- The scanners behind `ofFile` are not to be looked into when the two sides are compared.
attribute [local irreducible] Extraction.ofFile in
theorem extractAll_cons (tree : Node) (root : RawText) (modules : DescriptorKind → ModuleMap)
    (cancelled : Bool) (registry : Registry) (path : RawText) (l : Language)
    (rest : List (RawText × Language)) :
    extractAll tree root modules cancelled registry ((path, l) :: rest) =
      match Extraction.ofFile tree root l (modules l.descriptor) cancelled registry path with
      | (.ok file, registry) =>
        let (result, registry) := extractAll tree root modules cancelled registry rest
        (result.map fun (files, ds) => (file :: files, ds), registry)
      | (.error fault, registry) =>
        if fault.isFatal then (.error fault, registry)
        else
          let d := Diagnostic.of path.slash (some l.name) fault
          let (result, registry) := extractAll tree root modules cancelled registry rest
          (result.map fun (files, ds) => (files, d :: ds), registry) := rfl

def sortByPath (ds : List Diagnostic) : List Diagnostic :=
  ds.mergeSort (fun a b => a.path ≤ b.path)

/-- Analyses the listed files. -/
def ofFiles (tree : Node) (root : RawText) (o : AnalyzeOptions) (cancelled : Bool)
    (registry : Registry) (files : List RawText) : Except Fault Analysis × Registry :=
  let moduleMaps := (kindsOf o.languages).map fun kind => (kind, modulesOf tree root files kind)
  let descriptorFaults := moduleMaps.flatMap (·.2.2)
  let classes :=
    (files.filter (descriptorKind? · == none)).map (classify tree root o.languages)
  let work := classes.filterMap Class.source?
  let modules := fun kind => ((moduleMaps.lookup kind).map (·.1)).getD Table.empty
  let (result, registry) := extractAll tree root modules cancelled registry work
  (result.map fun (contributions, failures) =>
    { graph := .ofFiles contributions
      diagnostics := sortByPath (descriptorFaults ++ classes.filterMap Class.skipped? ++ failures)
      filesAnalyzed := work.length }, registry)

/-- Analyses the tree below `root`. -/
def run (tree : Node) (root : RawText) (o : AnalyzeOptions) (cancelled : Bool)
    (registry : Registry) : Except Fault Analysis × Registry :=
  match listFiles tree root (listOptions o) with
  | .error fault => (.error fault, registry)
  | .ok files =>
    if cancelled then (.error .canceled, registry)
    else ofFiles tree root o cancelled registry files

end Analysis

end PackageCoupling
