import Mathlib.Data.List.Perm.Basic
import PackageCoupling.Analysis.Run
import PackageCoupling.Proofs.Assembly
import PackageCoupling.Proofs.Listing

/-!
# Every listed file is accounted for

Each file has one *fate*, which depends on the file and the modules alone: it contributes, it fails
as a source, it is reported, or it is passed over. An analysis sorts files into descriptors and
sources, resolves the descriptors kind by kind, and collects diagnostics at three places; what comes
out is nonetheless what the fates of the files say, each taken once:

* `resolve_diagnostics`, `descriptorFaults_perm`: what the descriptors of all kinds report;
* `extractAll_eq`: what the sources contribute and report, whatever the registry holds;
* `ofFiles_eq`: the whole analysis in terms of fates.
-/

namespace PackageCoupling

/-! ## Lists taken apart and put together -/

section Lists

variable {α β κ : Type}

theorem filterMap_cons_toList (f : α → Option β) (a : α) (l : List α) :
    (a :: l).filterMap f = (f a).toList ++ l.filterMap f := by
  rw [List.filterMap_cons]
  cases f a <;> rfl

theorem filterMap_append_perm {f g : α → Option β} {l : List α}
    (disjoint : ∀ a ∈ l, f a = none ∨ g a = none) :
    (l.filterMap f ++ l.filterMap g).Perm (l.filterMap fun a => (f a).or (g a)) := by
  induction l with
  | nil => exact .nil
  | cons a rest ih =>
    have ih := ih fun b hb => disjoint b (List.mem_cons_of_mem _ hb)
    simp only [filterMap_cons_toList]
    rcases disjoint a List.mem_cons_self with h | h
    · rw [h, Option.none_or, Option.toList_none, List.nil_append]
      exact List.perm_append_comm_assoc .. |>.trans (ih.append_left _)
    · rw [h, Option.or_none, Option.toList_none, List.nil_append, List.append_assoc]
      exact ih.append_left _

/-- Of several keys, each present once, an element concerns its own. -/
theorem flatMap_own_key [DecidableEq κ] {keys : List κ} (distinct : keys.Nodup) (own : Option κ)
    (f : κ → Option β) :
    keys.flatMap (fun k => (if own = some k then f k else none).toList) =
      (own.bind fun k => if k ∈ keys then f k else none).toList := by
  cases own with
  | none => simp
  | some own =>
    induction keys with
    | nil => rfl
    | cons k rest ih =>
      rw [List.nodup_cons] at distinct
      rw [List.flatMap_cons, ih distinct.2]
      by_cases eq : own = k
      · subst eq
        simp [distinct.1]
      · simp [eq]

/-- Going through the elements once per key is going through them once. -/
theorem flatMap_filterMap_perm [DecidableEq κ] {keys : List κ} (distinct : keys.Nodup)
    (own : α → Option κ) (f : κ → α → Option β) (l : List α) :
    (keys.flatMap fun k => l.filterMap fun a => if own a = some k then f k a else none).Perm
      (l.filterMap fun a => (own a).bind fun k => if k ∈ keys then f k a else none) := by
  induction l with
  | nil => simp
  | cons a rest ih =>
    simp only [filterMap_cons_toList]
    refine (List.flatMap_append_perm ..).symm.trans ?_
    rw [flatMap_own_key distinct (own a) (f · a)]
    exact ih.append_left _

/-- Images of what is kept are kept images. -/
theorem map_filterMap_sublist {f : α → Option β} {g : β → κ} {h : α → κ}
    (same : ∀ a b, f a = some b → g b = h a) (l : List α) :
    ((l.filterMap f).map g).Sublist (l.map h) := by
  induction l with
  | nil => exact .slnil
  | cons a rest ih =>
    rw [List.filterMap_cons]
    cases eq : f a with
    | none => exact ih.cons _
    | some b =>
      rw [List.map_cons, List.map_cons, same a b eq]
      exact ih.cons_cons _

theorem lookup_map_self [DecidableEq κ] (f : κ → β) (keys : List κ) (k : κ) :
    (keys.map fun k => (k, f k)).lookup k = if k ∈ keys then some (f k) else none := by
  induction keys with
  | nil => rfl
  | cons key rest ih =>
    rw [List.map_cons, List.lookup_cons, ih]
    by_cases eq : k = key
    · simp [eq]
    · have ne : (k == key) = false := by simpa using eq
      simp [eq, ne]

end Lists

namespace Analysis

/-! ## The fate of a file -/

inductive Fate where
  | contributes (file : FileImports)
  /-- A source of a selected language that cannot be extracted. -/
  | fails (d : Diagnostic)
  | reported (d : Diagnostic)
  | passedOver

namespace Fate

def contribution? : Fate → Option FileImports
  | contributes file => some file
  | _ => none

def failure? : Fate → Option Diagnostic
  | fails d => some d
  | _ => none

def diagnostic? : Fate → Option Diagnostic
  | fails d => some d
  | reported d => some d
  | _ => none

def isSource : Fate → Bool
  | contributes _ => true
  | fails _ => true
  | _ => false

/-- A source contributes or fails, and not both. -/
theorem isSource_eq (f : Fate) :
    (if f.isSource then 1 else 0) =
      f.contribution?.toList.length + f.failure?.toList.length := by
  cases f <;> rfl

end Fate

theorem length_isSource (f : RawText → Fate) (files : List RawText) :
    (files.filter fun path => (f path).isSource).length =
      (files.filterMap fun path => (f path).contribution?).length +
        (files.filterMap fun path => (f path).failure?).length := by
  induction files with
  | nil => rfl
  | cons path rest ih =>
    rw [← List.countP_eq_length_filter] at ih ⊢
    rw [List.countP_cons, ih, (f path).isSource_eq, filterMap_cons_toList, filterMap_cons_toList,
      List.length_append, List.length_append]
    omega

/-- What a source gives by itself, with the modules of its kind and fresh parsers. -/
def extraction (tree : Node) (root : RawText) (files : List RawText) (l : Language)
    (path : RawText) : Except Fault FileImports :=
  (Extraction.ofFile tree root l (modulesOf tree root files l.descriptor).1 false .empty path).1

/-- The fate of a listed file. A descriptor counts if some selected language uses its kind; any
other file counts by the language that its name or its first bytes show. -/
def fate (tree : Node) (root : RawText) (languages : List Language) (files : List RawText)
    (path : RawText) : Fate :=
  match descriptorKind? path with
  | some kind =>
    if kind ∈ languages.map Language.descriptor then
      match Descriptor.ofFile tree root kind path with
      | .ok _ => .passedOver
      | .error fault => .reported (.of path.slash none fault)
    else .passedOver
  | none =>
    match tree.readHead (root.append path) detectionBytes with
    | .error e => .reported (.of path.slash none (.readFailure path.text e.message))
    | .ok head =>
      match detect? path head with
      | none => .passedOver
      | some (.other name) =>
        .reported (.of path.slash (some name) (.unsupportedLanguage path.text name))
      | some (.supported l) =>
        if l ∈ languages then
          match extraction tree root files l path with
          | .ok file => .contributes file
          | .error fault => .fails (.of path.slash (some l.name) fault)
        else .passedOver

theorem path_of_diagnostic {tree : Node} {root : RawText} {languages : List Language}
    {files : List RawText} {path : RawText} {d : Diagnostic}
    (h : (fate tree root languages files path).diagnostic? = some d) :
    d.path = path.slash := by
  unfold fate at h
  repeat' split at h
  all_goals
    simp only [Fate.diagnostic?, Option.some.injEq, reduceCtorEq] at h
  all_goals
    rw [← h]
    rfl

/-! ## Descriptors -/

/-- The report of a descriptor that declares no single identifier. -/
def descriptorFault? (tree : Node) (root : RawText) (kind : DescriptorKind) (path : RawText) :
    Option Diagnostic :=
  match Descriptor.ofFile tree root kind path with
  | .ok _ => none
  | .error fault => some (.of path.slash none fault)

theorem resolveStep_diagnostics (tree : Node) (root : RawText) (kind : DescriptorKind)
    (s : ModuleMap × List Diagnostic) (path : RawText) :
    (Descriptor.resolveStep tree root kind s path).2 =
      s.2 ++ (descriptorFault? tree root kind path).toList := by
  unfold Descriptor.resolveStep descriptorFault?
  cases Descriptor.ofFile tree root kind path <;> simp

/-- Each failing descriptor is reported once, in the order of the list. -/
theorem resolve_diagnostics (tree : Node) (root : RawText) (kind : DescriptorKind)
    (paths : List RawText) (s : ModuleMap × List Diagnostic) :
    (paths.foldl (Descriptor.resolveStep tree root kind) s).2 =
      s.2 ++ paths.filterMap (descriptorFault? tree root kind) := by
  induction paths generalizing s with
  | nil => simp
  | cons path rest ih =>
    rw [List.foldl_cons, ih, resolveStep_diagnostics, filterMap_cons_toList, List.append_assoc]

theorem modulesOf_diagnostics (tree : Node) (root : RawText) (files : List RawText)
    (kind : DescriptorKind) :
    (modulesOf tree root files kind).2 = files.filterMap fun path =>
      if descriptorKind? path = some kind then descriptorFault? tree root kind path else none := by
  rw [modulesOf, Descriptor.resolve, resolve_diagnostics, ofKind, List.filterMap_filter]
  simp

/-- What a descriptor reports if its kind is wanted. -/
def kindFault? (tree : Node) (root : RawText) (kinds : List DescriptorKind) (path : RawText) :
    Option Diagnostic :=
  (descriptorKind? path).bind fun kind =>
    if kind ∈ kinds then descriptorFault? tree root kind path else none

/-- Every kind is resolved once, so every failing descriptor is reported once. -/
theorem descriptorFaults_perm (tree : Node) (root : RawText) (files : List RawText)
    (languages : List Language) :
    ((kindsOf languages).flatMap fun kind => (modulesOf tree root files kind).2).Perm
      (files.filterMap (kindFault? tree root (kindsOf languages))) := by
  simp only [modulesOf_diagnostics]
  exact flatMap_filterMap_perm (nodup_eraseDups _) _ _ _

/-! ## Sources -/

theorem ofFile_clean (tree : Node) (root : RawText) (l : Language) (modules : ModuleMap)
    {registry : Registry} (clean : registry.poisoned = []) (path : RawText) :
    (Extraction.ofFile tree root l modules false registry path).1 =
      (Extraction.ofFile tree root l modules false .empty path).1 ∧
    (Extraction.ofFile tree root l modules false registry path).2.poisoned = [] := by
  cases read : tree.read (root.append path) with
  | error e =>
    rw [Extraction.ofFile_of_unread _ _ _ _ read, Extraction.ofFile_of_unread _ _ _ _ read]
    exact ⟨rfl, clean⟩
  | ok content =>
    rw [Extraction.ofFile_of_read _ _ _ _ read, Extraction.ofFile_of_read _ _ _ _ read]
    simp [Registry.isPoisoned, Registry.poisoned_acquire, clean, Registry.empty]

/-- By itself a source can only fail for reasons of its own. -/
theorem not_fatal {tree : Node} {root : RawText} {l : Language} {modules : ModuleMap}
    {path : RawText} {fault : Fault}
    (h : (Extraction.ofFile tree root l modules false .empty path).1 = .error fault) :
    fault.isFatal = false := by
  cases read : tree.read (root.append path) with
  | error e =>
    rw [Extraction.ofFile_of_unread _ _ _ _ read] at h
    cases h
    rfl
  | ok content =>
    rw [Extraction.ofFile_of_read _ _ _ _ read] at h
    have own : Extraction.ofSource l modules path.text content = .error fault := h
    unfold Extraction.ofSource Extraction.ofCaptures at own
    dsimp only at own
    split at own
    · cases own
    · cases own
      rfl

/-- The report of a source that cannot be extracted. -/
def sourceFault? (out : RawText × Language → Except Fault FileImports) (w : RawText × Language) :
    Option Diagnostic :=
  match out w with
  | .ok _ => none
  | .error fault => some (.of (w.1.slash) (some w.2.name) fault)

/-- Extraction goes through all sources. The registry is handed on from each to the next, and does
not matter as long as no parser in it is poisoned. -/
theorem extractAll_eq (tree : Node) (root : RawText) (modules : DescriptorKind → ModuleMap)
    (work : List (RawText × Language)) {registry : Registry} (clean : registry.poisoned = [])
    {out : RawText × Language → Except Fault FileImports}
    (given : ∀ w ∈ work,
      (Extraction.ofFile tree root w.2 (modules w.2.descriptor) false .empty w.1).1 = out w) :
    (extractAll tree root modules false registry work).1 =
      .ok (work.filterMap fun w => (out w).toOption, work.filterMap (sourceFault? out)) := by
  induction work generalizing registry with
  | nil => rfl
  | cons w rest ih =>
    obtain ⟨path, l⟩ := w
    obtain ⟨same, clean'⟩ := ofFile_clean tree root l (modules l.descriptor) clean path
    have here := given (path, l) List.mem_cons_self
    rw [here] at same
    have ih := ih clean' fun w hw => given w (List.mem_cons_of_mem _ hw)
    rw [extractAll_cons]
    cases eq : out (path, l) with
    | ok file =>
      rw [eq] at same
      split
      · rename_i file' registry' step
        rw [step] at same ih
        cases same
        simp [ih, eq, sourceFault?, Except.map, Except.toOption]
      · rename_i fault registry' step
        rw [step] at same
        cases same
    | error fault =>
      have lives := not_fatal (here.trans eq)
      rw [eq] at same
      split
      · rename_i file' registry' step
        rw [step] at same
        cases same
      · rename_i fault' registry' step
        rw [step] at same ih
        cases same
        simp [ih, eq, lives, sourceFault?, Except.map, Except.toOption]

/-! ## From classes to fates -/

section Fates

variable (tree : Node) (root : RawText) (languages : List Language) (files : List RawText)

/-- The source that a listed file is, if it is no descriptor. -/
def sourceOf? (path : RawText) : Option (RawText × Language) :=
  if descriptorKind? path == none then (classify tree root languages path).source? else none

/-- The report of a listed file that is no descriptor and cannot be told to be a source. -/
def skippedOf? (path : RawText) : Option Diagnostic :=
  if descriptorKind? path == none then (classify tree root languages path).skipped? else none

theorem kindFault?_or_skippedOf? (path : RawText) :
    kindFault? tree root (kindsOf languages) path = none ∨
      skippedOf? tree root languages path = none := by
  cases kind : descriptorKind? path with
  | none => simp [kindFault?, kind]
  | some k => simp [skippedOf?, kind]

/-- A listed file is a source of a selected language, whose fate is that of its extraction, or it is
no such source and its fate is to be reported at most. -/
theorem fate_cases (path : RawText) :
    let report := (kindFault? tree root (kindsOf languages) path).or
      (skippedOf? tree root languages path)
    (∃ l ∈ languages, sourceOf? tree root languages path = some (path, l) ∧ report = none ∧
      fate tree root languages files path =
        match extraction tree root files l path with
        | .ok file => .contributes file
        | .error fault => .fails (.of path.slash (some l.name) fault)) ∨
    (sourceOf? tree root languages path = none ∧
      fate tree root languages files path =
        match report with
        | some d => .reported d
        | none => .passedOver) := by
  unfold fate sourceOf? skippedOf? kindFault? descriptorFault? classify
  cases descriptorKind? path with
  | some kind =>
    have wanted : kind ∈ kindsOf languages ↔ kind ∈ languages.map Language.descriptor :=
      List.mem_eraseDups
    simp only [← wanted]
    by_cases selected : kind ∈ kindsOf languages
    · cases result : Descriptor.ofFile tree root kind path <;> simp [selected, result]
    · simp [selected]
  | none =>
    cases tree.readHead (root.append path) detectionBytes with
    | error e => simp [Class.source?, Class.skipped?]
    | ok head =>
      dsimp only
      cases detect? path head with
      | none => simp [Class.source?, Class.skipped?]
      | some detected =>
        cases detected with
        | other name => simp [Class.source?, Class.skipped?]
        | supported l =>
          by_cases selected : l ∈ languages
          · refine .inl ⟨l, selected, ?_⟩
            simp [selected, Class.source?, Class.skipped?]
          · simp [selected, Class.source?, Class.skipped?]

theorem bind_sourceOf?_contribution (path : RawText) :
    ((sourceOf? tree root languages path).bind fun w =>
      (extraction tree root files w.2 w.1).toOption) =
        (fate tree root languages files path).contribution? := by
  rcases fate_cases tree root languages files path with ⟨l, -, source, -, eq⟩ | ⟨source, eq⟩
  · rw [source, eq, Option.bind_some]
    cases extraction tree root files l path <;> rfl
  · rw [source, eq, Option.bind_none]
    split <;> rfl

theorem bind_sourceOf?_failure (path : RawText) :
    (sourceOf? tree root languages path).bind
      (sourceFault? fun w => extraction tree root files w.2 w.1) =
        (fate tree root languages files path).failure? := by
  rcases fate_cases tree root languages files path with ⟨l, -, source, -, eq⟩ | ⟨source, eq⟩
  · rw [source, eq, Option.bind_some, sourceFault?]
    cases extraction tree root files l path <;> rfl
  · rw [source, eq, Option.bind_none]
    split <;> rfl

theorem isSome_sourceOf? (path : RawText) :
    (sourceOf? tree root languages path).isSome =
      (fate tree root languages files path).isSource := by
  rcases fate_cases tree root languages files path with ⟨l, -, source, -, eq⟩ | ⟨source, eq⟩
  · rw [source, eq]
    cases extraction tree root files l path <;> rfl
  · rw [source, eq]
    split <;> rfl

/-- What is reported before any extraction and what fails in it make up all diagnostics. -/
theorem report_or_failure (path : RawText) :
    let report := (kindFault? tree root (kindsOf languages) path).or
      (skippedOf? tree root languages path)
    let f := fate tree root languages files path
    (report = none ∨ f.failure? = none) ∧ report.or f.failure? = f.diagnostic? := by
  rcases fate_cases tree root languages files path with ⟨l, -, -, report, eq⟩ | ⟨-, eq⟩
  · rw [report, eq]
    cases extraction tree root files l path <;> simp [Fate.failure?, Fate.diagnostic?]
  · rw [eq]
    split <;> rename_i report <;> simp [report, Fate.failure?, Fate.diagnostic?]

end Fates

/-! ## The whole analysis -/

section Whole

variable (tree : Node) (root : RawText) (o : AnalyzeOptions) (files : List RawText)

/-- The sources among the listed files. -/
theorem work_eq :
    ((files.filter (descriptorKind? · == none)).map (classify tree root o.languages)).filterMap
      Class.source? = files.filterMap (sourceOf? tree root o.languages) := by
  rw [List.filterMap_map, List.filterMap_filter]
  rfl

theorem skipped_eq :
    ((files.filter (descriptorKind? · == none)).map (classify tree root o.languages)).filterMap
      Class.skipped? = files.filterMap (skippedOf? tree root o.languages) := by
  rw [List.filterMap_map, List.filterMap_filter]
  rfl

/-- The diagnostics of the three places together are those of the fates. -/
theorem diagnostics_perm :
    let f := fate tree root o.languages files
    (((kindsOf o.languages).flatMap fun kind => (modulesOf tree root files kind).2) ++
      files.filterMap (skippedOf? tree root o.languages) ++
      files.filterMap fun path => (f path).failure?).Perm
        (files.filterMap fun path => (f path).diagnostic?) := by
  intro f
  have before := ((descriptorFaults_perm tree root files o.languages).append_right _).trans
    (filterMap_append_perm fun path _ => kindFault?_or_skippedOf? tree root o.languages path)
  refine (before.append_right _).trans ?_
  refine (filterMap_append_perm fun path _ =>
    (report_or_failure tree root o.languages files path).1).trans ?_
  rw [List.filterMap_congr fun path _ => (report_or_failure tree root o.languages files path).2]

/-- All sources are extracted, each with the modules of its kind. -/
theorem extractAll_sources :
    let f := fate tree root o.languages files
    let modules := fun kind => ((((kindsOf o.languages).map fun kind =>
      (kind, modulesOf tree root files kind)).lookup kind).map (·.1)).getD Table.empty
    (extractAll tree root modules false .empty
      (files.filterMap (sourceOf? tree root o.languages))).1 =
        .ok (files.filterMap fun path => (f path).contribution?,
          files.filterMap fun path => (f path).failure?) := by
  intro f modules
  have clean : Registry.empty.poisoned = [] := rfl
  have given : ∀ w ∈ files.filterMap (sourceOf? tree root o.languages),
      (Extraction.ofFile tree root w.2 (modules w.2.descriptor) false .empty w.1).1 =
        extraction tree root files w.2 w.1 := by
    intro w hw
    obtain ⟨path, -, source⟩ := List.mem_filterMap.1 hw
    rcases fate_cases tree root o.languages files path with ⟨l, mem, source', -⟩ | ⟨source', -⟩
    · rw [source, Option.some.injEq] at source'
      subst source'
      have wanted : l.descriptor ∈ kindsOf o.languages :=
        List.mem_eraseDups.2 (List.mem_map_of_mem mem)
      have own : modules l.descriptor = (modulesOf tree root files l.descriptor).1 := by
        simp only [modules, lookup_map_self, if_pos wanted, Option.map_some, Option.getD_some]
      simp only [own, extraction]
    · rw [source] at source'
      cases source'
  rw [extractAll_eq tree root modules _ clean given, List.filterMap_filterMap,
    List.filterMap_filterMap]
  simp only [bind_sourceOf?_contribution, bind_sourceOf?_failure, f]

theorem length_sources :
    (files.filterMap (sourceOf? tree root o.languages)).length =
      (files.filter fun path => (fate tree root o.languages files path).isSource).length := by
  simp only [List.length_filterMap_eq_countP, isSome_sourceOf? tree root o.languages files,
    List.countP_eq_length_filter]

/-- An analysis is what the fates of the listed files say. -/
theorem ofFiles_eq :
    let f := fate tree root o.languages files
    ∃ ds, ds.Perm (files.filterMap fun path => (f path).diagnostic?) ∧
      (ofFiles tree root o false .empty files).1 = .ok
        { graph := .ofFiles (files.filterMap fun path => (f path).contribution?)
          diagnostics := sortByPath ds
          filesAnalyzed := (files.filter fun path => (f path).isSource).length } := by
  intro f
  refine ⟨_, diagnostics_perm tree root o files, ?_⟩
  unfold ofFiles
  dsimp only
  rw [work_eq, skipped_eq, extractAll_sources, length_sources, List.flatMap_map]
  rfl

end Whole

theorem sortByPath_perm (ds : List Diagnostic) : (sortByPath ds).Perm ds :=
  List.mergeSort_perm ..

theorem path_le_trans (a b c : Diagnostic) :
    decide (a.path ≤ b.path) → decide (b.path ≤ c.path) → decide (a.path ≤ c.path) := by
  simpa using String.le_trans

theorem path_le_total (a b : Diagnostic) :
    decide (a.path ≤ b.path) || decide (b.path ≤ a.path) := by
  simpa using String.le_total a.path b.path

theorem sortByPath_sorted (ds : List Diagnostic) :
    (sortByPath ds).Pairwise fun a b => a.path ≤ b.path :=
  (List.pairwise_mergeSort path_le_trans path_le_total ds).imp of_decide_eq_true

/-- Diagnostics of different paths stand in strict order. -/
theorem sortByPath_strict {ds : List Diagnostic} (distinct : (ds.map (·.path)).Nodup) :
    ((sortByPath ds).map (·.path)).Pairwise Utf8.Before := by
  have distinct' : ((sortByPath ds).map (·.path)).Nodup :=
    ((sortByPath_perm ds).map (·.path)).nodup_iff.2 distinct
  have different : (sortByPath ds).Pairwise fun a b => a.path ≠ b.path :=
    List.pairwise_map.1 distinct'
  rw [Utf8.pairwise_before_iff, List.pairwise_map]
  apply ((sortByPath_sorted ds).and different).imp
  rintro a b ⟨le, ne⟩
  exact Table.lt_of_not_lt_of_ne le ne.symm

/-- A fresh analysis that is not cancelled succeeds whenever the files can be listed, and accounts
for each of them: the graph is that of the files that contribute, each file with a diagnostic is
reported once, in the order of the paths, and the sources counted are those that contribute and
those that fail. In a well-formed tree no file is listed twice. The order is strict if no two files
have one slash path; two can have one only if the name of a file or a directory is no text. -/
theorem run_accounts_for_every_file (tree : Node) (root : RawText) (o : AnalyzeOptions) :
    match listFiles tree root (listOptions o) with
    | .error fault => run tree root o false .empty = (.error fault, .empty)
    | .ok files =>
      let f := fate tree root o.languages files
      let contributions := files.filterMap fun path => (f path).contribution?
      let failures := files.filterMap fun path => (f path).failure?
      ∃ a, (run tree root o false .empty).1 = .ok a ∧
        a.graph = .ofFiles contributions ∧
        a.diagnostics.Perm (files.filterMap fun path => (f path).diagnostic?) ∧
        (a.diagnostics.map (·.path)).Pairwise (fun p q => Utf8.encode p ≤ Utf8.encode q) ∧
        ((files.map RawText.slash).Nodup → (a.diagnostics.map (·.path)).Pairwise Utf8.Before) ∧
        (tree.WellFormed → files.Nodup ∧
          ((∀ path ∈ files, path.IsText) → (files.map RawText.slash).Nodup)) ∧
        a.filesAnalyzed = (files.filter fun path => (f path).isSource).length ∧
        a.filesAnalyzed = contributions.length + failures.length := by
  cases listed : listFiles tree root (listOptions o) with
  | error fault => simp [run, listed]
  | ok files =>
    dsimp only
    let f := fate tree root o.languages files
    obtain ⟨ds, perm, result⟩ := ofFiles_eq tree root o files
    have paths : ((files.filterMap fun path => (f path).diagnostic?).map (·.path)).Sublist
        (files.map RawText.slash) :=
      map_filterMap_sublist (fun path d h => path_of_diagnostic h) files
    have ran : (run tree root o false .empty).1 = (ofFiles tree root o false .empty files).1 := by
      simp [run, listed]
    refine ⟨_, ran.trans result, rfl, (sortByPath_perm ds).trans perm, ?_, ?_, ?_, rfl, ?_⟩
    · rw [List.pairwise_map]
      exact (sortByPath_sorted ds).imp (Utf8.encode_le_encode_iff _ _).2
    · intro distinct
      exact sortByPath_strict ((perm.map (·.path)).nodup_iff.2 (distinct.sublist paths))
    · exact fun wf => ⟨nodup_listFiles wf listed, nodup_slash_listFiles wf listed⟩
    · exact length_isSource f files

/-- Files of every fate: `a.go` contributes, `b.go` declares no package, `c.rb` is of a language
that is not analysed, `go.mod` declares no module, and `notes.txt` is of no language. -/
def everyFate : Node :=
  [("a.go", "package a\nimport \"fmt\"\n"), ("b.go", "import \"fmt\"\n"),
    ("c.rb", "require 'set'\n"), ("go.mod", ""), ("notes.txt", "")].foldl
      (fun tree (name, text) => tree.put ["src", .ofText name] (.file (Utf8.encode text))) .empty

theorem wellFormed_put_source {tree : Node} (wf : tree.WellFormed) {name : RawText}
    (isName : name.IsName) (content : Bytes) :
    (tree.put ["src", name] (.file content)).WellFormed := by
  refine Node.wellFormed_put wf (.file _) ?_
  simp only [List.forall_mem_cons, List.not_mem_nil, false_imp_iff, implies_true, and_true]
  exact ⟨by decide, isName⟩

theorem everyFate_wellFormed : everyFate.WellFormed := by
  iterate 5 refine wellFormed_put_source ?_ (by decide) _
  exact Node.wellFormed_empty

theorem run_accounts_for_everyFate :
    everyFate.WellFormed ∧ ∃ a, (run everyFate "/src" .default false .empty).1 = .ok a ∧
      a.diagnostics.length = 3 ∧ (a.diagnostics.map (·.path)).Pairwise Utf8.Before ∧
      a.filesAnalyzed = 2 := by
  let files : List RawText := ["a.go", "b.go", "c.rb", "go.mod", "notes.txt"]
  have listed : listFiles everyFate "/src" (listOptions .default) = .ok files := by decide +kernel
  have texts : ∀ path ∈ files, path.IsText := by
    simp only [files, List.forall_mem_cons, List.not_mem_nil, false_imp_iff, implies_true, and_true]
    exact ⟨⟨_, rfl⟩, ⟨_, rfl⟩, ⟨_, rfl⟩, ⟨_, rfl⟩, ⟨_, rfl⟩⟩
  have accounts := run_accounts_for_every_file everyFate "/src" .default
  rw [listed] at accounts
  obtain ⟨a, ran, -, reports, -, strict, distinct, sources, -⟩ := accounts
  refine ⟨everyFate_wellFormed, a, ran, ?_, strict ((distinct everyFate_wellFormed).2 texts), ?_⟩
  · rw [reports.length_eq]
    decide +kernel
  · rw [sources]
    decide +kernel

/-- Two files of a language that is not analysed. The first byte of each name is no text, so both
names are shown in the same way. -/
def shownAlike : Node :=
  [0xFE, 0xFF].foldl
    (fun tree first => tree.put ["src", ⟨first :: Utf8.encode ".java"⟩] (.file [])) .empty

/-- The diagnostics of files that are shown alike have one path, so their order is not strict. -/
theorem run_shownAlike :
    shownAlike.WellFormed ∧ ∃ a, (run shownAlike "/src" .default false .empty).1 = .ok a ∧
      a.diagnostics.map (·.path) = ["\uFFFD.java", "\uFFFD.java"] ∧
      ¬(a.diagnostics.map (·.path)).Pairwise Utf8.Before := by
  have wf : shownAlike.WellFormed := by
    iterate 2 refine wellFormed_put_source ?_ (by decide) _
    exact Node.wellFormed_empty
  let files : List RawText := [⟨0xFE :: Utf8.encode ".java"⟩, ⟨0xFF :: Utf8.encode ".java"⟩]
  have listed : listFiles shownAlike "/src" (listOptions .default) = .ok files := by decide +kernel
  have reported : (files.filterMap fun path =>
      (fate shownAlike "/src" Language.all files path).diagnostic?).map (·.path) =
        List.replicate 2 "\uFFFD.java" := by decide +kernel
  obtain ⟨ds, perm, result⟩ := ofFiles_eq shownAlike "/src" .default files
  have ran : (run shownAlike "/src" .default false .empty).1 =
      (ofFiles shownAlike "/src" .default false .empty files).1 := by
    simp [run, listed]
  have paths : (sortByPath ds).map (·.path) = List.replicate 2 "\uFFFD.java" :=
    List.perm_replicate.1 (reported ▸ ((sortByPath_perm ds).trans perm).map (·.path))
  refine ⟨wf, _, ran.trans result, paths, ?_⟩
  dsimp only
  rw [paths, List.replicate_succ, List.pairwise_cons]
  exact fun strict => Utf8.not_before_self _ (strict.1 _ List.mem_cons_self)

end Analysis

end PackageCoupling
