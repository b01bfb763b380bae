import PackageCoupling.Proofs.Accounting

/-!
# Analyses of selected languages

Which languages are selected decides whether a source counts, and nothing else: the language of a
file is told without the selection, and the modules that its extraction sees are those of its own
kind (`fate_of_language`). So the sources of two disjoint selections are together the sources of the
joint one, each with the same fate (`filterMap_fate_union`), and the graphs add up.
-/

namespace PackageCoupling

namespace ImportGraph

/-! ## Graphs of files that come from two lists -/

theorem count_ofFiles (files : List FileImports) (p i : String) :
    (ofFiles files).count p i = ((files.filter (·.package == p)).map (·.imports.count i)).sum := by
  rw [ofFiles_eq_foldl (.refl _), count_foldl]
  exact Nat.zero_add _

theorem contains_ofFiles (files : List FileImports) (p : String) :
    (ofFiles files).contains p = true ↔ ∃ f ∈ files, f.package = p := by
  rw [ofFiles_eq_foldl (.refl _), contains_foldl]
  simp [contains, empty, Table.contains]

theorem count_ofFiles_of_perm {a b files : List FileImports} (perm : (a ++ b).Perm files)
    (p i : String) : (ofFiles files).count p i = (ofFiles a).count p i + (ofFiles b).count p i := by
  rw [ofFiles_eq_foldl perm.symm, ← ofFiles_eq_foldl (.refl _), count_ofFiles, count_ofFiles,
    count_ofFiles, List.filter_append, List.map_append, List.sum_append]

theorem contains_ofFiles_of_perm {a b files : List FileImports} (perm : (a ++ b).Perm files)
    (p : String) : (ofFiles files).contains p = true ↔
      (ofFiles a).contains p = true ∨ (ofFiles b).contains p = true := by
  simp only [contains_ofFiles, ← perm.mem_iff, List.mem_append, or_and_right, exists_or]

end ImportGraph

namespace Analysis

/-! ## The language of a file -/

section Languages

variable (tree : Node) (root : RawText) (files : List RawText)

/-- The language of a listed file that is no descriptor, if its imports are understood. -/
def languageOf? (path : RawText) : Option Language :=
  match descriptorKind? path, tree.readHead (root.append path) detectionBytes with
  | none, .ok head =>
    match detect? path head with
    | some (.supported l) => some l
    | _ => none
  | _, _ => none

/-- The fate of a source of a selected language. -/
def sourceFate (path : RawText) (l : Language) : Fate :=
  match extraction tree root files l path with
  | .ok file => .contributes file
  | .error fault => .fails (.of path.slash (some l.name) fault)

/-- A source that is not selected is passed over; one that is selected has a fate of its own. -/
theorem fate_of_language {path : RawText} {l : Language} (h : languageOf? tree root path = some l)
    (languages : List Language) :
    fate tree root languages files path =
      if l ∈ languages then sourceFate tree root files path l else .passedOver := by
  unfold languageOf? at h
  split at h
  · rename_i head kind read
    split at h
    · rename_i l' detected
      cases h
      simp only [fate, kind, read, detected]
      rfl
    · cases h
  · cases h

theorem isSource_of_no_language {path : RawText} (h : languageOf? tree root path = none)
    (languages : List Language) : (fate tree root languages files path).isSource = false := by
  unfold languageOf? at h
  unfold fate
  cases kind : descriptorKind? path with
  | some k =>
    dsimp only
    split
    · split <;> rfl
    · rfl
  | none =>
    cases read : tree.readHead (root.append path) detectionBytes with
    | error e => rfl
    | ok head =>
      rw [kind, read] at h
      dsimp only at h ⊢
      cases detected : detect? path head with
      | none => rfl
      | some d =>
        cases d with
        | other name => rfl
        | supported l =>
          rw [detected] at h
          cases h

end Languages

/-! ## Two selections and their union -/

section Union

variable {S T U : List Language} (disjoint : ∀ l ∈ S, l ∉ T) (union : ∀ l, l ∈ U ↔ l ∈ S ∨ l ∈ T)
  (tree : Node) (root : RawText) (files : List RawText)

include union in
/-- Selecting more languages leaves the fate of a source as it is. -/
theorem fate_union_of_isSource {path : RawText}
    (source : (fate tree root S files path).isSource = true) :
    fate tree root U files path = fate tree root S files path := by
  cases language : languageOf? tree root path with
  | none =>
    rw [isSource_of_no_language tree root files language] at source
    cases source
  | some l =>
    rw [fate_of_language tree root files language] at source ⊢
    rw [fate_of_language tree root files language]
    split at source
    · rename_i selected
      rw [if_pos selected, if_pos ((union l).2 (.inl selected))]
    · cases source

variable {β : Type} {view : Fate → Option β}
  (sources : ∀ f : Fate, f.isSource = false → view f = none)

include disjoint sources in
/-- No source belongs to both selections. -/
theorem view_fate_disjoint (path : RawText) :
    view (fate tree root S files path) = none ∨ view (fate tree root T files path) = none := by
  cases language : languageOf? tree root path with
  | none => exact .inl (sources _ (isSource_of_no_language tree root files language S))
  | some l =>
    rw [fate_of_language tree root files language, fate_of_language tree root files language]
    by_cases selected : l ∈ S
    · right
      rw [if_neg (disjoint l selected)]
      exact sources _ rfl
    · left
      rw [if_neg selected]
      exact sources _ rfl

include union sources in
theorem view_fate_union (path : RawText) :
    view (fate tree root U files path) =
      (view (fate tree root S files path)).or (view (fate tree root T files path)) := by
  cases language : languageOf? tree root path with
  | none =>
    simp only [sources _ (isSource_of_no_language tree root files language _), Option.none_or]
  | some l =>
    have silent : view .passedOver = none := sources _ rfl
    simp only [fate_of_language tree root files language, union l]
    by_cases inS : l ∈ S <;> by_cases inT : l ∈ T <;> simp [inS, inT, silent]

include disjoint union sources in
/-- Whatever is read off the sources of two disjoint selections makes up what is read off all. -/
theorem filterMap_fate_union :
    (files.filterMap (fun path => view (fate tree root S files path)) ++
      files.filterMap fun path => view (fate tree root T files path)).Perm
        (files.filterMap fun path => view (fate tree root U files path)) := by
  have perm := filterMap_append_perm fun path (_ : path ∈ files) =>
    view_fate_disjoint disjoint tree root files sources path
  simpa only [← view_fate_union union tree root files sources] using perm

end Union

theorem contribution?_of_not_isSource (f : Fate) (h : f.isSource = false) :
    f.contribution? = none := by
  cases f with
  | contributes file => cases h
  | fails d => cases h
  | reported d => rfl
  | passedOver => rfl

theorem failure?_of_not_isSource (f : Fate) (h : f.isSource = false) : f.failure? = none := by
  cases f with
  | contributes file => cases h
  | fails d => cases h
  | reported d => rfl
  | passedOver => rfl

/-- What a fresh analysis of listed files gives, in terms of the sources among them. -/
theorem run_of_listed {tree : Node} {root : RawText} {o : AnalyzeOptions} {files : List RawText}
    (listed : listFiles tree root (listOptions o) = .ok files) (languages : List Language) :
    let f := fate tree root languages files
    ∃ a, (run tree root { o with languages := languages } false .empty).1 = .ok a ∧
      a.graph = .ofFiles (files.filterMap fun path => (f path).contribution?) ∧
      a.filesAnalyzed = (files.filterMap fun path => (f path).contribution?).length +
        (files.filterMap fun path => (f path).failure?).length := by
  intro f
  let selected : AnalyzeOptions := { o with languages := languages }
  have same : listFiles tree root (listOptions selected) = .ok files := listed
  obtain ⟨ds, -, result⟩ := ofFiles_eq tree root selected files
  have ran : (run tree root selected false .empty).1 =
      (ofFiles tree root selected false .empty files).1 := by
    rw [run, same]
    rfl
  exact ⟨_, ran.trans result, rfl, length_isSource f files⟩

/-- Analyses of two disjoint selections of languages add up to the analysis of both: the counts and
the numbers of files are sums, the packages are those of either, and no source of a selection has
another fate when more languages are selected. -/
theorem run_adds_over_languages (tree : Node) (root : RawText) (o : AnalyzeOptions)
    (S T U : List Language) (disjoint : ∀ l ∈ S, l ∉ T) (union : ∀ l, l ∈ U ↔ l ∈ S ∨ l ∈ T)
    (files : List RawText) (listed : listFiles tree root (listOptions o) = .ok files) :
    ∃ a b c, (run tree root { o with languages := S } false .empty).1 = .ok a ∧
      (run tree root { o with languages := T } false .empty).1 = .ok b ∧
      (run tree root { o with languages := U } false .empty).1 = .ok c ∧
      (∀ p i, c.graph.count p i = a.graph.count p i + b.graph.count p i) ∧
      (∀ p, c.graph.contains p = true ↔ a.graph.contains p = true ∨ b.graph.contains p = true) ∧
      c.filesAnalyzed = a.filesAnalyzed + b.filesAnalyzed ∧
      ∀ path ∈ files,
        ((fate tree root S files path).isSource = true →
          fate tree root U files path = fate tree root S files path) ∧
        ((fate tree root T files path).isSource = true →
          fate tree root U files path = fate tree root T files path) := by
  obtain ⟨a, ranS, graphS, sizeS⟩ := run_of_listed listed S
  obtain ⟨b, ranT, graphT, sizeT⟩ := run_of_listed listed T
  obtain ⟨c, ranU, graphU, sizeU⟩ := run_of_listed listed U
  have contributions := filterMap_fate_union disjoint union tree root files
    contribution?_of_not_isSource
  have failures := filterMap_fate_union disjoint union tree root files failure?_of_not_isSource
  refine ⟨a, b, c, ranS, ranT, ranU, ?_, ?_, ?_, ?_⟩
  · intro p i
    rw [graphS, graphT, graphU]
    exact ImportGraph.count_ofFiles_of_perm contributions p i
  · intro p
    rw [graphS, graphT, graphU]
    exact ImportGraph.contains_ofFiles_of_perm contributions p
  · have contributed := contributions.length_eq
    have failed := failures.length_eq
    rw [List.length_append] at contributed failed
    rw [sizeS, sizeT, sizeU, ← contributed, ← failed]
    omega
  · intro path _
    have swapped : ∀ l, l ∈ U ↔ l ∈ T ∨ l ∈ S := fun l => (union l).trans or_comm
    exact ⟨fate_union_of_isSource union tree root files,
      fate_union_of_isSource swapped tree root files⟩

/-- A JavaScript and a TypeScript source of one package. -/
def mixedSources : Node :=
  [("a.js", "import 'fs'\n"), ("b.ts", "import 'fs'\n"),
    ("package.json", "\x7b\"name\": \"web\"\x7d")].foldl
    (fun tree (name, text) => tree.put ["src", name] (.file (Utf8.encode text))) .empty

theorem run_adds_over_scripts :
    let S : List Language := [.javaScript]
    let T : List Language := [.tsx, .typeScript]
    let U : List Language := [.typeScript, .javaScript, .tsx, .typeScript]
    let options : AnalyzeOptions := .default
    (∀ l ∈ S, l ∉ T) ∧ (∀ l, l ∈ U ↔ l ∈ S ∨ l ∈ T) ∧
      listFiles mixedSources "/src" (listOptions options) = .ok ["a.js", "b.ts", "package.json"] ∧
      ∃ a b c, (run mixedSources "/src" { options with languages := S } false .empty).1 = .ok a ∧
        (run mixedSources "/src" { options with languages := T } false .empty).1 = .ok b ∧
        (run mixedSources "/src" { options with languages := U } false .empty).1 = .ok c ∧
        a.graph.count "web" "fs" = 1 ∧ b.graph.count "web" "fs" = 1 ∧
        c.graph.count "web" "fs" = a.graph.count "web" "fs" + b.graph.count "web" "fs" ∧
        a.filesAnalyzed = 1 ∧ b.filesAnalyzed = 1 ∧
        c.filesAnalyzed = a.filesAnalyzed + b.filesAnalyzed := by
  intro S T U options
  have disjoint : ∀ l ∈ S, l ∉ T := by decide
  have union : ∀ l, l ∈ U ↔ l ∈ S ∨ l ∈ T := by
    intro l
    cases l <;> decide
  have listed : listFiles mixedSources "/src" (listOptions options) =
      .ok ["a.js", "b.ts", "package.json"] := by decide +kernel
  obtain ⟨a, b, c, ranS, ranT, ranU, counts, -, sizes, -⟩ :=
    run_adds_over_languages mixedSources "/src" options S T U disjoint union _ listed
  have one : ∀ languages ∈ [S, T], ∀ a,
      (run mixedSources "/src" { options with languages := languages } false .empty).1 = .ok a →
        a.graph.count "web" "fs" = 1 ∧ a.filesAnalyzed = 1 := by
    intro languages mem a ran
    have computed : ∀ l ∈ [S, T],
        (run mixedSources "/src" { options with languages := l } false .empty).1.toOption.map
          (fun a => (a.graph.count "web" "fs", a.filesAnalyzed)) = some (1, 1) := by decide +kernel
    have shown := computed languages mem
    rw [ran] at shown
    exact Prod.mk.inj (Option.some.inj shown)
  obtain ⟨countS, sizeS⟩ := one S List.mem_cons_self a ranS
  obtain ⟨countT, sizeT⟩ := one T (List.mem_cons_of_mem _ List.mem_cons_self) b ranT
  exact ⟨disjoint, union, listed, a, b, c, ranS, ranT, ranU, countS, countT, counts "web" "fs",
    sizeS, sizeT, sizes⟩

end Analysis

end PackageCoupling
