import PackageCoupling.Proofs.Selection

/-!
# Languages are selected as a set

The languages of an analysis are given as a list, and the descriptors are resolved kind by kind in
the order of that list. What comes out depends only on which languages are in the list:

* `kindsOf_perm`: every kind is resolved once, wherever and however often its languages are listed;
* `kind_of_reported`: descriptors of different kinds are reported under different paths, so the
  order of the kinds does not touch what is reported under one path (`filter_descriptorFaults`);
* `sortByPath_eq_of_filter_eq`: sorting is stable, so what is reported under each path decides the
  rest.

That the files of a tree have different paths is not used.
-/

namespace PackageCoupling

/-- Where at most one key gives anything, the order of the keys does not matter. -/
theorem flatMap_eq_of_perm {κ β : Type} {keys keys' : List κ} (perm : keys.Perm keys')
    {f : κ → List β}
    (apart : ∀ a b, a ≠ b → f a = [] ∨ f b = []) : keys.flatMap f = keys'.flatMap f := by
  induction perm with
  | nil => rfl
  | cons k _ ih => rw [List.flatMap_cons, List.flatMap_cons, ih]
  | swap a b rest =>
    by_cases eq : a = b
    · rw [eq]
    · rcases apart a b eq with h | h <;> simp [List.flatMap_cons, h]
  | trans _ _ ih ih' => exact ih.trans ih'

namespace Analysis

/-! ## Sorting by path -/

/-- Sorting does not move diagnostics of one path past each other. -/
theorem filter_sortByPath (ds : List Diagnostic) (path : String) :
    (sortByPath ds).filter (·.path == path) = ds.filter (·.path == path) := by
  have tied : (ds.filter (·.path == path)).Pairwise fun a b => decide (a.path ≤ b.path) = true := by
    apply List.pairwise_of_forall_mem_list
    intro a ha b hb
    rw [List.mem_filter, beq_iff_eq] at ha hb
    rw [ha.2, hb.2]
    exact decide_eq_true (String.le_refl path)
  have kept : (ds.filter (·.path == path)).Sublist (sortByPath ds) :=
    List.sublist_mergeSort path_le_trans path_le_total tied List.filter_sublist
  have kept' : (ds.filter (·.path == path)).Sublist ((sortByPath ds).filter (·.path == path)) := by
    simpa [List.filter_filter] using kept.filter (·.path == path)
  have length := ((sortByPath_perm ds).filter (·.path == path)).length_eq
  exact (kept'.eq_of_length length.symm).symm

theorem head_path_le {a b : Diagnostic} {l m : List Diagnostic}
    (sorted : (a :: l).Pairwise fun a b => a.path ≤ b.path)
    (same : ∀ path, (a :: l).filter (·.path == path) = (b :: m).filter (·.path == path)) :
    a.path ≤ b.path := by
  have mem : b ∈ (b :: m).filter (·.path == b.path) := by simp
  rw [← same] at mem
  rcases List.mem_cons.1 (List.mem_of_mem_filter mem) with rfl | mem
  · exact String.le_refl _
  · exact (List.pairwise_cons.1 sorted).1 b mem

/-- Diagnostics in order are told by what stands under each path. -/
theorem eq_of_sorted_of_filter_eq {l m : List Diagnostic}
    (hl : l.Pairwise fun a b => a.path ≤ b.path) (hm : m.Pairwise fun a b => a.path ≤ b.path)
    (same : ∀ path, l.filter (·.path == path) = m.filter (·.path == path)) : l = m := by
  induction l generalizing m with
  | nil =>
    cases m with
    | nil => rfl
    | cons b m => simpa using same b.path
  | cons a l ih =>
    cases m with
    | nil => simpa using same a.path
    | cons b m =>
      -- Both heads have the smallest path there is, and come first under it.
      have path : a.path = b.path :=
        String.le_antisymm (head_path_le hl same) (head_path_le hm fun p => (same p).symm)
      have heads := same a.path
      rw [List.filter_cons_of_pos (by simp), List.filter_cons_of_pos (by simp [path])] at heads
      obtain ⟨rfl, -⟩ := List.cons.inj heads
      refine congrArg (a :: ·) (ih hl.of_cons hm.of_cons fun p => ?_)
      have rest := same p
      rw [List.filter_cons, List.filter_cons] at rest
      split at rest
      · exact (List.cons.inj rest).2
      · exact rest

theorem sortByPath_eq_of_filter_eq {ds ds' : List Diagnostic}
    (same : ∀ path, ds.filter (·.path == path) = ds'.filter (·.path == path)) :
    sortByPath ds = sortByPath ds' := by
  apply eq_of_sorted_of_filter_eq (sortByPath_sorted ds) (sortByPath_sorted ds')
  intro path
  rw [filter_sortByPath, filter_sortByPath, same]

/-! ## Kinds in any order -/

/-- Whether a path ends in the file name of a kind. -/
def EndsIn (path : String) (kind : DescriptorKind) : Prop :=
  (Path.steps path).getLast? = some (.down kind.fileName)

theorem EndsIn.unique {path : String} {kind kind' : DescriptorKind} (h : EndsIn path kind)
    (h' : EndsIn path kind') : kind = kind' := by
  have names : kind.fileName = kind'.fileName :=
    Path.Step.down.inj (Option.some.inj (h.symm.trans h'))
  have back : ∀ k : DescriptorKind, DescriptorKind.ofFileName? k.fileName = some k := by
    intro k
    cases k <;> decide
  exact Option.some.inj ((back kind).symm.trans (names ▸ back kind'))

theorem endsIn_slash {path : RawText} {kind : DescriptorKind}
    (h : descriptorKind? path = some kind) : EndsIn path.slash kind := by
  obtain ⟨s, isText, isKind⟩ := Option.bind_eq_some_iff.1 h
  obtain ⟨name, last, text⟩ := Option.bind_eq_some_iff.1 isText
  rw [DescriptorKind.ofFileName?] at isKind
  have fileName := List.find?_some isKind
  have shown : name.text = s := Utf8.lossy_of_text? text
  rw [EndsIn, RawText.getLast?_steps_slash last, shown, beq_iff_eq.1 fileName]

/-- The path of a report tells the kind of the descriptor. -/
theorem kind_of_reported {tree : Node} {root : RawText} {files : List RawText}
    {kind : DescriptorKind} {d : Diagnostic} (h : d ∈ (modulesOf tree root files kind).2) :
    EndsIn d.path kind := by
  rw [modulesOf_diagnostics] at h
  obtain ⟨path, -, report⟩ := List.mem_filterMap.1 h
  split at report
  · rename_i isKind
    unfold descriptorFault? at report
    split at report
    · cases report
    · cases report
      exact endsIn_slash isKind
  · cases report

theorem filter_descriptorFaults (tree : Node) (root : RawText) (files : List RawText)
    {kinds kinds' : List DescriptorKind} (perm : kinds.Perm kinds') (path : String) :
    (kinds.flatMap fun kind => (modulesOf tree root files kind).2).filter (·.path == path) =
      (kinds'.flatMap fun kind => (modulesOf tree root files kind).2).filter (·.path == path) := by
  rw [List.filter_flatMap, List.filter_flatMap]
  apply flatMap_eq_of_perm perm
  have silent : ∀ kind, ¬EndsIn path kind →
      (modulesOf tree root files kind).2.filter (·.path == path) = [] := by
    intro kind other
    rw [List.filter_eq_nil_iff]
    intro d hd eq
    rw [beq_iff_eq] at eq
    exact other (eq ▸ kind_of_reported hd)
  intro a b ne
  by_cases own : EndsIn path a
  · exact .inr (silent b fun other => ne (own.unique other))
  · exact .inl (silent a own)

section SameSet

variable {S T : List Language} (same : ∀ l, l ∈ S ↔ l ∈ T) (tree : Node) (root : RawText)

include same

/-- The kinds of the languages, each once, are the same up to their order. -/
theorem kindsOf_perm : (kindsOf S).Perm (kindsOf T) := by
  rw [kindsOf, kindsOf, List.perm_ext_iff_of_nodup (nodup_eraseDups _) (nodup_eraseDups _)]
  intro kind
  simp only [List.mem_eraseDups, List.mem_map, same]

theorem classify_eq : classify tree root S = classify tree root T := by
  have selected : ∀ l, S.contains l = T.contains l := by
    intro l
    rw [Bool.eq_iff_iff, List.contains_iff_mem, List.contains_iff_mem, same]
  funext path
  unfold classify
  simp only [selected]

/-- A source finds the modules of its kind whatever the order in which the kinds were resolved. -/
theorem lookup_kinds_eq {β : Type} (f : DescriptorKind → β) (kind : DescriptorKind) :
    ((kindsOf S).map fun kind => (kind, f kind)).lookup kind =
      ((kindsOf T).map fun kind => (kind, f kind)).lookup kind := by
  simp only [lookup_map_self, (kindsOf_perm same).mem_iff]

theorem ofFiles_languages_eq (o : AnalyzeOptions) (cancelled : Bool) (registry : Registry)
    (files : List RawText) :
    ofFiles tree root { o with languages := S } cancelled registry files =
      ofFiles tree root { o with languages := T } cancelled registry files := by
  unfold ofFiles
  dsimp only
  simp only [classify_eq same tree root, lookup_kinds_eq same, List.flatMap_map]
  -- Only the reports of the descriptors are collected in the order of the kinds.
  have reports : ∀ rest, sortByPath
      (((kindsOf S).flatMap fun kind => (modulesOf tree root files kind).2) ++ rest) =
        sortByPath (((kindsOf T).flatMap fun kind => (modulesOf tree root files kind).2) ++
          rest) := by
    intro rest
    apply sortByPath_eq_of_filter_eq
    intro path
    rw [List.filter_append, List.filter_append,
      filter_descriptorFaults tree root files (kindsOf_perm same)]
  simp only [List.append_assoc, reports]

end SameSet

/-- An analysis depends on which languages are selected, not on how they are listed: two lists with
the same members give the same graph, the same diagnostics in the same order and the same number of
files, or the same fault, and leave the same registry. Where the files can be listed, a fresh
analysis that is not cancelled gives a result. -/
theorem run_of_same_languages (tree : Node) (root : RawText) (o : AnalyzeOptions)
    (S T : List Language) (same : ∀ l, l ∈ S ↔ l ∈ T) :
    (∀ cancelled registry, run tree root { o with languages := S } cancelled registry =
      run tree root { o with languages := T } cancelled registry) ∧
    ∀ files, listFiles tree root (listOptions o) = .ok files →
      ∃ a, (run tree root { o with languages := S } false .empty).1 = .ok a ∧
        (run tree root { o with languages := T } false .empty).1 = .ok a := by
  have equal : ∀ cancelled registry, run tree root { o with languages := S } cancelled registry =
      run tree root { o with languages := T } cancelled registry := by
    intro cancelled registry
    unfold run
    rw [show listOptions { o with languages := S } = listOptions { o with languages := T } from rfl]
    cases listFiles tree root (listOptions { o with languages := T }) with
    | error fault => rfl
    | ok files =>
      dsimp only
      rw [ofFiles_languages_eq same]
  refine ⟨equal, fun files listed => ?_⟩
  obtain ⟨a, ran, -, -⟩ := run_of_listed listed S
  exact ⟨a, ran, (congrArg Prod.fst (equal false .empty)).symm.trans ran⟩

/-- Descriptors of two kinds, neither of which declares a module. -/
def emptyDescriptors : Node :=
  [("a.go", "package a\n"), ("go.mod", ""), ("package.json", "")].foldl
    (fun tree (name, text) => tree.put ["src", .ofText name] (.file (Utf8.encode text))) .empty

theorem run_of_same_languages_reordered :
    let S : List Language := [.typeScript, .go, .javaScript]
    let T : List Language := [.go, .javaScript, .go, .typeScript]
    let options : AnalyzeOptions := .default
    (∀ l, l ∈ S ↔ l ∈ T) ∧ kindsOf S ≠ kindsOf T ∧
      listFiles emptyDescriptors "/src" (listOptions options) =
        .ok ["a.go", "go.mod", "package.json"] ∧
      ∃ a, (run emptyDescriptors "/src" { options with languages := S } false .empty).1 = .ok a ∧
        (run emptyDescriptors "/src" { options with languages := T } false .empty).1 = .ok a ∧
        a.diagnostics.length = 2 := by
  intro S T options
  have same : ∀ l, l ∈ S ↔ l ∈ T := by
    intro l
    cases l <;> decide
  have listed : listFiles emptyDescriptors "/src" (listOptions options) =
      .ok ["a.go", "go.mod", "package.json"] := by decide +kernel
  obtain ⟨a, ranS, ranT⟩ :=
    (run_of_same_languages emptyDescriptors "/src" options S T same).2 _ listed
  refine ⟨same, by decide, listed, a, ranS, ranT, ?_⟩
  obtain ⟨ds, reports, result⟩ := ofFiles_eq emptyDescriptors "/src" { options with languages := S }
    ["a.go", "go.mod", "package.json"]
  have analyzed : (run emptyDescriptors "/src" { options with languages := S } false .empty).1 =
      (ofFiles emptyDescriptors "/src" { options with languages := S } false .empty
        ["a.go", "go.mod", "package.json"]).1 := by
    rw [run, show listOptions { options with languages := S } = listOptions options from rfl,
      listed]
    rfl
  rw [analyzed, result] at ranS
  cases ranS
  rw [(sortByPath_perm ds).length_eq, reports.length_eq]
  decide +kernel

end Analysis

end PackageCoupling
