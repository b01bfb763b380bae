import PackageCoupling.Proofs.Accounting

/-!
# What a list of descriptors resolves to

Descriptors are taken one by one. A step puts the identifier of a descriptor at its directory or
reports why there is none (`find?_resolveStep`), so in the end a directory has the identifier of the
last of its descriptors that declares one (`find?_resolve`), whatever the failing ones in between.
-/

namespace PackageCoupling.Descriptor

section

variable {tree : Node} {root : RawText} {kind : DescriptorKind} {paths : List RawText}

/-- The identifier that a descriptor declares for a directory. It declares one for its own only. -/
def declaredIn? (tree : Node) (root : RawText) (kind : DescriptorKind) (dir : String)
    (path : RawText) : Option String :=
  if path.directory = dir then (ofFile tree root kind path).toOption else none

theorem declaredIn?_eq_some_iff {dir id : String} {path : RawText} :
    declaredIn? tree root kind dir path = some id ↔
      path.directory = dir ∧ ofFile tree root kind path = .ok id := by
  unfold declaredIn?
  cases ofFile tree root kind path <;> simp [Except.toOption]

theorem declaredIn?_eq_none_iff {dir : String} {path : RawText} :
    declaredIn? tree root kind dir path = none ↔
      (path.directory = dir → ∀ id, ofFile tree root kind path ≠ .ok id) := by
  rw [Option.eq_none_iff_forall_ne_some]
  simp only [ne_eq, declaredIn?_eq_some_iff, not_and]
  exact forall_comm

theorem find?_resolveStep (s : ModuleMap × List Diagnostic) (dir : String) (path : RawText) :
    (resolveStep tree root kind s path).1.find? dir =
      (declaredIn? tree root kind dir path).or (s.1.find? dir) := by
  unfold resolveStep declaredIn?
  cases ofFile tree root kind path with
  | error fault => simp [Except.toOption]
  | ok id =>
    simp only [Table.find?_insert, eq_comm (a := dir)]
    split <;> simp [Except.toOption]

/-- A directory has the identifier of the last of its descriptors that declares one. -/
theorem find?_resolve (paths : List RawText) (dir : String) :
    (resolve tree root kind paths).1.find? dir =
      (paths.filterMap (declaredIn? tree root kind dir)).getLast? := by
  have general : ∀ s : ModuleMap × List Diagnostic,
      (paths.foldl (resolveStep tree root kind) s).1.find? dir =
        (paths.filterMap (declaredIn? tree root kind dir)).getLast?.or (s.1.find? dir) := by
    induction paths with
    | nil => simp
    | cons path rest ih =>
      intro s
      rw [List.foldl_cons, ih, find?_resolveStep, filterMap_cons_toList, List.getLast?_append,
        Option.or_assoc]
      cases declaredIn? tree root kind dir path <;> rfl
  rw [resolve, general]
  exact Option.or_none

theorem find?_resolve_eq_some_iff {dir id : String} :
    (resolve tree root kind paths).1.find? dir = some id ↔
      ∃ before path after, paths = before ++ path :: after ∧ path.directory = dir ∧
        ofFile tree root kind path = .ok id ∧
        ∀ later ∈ after, later.directory = dir → ∀ id',
          ofFile tree root kind later ≠ .ok id' := by
  rw [find?_resolve, List.getLast?_filterMap, List.findSome?_eq_some_iff]
  constructor
  · rintro ⟨after, path, before, eq, declared, silent⟩
    obtain ⟨own, read⟩ := declaredIn?_eq_some_iff.1 declared
    refine ⟨before.reverse, path, after.reverse, ?_, own, read, fun later mem => ?_⟩
    · rw [← List.reverse_reverse paths, eq]
      simp
    · exact declaredIn?_eq_none_iff.1 (silent later (List.mem_reverse.1 mem))
  · rintro ⟨before, path, after, rfl, own, read, silent⟩
    refine ⟨after.reverse, path, before.reverse, by simp, declaredIn?_eq_some_iff.2 ⟨own, read⟩, ?_⟩
    intro later mem
    exact declaredIn?_eq_none_iff.2 (silent later (List.mem_reverse.1 mem))

theorem find?_resolve_eq_none_iff {dir : String} :
    (resolve tree root kind paths).1.find? dir = none ↔
      ∀ path ∈ paths, path.directory = dir → ∀ id, ofFile tree root kind path ≠ .ok id := by
  rw [find?_resolve, List.getLast?_eq_none_iff, List.filterMap_eq_nil_iff]
  simp only [declaredIn?_eq_none_iff]

/-! ## Successes and failures -/

/-- Whether a descriptor declares an identifier. -/
def succeeds (tree : Node) (root : RawText) (kind : DescriptorKind) (path : RawText) : Bool :=
  (ofFile tree root kind path).toOption.isSome

theorem succeeds_iff {path : RawText} :
    succeeds tree root kind path = true ↔ ∃ id, ofFile tree root kind path = .ok id := by
  unfold succeeds
  cases ofFile tree root kind path <;> simp [Except.toOption]

theorem diagnostics_resolve (paths : List RawText) : (resolve tree root kind paths).2 =
    paths.filterMap (Analysis.descriptorFault? tree root kind) := by
  rw [resolve, Analysis.resolve_diagnostics]
  rfl

theorem length_diagnostics_resolve (paths : List RawText) :
    (resolve tree root kind paths).2.length =
      paths.countP fun path => !succeeds tree root kind path := by
  rw [diagnostics_resolve, List.length_filterMap_eq_countP]
  refine List.countP_congr fun path _ => ?_
  unfold succeeds Analysis.descriptorFault?
  cases ofFile tree root kind path <;> simp [Except.toOption]

/-! ## One descriptor in each directory -/

section Distinct

variable (distinct : (paths.map RawText.directory).Nodup)

include distinct in
theorem find?_resolve_of_distinct {dir id : String} :
    (resolve tree root kind paths).1.find? dir = some id ↔
      ∃ path ∈ paths, path.directory = dir ∧ ofFile tree root kind path = .ok id := by
  rw [find?_resolve_eq_some_iff]
  constructor
  · rintro ⟨before, path, after, rfl, own, read, -⟩
    exact ⟨path, by simp, own, read⟩
  · rintro ⟨path, mem, own, read⟩
    obtain ⟨before, after, rfl⟩ := List.append_of_mem mem
    refine ⟨before, path, after, rfl, own, read, fun later mem' own' => ?_⟩
    have apart : path.directory ≠ later.directory := by
      rw [List.map_append, List.map_cons] at distinct
      have fresh := (List.nodup_cons.1 (List.nodup_append.1 distinct).2.1).1
      exact fun eq => fresh (List.mem_map.2 ⟨later, mem', eq.symm⟩)
    exact absurd (own.trans own'.symm) apart

include distinct in
theorem size_resolve : (resolve tree root kind paths).1.size =
    paths.countP (succeeds tree root kind) := by
  have nodup : ((paths.filter (succeeds tree root kind)).map RawText.directory).Nodup :=
    distinct.sublist (List.filter_sublist.map _)
  have perm : (resolve tree root kind paths).1.keys.Perm
      ((paths.filter (succeeds tree root kind)).map RawText.directory) := by
    refine (List.perm_ext_iff_of_nodup (Table.distinct_keys _) nodup).2 fun dir => ?_
    refine (Table.mem_keys_iff _ dir).trans ?_
    simp only [find?_resolve_of_distinct distinct, List.mem_map, List.mem_filter, succeeds_iff]
    constructor
    · rintro ⟨id, path, mem, own, read⟩
      exact ⟨path, ⟨mem, id, read⟩, own⟩
    · rintro ⟨path, ⟨mem, id, read⟩, own⟩
      exact ⟨id, path, mem, own, read⟩
  rw [List.countP_eq_length_filter, ← List.length_map (f := RawText.directory),
    ← perm.length_eq, Table.keys, List.length_map, Table.size]

include distinct in
theorem resolve_perm {paths' : List RawText} (perm : paths'.Perm paths) :
    (resolve tree root kind paths').1 = (resolve tree root kind paths).1 := by
  have distinct' : (paths'.map RawText.directory).Nodup := (perm.map _).nodup_iff.2 distinct
  refine Table.ext_find? fun dir => Option.ext fun id => ?_
  rw [find?_resolve_of_distinct distinct, find?_resolve_of_distinct distinct']
  simp only [perm.mem_iff]

end Distinct

end

/-- Resolving descriptors reports the failing ones, each once and in the order of the list, and
gives each directory the identifier of the last of its descriptors that declares one. If no two
descriptors share a directory, each is either reported or in the map, and the order of the list does
not matter to the map. -/
theorem resolve_takes_last (tree : Node) (root : RawText) (kind : DescriptorKind)
    (paths : List RawText) :
    (resolve tree root kind paths).2 = paths.filterMap (Analysis.descriptorFault? tree root kind) ∧
    (∀ dir id, (resolve tree root kind paths).1.find? dir = some id ↔
      ∃ before path after, paths = before ++ path :: after ∧ path.directory = dir ∧
        ofFile tree root kind path = .ok id ∧
        ∀ later ∈ after, later.directory = dir → ∀ id', ofFile tree root kind later ≠ .ok id') ∧
    (∀ dir, (resolve tree root kind paths).1.find? dir = none ↔
      ∀ path ∈ paths, path.directory = dir → ∀ id, ofFile tree root kind path ≠ .ok id) ∧
    ((paths.map RawText.directory).Nodup →
      (resolve tree root kind paths).1.size + (resolve tree root kind paths).2.length =
        paths.length ∧
      ∀ paths', paths'.Perm paths →
        (resolve tree root kind paths').1 = (resolve tree root kind paths).1) := by
  refine ⟨diagnostics_resolve paths, fun _ _ => find?_resolve_eq_some_iff,
    fun _ => find?_resolve_eq_none_iff,
      fun distinct => ⟨?_, fun _ perm => resolve_perm distinct perm⟩⟩
  rw [size_resolve distinct, length_diagnostics_resolve]
  simpa using (List.length_eq_countP_add_countP (succeeds tree root kind) (l := paths)).symm

/-- A tree with a descriptor at its root, one that declares nothing, and a directory in the place of
one. -/
def mixedDescriptors : Node :=
  ((Node.empty.put ["go.mod"] (.file (Utf8.encode "module example.com/root\n"))).put
    ["broken", "go.mod"] (.file (Utf8.encode "go 1.22\n"))).put ["dir", "go.mod"] .empty

def mixedPaths : List RawText := ["dir/go.mod", "go.mod", "broken/go.mod", "missing/go.mod"]

theorem resolve_mixedDescriptors : (mixedPaths.map RawText.directory).Nodup ∧
    (resolve mixedDescriptors "/" .goModule mixedPaths).1.find? "." = some "example.com/root" ∧
    (resolve mixedDescriptors "/" .goModule mixedPaths).1.size +
      (resolve mixedDescriptors "/" .goModule mixedPaths).2.length = 4 ∧
    (resolve mixedDescriptors "/" .goModule mixedPaths.reverse).1 =
      (resolve mixedDescriptors "/" .goModule mixedPaths).1 := by
  obtain ⟨-, held, -, apart⟩ := resolve_takes_last mixedDescriptors "/" .goModule mixedPaths
  have distinct : (mixedPaths.map RawText.directory).Nodup := by decide +kernel
  have root : ofFile mixedDescriptors "/" .goModule "go.mod" = .ok "example.com/root" := rfl
  let after : List RawText := ["broken/go.mod", "missing/go.mod"]
  have others : ∀ later ∈ after, later.directory ≠ "." := by decide +kernel
  refine ⟨distinct, (held _ _).2 ?_, (apart distinct).1,
    (apart distinct).2 _ mixedPaths.reverse_perm⟩
  exact ⟨["dir/go.mod"], "go.mod", after, rfl, by decide +kernel, root,
    fun later mem own => absurd own (others later mem)⟩

end PackageCoupling.Descriptor
