import Mathlib.Data.List.Nodup
import PackageCoupling.Proofs.ByteOrder
import PackageCoupling.Proofs.TreeChange

/-!
# What filters leave of a listing

Filters are asked about a file and about every directory between the root and the file. A file that
none of them rejects on the way is listed, unless ignore rules leave it out. So without rules a
listing is the files of the tree that are not rejected, and rules only take away from that
(`listFiles_of_filters`).
-/

namespace PackageCoupling

/-! ## Rejected files -/

/-- Whether no filter rejects a file or a directory strictly between the root and the file. The root
itself is not asked about. -/
def Unrejected (filters : List Filter) (file : List RawText) : Prop :=
  (file ≠ [] → ∀ r ∈ filters, r.rejects file false = false) ∧
    ∀ dir, dir ≠ [] → dir <+: file → dir ≠ file → ∀ r ∈ filters, r.rejects dir true = false

/-- Whether no filter rejects `entry ++ tail` or a directory from `entry` down to it. -/
def passes (filters : List Filter) : List RawText → List RawText → Bool
  | entry, [] => !filters.any (·.rejects entry false)
  | entry, name :: rest => !filters.any (·.rejects entry true) &&
      passes filters (entry ++ [name]) rest

theorem none_rejects_iff {filters : List Filter} {path : List RawText} {isDir : Bool} :
    (!filters.any (·.rejects path isDir)) = true ↔ ∀ r ∈ filters, r.rejects path isDir = false := by
  simp

theorem passes_iff {filters : List Filter} {entry tail : List RawText} :
    passes filters entry tail = true ↔ (∀ r ∈ filters, r.rejects (entry ++ tail) false = false) ∧
      ∀ front, front <+: tail → front ≠ tail → ∀ r ∈ filters,
        r.rejects (entry ++ front) true = false := by
  induction tail generalizing entry with
  | nil =>
    rw [passes, none_rejects_iff, List.append_nil]
    refine (and_iff_left ?_).symm
    intro front le ne
    exact absurd (List.prefix_nil.1 le) ne
  | cons name rest ih =>
    rw [passes, Bool.and_eq_true, none_rejects_iff, ih, List.append_assoc, List.singleton_append]
    constructor
    · rintro ⟨here, file, below⟩
      refine ⟨file, fun front le ne => ?_⟩
      rcases List.prefix_cons_iff.1 le with rfl | ⟨front, rfl, within⟩
      · rwa [List.append_nil]
      · have deeper := below front within fun eq => ne (eq ▸ rfl)
        rwa [List.append_assoc, List.singleton_append] at deeper
    · rintro ⟨file, below⟩
      refine ⟨?_, file, fun front le ne => ?_⟩
      · have here := below [] List.nil_prefix (by simp)
        rwa [List.append_nil] at here
      · rw [List.append_assoc, List.singleton_append]
        exact below (name :: front) (List.cons_prefix_cons.2 ⟨rfl, le⟩) (by simpa using ne)

theorem unrejected_nil (filters : List Filter) : Unrejected filters [] :=
  ⟨fun ne => absurd rfl ne, fun _ ne le => absurd (List.prefix_nil.1 le) ne⟩

theorem unrejected_cons_iff {filters : List Filter} {name : RawText} {rest : List RawText} :
    Unrejected filters (name :: rest) ↔ passes filters [name] rest = true := by
  rw [passes_iff]
  refine and_congr (forall_prop_of_true (List.cons_ne_nil name rest)) ?_
  constructor
  · intro outer front le ne
    exact outer (name :: front) (by simp) (List.cons_prefix_cons.2 ⟨rfl, le⟩) (by simpa using ne)
  · intro below dir nonempty le ne
    rcases List.prefix_cons_iff.1 le with rfl | ⟨front, rfl, within⟩
    · exact absurd rfl nonempty
    · exact below front within fun eq => ne (eq ▸ rfl)

instance (filters : List Filter) : DecidablePred (Unrejected filters)
  | [] => isTrue (unrejected_nil filters)
  | _ :: _ => decidable_of_iff _ unrejected_cons_iff.symm

/-! ## Directories without ignore rules -/

/-- Whether no file with ignore rules stands in a directory around a place or below it. -/
def RuleFree (tree : Node) (place : List RawText) : Prop :=
  ∀ dir, dir <+: place ∨ place <+: dir → ∀ name ∈ [".ignore", ".gitignore", ".git/info/exclude"],
    ∀ content, tree.read (Node.placePath (dir ++ [.ofText name])) ≠ .ok content

/-- Without links it is enough that no file of the tree is named like one with rules. -/
theorem ruleFree_of_linkFree {tree : Node} (wf : tree.WellFormed) (free : tree.LinkFree)
    (others : ∀ f ∈ tree.filePlaces, ∀ name ∈ ruleFiles true,
      f.getLast? ≠ some (.ofText (Path.baseName name)))
    (place : List RawText) : RuleFree tree place := by
  intro dir _ name mem content read
  obtain ⟨f, resolved, found⟩ := Node.read_eq_ok_iff.1 read
  have file : f ∈ tree.filePlaces :=
    (Node.mem_filePlaces_iff wf).2 ⟨content, Node.entryAt?_eq_file_iff.1 found⟩
  have rules : name ∈ ruleFiles true := by
    have each : [".ignore", ".gitignore", ".git/info/exclude"] ⊆ ruleFiles true := by decide
    exact each mem
  exact rulesApart_of_linkFree free true (others f file) dir name rules resolved

namespace IgnoreLevel

/-- Whether a level has no rules. -/
def Silent (level : IgnoreLevel) : Prop :=
  level.ignore = [] ∧ level.gitignore = [] ∧ level.exclude = []

theorem firstVerdict?_eq_none {rules : IgnoreLevel → IgnoreRules} {levels : List IgnoreLevel}
    (silent : ∀ level ∈ levels, rules level = []) (entry : List RawText) (isDir : Bool) :
    firstVerdict? rules entry isDir levels = none := by
  rw [firstVerdict?, List.findSome?_eq_none_iff]
  intro level mem
  rw [silent level mem]
  rfl

theorem withinRepository_subset (levels : List IgnoreLevel) : withinRepository levels ⊆ levels := by
  induction levels with
  | nil => exact List.Subset.refl _
  | cons level rest ih =>
    rw [withinRepository]
    split
    · simp
    · exact List.cons_subset_cons level ih

theorem verdict?_eq_none {levels : List IgnoreLevel} (silent : ∀ level ∈ levels, level.Silent)
    (entry : List RawText) (isDir : Bool) : verdict? levels entry isDir = none := by
  have within : ∀ level ∈ (if levels.any (·.hasRepository) then withinRepository levels else []),
      level.Silent := by
    intro level mem
    split at mem
    · exact silent level (withinRepository_subset levels mem)
    · cases mem
  unfold verdict?
  dsimp only
  rw [firstVerdict?_eq_none fun level mem => (silent level mem).1,
    firstVerdict?_eq_none fun level mem => (within level mem).2.1,
    firstVerdict?_eq_none fun level mem => (within level mem).2.2]
  rfl

theorem silent_ofDir {tree : Node} {place dir : List RawText} (free : RuleFree tree place)
    (near : dir <+: place ∨ place <+: dir) (respect : Bool) : (ofDir tree respect dir).Silent := by
  have none : ∀ name ∈ [".ignore", ".gitignore", ".git/info/exclude"],
      IgnoreRules.ofFile tree (Node.placePath (dir ++ [.ofText name])) = [] := by
    intro name mem
    unfold IgnoreRules.ofFile
    split
    · rename_i content read
      exact absurd read (free dir near name mem content)
    · rfl
  simp only [List.forall_mem_cons] at none
  refine ⟨?_, ?_, none.2.2.1⟩
  · simp [ofDir, none.1]
  · simp [ofDir, none.2.1]

end IgnoreLevel

namespace Lister

variable {l : Lister}

/-- Whatever the rules say, what is listed is not rejected. -/
theorem passes_of_admits {levels : List IgnoreLevel} {entry tail : List RawText}
    (admits : l.admits levels entry tail = true) : passes l.options.filters entry tail = true := by
  induction tail generalizing levels entry with
  | nil =>
    rw [Lister.admits, keeps, Bool.and_eq_true] at admits
    exact admits.1
  | cons name rest ih =>
    rw [Lister.admits, keeps, Bool.and_eq_true, Bool.and_eq_true] at admits
    rw [passes, Bool.and_eq_true]
    exact ⟨admits.1.1, ih admits.2⟩

theorem unrejected_of_admitted {f : List RawText} (admitted : l.admitted f = true) :
    Unrejected l.options.filters f := by
  cases f with
  | nil => exact unrejected_nil _
  | cons name rest => exact unrejected_cons_iff.2 (passes_of_admits admitted)

section RuleFree

variable (free : RuleFree l.tree l.root)

theorem keeps_of_silent {levels : List IgnoreLevel} (silent : ∀ level ∈ levels, level.Silent)
    (entry : List RawText) (isDir : Bool) :
    l.keeps levels entry isDir = !l.options.filters.any (·.rejects entry isDir) := by
  rw [keeps, IgnoreLevel.verdict?_eq_none silent]
  exact Bool.and_true _

include free in
theorem silent_enter {levels : List IgnoreLevel} (silent : ∀ level ∈ levels, level.Silent)
    (dir : List RawText) : ∀ level ∈ l.enter levels dir, level.Silent := by
  rw [enter, List.forall_mem_cons]
  exact ⟨IgnoreLevel.silent_ofDir free (.inr (List.prefix_append ..)) _, silent⟩

include free in
theorem silent_above : ∀ level ∈ l.above, level.Silent := by
  unfold above
  split
  · intro level mem
    rw [levelsAbove, List.mem_reverse] at mem
    obtain ⟨n, -, rfl⟩ := List.mem_map.1 mem
    exact IgnoreLevel.silent_ofDir free (.inl (List.take_prefix ..)) true
  · simp

include free in
theorem admits_eq_passes {levels : List IgnoreLevel} (silent : ∀ level ∈ levels, level.Silent)
    (entry tail : List RawText) : l.admits levels entry tail =
      passes l.options.filters entry tail := by
  induction tail generalizing levels entry with
  | nil => rw [admits, passes, keeps_of_silent silent]
  | cons name rest ih =>
    rw [admits, passes, keeps_of_silent silent, ih (silent_enter free silent entry)]

include free in
/-- Without rules, what is not rejected is listed. -/
theorem admitted_iff_unrejected (f : List RawText) :
    l.admitted f = true ↔ Unrejected l.options.filters f := by
  refine ⟨unrejected_of_admitted, fun unrejected => ?_⟩
  cases f with
  | nil => rfl
  | cons name rest =>
    rw [admitted, admits_eq_passes free (silent_enter free (silent_above free) [])]
    exact unrejected_cons_iff.1 unrejected

end RuleFree

end Lister

/-! ## Filters by name -/

namespace Unrejected

variable {filters : List Filter} {front rest : List RawText} {name : RawText}

/-- A filter by name lets every directory on the way pass. -/
theorem byName_dir (unrejected : Unrejected filters (front ++ name :: rest)) (inside : rest ≠ [])
    {rejects : RawText → Bool → Bool} (mem : Filter.byName rejects ∈ filters) :
    rejects name true = false := by
  have dir :=
    unrejected.2 (front ++ [name]) (by simp) ⟨rest, by simp⟩ (by simpa using inside.symm) _ mem
  simpa [Filter.byName] using dir

theorem byName_file (unrejected : Unrejected filters (front ++ [name]))
    {rejects : RawText → Bool → Bool} (mem : Filter.byName rejects ∈ filters) :
    rejects name false = false := by
  have file := unrejected.1 (by simp) _ mem
  simpa [Filter.byName] using file

theorem not_hidden {f : List RawText} (unrejected : Unrejected filters f)
    (mem : .hidden ∈ filters) : ∀ name ∈ f, Filter.isHidden name = false := by
  intro name inPath
  obtain ⟨front, rest, rfl⟩ := List.append_of_mem inPath
  by_cases inside : rest = []
  · subst inside
    exact unrejected.byName_file mem
  · exact unrejected.byName_dir inside mem

theorem not_excluded {f : List RawText} {names : List String} (unrejected : Unrejected filters f)
    (mem : .dirs names ∈ filters) : ∀ name ∈ f.dropLast, ∀ s ∈ names, name ≠ RawText.ofText s := by
  intro name inPath
  obtain ⟨front, rest, split⟩ := List.append_of_mem inPath
  have ne : f ≠ [] := by
    rintro rfl
    cases inPath
  have whole := List.dropLast_concat_getLast ne
  rw [split, List.append_assoc, List.cons_append] at whole
  rw [← whole] at unrejected
  have passed := unrejected.byName_dir (by simp) mem
  rintro s excluded rfl
  simp [excluded] at passed

end Unrejected

/-- Without ignore rules a listing is the files below the root that no filter rejects, by themselves
or by a directory on the way, each once and in the order of the bytes of the names. With rules some
of these are missing, and no rule brings back what is below a hidden or an excluded directory. -/
theorem listFiles_of_filters {tree : Node} (wf : tree.WellFormed) {root : RawText}
    {place : List RawText}
    {node : Node} (resolved : tree.resolve root = .ok place) (found : tree.find? place = some node)
    (options : ListOptions) :
    (∀ f, f ∈ node.filePlaces ↔ ∃ content, node.find? f = some (.file content)) ∧
    node.filePlaces.Pairwise (fun f g => f.map RawText.bytes < g.map RawText.bytes) ∧
    (RuleFree tree place → listFiles tree root options =
      .ok ((node.filePlaces.filter (Unrejected options.filters)).map RawText.ofNames)) ∧
    ∃ listed : List (List RawText),
      listFiles tree root options = .ok (listed.map RawText.ofNames) ∧
      (listed.map RawText.ofNames).Nodup ∧
      listed.Sublist (node.filePlaces.filter (Unrejected options.filters)) ∧
      ∀ f ∈ listed, (.hidden ∈ options.filters → ∀ name ∈ f, Filter.isHidden name = false) ∧
        ∀ names, .dirs names ∈ options.filters →
          ∀ name ∈ f.dropLast, ∀ s ∈ names, name ≠ RawText.ofText s := by
  have wf' := Node.wellFormed_find? wf found
  have files := Lister.files_eq_filter (l := ⟨tree, place, options⟩) wf found
  have listing : listFiles tree root options = _ := listFiles_eq_ok_iff.2 ⟨place, resolved, rfl⟩
  refine ⟨fun _ => Node.mem_filePlaces_iff wf',
    (Node.filePlaces_sorted wf').imp RawText.map_bytes_lt, fun free => ?_, _, listing,
    nodup_listFiles wf listing, ?_, fun f mem => ?_⟩
  · have admitted : ∀ f ∈ node.filePlaces, Lister.admitted ⟨tree, place, options⟩ f =
        decide (Unrejected options.filters f) := fun f _ =>
      Bool.eq_iff_iff.2 ((Lister.admitted_iff_unrejected free f).trans decide_eq_true_iff.symm)
    rw [listing, files, List.filter_congr admitted]
  · rw [files]
    refine List.monotone_filter_right _ fun f admitted => ?_
    exact decide_eq_true (Lister.unrejected_of_admitted admitted)
  · rw [files] at mem
    have unrejected := Lister.unrejected_of_admitted (List.mem_filter.1 mem).2
    exact ⟨unrejected.not_hidden, fun _ => unrejected.not_excluded⟩

/-- Sources beside a hidden directory and one that is to be excluded. -/
def sourcesAside : Node :=
  [["a-b", "y.go"], ["a", "x.go"], ["main.go"], [".cache", "z.go"], ["vendor", "v", "w.go"]].foldl
    (fun tree place => tree.put (place.map .ofText) (.file (Utf8.encode "package p\n"))) .empty

/-- The directory `a` stands before `a-b`, although `a-b/y.go` is less than `a/x.go` byte by byte.
-/
theorem listFiles_sourcesAside :
    let tree := Node.empty.put ["work"] sourcesAside
    let options : ListOptions := ⟨true, [.hidden, .dirs ["vendor"]]⟩
    tree.WellFormed ∧ tree.resolve "/work" = .ok ["work"] ∧
      tree.find? ["work"] = some sourcesAside ∧ RuleFree tree ["work"] ∧
      listFiles tree "/work" options = .ok ["a/x.go", "a-b/y.go", "main.go"] := by
  intro tree options
  have wf : sourcesAside.WellFormed :=
    Node.wellFormed_put
      (Node.wellFormed_put (Node.wellFormed_put (Node.wellFormed_put (Node.wellFormed_put
      Node.wellFormed_empty (.file _) (by decide)) (.file _) (by decide)) (.file _) (by decide))
      (.file _) (by decide)) (.file _) (by decide)
  have wf' : tree.WellFormed := Node.wellFormed_put Node.wellFormed_empty wf (by decide)
  have linkFree : tree.LinkFree := Node.linkFree_put (.dir (by simp)) (Node.linkFree_put
    (Node.linkFree_put (Node.linkFree_put (Node.linkFree_put (Node.linkFree_put (.dir (by simp))
      (.file _) _) (.file _) _) (.file _) _) (.file _) _) (.file _) _) _
  have free : RuleFree tree ["work"] := ruleFree_of_linkFree wf' linkFree (by decide +kernel) _
  have resolved : tree.resolve "/work" = .ok ["work"] := by decide +kernel
  have found : tree.find? ["work"] = some sourcesAside := rfl
  obtain ⟨-, -, listed, -⟩ := listFiles_of_filters wf' resolved found options
  refine ⟨wf', resolved, found, free, (listed free).trans (congrArg Except.ok ?_)⟩
  decide +kernel

end PackageCoupling
