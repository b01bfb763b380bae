import PackageCoupling.FileTree.Listing
import PackageCoupling.Proofs.RawPaths

/-!
# Listings of well-formed trees

In a well-formed tree the entries of each directory have different proper names and stand in the
order of these. Such a tree stays well-formed when something is put into it. Its files have their
places (`filePlaces`), strictly increasing, name by name. The listing walks down the tree and stops
at every directory that is left out, so what it holds can be told from the way to each file alone
(`files_eq_filter`). No file is listed twice (`nodup_listFiles`), and no two listed paths that are
texts are written the same way (`nodup_slash_listFiles`).
-/

namespace PackageCoupling

namespace Node

inductive WellFormed : Node → Prop where
  | file (content : Bytes) : WellFormed (.file content)
  | link (target : RawText) : WellFormed (.link target)
  | dir {entries : List (RawText × Node)}
      (sorted : entries.Pairwise (fun a b => a.1 < b.1))
      (names : ∀ e ∈ entries, e.1.IsName)
      (children : ∀ e ∈ entries, WellFormed e.2) : WellFormed (.dir entries)

theorem wellFormed_empty : empty.WellFormed := .dir .nil (by simp) (by simp)

theorem wellFormed_find? {tree n : Node} (wf : tree.WellFormed) {place : List RawText}
    (h : tree.find? place = some n) : n.WellFormed := by
  induction place generalizing tree with
  | nil =>
    rw [find?, Option.some.injEq] at h
    exact h ▸ wf
  | cons name rest ih =>
    cases wf with
    | file | link => simp [find?] at h
    | dir _ _ children =>
      rw [find?] at h
      obtain ⟨child, found, h⟩ := Option.bind_eq_some_iff.1 h
      exact ih (children _ (Table.mem_of_lookup found)) h

theorem wellFormed_alter {f : Option Node → Node}
    (keeps : ∀ old, (∀ n, old = some n → n.WellFormed) → (f old).WellFormed)
    {place : List RawText} (names : ∀ name ∈ place, name.IsName) (old : Option Node)
    (wf : ∀ n, old = some n → n.WellFormed) : (alter f place old).WellFormed := by
  induction place generalizing old with
  | nil => exact keeps old wf
  | cons name rest ih =>
    have ih := ih fun n hn => names n (List.mem_cons_of_mem _ hn)
    have new : (alter f rest none).WellFormed := ih none (by simp)
    have alone : (Node.dir [(name, alter f rest none)]).WellFormed := by
      refine .dir (by simp) ?_ ?_ <;> intro e he <;> rw [List.mem_singleton.1 he]
      · exact names name List.mem_cons_self
      · exact new
    unfold alter
    split
    · rename_i eq
      cases eq
    · rename_i entries eq
      cases eq
      cases wf _ rfl with
      | dir sorted names' children =>
        refine .dir (Table.sorted_alterEntries _ _ sorted) ?_ ?_ <;> intro e he
        · rcases Table.mem_alterEntries he with old | rfl | ⟨a, old, rfl⟩
          · exact names' e old
          · exact names name List.mem_cons_self
          · exact names name List.mem_cons_self
        · rcases Table.mem_alterEntries he with old | rfl | ⟨a, old, rfl⟩
          · exact children e old
          · exact new
          · exact ih (some a) fun n hn => by
              cases hn
              exact children _ old
    · rename_i eq _
      cases eq
      exact alone

theorem wellFormed_put {tree node : Node} (wf : tree.WellFormed) (wf' : node.WellFormed)
    {place : List RawText} (names : ∀ name ∈ place, name.IsName) :
    (tree.put place node).WellFormed :=
  wellFormed_alter (fun _ _ => wf') names (some tree) fun n hn => by
    cases hn
    exact wf

/-! ## The files of a tree -/

mutual

/-- The places of all files, in the order of the entries. Links are not followed. -/
def filePlaces : Node → List (List RawText)
  | .file _ => [[]]
  | .dir entries => entryPlaces entries
  | .link _ => []

def entryPlaces : List (RawText × Node) → List (List RawText)
  | [] => []
  | (name, n) :: rest => n.filePlaces.map (name :: ·) ++ entryPlaces rest

end

theorem entryPlaces_eq_flatMap (es : List (RawText × Node)) :
    entryPlaces es = es.flatMap fun e => e.2.filePlaces.map (e.1 :: ·) := by
  induction es with
  | nil => rw [entryPlaces, List.flatMap_nil]
  | cons e rest ih =>
    obtain ⟨name, n⟩ := e
    rw [entryPlaces, ih, List.flatMap_cons]

theorem mem_entryPlaces_iff {es : List (RawText × Node)} {f : List RawText} :
    f ∈ entryPlaces es ↔ ∃ e ∈ es, ∃ rest ∈ e.2.filePlaces, f = e.1 :: rest := by
  simp only [entryPlaces_eq_flatMap, List.mem_flatMap, List.mem_map, eq_comm]

/-- A place is one of a file if a file is found there. -/
theorem mem_filePlaces_iff {n : Node} (wf : n.WellFormed) {f : List RawText} :
    f ∈ n.filePlaces ↔ ∃ content, n.find? f = some (.file content) := by
  induction wf generalizing f with
  | file content =>
    rw [filePlaces, List.mem_singleton]
    cases f <;> simp [find?]
  | link target =>
    rw [filePlaces]
    cases f <;> simp [find?]
  | @dir es sorted names children ih =>
    have distinct : (es.map (·.1)).Nodup := (List.pairwise_map.2 sorted).imp Std.ne_of_lt
    rw [filePlaces, mem_entryPlaces_iff]
    constructor
    · rintro ⟨e, he, rest, mem, rfl⟩
      obtain ⟨content, file⟩ := (ih e he).1 mem
      refine ⟨content, ?_⟩
      rw [find?, (Table.lookup_eq_some_iff_mem distinct e.1 e.2).2 he]
      exact file
    · rintro ⟨content, file⟩
      cases f with
      | nil => cases file
      | cons name rest =>
        rw [find?] at file
        obtain ⟨child, found, file⟩ := Option.bind_eq_some_iff.1 file
        have he := Table.mem_of_lookup found
        exact ⟨(name, child), he, rest, (ih _ he).2 ⟨content, file⟩, rfl⟩

/-- The places of files go by the names on the way to each. -/
theorem filePlaces_sorted {n : Node} (wf : n.WellFormed) : n.filePlaces.Pairwise (· < ·) := by
  induction wf with
  | file content => simp [filePlaces]
  | link target => simp [filePlaces]
  | dir sorted names children ih =>
    rw [filePlaces, entryPlaces_eq_flatMap, List.pairwise_flatMap]
    constructor
    · intro e he
      rw [List.pairwise_map]
      exact (ih e he).imp fun lt => List.cons_lt_cons_iff.2 (.inr ⟨rfl, lt⟩)
    · refine sorted.imp fun lt f hf g hg => ?_
      obtain ⟨rest, -, rfl⟩ := List.mem_map.1 hf
      obtain ⟨rest', -, rfl⟩ := List.mem_map.1 hg
      exact List.cons_lt_cons_iff.2 (.inl lt)

theorem filePlaces_names {n : Node} (wf : n.WellFormed) :
    ∀ f ∈ n.filePlaces, ∀ name ∈ f, name.IsName := by
  induction wf with
  | file content => simp [filePlaces]
  | link target => simp [filePlaces]
  | dir sorted names children ih =>
    intro f hf
    rw [filePlaces] at hf
    obtain ⟨e, he, rest, mem, rfl⟩ := mem_entryPlaces_iff.1 hf
    rw [List.forall_mem_cons]
    exact ⟨names e he, ih e he rest mem⟩

end Node

/-! ## Listings -/

namespace Lister

/-- Whether neither the file `entry ++ tail` nor a directory from `entry` down to it is left out. -/
def admits (l : Lister) : List IgnoreLevel → List RawText → List RawText → Bool
  | levels, entry, [] => l.keeps levels entry false
  | levels, entry, name :: rest =>
    l.keeps levels entry true && l.admits (l.enter levels entry) (entry ++ [name]) rest

/-- The levels above the root, as far as they count. -/
def above (l : Lister) : List IgnoreLevel :=
  if l.options.respectIgnoreFiles then levelsAbove l.tree l.root else []

/-- Whether nothing on the way from the root to a file is left out. The root itself always stays. -/
def admitted (l : Lister) : List RawText → Bool
  | [] => true
  | name :: rest => l.admits (l.enter l.above []) [name] rest

variable {l : Lister}

theorem entries_eq_flatMap (levels : List IgnoreLevel) (dir : List RawText)
    (es : List (RawText × Node)) :
    l.entries levels dir es = es.flatMap fun e => l.node levels (dir ++ [e.1]) e.2 := by
  induction es with
  | nil => simp [entries]
  | cons e rest ih =>
    obtain ⟨name, n⟩ := e
    rw [entries, ih, List.flatMap_cons]

/-- What is listed in a directory, if it is known what is listed for its entries. -/
theorem entries_eq_filter {levels : List IgnoreLevel} {dir : List RawText}
    {es : List (RawText × Node)} {p : List RawText → Bool}
    (same : ∀ name rest, p (name :: rest) = l.admits levels (dir ++ [name]) rest)
    (each : ∀ e ∈ es, l.node levels (dir ++ [e.1]) e.2 =
      (e.2.filePlaces.filter (l.admits levels (dir ++ [e.1]))).map (dir ++ [e.1] ++ ·)) :
    l.entries levels dir es = ((Node.entryPlaces es).filter p).map (dir ++ ·) := by
  rw [entries_eq_flatMap, Node.entryPlaces_eq_flatMap, List.filter_flatMap, List.map_flatMap]
  refine List.flatMap_congr fun e he => ?_
  rw [each e he, List.filter_map, List.map_map]
  simp [Function.comp_def, same]

/-- What is listed for a node: its files, as far as nothing on the way to them is left out. -/
theorem node_eq_filter {n : Node} (wf : n.WellFormed) (levels : List IgnoreLevel)
    (entry : List RawText) : l.node levels entry n =
      (n.filePlaces.filter (l.admits levels entry)).map (entry ++ ·) := by
  induction wf generalizing levels entry with
  | file content =>
    rw [node, Node.filePlaces]
    by_cases kept : l.keeps levels entry false = true <;> simp [admits, kept]
  | link target => simp [node, Node.filePlaces]
  | dir sorted names children ih =>
    rw [node, Node.filePlaces]
    by_cases kept : l.keeps levels entry true = true
    · rw [if_pos kept]
      refine entries_eq_filter (fun name rest => ?_) fun e he => ih e he _ _
      rw [admits, kept, Bool.true_and]
    · rw [if_neg kept, eq_comm, List.map_eq_nil_iff, List.filter_eq_nil_iff]
      intro f hf
      obtain ⟨e, -, rest, -, rfl⟩ := Node.mem_entryPlaces_iff.1 hf
      simp [admits, kept]

/-- A listing holds the files below the root, as far as nothing on the way to them is left out. -/
theorem files_eq_filter (wf : l.tree.WellFormed) {n : Node} (found : l.tree.find? l.root = some n) :
    l.files = n.filePlaces.filter l.admitted := by
  unfold files
  rw [found]
  cases Node.wellFormed_find? wf found with
  | file content => rfl
  | link target => rfl
  | @dir es sorted names children =>
    have inside : l.entries (l.enter l.above []) [] es =
        ((Node.entryPlaces es).filter l.admitted).map ([] ++ ·) :=
      entries_eq_filter (fun _ _ => rfl) fun e he => node_eq_filter (children e he) _ _
    rw [Node.filePlaces]
    exact inside.trans (List.map_id' _)

theorem files_eq_nil (missing : l.tree.find? l.root = none) : l.files = [] := by
  unfold files
  rw [missing]

/-- A listing goes by the names on the way to each file. -/
theorem files_sorted (wf : l.tree.WellFormed) : l.files.Pairwise (· < ·) := by
  cases found : l.tree.find? l.root with
  | none =>
    rw [files_eq_nil found]
    exact .nil
  | some n =>
    rw [files_eq_filter wf found]
    exact (Node.filePlaces_sorted (Node.wellFormed_find? wf found)).filter _

theorem files_names (wf : l.tree.WellFormed) : ∀ f ∈ l.files, ∀ name ∈ f, name.IsName := by
  cases found : l.tree.find? l.root with
  | none => simp [files_eq_nil found]
  | some n =>
    intro f hf
    rw [files_eq_filter wf found] at hf
    exact Node.filePlaces_names (Node.wellFormed_find? wf found) f (List.mem_filter.1 hf).1

end Lister

/-! ## The paths of listed files -/

section Paths

variable {tree : Node} {root : RawText} {options : ListOptions} {files : List RawText}

/-- Listed paths are those of the listed files, seen from where the root leads. -/
theorem listFiles_eq_ok_iff : listFiles tree root options = .ok files ↔
    ∃ place, tree.resolve root = .ok place ∧
      files = (Lister.files ⟨tree, place, options⟩).map RawText.ofNames := by
  unfold listFiles
  cases tree.resolve root with
  | error e => simp
  | ok place => simp [eq_comm]

/-- No file is listed twice. -/
theorem nodup_listFiles (wf : tree.WellFormed) (h : listFiles tree root options = .ok files) :
    files.Nodup := by
  obtain ⟨place, -, rfl⟩ := listFiles_eq_ok_iff.1 h
  have names := Lister.files_names (l := ⟨tree, place, options⟩) wf
  rw [List.nodup_iff_pairwise_ne, List.pairwise_map]
  apply List.Pairwise.imp_of_mem _ (Lister.files_sorted (l := ⟨tree, place, options⟩) wf)
  intro f f' hf hf' lt eq
  rw [RawText.ofNames_injective (names f hf) (names f' hf') eq] at lt
  exact List.lt_irrefl _ lt

/-- Listed files with one slash path are shown in the same way. -/
theorem text_eq_of_slash_eq (wf : tree.WellFormed) (h : listFiles tree root options = .ok files)
    {p q : RawText} (hp : p ∈ files) (hq : q ∈ files) (eq : p.slash = q.slash) :
    p.text = q.text := by
  obtain ⟨place, -, rfl⟩ := listFiles_eq_ok_iff.1 h
  have names := Lister.files_names (l := ⟨tree, place, options⟩) wf
  obtain ⟨f, hf, rfl⟩ := List.mem_map.1 hp
  obtain ⟨f', hf', rfl⟩ := List.mem_map.1 hq
  rw [RawText.text_ofNames, RawText.text_ofNames,
    RawText.map_text_eq_of_slash_eq (names f hf) (names f' hf') eq]

/-- No two listed files have the same slash path, if their paths are texts. -/
theorem nodup_slash_listFiles (wf : tree.WellFormed) (h : listFiles tree root options = .ok files)
    (texts : ∀ path ∈ files, path.IsText) : (files.map RawText.slash).Nodup := by
  rw [List.nodup_iff_pairwise_ne, List.pairwise_map]
  apply List.Pairwise.imp_of_mem _ (nodup_listFiles wf h)
  intro p q hp hq ne eq
  exact ne ((texts p hp).eq_of_text_eq (texts q hq) (text_eq_of_slash_eq wf h hp hq eq))

end Paths

end PackageCoupling
