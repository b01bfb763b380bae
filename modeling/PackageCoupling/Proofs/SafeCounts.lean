import PackageCoupling.Checked.Coupling
import PackageCoupling.Proofs.Assembly
import PackageCoupling.Proofs.CouplingTotals

/-!
# Counts that do not overflow

Every import that the files of a graph contain is counted once in the whole graph
(`importCount_ofFiles`), so no count, no coupling and no sum of the two couplings of a package
exceeds the number of imports. As long as that number has 64 bits, the checked computation of graph
and metrics succeeds and gives what the plain one gives (`additions_fit`). Both couplings of a
package stay within it together because the inverted graph leaves out what a package imports from
itself (`coupling_le_importCount`).
-/

namespace PackageCoupling

/-! ## Sums over tables -/

/-- Altering one entry changes a sum over all entries by what it changes of that one. -/
theorem Table.sum_alterEntries {α : Type} (w : α → Nat) (key : String) (f : Option α → α)
    {l : List (String × α)} (sorted : l.Pairwise (fun a b => a.1 < b.1)) :
    ((alterEntries key f l).map fun e => w e.2).sum + ((l.lookup key).map w).getD 0 =
      (l.map fun e => w e.2).sum + w (f (l.lookup key)) := by
  induction l with
  | nil => simp [alterEntries]
  | cons e rest ih =>
    obtain ⟨k, a⟩ := e
    rw [List.pairwise_cons] at sorted
    rw [alterEntries, lookup_cons_eq]
    split
    · rename_i lt
      have absent : rest.lookup key = none := by
        apply lookup_eq_none_of_fresh
        intro mem
        obtain ⟨e, he, rfl⟩ := List.mem_map.1 mem
        exact String.lt_irrefl _ (String.lt_trans lt (sorted.1 e he))
      rw [if_neg (String.ne_of_lt lt), absent]
      simp only [List.map_cons, List.sum_cons, Option.map_none, Option.getD_none]
      omega
    · split
      · simp only [List.map_cons, List.sum_cons, Option.map_some, Option.getD_some]
        omega
      · have step := ih sorted.2
        simp only [List.map_cons, List.sum_cons]
        omega

namespace Stats

theorem total_eq (s : Stats) : s.total = (s.entries.map (·.2)).sum := by
  rw [total, List.sum_eq_foldr, List.foldr_map]

theorem total_record (s : Stats) (id : String) (count : Nat) :
    (s.record id count).total = s.total + count := by
  have altered :=
    Table.sum_alterEntries (fun n : Nat => n) id (fun old => old.getD 0 + count) s.sorted
  have counted : ((s.entries.lookup id).map fun n => n).getD 0 = (s.entries.lookup id).getD 0 := by
    rw [Option.map_id']
  rw [counted] at altered
  rw [total_eq, total_eq]
  show ((Table.alterEntries id _ s.entries).map (·.2)).sum = _
  omega

theorem total_tally (s : Stats) (ids : List String) :
    (s.tally ids).total = s.total + ids.length := by
  induction ids generalizing s with
  | nil => rfl
  | cons id rest ih =>
    have step : s.tally (id :: rest) = (s.record id 1).tally rest := rfl
    rw [step, ih, total_record, List.length_cons]
    omega

theorem get_le_total (s : Stats) (k : String) : s.get k ≤ s.total := by
  by_cases mem : k ∈ s.keys
  · rw [total_eq_sum]
    exact List.le_sum_of_mem (List.mem_map_of_mem mem)
  · rw [get_eq_zero mem]
    exact Nat.zero_le _

end Stats

namespace ImportGraph

/-! ## How many imports a graph counts -/

def importCount (g : ImportGraph) : Nat := (g.table.entries.map (·.2.total)).sum

theorem importCount_eq (g : ImportGraph) :
    g.importCount = ∑ p ∈ g.packages.toFinset, (g.stats p).total := by
  rw [← sum_packages, importCount, packages, Table.keys, List.map_map]
  congr 1
  apply List.map_congr_left
  rintro ⟨p, s⟩ mem
  simp [stats, (g.table.find?_eq_some_iff p s).2 mem]

theorem importCount_addFile (g : ImportGraph) (f : FileImports) :
    (g.addFile f).importCount = g.importCount + f.imports.length := by
  have altered := Table.sum_alterEntries Stats.total f.package
    (fun old => Stats.tally (old.getD Table.empty) f.imports) g.table.sorted
  have old : ((g.table.entries.lookup f.package).map Stats.total).getD 0 =
      ((g.table.entries.lookup f.package).getD Table.empty).total := by
    cases g.table.entries.lookup f.package <;> rfl
  rw [old, Stats.total_tally] at altered
  unfold importCount
  show ((Table.alterEntries f.package _ g.table.entries).map _).sum = _
  omega

/-- How many imports some files contain. -/
def occurrences (files : List FileImports) : Nat := (files.map (·.imports.length)).sum

theorem importCount_foldl (files : List FileImports) (g : ImportGraph) :
    (files.foldl addFile g).importCount = g.importCount + occurrences files := by
  induction files generalizing g with
  | nil => rfl
  | cons f rest ih =>
    rw [List.foldl_cons, ih, importCount_addFile, occurrences, occurrences, List.map_cons,
      List.sum_cons]
    omega

/-- Every import of a file is counted once. -/
theorem importCount_ofFiles (files : List FileImports) :
    (ofFiles files).importCount = occurrences files := by
  rw [ofFiles_eq_foldl (.refl _), importCount_foldl]
  exact Nat.zero_add _

/-- What a package imports and what others import from it are different imports. -/
theorem coupling_le_importCount {g : ImportGraph} {m : Metrics} (h : m ∈ g.metrics) :
    m.inwardCoupling + m.outwardCoupling ≤ g.importCount := by
  have outward : m.outwardCoupling = (g.stats m.package).total := by
    rw [Metrics.outwardCoupling, stats_outward h]
  calc
    m.inwardCoupling + m.outwardCoupling
        = ∑ q ∈ g.packages.toFinset.erase m.package, g.count q m.package +
            (g.stats m.package).total := by rw [inwardCoupling_eq h, outward]
    _ ≤ ∑ q ∈ g.packages.toFinset.erase m.package, (g.stats q).total +
          (g.stats m.package).total :=
        Nat.add_le_add_right (Finset.sum_le_sum fun q _ => (g.stats q).get_le_total _) _
    _ = ∑ q ∈ g.packages.toFinset, (g.stats q).total :=
        Finset.sum_erase_add _ _ (List.mem_toFinset.2 (package_mem h))
    _ = g.importCount := (importCount_eq g).symm

theorem total_stats_le (g : ImportGraph) (p : String) : (g.stats p).total ≤ g.importCount := by
  cases lookup : g.table.find? p with
  | none =>
    have nothing : (g.stats p).total = 0 := by
      rw [stats, lookup]
      rfl
    omega
  | some s =>
    have row : g.stats p = s := by rw [stats, lookup, Option.getD_some]
    rw [row]
    exact List.le_sum_of_mem
      (List.mem_map.2 ⟨(p, s), (g.table.find?_eq_some_iff p s).1 lookup, rfl⟩)

theorem count_le_importCount (g : ImportGraph) (p i : String) : g.count p i ≤ g.importCount :=
  Nat.le_trans ((g.stats p).get_le_total i) (g.total_stats_le p)

/-- An import is turned around with its count, or left out. -/
theorem get_importers_le (g : ImportGraph) (p q : String) :
    ((g.importers.find? p).getD Table.empty : Stats).get q ≤ g.count q p := by
  rw [importers_eq, Stats.get, Stats.find?_ofCounts (distinct_inbound g p)]
  cases found : (g.inbound p).lookup q with
  | none => exact Nat.zero_le _
  | some n =>
    rw [Table.lookup_eq_some_iff_mem (distinct_inbound g p), mem_inbound_iff] at found
    obtain ⟨-, s, row, entry⟩ := found
    simp [count, stats, row, Stats.get, entry]

theorem sum_edges (g : ImportGraph) : (g.edges.map (·.2.2)).sum = g.importCount := by
  rw [edges, importCount, List.map_flatMap, List.flatMap_def, List.sum_flatten, List.map_map]
  congr 1
  apply List.map_congr_left
  rintro ⟨p, s⟩ _
  rw [Function.comp_apply, List.map_map, Stats.total_eq]
  rfl

end ImportGraph

namespace Checked

open ImportGraph

/-! ## Counting -/

theorem record_ok {s : Stats} {id : String} {count : Nat} (small : s.get id + count < countLimit) :
    record s id count = .ok (s.record id count) := by
  have same : s.insert id (s.get id + count) = s.record id count := by
    apply Table.ext_find?
    intro k
    rw [Table.find?_insert, Stats.find?_record]
    split
    · rename_i eq
      rw [eq]
    · rfl
  rw [record, add_ok small, ok_bind, same]

theorem tally_ok {s : Stats} {ids : List String} (small : ∀ k, s.get k + ids.length < countLimit) :
    tally s ids = .ok (s.tally ids) := by
  -- No count can grow by more than what is still to be counted.
  refine foldlM_ok (fun rest s => ∀ k, s.get k + rest.length < countLimit) ?_ small
  intro id rest s small
  simp only [List.length_cons] at small
  refine ⟨record_ok (by have := small id; omega), fun k => ?_⟩
  have := small k
  rw [Stats.get_record]
  split <;> omega

theorem ofCounts_ok {counts : List (String × Nat)} (small : (counts.map (·.2)).sum < countLimit) :
    ofCounts counts = .ok (Stats.ofCounts counts) := by
  refine foldlM_ok (fun rest s => ∀ k, s.get k + (rest.map (·.2)).sum < countLimit) ?_ fun k => ?_
  · rintro ⟨id, n⟩ rest s small
    simp only [List.map_cons, List.sum_cons] at small
    refine ⟨record_ok (by have := small id; omega), fun k => ?_⟩
    have := small k
    rw [Stats.get_record]
    split <;> omega
  · have nothing : Stats.get Table.empty k = 0 := rfl
    omega

theorem sum_ok {ns : List Nat} (h : ns.sum < countLimit) : sum ns = .ok ns.sum := by
  have folded := foldlM_ok (f := add) (g := (· + ·)) (fun rest n => n + rest.sum < countLimit)
    (fun n rest m small => by
      rw [List.sum_cons] at small
      exact ⟨add_ok (by omega), by omega⟩) (l := ns) (b := 0) (by omega)
  rw [sum, folded, ← List.sum_eq_foldl]

theorem total_ok {s : Stats} (small : s.total < countLimit) : total s = .ok s.total := by
  rw [Stats.total_eq] at small ⊢
  exact sum_ok small

/-! ## The graph -/

theorem addFile_ok {g : ImportGraph} {f : FileImports}
    (small : ∀ k, g.count f.package k + f.imports.length < countLimit) :
    addFile g f = .ok (g.addFile f) := by
  have same : (⟨g.table.insert f.package ((g.stats f.package).tally f.imports)⟩ : ImportGraph) =
      g.addFile f := by
    apply ext_table
    intro p
    rw [Table.find?_insert, ImportGraph.addFile, find?_add]
    split
    · rename_i eq
      rw [eq]
    · rfl
  rw [addFile, tally_ok small, ok_bind, same]

/-- Assembling the graph does not overflow if the files contain few enough imports. -/
theorem graphOf_ok {files : List FileImports} (small : occurrences files < countLimit) :
    graphOf files = .ok (ofFiles files) := by
  rw [ofFiles_eq_foldl (.refl _)]
  refine foldlM_ok (fun rest g => ∀ p k, g.count p k + occurrences rest < countLimit) ?_
    fun p k => ?_
  · intro f rest g small
    simp only [occurrences, List.map_cons, List.sum_cons] at small
    refine ⟨addFile_ok fun k => by have := small f.package k; omega, fun p k => ?_⟩
    have := small p k
    have within : f.imports.count k ≤ f.imports.length := List.count_le_length
    rw [count_addFile, occurrences]
    split <;> omega
  · have nothing : ImportGraph.empty.count p k = 0 := rfl
    omega

/-! ## Metrics -/

theorem invertEdge_ok {g : ImportGraph} {t : Table Stats} {e : String × String × Nat}
    (small : ((t.find? e.2.1).getD Table.empty : Stats).get e.1 + e.2.2 < countLimit) :
    invertEdge g t e = .ok (g.invertEdge t e) := by
  have same : t.insert e.2.1 (Stats.record ((t.find? e.2.1).getD Table.empty) e.1 e.2.2) =
      t.alter e.2.1 fun old => Stats.record (old.getD Table.empty) e.1 e.2.2 := by
    apply Table.ext_find?
    intro k
    rw [Table.find?_insert, Table.find?_alter]
  unfold invertEdge ImportGraph.invertEdge
  rw [record_ok small, ok_bind, same]
  split <;> rfl

theorem get_invertEdge (g : ImportGraph) (t : Table Stats) (e : String × String × Nat)
    (p q : String) :
    (((g.invertEdge t e).find? p).getD Table.empty : Stats).get q ≤
      ((t.find? p).getD Table.empty : Stats).get q + e.2.2 := by
  rw [find?_invertEdge]
  cases towards : g.towards p e with
  | none => exact Nat.le_add_right _ _
  | some entry =>
    have count : entry.2 = e.2.2 := by
      unfold ImportGraph.towards at towards
      split at towards
      · cases towards
        rfl
      · cases towards
    show (Stats.record _ entry.1 entry.2).get q ≤ _
    rw [Stats.get_record, count]
    split <;> omega

theorem importers_ok {g : ImportGraph} (small : g.importCount < countLimit) :
    importers g = .ok g.importers := by
  -- The imports that are still to be turned around bound what any count can grow by.
  refine foldlM_ok (fun rest t => ∀ p q,
    ((t.find? p).getD Table.empty : Stats).get q + (rest.map (·.2.2)).sum < countLimit) ?_
      fun p q => ?_
  · intro e rest t small
    simp only [List.map_cons, List.sum_cons] at small
    refine ⟨invertEdge_ok (by have := small e.2.1 e.1; omega), fun p q => ?_⟩
    have := small p q
    have := get_invertEdge g t e p q
    omega
  · have nothing : (((Table.empty : Table Stats).find? p).getD Table.empty : Stats).get q = 0 := rfl
    rw [sum_edges]
    omega

/-- Inverting the graph does not overflow, and neither does any sum over a record. -/
theorem metrics_ok {g : ImportGraph} (small : g.importCount < countLimit) :
    metrics g = .ok g.metrics := by
  rw [metrics, importers_ok small, ok_bind]
  apply mapM_ok
  rintro ⟨package, imports⟩ mem
  have bound := coupling_le_importCount (List.mem_map.2 ⟨(package, imports), mem, rfl⟩)
  dsimp only [Metrics.inwardCoupling, Metrics.outwardCoupling] at bound
  rw [Stats.ofCounts_entries, Stats.ofCounts_entries, Stats.total_eq, Stats.total_eq] at bound
  unfold metricsOf
  dsimp only
  rw [ofCounts_ok (by omega), ok_bind, ofCounts_ok (by omega), ok_bind]

theorem figures_ok {m : Metrics} (small : m.inwardCoupling + m.outwardCoupling < countLimit) :
    figures m = .ok m.figures := by
  unfold Metrics.inwardCoupling Metrics.outwardCoupling at small
  rw [figures, total_ok (by omega), ok_bind, total_ok (by omega), ok_bind, add_ok small, ok_bind]
  rfl

theorem mapM_figures_ok {g : ImportGraph} (small : g.importCount < countLimit) :
    g.metrics.mapM figures = .ok (g.metrics.map Metrics.figures) :=
  mapM_ok fun _ h => figures_ok (Nat.lt_of_le_of_lt (coupling_le_importCount h) small)

/-- None of the additions on the way to the metrics overflows, as long as the number of imports that
the files contain has 64 bits: that number bounds every count of the graph, every count of the
inverted graph, and both couplings of a package together. -/
theorem additions_fit (files : List FileImports) (small : occurrences files < countLimit) :
    let g := files.foldl ImportGraph.addFile .empty
    (graphOf files = .ok g ∧ metrics g = .ok g.metrics ∧
      g.metrics.mapM figures = .ok (g.metrics.map Metrics.figures)) ∧
    (∀ p i, g.count p i ≤ occurrences files) ∧
    (∀ p q, ((g.importers.find? p).getD Table.empty : Stats).get q ≤ occurrences files) ∧
    ∀ m ∈ g.metrics, m.inwardCoupling ≤ occurrences files ∧ m.outwardCoupling ≤ occurrences files ∧
      m.inwardCoupling + m.outwardCoupling ≤ occurrences files := by
  intro g
  have assembled : ofFiles files = g := ofFiles_eq_foldl (.refl _)
  have counted : g.importCount = occurrences files := by rw [← assembled, importCount_ofFiles]
  rw [← counted] at small ⊢
  refine ⟨⟨?_, metrics_ok small, mapM_figures_ok small⟩, g.count_le_importCount, ?_, ?_⟩
  · rw [graphOf_ok (counted ▸ small), assembled]
  · exact fun p q => Nat.le_trans (g.get_importers_le p q) (g.count_le_importCount q p)
  · intro m h
    have both := coupling_le_importCount h
    omega

/-- Two packages that import each other, one of them also itself. -/
theorem additions_fit_cycle :
    let files : List FileImports := [⟨"a.go", "a", ["a", "b", "fmt"]⟩, ⟨"b.go", "b", ["a", "fmt"]⟩]
    let g := files.foldl ImportGraph.addFile .empty
    occurrences files = 5 ∧ 5 < countLimit ∧ graphOf files = .ok g ∧ metrics g = .ok g.metrics ∧
      ∃ m ∈ g.metrics, m.package = "a" ∧ m.inwardCoupling + m.outwardCoupling ≤ 5 := by
  intro files g
  have number : occurrences files = 5 := rfl
  have small : 5 < countLimit := by decide
  obtain ⟨⟨graph, records, -⟩, -, -, couplings⟩ := additions_fit files (number.trans_lt small)
  obtain ⟨m, h, a⟩ : ∃ m ∈ g.metrics, m.package = "a" := exists_record (by decide +kernel)
  exact ⟨number, small, graph, records, m, h, a, number ▸ (couplings m h).2.2⟩

end Checked

end PackageCoupling
