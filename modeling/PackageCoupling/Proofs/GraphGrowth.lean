import PackageCoupling.Proofs.CouplingTotals

/-!
# Metrics of a growing graph

Adding imports to one package touches one row of the graph. Its own record gains what it imports,
and the records of what it imports gain on their inward side; a package that is new also gets an
inward side, out of imports that had led outside before:

* `find?_inward_eq`: the inward side of a record as a column of the graph;
* `find?_inward_add`, `get_outward_add`: what becomes of both sides when a row grows;
* `coupling_le_add`: no coupling gets smaller.
-/

namespace PackageCoupling

namespace ImportGraph

/-! ## Records and packages -/

theorem mem_packages_iff (g : ImportGraph) (p : String) : p ∈ g.packages ↔ g.contains p = true := by
  rw [packages, Table.mem_keys_iff, contains, Table.contains_iff]

theorem mem_packages_add (g : ImportGraph) (q : String) (ids : List String) (p : String) :
    p ∈ (g.add q ids).packages ↔ p ∈ g.packages ∨ p = q := by
  rw [mem_packages_iff, contains_add, mem_packages_iff]

theorem imports_add (g : ImportGraph) (q : String) (ids : List String) (i : String) :
    i ∈ (g.add q ids).imports q ↔ i ∈ g.imports q ∨ i ∈ ids := by
  simp only [imports, stats_add, if_true, Table.mem_keys_iff, Stats.find?_tally]
  by_cases mem : i ∈ ids <;> simp [mem]

/-- The inward side of a record is a column of the graph without the package itself. -/
theorem find?_inward_eq {g : ImportGraph} {m : Metrics} (h : m ∈ g.metrics) (k : String) :
    m.inward.find? k = if k = m.package then none else (g.stats k).find? m.package := by
  ext n
  rw [find?_inward h]
  by_cases own : k = m.package
  · simp [own]
  · cases row : g.table.find? k <;> simp [own, stats, row]

/-! ## What a longer row changes -/

section Add

variable {g : ImportGraph} {q : String} {ids : List String} {m m' : Metrics} (h : m ∈ g.metrics)
  (h' : m' ∈ (g.add q ids).metrics) (same : m'.package = m.package)

include h h' same

theorem outward_add_of_ne (ne : m.package ≠ q) : m'.outward = m.outward := by
  rw [stats_outward h', stats_outward h, same, stats_add, if_neg ne]

theorem get_outward_add (i : String) :
    m'.outward.get i = m.outward.get i + if m.package = q then ids.count i else 0 := by
  rw [stats_outward h', stats_outward h, same]
  exact count_add g q ids m.package i

/-- Of a column only the entry of the row that grows can change. -/
theorem find?_inward_add (k : String) :
    m'.inward.find? k =
      if k = q ∧ m.package ≠ q ∧ m.package ∈ ids then some (m.inward.get q + ids.count m.package)
      else m.inward.find? k := by
  rw [find?_inward_eq h', find?_inward_eq h, same, stats_add]
  by_cases own : k = m.package
  -- What a package imports from itself is in no column, also when its own row grows.
  · rw [if_pos own, if_neg fun other => other.2.1 (own.symm.trans other.1), if_pos own]
  · rw [if_neg own, if_neg own]
    by_cases row : k = q
    · subst row
      have count : m.inward.get k = (g.stats k).get m.package := get_inward h own
      have other : m.package ≠ k := fun eq => own eq.symm
      simp only [if_true, Stats.find?_tally, count, other, ne_eq, not_false_eq_true, true_and]
    · rw [if_neg row, if_neg fun grown => row grown.1]

theorem get_inward_add (k : String) :
    m'.inward.get k =
      m.inward.get k + if k = q ∧ m.package ≠ q then ids.count m.package else 0 := by
  rw [Stats.get, find?_inward_add h h' same]
  by_cases grown : k = q ∧ m.package ≠ q
  · obtain ⟨rfl, ne⟩ := grown
    by_cases mem : m.package ∈ ids
    · simp [ne, mem]
    · simp [ne, mem, List.count_eq_zero_of_not_mem mem, Stats.get]
  · rw [if_neg fun all => grown ⟨all.1, all.2.1⟩, if_neg grown]
    rfl

theorem mem_keys_inward_add (ne : m.package ≠ q) :
    q ∈ m'.inward.keys ↔ q ∈ m.inward.keys ∨ m.package ∈ ids := by
  rw [Table.mem_keys_iff, Table.mem_keys_iff, find?_inward_add h h' same]
  by_cases mem : m.package ∈ ids <;> simp [ne, mem]

theorem inward_add_self (own : m.package = q) : m'.inward = m.inward := by
  apply Table.ext_find?
  intro k
  rw [find?_inward_add h h' same, if_neg fun grown => grown.2.1 own]

theorem coupling_le_add :
    m.inwardCoupling ≤ m'.inwardCoupling ∧ m.outwardCoupling ≤ m'.outwardCoupling := by
  constructor
  · apply Stats.total_le_total
    intro k
    rw [get_inward_add h h' same]
    omega
  · apply Stats.total_le_total
    intro i
    rw [get_outward_add h h' same]
    omega

end Add

/-! ## The record of the package that grows -/

section Own

variable {g : ImportGraph} {q : String} {ids : List String} {m : Metrics}
  (h : m ∈ (g.add q ids).metrics) (own : m.package = q)

include h own

theorem get_outward_of_added (i : String) : m.outward.get i = g.count q i + ids.count i := by
  have grown := count_add g q ids q i
  rw [if_pos rfl] at grown
  rw [stats_outward h, own]
  exact grown

theorem mem_keys_outward_of_added (i : String) :
    i ∈ m.outward.keys ↔ i ∈ g.imports q ∨ i ∈ ids := by
  rw [stats_outward h, own]
  exact imports_add g q ids i

/-- What the others import did not change. -/
theorem get_inward_of_added {k : String} (ne : k ≠ q) : m.inward.get k = g.count k q := by
  rw [get_inward h (own.symm ▸ ne), own, count_add, if_neg ne, Nat.add_zero]

theorem mem_keys_inward_of_added (k : String) :
    k ∈ m.inward.keys ↔ k ∈ g.packages ∧ k ≠ q ∧ q ∈ g.imports k := by
  rw [mem_keys_inward_iff h, own, mem_packages_add]
  by_cases eq : k = q
  · simp [eq]
  · have row : (g.add q ids).imports k = g.imports k := by
      rw [imports, stats_add, if_neg eq, imports]
    simp only [eq, or_false, row]

/-- A new package is coupled inward by every import of its name so far. -/
theorem inwardCoupling_of_new (new : q ∉ g.packages) :
    m.inwardCoupling = (g.packages.map (g.count · q)).sum := by
  have others : (g.add q ids).packages.toFinset.erase q = g.packages.toFinset := by
    ext p
    simp only [Finset.mem_erase, List.mem_toFinset, mem_packages_add]
    constructor
    · rintro ⟨ne, known⟩
      exact known.resolve_right ne
    · intro known
      exact ⟨fun eq => new (eq ▸ known), .inl known⟩
  rw [inwardCoupling_eq h, own, others, sum_packages]
  apply Finset.sum_congr rfl
  intro p hp
  have ne : p ≠ q := fun eq => new (eq ▸ List.mem_toFinset.1 hp)
  rw [count_add, if_neg ne, Nat.add_zero]

end Own

/-- What the metrics become when a package `q` imports `ids` as well. There is one record for each
package of before and for `q`. Any other package keeps its outward side, and its inward side except
at `q`, where it gains the number of times it occurs in `ids`. The package `q` gains `ids` on its
outward side, and on its inward side are the counts with which the others imported it all along,
whether it was in the graph or is new. So no coupling of a package gets smaller. -/
theorem metrics_add (g : ImportGraph) (q : String) (ids : List String) :
    let g' := g.add q ids
    (g'.metrics.map (·.package) = g'.packages ∧ ∀ p, p ∈ g'.packages ↔ p ∈ g.packages ∨ p = q) ∧
    (∀ m ∈ g.metrics, ∃ m' ∈ g'.metrics, m'.package = m.package ∧
      (m.package ≠ q → m'.outward = m.outward ∧
        (∀ k, k ≠ q → m'.inward.find? k = m.inward.find? k) ∧
        m'.inward.get q = m.inward.get q + ids.count m.package ∧
        (q ∈ m'.inward.keys ↔ q ∈ m.inward.keys ∨ m.package ∈ ids)) ∧
      (m.package = q → m'.inward = m.inward ∧
        ∀ i, m'.outward.get i = m.outward.get i + ids.count i) ∧
      m.inwardCoupling ≤ m'.inwardCoupling ∧ m.outwardCoupling ≤ m'.outwardCoupling) ∧
    ∃ m' ∈ g'.metrics, m'.package = q ∧
      (∀ i, m'.outward.get i = g.count q i + ids.count i) ∧
      (∀ i, i ∈ m'.outward.keys ↔ i ∈ g.imports q ∨ i ∈ ids) ∧
      (∀ k, k ≠ q → m'.inward.get k = g.count k q) ∧
      (∀ k, k ∈ m'.inward.keys ↔ k ∈ g.packages ∧ k ≠ q ∧ q ∈ g.imports k) ∧
      (q ∉ g.packages → m'.inwardCoupling = (g.packages.map (g.count · q)).sum) := by
  intro g'
  refine ⟨⟨map_package_metrics g', mem_packages_add g q ids⟩, ?_, ?_⟩
  · intro m h
    obtain ⟨m', h', same⟩ := exists_record ((mem_packages_add g q ids _).2 (.inl (package_mem h)))
    refine ⟨m', h', same, fun ne => ?_, fun own => ?_, coupling_le_add h h' same⟩
    · refine ⟨outward_add_of_ne h h' same ne, ?_, ?_, mem_keys_inward_add h h' same ne⟩
      · intro k other
        rw [find?_inward_add h h' same, if_neg fun grown => other grown.1]
      · rw [get_inward_add h h' same, if_pos ⟨rfl, ne⟩]
    · refine ⟨inward_add_self h h' same own, fun i => ?_⟩
      rw [get_outward_add h h' same, if_pos own]
  · obtain ⟨m', h', own⟩ := exists_record ((mem_packages_add g q ids q).2 (.inr rfl))
    exact ⟨m', h', own, get_outward_of_added h' own, mem_keys_outward_of_added h' own,
      fun k => get_inward_of_added h' own, mem_keys_inward_of_added h' own,
      inwardCoupling_of_new h' own⟩

/-- Both packages of `cycle` import `fmt`, which is no package. When it becomes one that imports `a`
twice, it is coupled to both. -/
theorem metrics_add_fmt :
    let g' := cycle.add "fmt" ["a", "os", "a"]
    "fmt" ∉ cycle.packages ∧
    (∃ m ∈ cycle.metrics, m.package = "a" ∧ m.package ≠ "fmt" ∧
      ∃ m' ∈ g'.metrics, m'.package = "a" ∧ m'.outward = m.outward ∧
        m'.inward.get "fmt" = m.inward.get "fmt" + 2 ∧ m.inwardCoupling ≤ m'.inwardCoupling) ∧
    ∃ m' ∈ g'.metrics, m'.package = "fmt" ∧ m'.outward.get "a" = 2 ∧ m'.inwardCoupling = 2 := by
  intro g'
  have packages : cycle.packages = ["a", "b"] := by decide +kernel
  have new : "fmt" ∉ cycle.packages := by
    rw [packages]
    decide
  have known : "a" ∈ cycle.packages := by
    rw [packages]
    decide
  obtain ⟨m, h, a⟩ := exists_record known
  have ne : m.package ≠ "fmt" := by
    rw [a]
    decide
  obtain ⟨-, grown, m', h', own, outward, -, -, -, coupled⟩ :=
    metrics_add cycle "fmt" ["a", "os", "a"]
  refine ⟨new, ⟨m, h, a, ne, ?_⟩, m', h', own, ?_, ?_⟩
  · obtain ⟨m', h', same, other, -, le, -⟩ := grown m h
    obtain ⟨outward, -, inward, -⟩ := other ne
    rw [a] at same inward
    exact ⟨m', h', same, outward, inward, le⟩
  · rw [outward]
    decide +kernel
  · rw [coupled new, packages]
    decide +kernel

end ImportGraph

end PackageCoupling
