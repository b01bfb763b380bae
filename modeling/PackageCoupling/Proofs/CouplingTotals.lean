import Mathlib.Algebra.BigOperators.Group.Finset.Sigma
import Mathlib.Algebra.Order.BigOperators.Group.Finset
import PackageCoupling.Proofs.Coupling

/-!
# Sums of couplings

Every import between two packages is counted twice, as outward coupling of the one and as inward
coupling of the other. So over the whole graph inward coupling is what the packages import from each
other, and what outward coupling has on top of it is what is imported from outside and by packages
from themselves:

* `Stats.sum_keys_filter`: a sum over chosen entries as a sum over any set that chooses the same of
  them;
* `inwardCoupling_eq`, `outwardCoupling_eq`: both couplings of a package as sums of counts;
* `sum_internalCount`: the exchange of the two sums.
-/

namespace PackageCoupling

namespace Stats

theorem get_eq_zero {s : Stats} {k : String} (absent : k ∉ s.keys) : s.get k = 0 := by
  have missing : s.find? k = none := Table.lookup_eq_none_of_fresh absent
  rw [get, missing]
  rfl

theorem total_eq_sum (s : Stats) : s.total = (s.keys.map s.get).sum := by
  have values : s.keys.map s.get = s.entries.map (·.2) := by
    rw [Table.keys, List.map_map]
    apply List.map_congr_left
    rintro ⟨k, n⟩ mem
    simp [get, (s.find?_eq_some_iff k n).2 mem]
  rw [values, total, List.sum_eq_foldr, List.foldr_map]

/-- What a set chooses besides does not count. -/
theorem sum_keys_filter (s : Stats) {P : String → Bool} {K : Finset String}
    (chosen : ∀ k ∈ s.keys, P k = true ↔ k ∈ K) :
    ((s.keys.filter P).map s.get).sum = ∑ k ∈ K, s.get k := by
  have distinct : s.keys.Nodup := s.distinct_keys
  rw [← List.sum_toFinset _ (distinct.filter P)]
  apply Finset.sum_subset
  · intro k hk
    obtain ⟨mem, holds⟩ := List.mem_filter.1 (List.mem_toFinset.1 hk)
    exact (chosen k mem).1 holds
  · intro k hk missing
    apply get_eq_zero
    intro mem
    exact missing (List.mem_toFinset.2 (List.mem_filter.2 ⟨mem, (chosen k mem).2 hk⟩))

theorem total_eq_sum_of_covers {s : Stats} {K : Finset String} (covers : ∀ k ∈ s.keys, k ∈ K) :
    s.total = ∑ k ∈ K, s.get k := by
  have all := s.sum_keys_filter (P := fun _ => true) fun k mem => iff_of_true rfl (covers k mem)
  rwa [List.filter_true, ← total_eq_sum] at all

theorem total_le_total {s t : Stats} (le : ∀ k, s.get k ≤ t.get k) : s.total ≤ t.total := by
  let K := (s.keys ++ t.keys).toFinset
  calc
    s.total = ∑ k ∈ K, s.get k := total_eq_sum_of_covers (by simp +contextual [K])
    _ ≤ ∑ k ∈ K, t.get k := Finset.sum_le_sum fun k _ => le k
    _ = t.total := (total_eq_sum_of_covers (by simp +contextual [K])).symm

end Stats

namespace ImportGraph

/-! ## The couplings of a package -/

theorem map_package_metrics (g : ImportGraph) : g.metrics.map (·.package) = g.packages := by
  simp [metrics, packages, Table.keys, Function.comp_def]

theorem package_mem {g : ImportGraph} {m : Metrics} (h : m ∈ g.metrics) :
    m.package ∈ g.packages := by
  rw [← map_package_metrics]
  exact List.mem_map_of_mem h

theorem exists_record {g : ImportGraph} {p : String} (h : p ∈ g.packages) :
    ∃ m ∈ g.metrics, m.package = p := by
  rw [← map_package_metrics] at h
  exact List.mem_map.1 h

/-- A sum over the records is a sum over the packages. -/
theorem sum_metrics {g : ImportGraph} {f : Metrics → Nat} (v : String → Nat)
    (each : ∀ m ∈ g.metrics, f m = v m.package) :
    (g.metrics.map f).sum = (g.packages.map v).sum := by
  rw [← map_package_metrics, List.map_map]
  exact congrArg List.sum (List.map_congr_left each)

/-- Ca of a package: how often the others import it. -/
theorem inwardCoupling_eq {g : ImportGraph} {m : Metrics} (h : m ∈ g.metrics) :
    m.inwardCoupling = ∑ q ∈ g.packages.toFinset.erase m.package, g.count q m.package := by
  have covers : ∀ q ∈ m.inward.keys, q ∈ g.packages.toFinset.erase m.package := by
    intro q hq
    obtain ⟨known, ne, -⟩ := (mem_keys_inward_iff h q).1 hq
    exact Finset.mem_erase.2 ⟨ne, List.mem_toFinset.2 known⟩
  rw [Metrics.inwardCoupling, Stats.total_eq_sum_of_covers covers]
  exact Finset.sum_congr rfl fun q hq => get_inward h (Finset.ne_of_mem_erase hq)

/-- Ce of a package: how often it imports anything. -/
theorem outwardCoupling_eq {g : ImportGraph} {m : Metrics} (h : m ∈ g.metrics) :
    m.outwardCoupling = ((g.imports m.package).map (g.count m.package)).sum := by
  rw [Metrics.outwardCoupling, stats_outward h, Stats.total_eq_sum]
  rfl

/-! ## Imports from within and from outside -/

/-- How often a package imports other packages of the graph. -/
def internalCount (g : ImportGraph) (p : String) : Nat :=
  (((g.imports p).filter fun i => i ∈ g.packages ∧ i ≠ p).map (g.count p)).sum

/-- How often a package imports what is no package of the graph. -/
def externalCount (g : ImportGraph) (p : String) : Nat :=
  (((g.imports p).filter fun i => i ∉ g.packages).map (g.count p)).sum

theorem internalCount_eq (g : ImportGraph) (p : String) :
    g.internalCount p = ∑ i ∈ g.packages.toFinset.erase p, g.count p i := by
  apply (g.stats p).sum_keys_filter
  intro i _
  simp [and_comm]

theorem sum_filter_not (l : List String) (P : String → Bool) (f : String → Nat) :
    (l.map f).sum = ((l.filter P).map f).sum + ((l.filter fun i => !P i).map f).sum := by
  rw [← List.sum_append, ← List.map_append]
  exact ((List.filter_append_perm P l).map f).sum_eq.symm

/-- A package imports other packages, things from outside, or itself. -/
theorem sum_imports {g : ImportGraph} {p : String} (known : p ∈ g.packages) :
    ((g.imports p).map (g.count p)).sum =
      g.internalCount p + (g.externalCount p + g.count p p) := by
  let inside := (g.imports p).filter fun i => !decide (i ∉ g.packages)
  have others : inside.filter (fun i => i ≠ p) =
      (g.imports p).filter fun i => i ∈ g.packages ∧ i ≠ p := by
    rw [List.filter_filter]
    apply List.filter_congr
    intro i _
    simp [and_comm]
  have itself : inside.filter (fun i => !decide (i ≠ p)) = (g.imports p).filter fun i => i = p := by
    rw [List.filter_filter]
    apply List.filter_congr
    intro i _
    by_cases eq : i = p <;> simp [eq, known]
  have own : (((g.imports p).filter fun i => i = p).map (g.count p)).sum = g.count p p := by
    have single := (g.stats p).sum_keys_filter (P := fun i => i = p) (K := {p}) fun i _ => by simp
    exact single.trans (Finset.sum_singleton ..)
  rw [sum_filter_not _ (fun i => i ∉ g.packages), sum_filter_not inside (fun i => i ≠ p), others,
    itself, own, internalCount, externalCount]
  omega

/-! ## Over the whole graph -/

theorem sum_packages (g : ImportGraph) (v : String → Nat) :
    (g.packages.map v).sum = ∑ p ∈ g.packages.toFinset, v p :=
  (List.sum_toFinset v g.table.distinct_keys).symm

/-- Counted where they leave or where they arrive, imports between packages are the same. -/
theorem sum_internalCount (g : ImportGraph) :
    (g.packages.map g.internalCount).sum = (g.metrics.map (·.inwardCoupling)).sum := by
  let P := g.packages.toFinset
  calc
    (g.packages.map g.internalCount).sum = ∑ p ∈ P, ∑ i ∈ P.erase p, g.count p i := by
      rw [sum_packages]
      exact Finset.sum_congr rfl fun p _ => internalCount_eq g p
    -- The inner set depends on the outer package, in the same way from both ends of an import.
    _ = ∑ i ∈ P, ∑ p ∈ P.erase i, g.count p i := by
      apply Finset.sum_comm'
      intro p i
      simp only [Finset.mem_erase]
      exact ⟨fun ⟨hp, ne, hi⟩ => ⟨⟨ne.symm, hp⟩, hi⟩, fun ⟨⟨ne, hp⟩, hi⟩ => ⟨hp, ne.symm, hi⟩⟩
    _ = (g.metrics.map (·.inwardCoupling)).sum := by
      rw [sum_metrics (fun i => ∑ p ∈ P.erase i, g.count p i) fun m h => inwardCoupling_eq h,
        sum_packages]

/-- Coupling is conserved: the inward couplings of all packages add up to the imports between
different packages, and the outward couplings exceed them by what is imported from outside and by
packages from themselves. -/
theorem coupling_conserved (g : ImportGraph) :
    (g.metrics.map (·.inwardCoupling)).sum = (g.packages.map g.internalCount).sum ∧
    (g.metrics.map (·.outwardCoupling)).sum = (g.metrics.map (·.inwardCoupling)).sum +
      (g.packages.map fun p => g.externalCount p + g.count p p).sum := by
  refine ⟨(sum_internalCount g).symm, ?_⟩
  let outside := fun p => g.externalCount p + g.count p p
  have outward : ∀ m ∈ g.metrics,
      m.outwardCoupling = g.internalCount m.package + outside m.package := by
    intro m h
    rw [outwardCoupling_eq h, sum_imports (package_mem h)]
  rw [sum_metrics (fun p => g.internalCount p + outside p) outward, ← sum_internalCount,
    List.sum_map_add]

end ImportGraph

end PackageCoupling
