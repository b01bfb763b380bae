import Mathlib.Algebra.Order.Field.Basic
import Mathlib.Algebra.Order.Ring.Rat
import PackageCoupling.Proofs.GraphGrowth
import PackageCoupling.Proofs.SafeCounts

/-!
# Instability as an exact ratio

The share of outward coupling in both couplings, with nothing rounded. The figure that is reported
is the quotient of the same two numbers in double precision (`instability_eq`), and zero where there
is no coupling.

* `ratio_eq_zero_iff`, `ratio_eq_one_iff`: its ends, where one of the couplings is missing;
* `ratio_le_ratio`: it grows with outward and falls with inward coupling, also from and to zero;
* `no_outwardCoupling_iff`, `no_inwardCoupling_iff`: when a coupling is missing. Here it matters
  that a graph counts something for every import, which holds of the graphs that adding leads to.

A file adds to the outward coupling of its own package and to the inward coupling of others, so it
moves each ratio in one direction only (`ratio_add`).
-/

namespace PackageCoupling

namespace Metrics

/-- The instability as an exact number. -/
def ratio (m : Metrics) : ℚ := m.share 0 fun part whole => (part : ℚ) / whole

/-- A share is taken of Ce in Ca + Ce, unless both are zero. -/
theorem share_eq {α : Type} (zero : α) (divide : Nat → Nat → α) (m : Metrics) :
    m.share zero divide = if m.inwardCoupling + m.outwardCoupling = 0 then zero
      else divide m.outwardCoupling (m.inwardCoupling + m.outwardCoupling) := by
  simp only [share, beq_iff_eq]

theorem instability_eq (m : Metrics) :
    m.instability = if m.inwardCoupling + m.outwardCoupling = 0 then 0.0
      else Float.ofNat m.outwardCoupling / Float.ofNat (m.inwardCoupling + m.outwardCoupling) :=
  share_eq ..

theorem ratio_eq (m : Metrics) :
    m.ratio = (m.outwardCoupling : ℚ) / ((m.inwardCoupling + m.outwardCoupling : Nat) : ℚ) := by
  rw [ratio, share_eq]
  split
  · rename_i none
    rw [none, Nat.cast_zero, div_zero]
  · rfl

theorem ratio_nonneg (m : Metrics) : 0 ≤ m.ratio := by
  rw [ratio_eq]
  exact div_nonneg (Nat.cast_nonneg _) (Nat.cast_nonneg _)

theorem ratio_le_one (m : Metrics) : m.ratio ≤ 1 := by
  rw [ratio_eq]
  exact div_le_one_of_le₀ (Nat.cast_le.2 (Nat.le_add_left _ _)) (Nat.cast_nonneg _)

theorem ratio_eq_zero_iff (m : Metrics) : m.ratio = 0 ↔ m.outwardCoupling = 0 := by
  rw [ratio_eq, div_eq_zero_iff, Nat.cast_eq_zero, Nat.cast_eq_zero]
  omega

theorem ratio_eq_one_iff (m : Metrics) :
    m.ratio = 1 ↔ m.outwardCoupling ≠ 0 ∧ m.inwardCoupling = 0 := by
  by_cases none : m.outwardCoupling = 0
  · rw [(ratio_eq_zero_iff m).2 none]
    simp [none]
  · have whole : ((m.inwardCoupling + m.outwardCoupling : Nat) : ℚ) ≠ 0 :=
      Nat.cast_ne_zero.2 (by omega)
    rw [ratio_eq, div_eq_one_iff_eq whole, Nat.cast_inj]
    omega

/-- Less inward and more outward coupling make a package less stable. -/
theorem ratio_le_ratio {m m' : Metrics} (inward : m'.inwardCoupling ≤ m.inwardCoupling)
    (outward : m.outwardCoupling ≤ m'.outwardCoupling) : m.ratio ≤ m'.ratio := by
  by_cases none : m.outwardCoupling = 0
  · rw [(ratio_eq_zero_iff m).2 none]
    exact ratio_nonneg m'
  · have whole : (0 : ℚ) < ((m.inwardCoupling + m.outwardCoupling : Nat) : ℚ) :=
      Nat.cast_pos.2 (by omega)
    have whole' : (0 : ℚ) < ((m'.inwardCoupling + m'.outwardCoupling : Nat) : ℚ) :=
      Nat.cast_pos.2 (by omega)
    rw [ratio_eq, ratio_eq, div_le_div_iff₀ whole whole', ← Nat.cast_mul, ← Nat.cast_mul,
      Nat.cast_le]
    -- What both products have in common is the product of the two outward couplings.
    calc
      m.outwardCoupling * (m'.inwardCoupling + m'.outwardCoupling)
          = m.outwardCoupling * m'.inwardCoupling + m'.outwardCoupling * m.outwardCoupling := by
        rw [Nat.mul_add, Nat.mul_comm m.outwardCoupling m'.outwardCoupling]
      _ ≤ m'.outwardCoupling * m.inwardCoupling + m'.outwardCoupling * m.outwardCoupling :=
        Nat.add_le_add_right (Nat.mul_le_mul outward inward) _
      _ = m'.outwardCoupling * (m.inwardCoupling + m.outwardCoupling) := (Nat.mul_add ..).symm

end Metrics

namespace ImportGraph

/-! ## Missing couplings -/

section Positive

variable {g : ImportGraph} {m : Metrics} (positive : g.Positive) (h : m ∈ g.metrics)

include positive h

theorem no_outwardCoupling_iff : m.outwardCoupling = 0 ↔ g.imports m.package = [] := by
  rw [outwardCoupling_eq h, List.sum_eq_zero_iff, List.eq_nil_iff_forall_not_mem]
  constructor
  · intro zero i mem
    have counted := (mem_imports_iff positive m.package i).1 mem
    have := zero _ (List.mem_map_of_mem mem)
    omega
  · intro none n mem
    obtain ⟨i, imported, -⟩ := List.mem_map.1 mem
    exact absurd imported (none i)

theorem no_inwardCoupling_iff :
    m.inwardCoupling = 0 ↔ ∀ q ∈ g.packages, q ≠ m.package → m.package ∉ g.imports q := by
  rw [inwardCoupling_eq h, Finset.sum_eq_zero_iff]
  simp only [Finset.mem_erase, List.mem_toFinset, mem_imports_iff positive,
    Nat.pos_iff_ne_zero, not_not]
  exact ⟨fun zero q known other => zero q ⟨other, known⟩,
    fun zero q known => zero q known.2 known.1⟩

end Positive

/-! ## Ratios of a growing graph -/

theorem ratio_add {g : ImportGraph} {q : String} {ids : List String} {m m' : Metrics}
    (h : m ∈ g.metrics) (h' : m' ∈ (g.add q ids).metrics) (same : m'.package = m.package) :
    (q ≠ m.package → m'.ratio ≤ m.ratio) ∧ (q = m.package → m.ratio ≤ m'.ratio) := by
  obtain ⟨inward, outward⟩ := coupling_le_add h h' same
  constructor
  · intro other
    have kept : m'.outwardCoupling = m.outwardCoupling :=
      congrArg Stats.total (outward_add_of_ne h h' same other.symm)
    exact Metrics.ratio_le_ratio inward (Nat.le_of_eq kept)
  · intro own
    have kept : m'.inwardCoupling = m.inwardCoupling :=
      congrArg Stats.total (inward_add_self h h' same own.symm)
    exact Metrics.ratio_le_ratio (Nat.le_of_eq kept) outward

/-- The instability of every package is the share of Ce in Ca + Ce, or zero without any coupling; so
it is reported, in double precision. As an exact ratio it lies between 0 and 1. It is 0 just for the
packages without imports, and 1 just for those that import something while no other package imports
them. A file of another package never raises it, and a file of the package itself never lowers it.
-/
theorem ratio_bounded_and_monotone {g : ImportGraph} (reachable : Reachable g) :
    (∀ p ∈ g.packages, ∃ m ∈ g.metrics, m.package = p) ∧
    ∀ m ∈ g.metrics,
      let sum := m.inwardCoupling + m.outwardCoupling
      (m.ratio = if sum = 0 then 0 else (m.outwardCoupling : ℚ) / (sum : ℚ)) ∧
      (m.instability = if sum = 0 then 0.0 else Float.ofNat m.outwardCoupling / Float.ofNat sum) ∧
      m.figures.instability = m.instability ∧
      (sum < Checked.countLimit → Checked.figures m = .ok m.figures) ∧
      (0 ≤ m.ratio ∧ m.ratio ≤ 1) ∧
      (m.ratio = 0 ↔ g.imports m.package = []) ∧
      (m.ratio = 1 ↔ g.imports m.package ≠ [] ∧
        ∀ q ∈ g.packages, q ≠ m.package → m.package ∉ g.imports q) ∧
      ∀ q ids, (∃ m' ∈ (g.add q ids).metrics, m'.package = m.package) ∧
        ∀ m' ∈ (g.add q ids).metrics, m'.package = m.package →
          (q ≠ m.package → m'.ratio ≤ m.ratio) ∧ (q = m.package → m.ratio ≤ m'.ratio) := by
  refine ⟨fun p known => exists_record known, fun m h => ?_⟩
  have outward := no_outwardCoupling_iff reachable.positive h
  have inward := no_inwardCoupling_iff reachable.positive h
  refine ⟨Metrics.share_eq .., m.instability_eq, rfl, Checked.figures_ok,
    ⟨m.ratio_nonneg, m.ratio_le_one⟩, ?_, ?_, fun q ids => ⟨?_, fun m' h' => ratio_add h h'⟩⟩
  · rw [Metrics.ratio_eq_zero_iff, outward]
  · rw [Metrics.ratio_eq_one_iff, Ne, outward, inward]
  · exact exists_record ((mem_packages_add g q ids _).2 (.inl (package_mem h)))

/-- In `cycle` both packages are imported, so neither is wholly unstable; a new package that imports
`a` makes `a` no less stable. -/
theorem ratio_of_cycle :
    Reachable cycle ∧ ∃ m ∈ cycle.metrics, m.package = "a" ∧
      m.instability = Float.ofNat 3 / Float.ofNat 5 ∧ 0 ≤ m.ratio ∧ m.ratio ≤ 1 ∧
      m.ratio ≠ 0 ∧ m.ratio ≠ 1 ∧
      ∃ m' ∈ (cycle.add "c" ["a"]).metrics, m'.package = "a" ∧ m'.ratio ≤ m.ratio := by
  have reachable : Reachable cycle := by
    rw [cycle, ofFiles_eq_foldl (.refl _)]
    exact reachable_foldl .empty _
  have a : cycle.imports "a" = ["a", "b", "fmt"] := by decide +kernel
  have b : cycle.imports "b" = ["a", "fmt"] := by decide +kernel
  have packages : cycle.packages = ["a", "b"] := by decide +kernel
  obtain ⟨records, laws⟩ := ratio_bounded_and_monotone reachable
  obtain ⟨m, h, name⟩ := records "a" (by rw [packages]; decide)
  obtain ⟨-, figure, -, -, ⟨nonneg, le⟩, zero, one, grown⟩ := laws m h
  obtain ⟨⟨m', h', same⟩, order⟩ := grown "c" ["a"]
  rw [name] at zero one same
  have couplings : ∀ m ∈ cycle.metrics, m.package = "a" → m.inwardCoupling = 2 ∧
      m.outwardCoupling = 3 := by
    decide +kernel
  obtain ⟨inward, outward⟩ := couplings m h name
  rw [inward, outward] at figure
  refine ⟨reachable, m, h, name, figure, nonneg, le, ?_, ?_, m', h', same,
    (order m' h' (same.trans name.symm)).1 ?_⟩
  · rw [Ne, zero, a]
    decide
  · intro eq
    have imported := (one.1 eq).2 "b" (by rw [packages]; decide) (by decide)
    rw [b] at imported
    exact imported (by decide)
  · rw [name]
    decide

end ImportGraph

end PackageCoupling
