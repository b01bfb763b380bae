import PackageCoupling.Language.Basic

/-!
The parsers that a run has loaded. A parser that was interrupted in the middle of its work is
poisoned and cannot be used again.
-/

namespace PackageCoupling

structure Registry where
  loaded : List Language
  poisoned : List Language
  deriving DecidableEq, Repr

namespace Registry

def empty : Registry := ⟨[], []⟩

/-- Loads the parser of a language unless it is loaded. -/
def acquire (r : Registry) (l : Language) : Registry :=
  if r.loaded.contains l then r else { r with loaded := l :: r.loaded }

/-- Loads a parser and interrupts it. -/
def poison (r : Registry) (l : Language) : Registry :=
  let r := r.acquire l
  if r.poisoned.contains l then r else { r with poisoned := l :: r.poisoned }

def clear (_ : Registry) : Registry := empty

def isPoisoned (r : Registry) (l : Language) : Bool := r.poisoned.contains l

/-- How many parsers are loaded. -/
def size (r : Registry) : Nat := r.loaded.length

theorem isPoisoned_iff (r : Registry) (l : Language) : r.isPoisoned l = true ↔ l ∈ r.poisoned :=
  List.contains_iff_mem

theorem mem_loaded_acquire (r : Registry) (l k : Language) :
    k ∈ (r.acquire l).loaded ↔ k ∈ r.loaded ∨ k = l := by
  unfold acquire
  split
  · rename_i loaded
    rw [List.contains_iff_mem] at loaded
    exact ⟨.inl, fun h => h.elim id (· ▸ loaded)⟩
  · rw [List.mem_cons, or_comm]

theorem nodup_loaded_acquire {r : Registry} (h : r.loaded.Nodup) (l : Language) :
    (r.acquire l).loaded.Nodup := by
  unfold acquire
  split
  · exact h
  · rename_i absent
    rw [List.contains_iff_mem] at absent
    exact List.nodup_cons.2 ⟨absent, h⟩

/-- Loading a parser poisons none. -/
theorem poisoned_acquire (r : Registry) (l : Language) : (r.acquire l).poisoned = r.poisoned := by
  unfold acquire
  split <;> rfl

theorem loaded_poison (r : Registry) (l : Language) :
    (r.poison l).loaded = (r.acquire l).loaded := by
  unfold poison
  dsimp only
  split <;> rfl

theorem mem_poisoned_poison (r : Registry) (l k : Language) :
    k ∈ (r.poison l).poisoned ↔ k ∈ r.poisoned ∨ k = l := by
  unfold poison
  dsimp only
  rw [poisoned_acquire]
  split
  · rename_i poisoned
    rw [List.contains_iff_mem] at poisoned
    rw [poisoned_acquire]
    exact ⟨.inl, fun h => h.elim id (· ▸ poisoned)⟩
  · rw [List.mem_cons, or_comm]

end Registry

end PackageCoupling
