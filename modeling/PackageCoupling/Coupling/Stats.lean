import PackageCoupling.Table

/-!
Counts per identifier.
-/

namespace PackageCoupling

abbrev Stats := Table Nat

namespace Stats

/-- Adds `count` to what is recorded for `id`. -/
def record (s : Stats) (id : String) (count : Nat) : Stats :=
  s.alter id (fun old => old.getD 0 + count)

/-- Counts each occurrence in `ids` once. -/
def tally (s : Stats) (ids : List String) : Stats := ids.foldl (fun s id => record s id 1) s

/-- The counts of a list; what it says of one identifier at several places is added up. -/
def ofCounts (counts : List (String × Nat)) : Stats :=
  counts.foldl (fun s (id, n) => record s id n) Table.empty

def get (s : Stats) (id : String) : Nat := (s.find? id).getD 0

def total (s : Stats) : Nat := s.entries.foldr (fun e n => e.2 + n) 0

theorem get_record (s : Stats) (id : String) (count : Nat) (k : String) :
    (s.record id count).get k = s.get k + if k = id then count else 0 := by
  unfold get record
  rw [Table.find?_alter]
  split <;> simp_all

theorem find?_record (s : Stats) (id : String) (count : Nat) (k : String) :
    (s.record id count).find? k = if k = id then some (s.get k + count) else s.find? k := by
  unfold record
  rw [Table.find?_alter]
  split
  · rename_i eq
    rw [eq, get]
  · rfl

/-- Tallying adds the number of occurrences, and gives an entry to what occurs at all. -/
theorem find?_tally (s : Stats) (ids : List String) (k : String) :
    (s.tally ids).find? k = if k ∈ ids then some (s.get k + ids.count k) else s.find? k := by
  induction ids generalizing s with
  | nil => rfl
  | cons id rest ih =>
    have step : s.tally (id :: rest) = (s.record id 1).tally rest := rfl
    rw [step, ih, get_record, find?_record]
    by_cases eq : k = id
    · subst eq
      by_cases mem : k ∈ rest
      · simp only [mem, List.mem_cons_self, if_true, List.count_cons_self]
        congr 1
        omega
      · simp [mem, List.count_eq_zero_of_not_mem mem]
    · have ne : id ≠ k := fun e => eq e.symm
      simp [eq, List.count_cons_of_ne ne]

theorem get_tally (s : Stats) (ids : List String) (k : String) :
    (s.tally ids).get k = s.get k + ids.count k := by
  rw [get, find?_tally]
  split
  · rfl
  · rename_i absent
    rw [List.count_eq_zero_of_not_mem absent]
    rfl

end Stats

end PackageCoupling
