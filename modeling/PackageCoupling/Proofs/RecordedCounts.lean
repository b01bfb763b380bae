import Mathlib.Data.Finset.Card
import PackageCoupling.Proofs.ByteOrder
import PackageCoupling.Proofs.SafeCounts

/-!
# Counts after any calls

A table of counts is told what to add, call by call. What it says of an identifier afterwards are
the counts that were recorded for it (`find?_ofCounts_eq`), so the order of the calls leaves no
trace (`ofCounts_perm`), and an identifier has an entry as soon as anything was recorded for it,
even nothing but zeros.
-/

namespace PackageCoupling

namespace Stats

/-- What some calls record for an identifier, added up. -/
def recordedFor (id : String) (calls : List (String × Nat)) : Nat :=
  ((calls.filter fun call => call.1 = id).map (·.2)).sum

theorem recordedFor_cons (id : String) (call : String × Nat) (calls : List (String × Nat)) :
    recordedFor id (call :: calls) = (if id = call.1 then call.2 else 0) +
      recordedFor id calls := by
  unfold recordedFor
  by_cases eq : call.1 = id
  · simp [eq]
  · simp [eq, Ne.symm eq]

theorem recordedFor_of_notMem {id : String} {calls : List (String × Nat)}
    (absent : id ∉ calls.map (·.1)) : recordedFor id calls = 0 := by
  have nothing : calls.filter (fun call => call.1 = id) = [] := by
    rw [List.filter_eq_nil_iff]
    intro call mem eq
    exact absent (List.mem_map.2 ⟨call, mem, of_decide_eq_true eq⟩)
  rw [recordedFor, nothing]
  rfl

theorem recordedFor_perm {calls calls' : List (String × Nat)} (h : calls'.Perm calls)
    (id : String) : recordedFor id calls' = recordedFor id calls :=
  ((h.filter _).map _).sum_eq

/-- Calls add up on top of what a table holds before, and give an entry to whatever they name. -/
theorem find?_after_calls (calls : List (String × Nat)) (s : Stats) (k : String) :
    (calls.foldl (fun s (id, n) => record s id n) s).find? k =
      if k ∈ calls.map (·.1) then some (s.get k + recordedFor k calls) else s.find? k := by
  induction calls generalizing s with
  | nil => rfl
  | cons call rest ih =>
    obtain ⟨id, n⟩ := call
    rw [List.foldl_cons, ih, get_record, find?_record, recordedFor_cons, List.map_cons]
    by_cases eq : k = id
    · subst eq
      by_cases again : k ∈ rest.map (·.1)
      · simp only [again, List.mem_cons_self, if_true]
        rw [Nat.add_assoc]
      · simp [again, recordedFor_of_notMem again]
    · have elsewhere : k ∈ id :: rest.map (·.1) ↔ k ∈ rest.map (·.1) := by
        rw [List.mem_cons, or_iff_right eq]
      simp only [eq, elsewhere, if_false, Nat.add_zero, Nat.zero_add]

theorem find?_ofCounts_eq (calls : List (String × Nat)) (k : String) :
    (ofCounts calls).find? k =
      if k ∈ calls.map (·.1) then some (recordedFor k calls) else none := by
  have nothing : get Table.empty k = 0 := rfl
  rw [ofCounts, find?_after_calls, nothing, Nat.zero_add]
  rfl

theorem get_ofCounts (calls : List (String × Nat)) (k : String) :
    (ofCounts calls).get k = recordedFor k calls := by
  rw [get, find?_ofCounts_eq]
  split
  · rfl
  · rename_i absent
    rw [recordedFor_of_notMem absent]
    rfl

theorem total_ofCounts (calls : List (String × Nat)) :
    (ofCounts calls).total = (calls.map (·.2)).sum := by
  have onTop : ∀ s : Stats, (calls.foldl (fun s (id, n) => record s id n) s).total =
      s.total + (calls.map (·.2)).sum := by
    induction calls with
    | nil => exact fun s => rfl
    | cons call rest ih =>
      intro s
      rw [List.foldl_cons, ih, total_record, List.map_cons, List.sum_cons, Nat.add_assoc]
  exact (onTop Table.empty).trans (Nat.zero_add _)

theorem mem_entries_ofCounts (calls : List (String × Nat)) (k : String) (n : Nat) :
    (k, n) ∈ (ofCounts calls).entries ↔ k ∈ calls.map (·.1) ∧ n = recordedFor k calls := by
  rw [← Table.find?_eq_some_iff, find?_ofCounts_eq]
  split
  · rename_i mem
    simp [mem, eq_comm]
  · rename_i absent
    simp [absent]

theorem size_ofCounts (calls : List (String × Nat)) :
    (ofCounts calls).size = (calls.map (·.1)).toFinset.card := by
  have same : (ofCounts calls).keys.toFinset = (calls.map (·.1)).toFinset := by
    ext k
    rw [List.mem_toFinset, List.mem_toFinset, Table.mem_keys_iff, find?_ofCounts_eq]
    split
    · rename_i mem
      exact iff_of_true ⟨_, rfl⟩ mem
    · rename_i absent
      exact iff_of_false nofun absent
  have distinct : (ofCounts calls).keys.Nodup := Table.distinct_keys _
  rw [← same, List.toFinset_card_of_nodup distinct, Table.keys, List.length_map]
  rfl

/-- The order of the calls leaves no trace. -/
theorem ofCounts_perm {calls calls' : List (String × Nat)} (h : calls'.Perm calls) :
    ofCounts calls' = ofCounts calls := by
  apply Table.ext_find?
  intro k
  rw [find?_ofCounts_eq, find?_ofCounts_eq, recordedFor_perm h, if_congr (h.map _).mem_iff rfl rfl]

end Stats

namespace Checked

open Stats

/-- After any calls whose counts add up to less than 64 bits, no addition has overflowed. An
identifier has what was recorded for it, the total is what was recorded at all, there are as many
entries as different identifiers in the calls, listed in the order of their bytes, and the same
calls in another order give the same table. -/
theorem counts_after_calls (calls : List (String × Nat))
    (small : (calls.map (·.2)).sum < countLimit) : ∃ s : Stats, ofCounts calls = .ok s ∧
      (∀ id, s.get id = recordedFor id calls) ∧
      total s = .ok (calls.map (·.2)).sum ∧
      s.size = (calls.map (·.1)).toFinset.card ∧
      (∀ id n, (id, n) ∈ s.entries ↔ id ∈ calls.map (·.1) ∧ n = recordedFor id calls) ∧
      s.keys.Pairwise Utf8.Before ∧
      ∀ calls', calls'.Perm calls → ofCounts calls' = .ok s := by
  refine ⟨Stats.ofCounts calls, ofCounts_ok small, get_ofCounts calls, ?_, size_ofCounts calls,
    mem_entries_ofCounts calls, ?_, fun calls' perm => ?_⟩
  · rw [total_ok (total_ofCounts calls ▸ small), total_ofCounts]
  · exact (Utf8.pairwise_before_iff _).2 (Table.sorted_keys _)
  · rw [ofCounts_ok ((perm.map (·.2)).sum_eq ▸ small), ofCounts_perm perm]

/-- Repeated identifiers, one of them recorded with zeros only, and a total just below the bound. -/
theorem counts_after_mixedCalls :
    let calls := [("os", 1), ("", 0), ("fmt", 2), ("os", countLimit - 4), ("", 0)]
    (calls.map (·.2)).sum = countLimit - 1 ∧
    ∃ s : Stats, ofCounts calls = .ok s ∧ s.get "os" = countLimit - 3 ∧
      total s = .ok (countLimit - 1) ∧ s.size = 3 ∧ ("", 0) ∈ s.entries ∧
        s.keys.Pairwise Utf8.Before ∧
      ofCounts calls.reverse = .ok s := by
  intro calls
  have number : (calls.map (·.2)).sum = countLimit - 1 := by decide
  obtain ⟨s, ok, counts, sum, size, entries, sorted, order⟩ :=
    counts_after_calls calls (by rw [number]; decide)
  exact ⟨number, s, ok, (counts "os").trans (by decide), number ▸ sum, size.trans (by decide),
    (entries "" 0).2 (by decide), sorted, order _ calls.reverse_perm⟩

end Checked

end PackageCoupling
