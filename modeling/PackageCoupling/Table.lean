/-!
Finite maps from texts to values.

A table keeps its entries in strictly increasing key order, so two tables with the same look-ups
are the same table (`Table.ext_find?`), and listing a table needs no sorting. Keys are ordered by
code points, which is the order of their UTF-8 bytes. Lists of entries in the order of other keys
are altered in the same way.
-/

namespace PackageCoupling

namespace Table

/-! ## Lists of entries -/

section Entries

theorem lt_of_not_lt_of_ne {κ : Type} [LT κ] [LE κ] [Std.LawfulOrderLT κ] [Std.IsLinearOrder κ]
    {a b : κ} (h : ¬a < b) (hne : a ≠ b) : b < a := by
  rcases Std.lt_trichotomy a b with lt | eq | gt
  · exact absurd lt h
  · exact absurd eq hne
  · exact gt

variable {κ α : Type} [DecidableEq κ]

theorem lookup_cons_eq (k q : κ) (a : α) (rest : List (κ × α)) :
    ((q, a) :: rest).lookup k = if k = q then some a else rest.lookup k := by
  rw [List.lookup_cons]
  by_cases eq : k = q
  · simp [eq]
  · have ne : (k == q) = false := by simpa using eq
    simp [eq, ne]

theorem mem_of_lookup {l : List (κ × α)} {k : κ} {a : α} (h : l.lookup k = some a) :
    (k, a) ∈ l := by
  induction l with
  | nil => simp at h
  | cons p rest ih =>
    obtain ⟨k', a'⟩ := p
    rw [List.lookup_cons] at h
    split at h
    · rename_i eq
      rw [beq_iff_eq] at eq
      simp only [Option.some.injEq] at h
      simp [eq, h]
    · exact List.mem_cons_of_mem _ (ih h)

/-- With distinct keys a look-up finds every entry. -/
theorem lookup_eq_some_iff_mem {l : List (κ × α)} (distinct : (l.map (·.1)).Nodup)
    (k : κ) (a : α) : l.lookup k = some a ↔ (k, a) ∈ l := by
  refine ⟨mem_of_lookup, ?_⟩
  intro mem
  induction l with
  | nil => simp at mem
  | cons e rest ih =>
    rw [List.map_cons, List.nodup_cons] at distinct
    rw [lookup_cons_eq k e.1 e.2]
    rcases List.mem_cons.1 mem with rfl | mem
    · simp
    · have ne : k ≠ e.1 := by
        rintro rfl
        exact distinct.1 (List.mem_map.2 ⟨_, mem, rfl⟩)
      rw [if_neg ne]
      exact ih distinct.2 mem

theorem lookup_eq_none_of_fresh {l : List (κ × α)} {k : κ} (fresh : k ∉ l.map (·.1)) :
    l.lookup k = none := by
  rw [List.lookup_eq_none_iff]
  intro e he
  rw [bne_iff_ne]
  rintro rfl
  exact fresh (List.mem_map.2 ⟨e, he, rfl⟩)

theorem lookup_perm {l m : List (κ × α)} (distinct : (l.map (·.1)).Nodup)
    (perm : m.Perm l) (k : κ) : m.lookup k = l.lookup k := by
  have distinct' : (m.map (·.1)).Nodup := (perm.map _).nodup_iff.2 distinct
  ext a
  rw [lookup_eq_some_iff_mem distinct', lookup_eq_some_iff_mem distinct, perm.mem_iff]

variable [LT κ] [DecidableLT κ]

/-- Replaces the value at `key` by `f` of it, in one pass; an absent key is put in its place. -/
def alterEntries (key : κ) (f : Option α → α) : List (κ × α) → List (κ × α)
  | [] => [(key, f none)]
  | (k, a) :: rest =>
    if key < k then (key, f none) :: (k, a) :: rest
    else if key = k then (k, f (some a)) :: rest
    else (k, a) :: alterEntries key f rest

/-- An entry of the altered list is an old one, or the one that has been altered. -/
theorem mem_alterEntries {key : κ} {f : Option α → α} {l : List (κ × α)}
    {e : κ × α} (h : e ∈ alterEntries key f l) :
    e ∈ l ∨ e = (key, f none) ∨ ∃ a, (key, a) ∈ l ∧ e = (key, f (some a)) := by
  induction l with
  | nil =>
    simp only [alterEntries, List.mem_singleton] at h
    exact .inr (.inl h)
  | cons p rest ih =>
    obtain ⟨k, a⟩ := p
    rw [alterEntries] at h
    split at h
    · rcases List.mem_cons.1 h with rfl | h
      · exact .inr (.inl rfl)
      · exact .inl h
    · split at h
      · rename_i eq
        subst eq
        rcases List.mem_cons.1 h with rfl | h
        · exact .inr (.inr ⟨a, List.mem_cons_self, rfl⟩)
        · exact .inl (List.mem_cons_of_mem _ h)
      · rcases List.mem_cons.1 h with rfl | h
        · exact .inl List.mem_cons_self
        · rcases ih h with h | h | ⟨a, ha, h⟩
          · exact .inl (List.mem_cons_of_mem _ h)
          · exact .inr (.inl h)
          · exact .inr (.inr ⟨a, List.mem_cons_of_mem _ ha, h⟩)

variable [LE κ] [Std.LawfulOrderLT κ] [Std.IsLinearOrder κ]

theorem sorted_alterEntries (key : κ) (f : Option α → α) {l : List (κ × α)}
    (h : l.Pairwise (fun a b => a.1 < b.1)) :
    (alterEntries key f l).Pairwise (fun a b => a.1 < b.1) := by
  induction l with
  | nil => simp [alterEntries]
  | cons p rest ih =>
    obtain ⟨k, a⟩ := p
    rw [List.pairwise_cons] at h
    rw [alterEntries]
    split
    · rename_i lt
      refine List.pairwise_cons.2 ⟨?_, List.pairwise_cons.2 h⟩
      intro e he
      rcases List.mem_cons.1 he with rfl | he
      · exact lt
      · exact Std.lt_trans lt (h.1 e he)
    · rename_i notLt
      split
      · exact List.pairwise_cons.2 h
      · rename_i ne
        refine List.pairwise_cons.2 ⟨?_, ih h.2⟩
        intro e he
        rcases mem_alterEntries he with old | rfl | ⟨a', old, rfl⟩
        · exact h.1 e old
        · exact lt_of_not_lt_of_ne notLt ne
        · exact h.1 (key, a') old

theorem lookup_alterEntries (key : κ) (f : Option α → α) {l : List (κ × α)}
    (h : l.Pairwise (fun a b => a.1 < b.1)) (k : κ) :
    (alterEntries key f l).lookup k =
      if k = key then some (f (l.lookup key)) else l.lookup k := by
  induction l with
  | nil =>
    rw [alterEntries, lookup_cons_eq]
    rfl
  | cons p rest ih =>
    obtain ⟨k', a⟩ := p
    rw [List.pairwise_cons] at h
    have absent : key < k' → ((k', a) :: rest).lookup key = none := by
      intro lt
      rw [List.lookup_eq_none_iff]
      intro e he
      rw [bne_iff_ne]
      rintro rfl
      rcases List.mem_cons.1 he with rfl | he
      · exact Std.lt_irrefl lt
      · exact Std.lt_irrefl (Std.lt_trans lt (h.1 e he))
    rw [alterEntries]
    split
    · rename_i lt
      rw [absent lt, lookup_cons_eq]
    · split
      · rename_i eq
        subst eq
        simp only [lookup_cons_eq]
        split <;> simp
      · rename_i ne
        rw [lookup_cons_eq, ih h.2]
        by_cases eq : k = k'
        · subst eq
          have ne' : k ≠ key := fun e => ne e.symm
          simp [ne']
        · simp only [lookup_cons_eq, eq, ne, if_false]

end Entries

end Table

/-! ## Tables -/

structure Table (α : Type) where
  entries : List (String × α)
  sorted : entries.Pairwise (fun a b => a.1 < b.1)

namespace Table

variable {α : Type}

instance [DecidableEq α] : DecidableEq (Table α) := fun a b =>
  match a, b with
  | ⟨as, _⟩, ⟨bs, _⟩ =>
    if h : as = bs then isTrue (by subst h; rfl) else isFalse (fun e => h (Table.mk.inj e))

def empty : Table α := ⟨[], List.Pairwise.nil⟩

instance : Inhabited (Table α) := ⟨empty⟩

def find? (t : Table α) (key : String) : Option α := t.entries.lookup key

def contains (t : Table α) (key : String) : Bool := (t.find? key).isSome

def keys (t : Table α) : List String := t.entries.map (·.1)

def size (t : Table α) : Nat := t.entries.length

def isEmpty (t : Table α) : Bool := t.entries.isEmpty

/-- Replaces the value at `key` by `f` of it. -/
def alter (t : Table α) (key : String) (f : Option α → α) : Table α :=
  ⟨alterEntries key f t.entries, sorted_alterEntries key f t.sorted⟩

def insert (t : Table α) (key : String) (a : α) : Table α := t.alter key (fun _ => a)

@[simp] theorem find?_empty (key : String) : (empty : Table α).find? key = none := rfl

/-- Altering changes one look-up and no other. -/
theorem find?_alter (t : Table α) (key : String) (f : Option α → α) (k : String) :
    (t.alter key f).find? k = if k = key then some (f (t.find? key)) else t.find? k :=
  lookup_alterEntries key f t.sorted k

@[simp] theorem find?_insert (t : Table α) (key : String) (a : α) (k : String) :
    (t.insert key a).find? k = if k = key then some a else t.find? k :=
  find?_alter t key _ k

theorem sorted_keys (t : Table α) : t.keys.Pairwise (· < ·) := List.pairwise_map.2 t.sorted

theorem distinct_keys (t : Table α) : (t.entries.map (·.1)).Nodup :=
  t.sorted_keys.imp String.ne_of_lt

theorem find?_eq_some_iff (t : Table α) (k : String) (a : α) :
    t.find? k = some a ↔ (k, a) ∈ t.entries :=
  lookup_eq_some_iff_mem t.distinct_keys k a

theorem entries_eq_of_mem_iff {l m : List (String × α)}
    (hl : l.Pairwise (fun a b => a.1 < b.1)) (hm : m.Pairwise (fun a b => a.1 < b.1))
    (h : ∀ e, e ∈ l ↔ e ∈ m) : l = m := by
  induction l generalizing m with
  | nil =>
    cases m with
    | nil => rfl
    | cons e m => exact absurd ((h e).2 List.mem_cons_self) (by simp)
  | cons a l ih =>
    cases m with
    | nil => exact absurd ((h a).1 List.mem_cons_self) (by simp)
    | cons b m =>
      rw [List.pairwise_cons] at hl hm
      have eq : a = b := by
        rcases List.mem_cons.1 ((h a).1 List.mem_cons_self) with eq | ha
        · exact eq
        · rcases List.mem_cons.1 ((h b).2 List.mem_cons_self) with eq | hb
          · exact eq.symm
          · exact absurd (String.lt_trans (hl.1 b hb) (hm.1 a ha)) (String.lt_irrefl _)
      subst eq
      refine congrArg _ (ih hl.2 hm.2 fun e => ?_)
      have fresh : ∀ {n : List (String × α)}, (∀ e ∈ n, a.1 < e.1) → a ∉ n :=
        fun hn mem => String.lt_irrefl _ (hn a mem)
      constructor
      · intro he
        rcases List.mem_cons.1 ((h e).1 (List.mem_cons_of_mem _ he)) with rfl | he'
        · exact absurd he (fresh hl.1)
        · exact he'
      · intro he
        rcases List.mem_cons.1 ((h e).2 (List.mem_cons_of_mem _ he)) with rfl | he'
        · exact absurd he (fresh hm.1)
        · exact he'

theorem mem_keys_iff (t : Table α) (k : String) : k ∈ t.keys ↔ ∃ a, t.find? k = some a := by
  simp only [keys, List.mem_map, find?_eq_some_iff]
  constructor
  · rintro ⟨e, he, rfl⟩
    exact ⟨e.2, he⟩
  · rintro ⟨a, ha⟩
    exact ⟨(k, a), ha, rfl⟩

theorem contains_iff (t : Table α) (k : String) : t.contains k = true ↔ ∃ a, t.find? k = some a :=
  Option.isSome_iff_exists

/-- Whatever is done with the entries of one key concerns at most one entry. -/
theorem filterMap_at_key {β : Type} (t : Table α) (k : String) (f : α → Option β) :
    t.entries.filterMap (fun e => if e.1 = k then f e.2 else none) =
      ((t.find? k).bind f).toList := by
  obtain ⟨l, sorted⟩ := t
  rw [find?]
  induction l with
  | nil => rfl
  | cons e rest ih =>
    obtain ⟨k', a⟩ := e
    rw [List.pairwise_cons] at sorted
    rw [List.filterMap_cons, lookup_cons_eq]
    by_cases eq : k = k'
    · subst eq
      have nothing : rest.filterMap (fun e => if e.1 = k then f e.2 else none) = [] := by
        rw [List.filterMap_eq_nil_iff]
        intro e he
        rw [if_neg (String.ne_of_lt (sorted.1 e he)).symm]
      simp only [if_true, Option.bind_some, nothing]
      cases f a <;> rfl
    · have ne : k' ≠ k := fun h => eq h.symm
      simp only [ne, eq, if_false]
      exact ih sorted.2

/-- A table is determined by its look-ups. -/
theorem ext_find? {s t : Table α} (h : ∀ k, s.find? k = t.find? k) : s = t := by
  obtain ⟨l, hl⟩ := s
  obtain ⟨m, hm⟩ := t
  have : l = m := entries_eq_of_mem_iff hl hm fun e => by
    rw [← find?_eq_some_iff ⟨l, hl⟩ e.1 e.2, ← find?_eq_some_iff ⟨m, hm⟩ e.1 e.2, h]
  subst this
  rfl

end Table

end PackageCoupling
