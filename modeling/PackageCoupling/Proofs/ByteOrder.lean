import PackageCoupling.Text.Utf8

/-!
The order of texts by code points is the order of their bytes (`encode_lt_encode_iff`). Tables and
sorted paths may therefore compare texts and never look at bytes.
-/

namespace PackageCoupling.Utf8

theorem ofNat_cons_lt {m n : Nat} {l r : Bytes} (hm : m < 256) (hn : n < 256) (le : m ≤ n)
    (rest : m = n → l < r) : UInt8.ofNat m :: l < UInt8.ofNat n :: r := by
  rw [List.cons_lt_cons_iff]
  rcases Nat.lt_or_eq_of_le le with lt | eq
  · left
    rw [UInt8.lt_iff_toNat_lt, UInt8.toNat_ofNat_of_lt' hm, UInt8.toNat_ofNat_of_lt' hn]
    exact lt
  · exact .inr ⟨by rw [eq], rest eq⟩

theorem code_le (c : Char) : c.val.toNat ≤ 0x10FFFF := by
  have valid : c.val.toNat.isValidChar := c.valid
  unfold Nat.isValidChar at valid
  omega

/-- A greater character has greater bytes, whatever follows: the first bytes that differ decide, and
there are some before either encoding ends. -/
theorem encodeChar_append_lt {c d : Char} (h : c < d) (x y : Bytes) :
    String.utf8EncodeChar c ++ x < String.utf8EncodeChar d ++ y := by
  have lt : c.val.toNat < d.val.toNat := UInt32.lt_iff_toNat_lt.1 h
  have bound := code_le d
  generalize hv : c.val.toNat = v at lt
  generalize hw : d.val.toNat = w at lt bound
  simp only [String.utf8EncodeChar, hv, hw]
  -- the first byte tells the length, so encodings of different lengths differ there
  split
  · split
    · exact ofNat_cons_lt (by omega) (by omega) (by omega) (by omega)
    · repeat' split
      all_goals exact ofNat_cons_lt (by omega) (by omega) (by omega) (by omega)
  · rw [if_neg (by omega : ¬w ≤ 0x7f)]
    split
    · split
      · exact ofNat_cons_lt (by omega) (by omega) (by omega) fun _ =>
          ofNat_cons_lt (by omega) (by omega) (by omega) (by omega)
      · split
        all_goals exact ofNat_cons_lt (by omega) (by omega) (by omega) (by omega)
    · rw [if_neg (by omega : ¬w ≤ 0x7ff)]
      split
      · split
        · exact ofNat_cons_lt (by omega) (by omega) (by omega) fun _ =>
            ofNat_cons_lt (by omega) (by omega) (by omega) fun _ =>
              ofNat_cons_lt (by omega) (by omega) (by omega) (by omega)
        · exact ofNat_cons_lt (by omega) (by omega) (by omega) (by omega)
      · rw [if_neg (by omega : ¬w ≤ 0xffff)]
        exact ofNat_cons_lt (by omega) (by omega) (by omega) fun _ =>
          ofNat_cons_lt (by omega) (by omega) (by omega) fun _ =>
            ofNat_cons_lt (by omega) (by omega) (by omega) fun _ =>
              ofNat_cons_lt (by omega) (by omega) (by omega) (by omega)

theorem encodeChar_ne_nil (c : Char) : String.utf8EncodeChar c ≠ [] := by
  intro nil
  have length := String.length_utf8EncodeChar c
  rw [nil, List.length_nil] at length
  exact absurd length (Nat.ne_of_lt c.utf8Size_pos)

theorem flatMap_lt_flatMap {l r : List Char} (h : l < r) :
    l.flatMap String.utf8EncodeChar < r.flatMap String.utf8EncodeChar := by
  induction h with
  | @nil d r =>
    cases encoded : String.utf8EncodeChar d with
    | nil => exact absurd encoded (encodeChar_ne_nil d)
    | cons b bs =>
      rw [List.flatMap_nil, List.flatMap_cons, encoded]
      exact List.nil_lt_cons _ _
  | rel lt =>
    rw [List.flatMap_cons, List.flatMap_cons]
    exact encodeChar_append_lt lt _ _
  | cons _ ih =>
    rw [List.flatMap_cons, List.flatMap_cons]
    exact List.append_left_lt ih

/-- Texts compare as their bytes do. -/
theorem encode_lt_encode_iff (a b : String) : encode a < encode b ↔ a < b := by
  constructor
  · intro lt
    rcases Std.lt_trichotomy a b with less | eq | greater
    · exact less
    · exact absurd (eq ▸ lt) (List.lt_irrefl _)
    · exact absurd (flatMap_lt_flatMap greater) (List.lt_asymm lt)
  · exact flatMap_lt_flatMap

theorem encode_le_encode_iff (a b : String) : encode a ≤ encode b ↔ a ≤ b :=
  not_congr (encode_lt_encode_iff b a)

/-- Whether `a` stands before `b` in the order of bytes. -/
def Before (a b : String) : Prop := encode a < encode b

theorem not_before_self (a : String) : ¬Before a a := List.lt_irrefl _

theorem pairwise_before_iff (l : List String) : l.Pairwise Before ↔ l.Pairwise (· < ·) := by
  have same : ∀ a b, Before a b ↔ a < b := encode_lt_encode_iff
  simp only [List.pairwise_iff_forall_sublist, same]

end PackageCoupling.Utf8
