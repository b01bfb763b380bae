import Mathlib.Data.List.Basic
import PackageCoupling.Text.Utf8

/-!
# Decoding

Decoding undoes encoding (`decode_encode`). Where bytes encode no text they are still shown as one,
and an ASCII character there comes from its own byte (`ascii_of_shown`). So what is told apart by
ASCII characters can be told apart by bytes: showing bytes neither makes nor loses one of them
(`mem_of_mem_shown`, `decode_append_ascii`), and an ASCII text is shown only for its own bytes
(`eq_encode_of_lossy`).
-/

namespace PackageCoupling

def isAscii (c : Char) : Bool := c.toNat < 128

namespace Utf8

/-! ## Sequences of several bytes -/

/-- Whether `b` and the bytes `ts` behind it encode one character. -/
def Encodes (b : UInt8) (ts : Bytes) : Prop :=
  ∃ low high, follow? b = some (ts.length, low, high) ∧ tails ts.length low high ts = ts

/-- What the first byte says of the bytes behind it. -/
theorem follow?_cases {b low high : UInt8} {n : Nat} (h : follow? b = some (n, low, high)) :
    0x80 ≤ low ∧ high ≤ 0xBF ∧
      (n = 1 ∧ 0xC2 ≤ b ∧ b ≤ 0xDF ∨
       n = 2 ∧ 0xE0 ≤ b ∧ b ≤ 0xEF ∧ (b = 0xE0 → 0xA0 ≤ low) ∧ (b = 0xED → high ≤ 0x9F) ∨
       n = 3 ∧ 0xF0 ≤ b ∧ b ≤ 0xF4 ∧ (b = 0xF0 → 0x90 ≤ low) ∧ (b = 0xF4 → high ≤ 0x8F)) := by
  unfold follow? at h
  simp only [Bool.and_eq_true, decide_eq_true_eq, beq_iff_eq] at h
  repeat' split at h
  all_goals cases h
  all_goals grind

theorem tails_eq_self_cons {low high x : UInt8} {ts : Bytes} :
    tails (x :: ts).length low high (x :: ts) = x :: ts ↔
      low ≤ x ∧ x ≤ high ∧ tails ts.length 0x80 0xBF ts = ts := by
  rw [List.length_cons, tails]
  by_cases inside : low ≤ x ∧ x ≤ high
  · simp [inside]
  · simp [inside, ← and_assoc]

theorem codePoint_one (b x : UInt8) : codePoint b [x] = b.toNat % 32 * 64 + x.toNat % 64 := rfl

theorem codePoint_two (b x y : UInt8) :
    codePoint b [x, y] = (b.toNat % 16 * 64 + x.toNat % 64) * 64 + y.toNat % 64 := rfl

theorem codePoint_three (b x y z : UInt8) :
    codePoint b [x, y, z] =
      ((b.toNat % 8 * 64 + x.toNat % 64) * 64 + y.toNat % 64) * 64 + z.toNat % 64 := rfl

/-- The code point of a sequence belongs to a character beyond ASCII. -/
theorem Encodes.codePoint_valid {b : UInt8} {ts : Bytes} (h : Encodes b ts) :
    0x80 ≤ codePoint b ts ∧ (codePoint b ts).isValidChar := by
  obtain ⟨low, high, first, inside⟩ := h
  -- the bounds on the second byte keep out what is too small, too great or a surrogate
  obtain ⟨least, greatest, ⟨length, range⟩ | ⟨length, range⟩ | ⟨length, range⟩⟩ :=
    follow?_cases first
  · obtain ⟨x, rfl⟩ := List.length_eq_one_iff.1 length
    have tail := tails_eq_self_cons.1 inside
    rw [codePoint_one, Nat.isValidChar]
    simp only [UInt8.le_iff_toNat_le, UInt8.reduceToNat] at *
    omega
  · obtain ⟨x, y, rfl⟩ := List.length_eq_two.1 length
    have tail := tails_eq_self_cons.1 inside
    rw [tails_eq_self_cons] at tail
    rw [codePoint_two, Nat.isValidChar]
    simp only [UInt8.le_iff_toNat_le, ← UInt8.toNat_inj, UInt8.reduceToNat] at *
    omega
  · obtain ⟨x, y, z, rfl⟩ := List.length_eq_three.1 length
    have tail := tails_eq_self_cons.1 inside
    rw [tails_eq_self_cons, tails_eq_self_cons] at tail
    rw [codePoint_three, Nat.isValidChar]
    simp only [UInt8.le_iff_toNat_le, ← UInt8.toNat_inj, UInt8.reduceToNat] at *
    omega

/-! ## The glyph at the front -/

theorem tails_append_of_eq_self {low high : UInt8} {ts : Bytes}
    (h : tails ts.length low high ts = ts) (rest : Bytes) :
    tails ts.length low high (ts ++ rest) = ts := by
  induction ts generalizing low high with
  | nil => rfl
  | cons x ts ih =>
    obtain ⟨least, greatest, inside⟩ := tails_eq_self_cons.1 h
    rw [List.length_cons, List.cons_append, tails, if_pos (by simp [least, greatest]), ih inside]

/-- The bytes that continue a sequence would do so by themselves. -/
theorem tails_eq_append (n : Nat) (low high : UInt8) (rest : Bytes) :
    ∃ more, rest = tails n low high rest ++ more ∧
      tails (tails n low high rest).length low high (tails n low high rest) =
        tails n low high rest := by
  induction rest generalizing n low high with
  | nil => cases n <;> exact ⟨[], rfl, rfl⟩
  | cons b rest ih =>
    cases n with
    | zero => exact ⟨b :: rest, rfl, rfl⟩
    | succ n =>
      rw [tails]
      split
      · rename_i inside
        obtain ⟨more, eq, self⟩ := ih n 0x80 0xBF
        simp only [Bool.and_eq_true, decide_eq_true_eq] at inside
        exact ⟨more, congrArg (b :: ·) eq, tails_eq_self_cons.2 ⟨inside.1, inside.2, self⟩⟩
      · exact ⟨b :: rest, rfl, rfl⟩

theorem front_ascii {b : UInt8} (ascii : b < 0x80) (rest : Bytes) :
    front () b rest = ⟨.char (Char.ofNat b.toNat), 0, ()⟩ := if_pos ascii

theorem Encodes.not_ascii {b : UInt8} {ts : Bytes} (h : Encodes b ts) : ¬b < 0x80 := by
  obtain ⟨low, high, first, -⟩ := h
  have := follow?_cases first
  grind

theorem Encodes.front_eq {b : UInt8} {ts : Bytes} (h : Encodes b ts) (rest : Bytes) :
    front () b (ts ++ rest) = ⟨.char (Char.ofNat (codePoint b ts)), ts.length, ()⟩ := by
  have notAscii := h.not_ascii
  obtain ⟨low, high, first, inside⟩ := h
  unfold front
  rw [if_neg notAscii, first]
  dsimp only
  rw [tails_append_of_eq_self inside, beq_self_eq_true, if_pos rfl]

/-- A byte begins an ASCII character, a sequence, or a stray stretch. -/
theorem front_cases (b : UInt8) (rest : Bytes) :
    b < 0x80 ∨ (∃ ts more, rest = ts ++ more ∧ Encodes b ts) ∨
      ∃ ts more, rest = ts ++ more ∧ front () b rest = ⟨.stray (b :: ts), ts.length, ()⟩ := by
  by_cases ascii : b < 0x80
  · exact .inl ascii
  · right
    cases first : follow? b with
    | none =>
      refine .inr ⟨[], rest, rfl, ?_⟩
      unfold front
      rw [if_neg ascii, first]
      rfl
    | some found =>
      obtain ⟨n, low, high⟩ := found
      obtain ⟨more, eq, self⟩ := tails_eq_append n low high rest
      by_cases complete : (tails n low high rest).length = n
      · exact .inl ⟨_, more, eq, low, high, by rw [first, complete], self⟩
      · refine .inr ⟨_, more, eq, ?_⟩
        unfold front
        rw [if_neg ascii, first]
        simp [complete]

theorem front_more_le (b : UInt8) (rest : Bytes) : (front () b rest).more ≤ rest.length := by
  rcases front_cases b rest with ascii | ⟨ts, more, rfl, encodes⟩ | ⟨ts, more, rfl, stray⟩
  · rw [front_ascii ascii]
    exact Nat.zero_le _
  · rw [encodes.front_eq, List.length_append]
    exact Nat.le_add_right ..
  · rw [stray, List.length_append]
    exact Nat.le_add_right ..

/-- An ASCII byte is part of no sequence, so it ends the one before it. -/
theorem tails_append_ascii {b : UInt8} (ascii : b < 0x80) (rest : Bytes) (n : Nat)
    {low : UInt8} (least : 0x80 ≤ low) (high : UInt8) (bs : Bytes) :
    tails n low high (bs ++ b :: rest) = tails n low high bs := by
  induction bs generalizing n low high with
  | nil =>
    cases n with
    | zero => rfl
    | succ n =>
      have below : ¬low ≤ b := by grind
      simp [tails, below]
  | cons x bs ih =>
    cases n with
    | zero => rfl
    | succ n => rw [List.cons_append, tails, tails, ih n (by decide)]

theorem front_append_ascii {b : UInt8} (ascii : b < 0x80) (rest : Bytes) (c : UInt8)
    (bs : Bytes) : front () c (bs ++ b :: rest) = front () c bs := by
  unfold front
  cases first : follow? c with
  | none => rfl
  | some found =>
    obtain ⟨n, low, high⟩ := found
    dsimp only
    rw [tails_append_ascii ascii rest n (follow?_cases first).1]

/-! ## Decoding -/

theorem decode_cons (b : UInt8) (rest : Bytes) :
    decode (b :: rest) =
      (front () b rest).value :: decode (rest.drop (front () b rest).more) := cutAll_cons ..

/-- Induction along the glyphs. -/
theorem decode_induction {P : Bytes → Prop} (nil : P [])
    (cons : ∀ b rest, P (rest.drop (front () b rest).more) → P (b :: rest)) (bytes : Bytes) :
    P bytes := by
  induction n : bytes.length using Nat.strongRecOn generalizing bytes with
  | _ n ih =>
    cases bytes with
    | nil => exact nil
    | cons b rest =>
      refine cons b rest (ih _ ?_ _ rfl)
      rw [← n, List.length_drop, List.length_cons]
      omega

theorem decode_append_ascii {b : UInt8} (ascii : b < 0x80) (bs rest : Bytes) :
    decode (bs ++ b :: rest) = decode bs ++ decode (b :: rest) := by
  induction bs using decode_induction with
  | nil => rfl
  | cons c bs ih =>
    rw [List.cons_append, decode_cons, front_append_ascii ascii,
      List.drop_append_of_le_length (front_more_le c bs), ih, decode_cons c bs, List.cons_append]

theorem decode_ascii {b : UInt8} (ascii : b < 0x80) (rest : Bytes) :
    decode (b :: rest) = .char (Char.ofNat b.toNat) :: decode rest := by
  rw [decode_cons, front_ascii ascii]
  rfl

theorem toNat_ofNat {n : Nat} (valid : n.isValidChar) : (Char.ofNat n).toNat = n := by
  rw [Char.ofNat, dif_pos valid]
  rfl

theorem toNat_ofNat_ascii {b : UInt8} (ascii : b < 0x80) :
    (Char.ofNat b.toNat).toNat = b.toNat := by
  have below : b.toNat < 0x80 := UInt8.lt_iff_toNat_lt.1 ascii
  exact toNat_ofNat (.inl (by omega))

/-- A sequence is shown as a character beyond ASCII, and so is a stray stretch: an ASCII
character comes from its own byte. -/
theorem ascii_of_shown {b : UInt8} {rest : Bytes}
    (h : (front () b rest).value.shown.toNat < 0x80) : b < 0x80 := by
  rcases front_cases b rest with ascii | ⟨ts, more, rfl, encodes⟩ | ⟨ts, more, rfl, stray⟩
  · exact ascii
  · rw [encodes.front_eq, Glyph.shown] at h
    obtain ⟨beyond, valid⟩ := encodes.codePoint_valid
    rw [toNat_ofNat valid] at h
    exact absurd h (Nat.not_lt.2 beyond)
  · rw [stray, Glyph.shown] at h
    exact absurd h (by decide)

theorem mem_of_mem_shown {bytes : Bytes} {c : Char} (h : c ∈ (decode bytes).map Glyph.shown)
    (ascii : c.toNat < 0x80) : UInt8.ofNat c.toNat ∈ bytes := by
  induction bytes using decode_induction with
  | nil => exact absurd h List.not_mem_nil
  | cons b rest ih =>
    rw [decode_cons, List.map_cons] at h
    rcases List.mem_cons.1 h with rfl | later
    · have first := ascii_of_shown ascii
      rw [front_ascii first, Glyph.shown, toNat_ofNat_ascii first, UInt8.ofNat_toNat]
      exact List.mem_cons_self
    · exact List.mem_cons_of_mem _ (List.mem_of_mem_drop (ih later))

theorem encodeChar_ascii {b : UInt8} (ascii : b < 0x80) :
    String.utf8EncodeChar (Char.ofNat b.toNat) = [b] := by
  have below : b.toNat < 0x80 := UInt8.lt_iff_toNat_lt.1 ascii
  have code : (Char.ofNat b.toNat).val.toNat = b.toNat := toNat_ofNat_ascii ascii
  rw [String.utf8EncodeChar]
  simp only [code]
  rw [if_pos (by omega), UInt8.ofNat_toNat]

/-- Only the bytes of an ASCII text are shown as that text. -/
theorem eq_encode_of_lossy {bytes : Bytes} {s : String} (h : lossy bytes = s)
    (ascii : s.toList.all isAscii = true) : bytes = encode s := by
  subst h
  rw [lossy, String.toList_ofList] at ascii
  rw [lossy, encode, String.toList_ofList]
  induction bytes using decode_induction with
  | nil => rfl
  | cons b rest ih =>
    rw [decode_cons, List.map_cons] at ascii ⊢
    obtain ⟨here, behind⟩ := Bool.and_eq_true_iff.1 ascii
    have first := ascii_of_shown (of_decide_eq_true here)
    rw [front_ascii first, Glyph.shown, List.flatMap_cons, encodeChar_ascii first]
    rw [front_ascii first] at ih behind
    exact congrArg (b :: ·) (ih behind)

/-! ## Texts -/

theorem Encodes.two {b x : UInt8} (first : 0xC2 ≤ b ∧ b ≤ 0xDF) (second : 0x80 ≤ x ∧ x ≤ 0xBF) :
    Encodes b [x] := by
  refine ⟨0x80, 0xBF, ?_, tails_eq_self_cons.2 ⟨second.1, second.2, rfl⟩⟩
  simp [follow?, first]

theorem Encodes.three {b x y : UInt8} (first : 0xE0 ≤ b ∧ b ≤ 0xEF)
    (second : 0x80 ≤ x ∧ x ≤ 0xBF) (least : b = 0xE0 → 0xA0 ≤ x) (greatest : b = 0xED → x ≤ 0x9F)
    (third : 0x80 ≤ y ∧ y ≤ 0xBF) : Encodes b [x, y] := by
  have rest : tails [y].length 0x80 0xBF [y] = [y] :=
    tails_eq_self_cons.2 ⟨third.1, third.2, rfl⟩
  by_cases lowest : b = 0xE0
  · exact ⟨0xA0, 0xBF, by subst lowest; rfl,
      tails_eq_self_cons.2 ⟨least lowest, second.2, rest⟩⟩
  by_cases surrogate : b = 0xED
  · exact ⟨0x80, 0x9F, by subst surrogate; rfl,
      tails_eq_self_cons.2 ⟨second.1, greatest surrogate, rest⟩⟩
  refine ⟨0x80, 0xBF, ?_, tails_eq_self_cons.2 ⟨second.1, second.2, rest⟩⟩
  have notTwo : ¬b ≤ 0xDF := by grind
  have inside : 0xE1 ≤ b := by grind
  simp [follow?, notTwo, lowest, surrogate, inside, first]

theorem Encodes.four {b x y z : UInt8} (first : 0xF0 ≤ b ∧ b ≤ 0xF4)
    (second : 0x80 ≤ x ∧ x ≤ 0xBF) (least : b = 0xF0 → 0x90 ≤ x) (greatest : b = 0xF4 → x ≤ 0x8F)
    (third : 0x80 ≤ y ∧ y ≤ 0xBF) (fourth : 0x80 ≤ z ∧ z ≤ 0xBF) : Encodes b [x, y, z] := by
  have rest : tails [y, z].length 0x80 0xBF [y, z] = [y, z] :=
    tails_eq_self_cons.2 ⟨third.1, third.2, tails_eq_self_cons.2 ⟨fourth.1, fourth.2, rfl⟩⟩
  by_cases lowest : b = 0xF0
  · exact ⟨0x90, 0xBF, by subst lowest; rfl,
      tails_eq_self_cons.2 ⟨least lowest, second.2, rest⟩⟩
  by_cases highest : b = 0xF4
  · exact ⟨0x80, 0x8F, by subst highest; rfl,
      tails_eq_self_cons.2 ⟨second.1, greatest highest, rest⟩⟩
  refine ⟨0x80, 0xBF, ?_, tails_eq_self_cons.2 ⟨second.1, second.2, rest⟩⟩
  have notTwo : ¬b ≤ 0xDF := by grind
  have notThree : ¬b ≤ 0xEF := by grind
  have notE0 : b ≠ 0xE0 := by grind
  have notED : b ≠ 0xED := by grind
  have inside : 0xF1 ≤ b ∧ b ≤ 0xF3 := by grind
  simp [follow?, notTwo, notThree, notE0, notED, lowest, inside]

theorem le_ofNat {low : UInt8} {n : Nat} (h : low.toNat ≤ n) (below : n < 256) :
    low ≤ UInt8.ofNat n := by
  rw [UInt8.le_iff_toNat_le, UInt8.toNat_ofNat_of_lt' below]
  exact h

theorem ofNat_le {high : UInt8} {n : Nat} (h : n ≤ high.toNat) : UInt8.ofNat n ≤ high := by
  rw [UInt8.le_iff_toNat_le, UInt8.toNat_ofNat_of_lt' (Nat.lt_of_le_of_lt h high.toNat_lt)]
  exact h

theorem ofNat_between {low high : UInt8} {n : Nat} (h : low.toNat ≤ n ∧ n ≤ high.toNat) :
    low ≤ UInt8.ofNat n ∧ UInt8.ofNat n ≤ high :=
  ⟨le_ofNat h.1 (Nat.lt_of_le_of_lt h.2 high.toNat_lt), ofNat_le h.2⟩

theorem eq_toNat_of_ofNat_eq {n : Nat} {b : UInt8} (h : n < 256) (eq : UInt8.ofNat n = b) :
    n = b.toNat := by
  rw [← eq, UInt8.toNat_ofNat_of_lt' h]

/-- The bytes of a character beyond ASCII are a sequence that encodes it. -/
theorem encodes_encodeChar {c : Char} (beyond : 0x80 ≤ c.toNat) :
    ∃ b ts, String.utf8EncodeChar c = b :: ts ∧ Encodes b ts ∧ codePoint b ts = c.toNat := by
  have valid : c.val.toNat.isValidChar := c.valid
  have toNat : c.toNat = c.val.toNat := rfl
  rw [toNat] at beyond ⊢
  simp only [String.utf8EncodeChar]
  generalize c.val.toNat = v at valid beyond
  unfold Nat.isValidChar at valid
  have code : ∀ {n : Nat}, n < 256 → (UInt8.ofNat n).toNat = n := UInt8.toNat_ofNat_of_lt'
  -- a byte that follows carries six bits
  have six : ∀ n, 128 ≤ n % 64 + 128 ∧ n % 64 + 128 ≤ 191 := by omega
  have more : ∀ n, 0x80 ≤ UInt8.ofNat (n % 64 + 128) ∧ UInt8.ofNat (n % 64 + 128) ≤ 0xBF :=
    fun n => ofNat_between (six n)
  rw [if_neg (by omega)]
  split
  · have first : 194 ≤ v / 64 % 32 + 192 ∧ v / 64 % 32 + 192 ≤ 223 := by omega
    refine ⟨_, _, rfl, .two (ofNat_between first) (more _), ?_⟩
    rw [codePoint_one, code (by omega), code (by omega)]
    omega
  split
  · have first : 224 ≤ v / 4096 % 16 + 224 ∧ v / 4096 % 16 + 224 ≤ 239 := by omega
    refine ⟨_, _, rfl, .three (ofNat_between first) (more _) ?_ ?_ (more _), ?_⟩
    · intro lowest
      have lead : v / 4096 % 16 + 224 = 224 := eq_toNat_of_ofNat_eq (by omega) lowest
      have second : 160 ≤ v / 64 % 64 + 128 := by omega
      exact le_ofNat second (by omega)
    · intro surrogate
      have lead : v / 4096 % 16 + 224 = 237 := eq_toNat_of_ofNat_eq (by omega) surrogate
      have second : v / 64 % 64 + 128 ≤ 159 := by omega
      exact ofNat_le second
    · rw [codePoint_two, code (by omega), code (by omega), code (by omega)]
      omega
  · have first : 240 ≤ v / 262144 % 8 + 240 ∧ v / 262144 % 8 + 240 ≤ 244 := by omega
    refine ⟨_, _, rfl, .four (ofNat_between first) (more _) ?_ ?_ (more _) (more _), ?_⟩
    · intro lowest
      have lead : v / 262144 % 8 + 240 = 240 := eq_toNat_of_ofNat_eq (by omega) lowest
      have second : 144 ≤ v / 4096 % 64 + 128 := by omega
      exact le_ofNat second (by omega)
    · intro highest
      have lead : v / 262144 % 8 + 240 = 244 := eq_toNat_of_ofNat_eq (by omega) highest
      have second : v / 4096 % 64 + 128 ≤ 143 := by omega
      exact ofNat_le second
    · rw [codePoint_three, code (by omega), code (by omega), code (by omega), code (by omega)]
      omega

theorem decode_encodeChar_append (c : Char) (rest : Bytes) :
    decode (String.utf8EncodeChar c ++ rest) = .char c :: decode rest := by
  by_cases ascii : c.toNat < 0x80
  · have toNat : (UInt8.ofNat c.toNat).toNat = c.toNat :=
      UInt8.toNat_ofNat_of_lt' (Nat.lt_trans ascii (by decide))
    have first : UInt8.ofNat c.toNat < 0x80 := by
      rw [UInt8.lt_iff_toNat_lt, toNat]
      exact ascii
    have encoded := encodeChar_ascii first
    rw [toNat, Char.ofNat_toNat] at encoded
    rw [encoded, List.singleton_append, decode_ascii first, toNat, Char.ofNat_toNat]
  · obtain ⟨b, ts, encoded, encodes, code⟩ := encodes_encodeChar (Nat.not_lt.1 ascii)
    rw [encoded, List.cons_append, decode_cons, encodes.front_eq, code, Char.ofNat_toNat]
    exact congrArg (Glyph.char c :: decode ·) (List.drop_left ..)

/-- Decoding undoes encoding. -/
theorem decode_encode (s : String) : decode (encode s) = s.toList.map .char := by
  rw [encode]
  induction s.toList with
  | nil => rfl
  | cons c cs ih => rw [List.flatMap_cons, decode_encodeChar_append, ih, List.map_cons]

theorem chars?_map_char (cs : List Char) : chars? (cs.map .char) = some cs := by
  induction cs with
  | nil => rfl
  | cons c cs ih => rw [List.map_cons, chars?, ih, Option.map_some]

theorem map_shown_of_chars? {gs : List Glyph} {cs : List Char} (h : chars? gs = some cs) :
    gs.map Glyph.shown = cs := by
  induction gs generalizing cs with
  | nil =>
    cases h
    rfl
  | cons g gs ih =>
    cases g with
    | stray bytes => cases h
    | char c =>
      obtain ⟨rest, eq, rfl⟩ := Option.map_eq_some_iff.1 h
      rw [List.map_cons, ih eq]
      rfl

/-- A text is shown as itself. -/
theorem lossy_of_text? {bytes : Bytes} {s : String} (h : text? bytes = some s) :
    lossy bytes = s := by
  obtain ⟨cs, eq, rfl⟩ := Option.map_eq_some_iff.1 h
  rw [lossy, map_shown_of_chars? eq]

@[simp]
theorem text?_encode (s : String) : text? (encode s) = some s := by
  rw [text?, decode_encode, chars?_map_char, Option.map_some, String.ofList_toList]

@[simp]
theorem lossy_encode (s : String) : lossy (encode s) = s := lossy_of_text? (text?_encode s)

end Utf8

end PackageCoupling
