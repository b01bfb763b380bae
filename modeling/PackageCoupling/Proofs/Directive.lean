import PackageCoupling.Modules.GoDirective

/-!
# What a module directive is

A directive starts with blanks, the keyword and more blanks, and goes on with an operand (`Leads`).
The operand is an identifier in quotes or else a word (`Declares`). `directive?` finds exactly that
(`declares_iff`). What follows the end of a line changes nothing about a directive on it
(`directive?_append`), with one exception: a quote that is still open where the line ends (`Opens`)
may be closed behind it, and then the identifier goes over the line end (`declares_of_opens`).
-/

namespace PackageCoupling.GoDirective

/-- Whether `cs` leads to an operand: blanks, the keyword, and more blanks. -/
def Leads (cs operand : List Char) : Prop :=
  ∃ indent gap : List Char, cs = indent ++ "module".toList ++ gap ++ operand ∧ gap ≠ [] ∧
    (∀ c ∈ indent, isGap c = true) ∧ ∀ c ∈ gap, isGap c = true

/-- Whether an operand starts with an identifier in quotes. -/
def Quoted (operand id : List Char) : Prop :=
  id ≠ [] ∧ '"' ∉ id ∧ ∃ tail, operand = '"' :: (id ++ '"' :: tail)

/-- Whether an operand starts with a word, up to the next white space. -/
def Word (operand id : List Char) : Prop :=
  id ≠ [] ∧ id.head? ≠ some '/' ∧ (∀ c ∈ id, Text.isBlank c = false) ∧
    ∃ tail, operand = id ++ tail ∧ ∀ c ∈ tail.head?, Text.isBlank c = true

/-- Whether an operand names an identifier. A quoted one comes first. -/
def Names (operand id : List Char) : Prop :=
  Quoted operand id ∨ (∀ other, ¬Quoted operand other) ∧ Word operand id

/-- Whether a line is a directive that declares `id`. What follows the identifier is arbitrary. -/
def Declares (line id : List Char) : Prop := ∃ operand, Leads line operand ∧ Names operand id

/-! ## Operands -/

theorem isBlank_of_isGap {c : Char} (h : isGap c = true) : Text.isBlank c = true := by
  simp only [isGap, Bool.or_eq_true, beq_iff_eq] at h
  rcases h with rfl | rfl <;> decide

/-- The longest front that satisfies `p` is one behind which nothing more does. -/
theorem takeWhile_eq_iff {p : Char → Bool} {l a : List Char} : l.takeWhile p = a ↔
    (∀ c ∈ a, p c = true) ∧ ∃ tail, l = a ++ tail ∧ ∀ c ∈ tail.head?, p c = false := by
  constructor
  · rintro rfl
    refine ⟨List.all_eq_true.1 List.all_takeWhile, l.dropWhile p,
      List.takeWhile_append_dropWhile.symm, fun c hc => ?_⟩
    have stop := List.head?_dropWhile_not p l
    rw [Option.mem_def.1 hc] at stop
    exact stop
  · rintro ⟨all, tail, rfl, stop⟩
    rw [List.takeWhile_append_of_pos all]
    cases tail with
    | nil => simp
    | cons c rest => simp [stop c rfl]

theorem quoted?_eq_some_iff {cs id : List Char} {n : Nat} :
    quoted? cs = some (id, n) ↔ Quoted cs id ∧ n = id.length + 2 := by
  constructor
  · intro found
    unfold quoted? at found
    split at found
    · rename_i rest
      dsimp only at found
      split at found
      · cases found
      · rename_i bounds
        obtain ⟨rfl, rfl⟩ := Prod.mk.inj (Option.some.inj found)
        obtain ⟨noQuote, tail, eq, stop⟩ :=
          (takeWhile_eq_iff (p := (· != '"')) (l := rest)).1 rfl
        generalize rest.takeWhile (· != '"') = id at *
        subst eq
        simp only [List.isEmpty_iff, List.length_append, Bool.or_eq_true, beq_iff_eq,
          not_or] at bounds
        refine ⟨⟨bounds.1, fun mem => by simpa using noQuote _ mem, ?_⟩, rfl⟩
        cases tail with
        | nil => exact absurd rfl bounds.2
        | cons c tail =>
          have quote : c = '"' := by simpa using stop c rfl
          exact ⟨tail, by rw [quote]⟩
    · cases found
  · rintro ⟨⟨ne, noQuote, tail, rfl⟩, rfl⟩
    have inner : (id ++ '"' :: tail).takeWhile (· != '"') = id := by
      rw [takeWhile_eq_iff]
      refine ⟨fun c hc => bne_iff_ne.2 fun eq => noQuote (eq ▸ hc), _, rfl, ?_⟩
      simp
    simp [quoted?, inner, ne]

theorem quoted?_eq_none_iff {cs : List Char} : quoted? cs = none ↔ ∀ id, ¬Quoted cs id := by
  rw [Option.eq_none_iff_forall_ne_some]
  constructor
  · intro none id quoted
    exact none _ (quoted?_eq_some_iff.2 ⟨quoted, rfl⟩)
  · intro none r found
    exact none r.1 (quoted?_eq_some_iff.1 found).1

theorem word?_eq_some_iff {cs id : List Char} {n : Nat} :
    word? cs = some (id, n) ↔ Word cs id ∧ n = id.length := by
  have longest := takeWhile_eq_iff (p := (!Text.isBlank ·)) (l := cs) (a := id)
  simp only [Bool.not_eq_true', Bool.not_eq_false'] at longest
  unfold word? Word
  dsimp only
  constructor
  · intro found
    split at found
    · cases found
    · rename_i proper
      obtain ⟨eq, rfl⟩ := Prod.mk.inj (Option.some.inj found)
      rw [eq] at proper ⊢
      obtain ⟨noBlank, rest⟩ := longest.1 eq
      simp only [List.isEmpty_iff, Bool.or_eq_true, beq_iff_eq, not_or] at proper
      exact ⟨⟨proper.1, proper.2, noBlank, rest⟩, rfl⟩
  · rintro ⟨⟨ne, noSlash, noBlank, rest⟩, rfl⟩
    rw [longest.2 ⟨noBlank, rest⟩, if_neg (by simp [ne, noSlash])]

theorem Names.head_not_gap {operand id : List Char} (names : Names operand id) :
    ∀ c ∈ operand.head?, isGap c = false := by
  intro c head
  rcases names with ⟨-, -, tail, rfl⟩ | ⟨-, ne, -, noBlank, tail, rfl, -⟩
  · cases head
    decide
  · cases id with
    | nil => exact absurd rfl ne
    | cons d rest =>
      cases head
      rw [Bool.eq_false_iff]
      intro gap
      simpa [isBlank_of_isGap gap] using noBlank c List.mem_cons_self

theorem names_iff {operand id : List Char} :
    Names operand id ↔ ∃ n, (quoted? operand).or (word? operand) = some (id, n) := by
  simp only [Names, Option.or_eq_some_iff, quoted?_eq_none_iff, quoted?_eq_some_iff,
    word?_eq_some_iff]
  constructor
  · rintro (quoted | ⟨none, word⟩)
    · exact ⟨_, .inl ⟨quoted, rfl⟩⟩
    · exact ⟨_, .inr ⟨none, word, rfl⟩⟩
  · rintro ⟨n, ⟨quoted, -⟩ | ⟨none, word, -⟩⟩
    · exact .inl quoted
    · exact .inr ⟨none, word⟩

/-! ## Directives -/

theorem directive?_of_leads {cs operand : List Char} (leads : Leads cs operand)
    (stop : ∀ c ∈ operand.head?, isGap c = false) :
    directive? cs = ((quoted? operand).or (word? operand)).map fun (id, n) =>
      (String.ofList id, cs.length - operand.length + n) := by
  obtain ⟨indent, gap, rfl, ne, inIndent, inGap⟩ := leads
  have start : (indent ++ "module".toList ++ gap ++ operand).takeWhile isGap = indent := by
    rw [takeWhile_eq_iff]
    exact ⟨inIndent, "module".toList ++ gap ++ operand, by simp, by simp [isGap]⟩
  have middle : (gap ++ operand).takeWhile isGap = gap :=
    takeWhile_eq_iff.2 ⟨inGap, operand, rfl, stop⟩
  have body : (indent ++ "module".toList ++ gap ++ operand).drop indent.length =
      "module".toList ++ (gap ++ operand) := by simp
  have keyword : "module".toList.isPrefixOf ("module".toList ++ (gap ++ operand)) = true :=
    List.isPrefixOf_iff_prefix.2 (List.prefix_append _ _)
  unfold directive?
  dsimp only
  rw [start, body, if_pos keyword, List.drop_left, middle, List.drop_left]
  rw [if_neg (by simpa using ne)]
  congr 1
  funext r
  simp
  omega

theorem leads_of_directive? {cs : List Char} {r : String × Nat} (found : directive? cs = some r) :
    ∃ operand, Leads cs operand ∧ ∀ c ∈ operand.head?, isGap c = false := by
  unfold directive? at found
  dsimp only at found
  split at found
  · rename_i keyword
    obtain ⟨rest, eq⟩ := List.isPrefixOf_iff_prefix.1 keyword
    rw [← eq, List.drop_left] at found
    split at found
    · cases found
    · rename_i noGap
      have inIndent := ((takeWhile_eq_iff (p := isGap) (l := cs)).1 rfl).1
      obtain ⟨inGap, operand, split, stop⟩ := (takeWhile_eq_iff (p := isGap) (l := rest)).1 rfl
      refine ⟨operand, ⟨cs.takeWhile isGap, rest.takeWhile isGap, ?_, ?_, inIndent, inGap⟩, stop⟩
      · calc cs = cs.takeWhile isGap ++ cs.drop (cs.takeWhile isGap).length :=
              (List.prefix_iff_eq_append.1 (List.takeWhile_prefix isGap)).symm
          _ = cs.takeWhile isGap ++ ("module".toList ++ rest) := by rw [eq]
          _ = cs.takeWhile isGap ++ ("module".toList ++ (rest.takeWhile isGap ++ operand)) := by
              rw [← split]
          _ = cs.takeWhile isGap ++ "module".toList ++ rest.takeWhile isGap ++ operand := by
              simp only [List.append_assoc]
      · simpa using noGap
  · cases found

/-- The identifier that is found is the one that the line declares. -/
theorem declares_iff {cs : List Char} {id : String} :
    Declares cs id.toList ↔ ∃ n, directive? cs = some (id, n) := by
  constructor
  · rintro ⟨operand, leads, names⟩
    obtain ⟨n, found⟩ := names_iff.1 names
    rw [directive?_of_leads leads names.head_not_gap, found]
    exact ⟨cs.length - operand.length + n, by simp⟩
  · rintro ⟨n, found⟩
    obtain ⟨operand, leads, stop⟩ := leads_of_directive? found
    rw [directive?_of_leads leads stop] at found
    obtain ⟨⟨id', k⟩, named, eq⟩ := Option.map_eq_some_iff.1 found
    obtain ⟨rfl, -⟩ := Prod.mk.inj eq
    exact ⟨operand, leads, names_iff.2 ⟨k, by simpa using named⟩⟩

theorem directive?_le_length {cs : List Char} {id : String} {n : Nat}
    (found : directive? cs = some (id, n)) : n ≤ cs.length := by
  obtain ⟨operand, leads, stop⟩ := leads_of_directive? found
  rw [directive?_of_leads leads stop] at found
  obtain ⟨⟨id', k⟩, named, eq⟩ := Option.map_eq_some_iff.1 found
  obtain ⟨-, rfl⟩ := Prod.mk.inj eq
  have within : operand.length ≤ cs.length := by
    obtain ⟨indent, gap, eq, -⟩ := leads
    simp only [eq, List.length_append]
    omega
  have extent : k ≤ operand.length := by
    rcases Option.or_eq_some_iff.1 named with quoted | ⟨-, word⟩
    · obtain ⟨⟨-, -, tail, rfl⟩, rfl⟩ := quoted?_eq_some_iff.1 quoted
      simp
    · obtain ⟨⟨-, -, -, tail, rfl, -⟩, rfl⟩ := word?_eq_some_iff.1 word
      simp
  omega

/-! ## The end of a line -/

/-- Whether `cs` is a directive with a quote that is not closed. -/
def Opens (cs : List Char) : Prop := ∃ inner, Leads cs ('"' :: inner) ∧ '"' ∉ inner

/-- A front without line ends lies before every line end. -/
theorem eq_append_of_notMem {front rest x b : List Char} (eq : front ++ rest = x ++ '\n' :: b)
    (no : '\n' ∉ front) : ∃ tail, x = front ++ tail ∧ rest = tail ++ '\n' :: b := by
  rcases List.append_eq_append_iff.1 eq with ⟨tail, rfl, rfl⟩ | ⟨between, rfl, behind⟩
  · exact ⟨tail, rfl, rfl⟩
  · cases between with
    | nil => exact ⟨[], by simp, behind.symm⟩
    | cons c between =>
      obtain ⟨rfl, -⟩ := List.cons.inj behind
      exact absurd (by simp) no

/-- What holds of a line end and of the first character holds of the first character before a
line end. -/
theorem head?_append_iff {p : Char → Prop} (ends : p '\n') {l b : List Char} :
    (∀ c ∈ (l ++ '\n' :: b).head?, p c) ↔ ∀ c ∈ l.head?, p c := by
  cases l with
  | nil => simp [ends]
  | cons c rest => simp

theorem leads_append_iff {x b operand : List Char} :
    Leads (x ++ '\n' :: b) operand ↔ ∃ here, Leads x here ∧ operand = here ++ '\n' :: b := by
  constructor
  · rintro ⟨indent, gap, eq, ne, inIndent, inGap⟩
    have no : '\n' ∉ indent ++ "module".toList ++ gap := by
      simp only [List.mem_append, not_or]
      refine ⟨⟨fun mem => ?_, by decide⟩, fun mem => ?_⟩
      · exact absurd (inIndent _ mem) (by decide)
      · exact absurd (inGap _ mem) (by decide)
    obtain ⟨here, rfl, rfl⟩ := eq_append_of_notMem eq.symm no
    exact ⟨here, ⟨indent, gap, rfl, ne, inIndent, inGap⟩, rfl⟩
  · rintro ⟨here, ⟨indent, gap, rfl, blanks⟩, rfl⟩
    exact ⟨indent, gap, by simp, blanks⟩

theorem word_append_iff {operand b id : List Char} :
    Word (operand ++ '\n' :: b) id ↔ Word operand id := by
  unfold Word
  refine and_congr_right fun ne => and_congr_right fun _ => and_congr_right fun noBlank => ?_
  constructor
  · rintro ⟨tail, eq, stop⟩
    have no : '\n' ∉ id := fun mem => absurd (noBlank _ mem) (by decide)
    obtain ⟨here, rfl, rfl⟩ := eq_append_of_notMem eq.symm no
    exact ⟨here, rfl, (head?_append_iff (by decide)).1 stop⟩
  · rintro ⟨tail, rfl, stop⟩
    exact ⟨tail ++ '\n' :: b, by simp, (head?_append_iff (by decide)).2 stop⟩

/-- Text behind a line end closes no quote, unless there is one to close and one to close it with.
-/
theorem quoted_append_iff {operand b id : List Char}
    (closed : ∀ inner, operand = '"' :: inner → '"' ∉ inner → '"' ∉ b) :
    Quoted (operand ++ '\n' :: b) id ↔ Quoted operand id := by
  unfold Quoted
  refine and_congr_right fun ne => and_congr_right fun noQuote => ?_
  constructor
  · rintro ⟨tail, eq⟩
    cases operand with
    | nil => cases eq
    | cons c inner =>
      obtain ⟨rfl, inside⟩ := List.cons.inj eq
      rcases List.append_eq_append_iff.1 inside with ⟨front, rfl, behind⟩ | ⟨rest, rfl, behind⟩
      · -- here the closing quote stands behind the line end
        have unclosed : '"' ∉ inner := fun mem => noQuote (List.mem_append_left _ mem)
        have mem : '"' ∈ '\n' :: b := by
          rw [behind]
          simp
        rcases List.mem_cons.1 mem with quote | mem
        · cases quote
        · exact absurd mem (closed inner rfl unclosed)
      · cases rest with
        | nil => cases behind
        | cons d rest =>
          obtain ⟨rfl, -⟩ := List.cons.inj behind
          exact ⟨rest, rfl⟩
  · rintro ⟨tail, rfl⟩
    exact ⟨tail ++ '\n' :: b, by simp⟩

/-- Unless it opens a quote that is closed behind it, a directive does not go over a line end. -/
theorem directive?_append {x b : List Char} (closed : Opens x → '"' ∉ b) :
    directive? (x ++ '\n' :: b) = directive? x := by
  by_cases leads : ∃ operand, Leads x operand ∧ ∀ c ∈ operand.head?, isGap c = false
  · obtain ⟨operand, leads, stop⟩ := leads
    have quoted : quoted? (operand ++ '\n' :: b) = quoted? operand := by
      refine Option.ext fun r => ?_
      rw [quoted?_eq_some_iff, quoted?_eq_some_iff, quoted_append_iff]
      rintro inner rfl noQuote
      exact closed ⟨inner, leads, noQuote⟩
    have word : word? (operand ++ '\n' :: b) = word? operand := by
      refine Option.ext fun r => ?_
      rw [word?_eq_some_iff, word?_eq_some_iff, word_append_iff]
    have lengths : (x ++ '\n' :: b).length - (operand ++ '\n' :: b).length =
        x.length - operand.length := by
      rw [List.length_append, List.length_append]
      omega
    rw [directive?_of_leads leads stop,
      directive?_of_leads (leads_append_iff.2 ⟨operand, leads, rfl⟩)
        ((head?_append_iff (by decide)).2 stop), quoted, word, lengths]
  · have none : directive? x = none := by
      rw [Option.eq_none_iff_forall_ne_some]
      exact fun r found => leads (leads_of_directive? found)
    rw [none, Option.eq_none_iff_forall_ne_some]
    intro r found
    obtain ⟨operand, across, stop⟩ := leads_of_directive? found
    obtain ⟨here, within, rfl⟩ := leads_append_iff.1 across
    exact leads ⟨here, within, (head?_append_iff (by decide)).1 stop⟩

/-- A quote that is open at a line end and closed behind it makes an identifier that goes over the
line end, where the line by itself declares a word. -/
theorem declares_of_opens {x b : List Char} (opens : Opens x) (closing : '"' ∈ b) :
    (∃ id, Declares (x ++ '\n' :: b) id ∧ '\n' ∈ id) ∧ ∃ word, Declares x word ∧ '\n' ∉ word := by
  obtain ⟨inner, leads, noQuote⟩ := opens
  constructor
  · obtain ⟨front, tail, rfl, first⟩ := List.eq_append_cons_of_mem closing
    have across :
        Quoted ('"' :: inner ++ '\n' :: (front ++ '"' :: tail)) (inner ++ '\n' :: front) := by
      refine ⟨by simp, ?_, tail, by simp⟩
      simp [noQuote, first]
    exact ⟨_, ⟨_, leads_append_iff.2 ⟨_, leads, rfl⟩, .inl across⟩, by simp⟩
  · obtain ⟨noBlank, tail, eq, stop⟩ :=
      (takeWhile_eq_iff (p := (!Text.isBlank ·)) (l := '"' :: inner)).1 rfl
    have start : ('"' :: inner).takeWhile (!Text.isBlank ·) =
        '"' :: inner.takeWhile (!Text.isBlank ·) := List.takeWhile_cons_of_pos (by decide)
    have unclosed : ∀ id, ¬Quoted ('"' :: inner) id := by
      rintro id ⟨-, -, tail, eq⟩
      exact noQuote (by simp [(List.cons.inj eq).2])
    refine ⟨_, ⟨_, leads, .inr ⟨unclosed, ?_, ?_, fun c mem => ?_, tail, eq, ?_⟩⟩, fun mem => ?_⟩
    · simp [start]
    · simp [start]
    · simpa using noBlank c mem
    · simpa using stop
    · exact absurd (noBlank _ mem) (by decide)

theorem Leads.cut {cs here behind : List Char} (leads : Leads cs (here ++ behind)) :
    ∃ x, cs = x ++ behind ∧ Leads x here := by
  obtain ⟨indent, gap, rfl, blanks⟩ := leads
  exact ⟨indent ++ "module".toList ++ gap ++ here, by simp, indent, gap, rfl, blanks⟩

/-- No other identifier goes over a line end. -/
theorem exists_opens {cs id : List Char} (declares : Declares cs id) (across : '\n' ∈ id) :
    ∃ x b, cs = x ++ '\n' :: b ∧ Opens x ∧ '"' ∈ b := by
  obtain ⟨operand, leads, ⟨-, noQuote, tail, rfl⟩ | ⟨-, -, -, noBlank, -⟩⟩ := declares
  · obtain ⟨inner, front, rfl⟩ := List.append_of_mem across
    have split : '"' :: (inner ++ '\n' :: front ++ '"' :: tail) =
        '"' :: inner ++ '\n' :: (front ++ '"' :: tail) := by simp
    rw [split] at leads
    obtain ⟨x, rfl, opens⟩ := leads.cut
    exact ⟨x, _, rfl, ⟨inner, opens, fun mem => noQuote (List.mem_append_left _ mem)⟩, by simp⟩
  · exact absurd (noBlank _ across) (by decide)

end PackageCoupling.GoDirective
