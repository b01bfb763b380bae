import Mathlib.Data.List.Flatten
import PackageCoupling.Text.Styled

/-!
# Escape sequences and how they are erased

An escape sequence is `ESC [ codes m`. Texts are erased character by character: what may be the
beginning of a sequence is held back (`Reading`) until it is complete, and then dropped, or until it
breaks off, and then written. One character loses nothing unless it completes a sequence
(`Reading.next_cases`). From this:

* `erase_eq_self_iff`: exactly the texts without a sequence stay as they are;
* `eraseFrom_append`: a text can be erased in parts where no sequence goes across;
* `erase_spans`: in a styled text the sequences that stand for the styles go, and what the spans
  hold stays, up to sequences of its own.
-/

namespace PackageCoupling.Text

def escape : Char := '\x1b'

/-- Whether a character can stand among the codes of a sequence. -/
def isCode (c : Char) : Bool := c.isDigit || c == ';'

/-- Whether a text is `ESC [ codes m`. -/
def IsSequence (s : List Char) : Prop :=
  ∃ codes, codes.all isCode = true ∧ s = escape :: '[' :: codes ++ ['m']

/-! ## Character by character -/

/-- How much of a sequence has been read. -/
inductive Reading where
  | outside
  | opened
  | codes (read : List Char)

namespace Reading

def text : Reading → List Char
  | .outside => []
  | .opened => [escape]
  | .codes read => escape :: '[' :: read

/-- Reads a character: what is to be written now, and how much of a sequence has been read then. -/
def next (r : Reading) (c : Char) : List Char × Reading :=
  if c = escape then (r.text, .opened)
  else
    match r with
    | .outside => ([c], .outside)
    | .opened => if c = '[' then ([], .codes []) else ([escape, c], .outside)
    | .codes read =>
      if c = 'm' then ([], .outside)
      else if isCode c then ([], .codes (read ++ [c]))
      else (escape :: '[' :: read ++ [c], .outside)

/-- Whether only codes have been read as such. -/
def Valid : Reading → Prop
  | .codes read => read.all isCode = true
  | _ => True

/-- A character loses nothing, whatever follows, unless it completes a sequence. -/
theorem next_cases (r : Reading) (c : Char) :
    (∀ cs, (r.next c).1 ++ ((r.next c).2.text ++ cs) = r.text ++ c :: cs) ∨
      (∃ read, r = .codes read) ∧ c = 'm' ∧ r.next c = ([], .outside) := by
  unfold next
  split
  · rename_i eq
    left
    rw [eq]
    exact fun cs => rfl
  · cases r with
    | outside => exact .inl fun cs => rfl
    | opened =>
      left
      dsimp only
      split
      · rename_i eq
        rw [eq]
        exact fun cs => rfl
      · exact fun cs => rfl
    | codes read =>
      dsimp only
      split
      · rename_i eq
        exact .inr ⟨⟨read, rfl⟩, eq, rfl⟩
      · left
        split
        · simp [text]
        · simp [text]

theorem valid_next {r : Reading} (h : r.Valid) (c : Char) : (r.next c).2.Valid := by
  unfold next
  split
  · trivial
  · cases r with
    | outside => trivial
    | opened =>
      dsimp only
      split
      · rfl
      · trivial
    | codes read =>
      dsimp only
      split
      · trivial
      · split
        · rename_i code
          have both : read.all isCode = true ∧ isCode c = true := ⟨h, code⟩
          simpa [Valid] using both
        · trivial

end Reading

/-- Erases what follows on what has been read of a sequence. -/
def eraseFrom : Reading → List Char → List Char
  | r, [] => r.text
  | r, c :: cs => (r.next c).1 ++ eraseFrom (r.next c).2 cs

/-- Deletes every sequence. -/
def erase (cs : List Char) : List Char := eraseFrom .outside cs

def eraseEscapes (s : String) : String := String.ofList (erase s.toList)

/-! ## What stays -/

theorem eraseFrom_sublist (r : Reading) (cs : List Char) :
    (eraseFrom r cs).Sublist (r.text ++ cs) := by
  induction cs generalizing r with
  | nil => exact List.sublist_append_left r.text []
  | cons c cs ih =>
    have rest := ih (r.next c).2
    rcases r.next_cases c with kept | ⟨-, -, completed⟩
    · rw [← kept cs, eraseFrom]
      exact rest.append_left _
    · rw [eraseFrom, completed]
      rw [completed] at rest
      exact (rest.trans (List.sublist_cons_self c cs)).trans (List.sublist_append_right _ _)

/-- Whether a text contains a sequence. -/
def HasSequence (cs : List Char) : Prop := ∃ s, IsSequence s ∧ s <:+: cs

theorem eraseFrom_of_not_hasSequence {r : Reading} (valid : r.Valid) {cs : List Char}
    (h : ¬HasSequence (r.text ++ cs)) : eraseFrom r cs = r.text ++ cs := by
  induction cs generalizing r with
  | nil => rw [eraseFrom, List.append_nil]
  | cons c cs ih =>
    rcases r.next_cases c with kept | ⟨⟨read, rfl⟩, rfl, -⟩
    · have behind : ¬HasSequence ((r.next c).2.text ++ cs) := by
        rintro ⟨s, isSequence, within⟩
        exact h ⟨s, isSequence, kept cs ▸ within.trans (List.suffix_append _ _).isInfix⟩
      rw [eraseFrom, ih (r.valid_next valid c) behind, kept cs]
    · refine absurd ⟨escape :: '[' :: read ++ ['m'], ⟨read, valid, rfl⟩, [], cs, ?_⟩ h
      simp [Reading.text]

/-! ## In parts -/

/-- Whether a character continues no sequence. -/
def breaksOff (c : Char) : Bool := c != '[' && c != 'm' && !isCode c

theorem next_of_breaksOff {c : Char} (h : breaksOff c = true) (r : Reading) :
    r.next c = (r.text ++ (Reading.outside.next c).1, (Reading.outside.next c).2) := by
  simp only [breaksOff, Bool.and_eq_true, bne_iff_ne, Bool.not_eq_true'] at h
  obtain ⟨⟨bracket, final⟩, code⟩ := h
  unfold Reading.next
  by_cases again : c = escape
  · simp only [again, if_true, Reading.text, List.append_nil]
  · simp only [again, if_false]
    cases r with
    | outside => rfl
    | opened => simp only [bracket, if_false, Reading.text, List.singleton_append]
    | codes read => simp only [final, code, if_false, Bool.false_eq_true, Reading.text]

/-- Whatever has been read of a sequence is written if no character continues it. -/
theorem eraseFrom_of_breaksOff (r : Reading) {cs : List Char}
    (h : ∀ c ∈ cs.head?, breaksOff c = true) : eraseFrom r cs = r.text ++ erase cs := by
  cases cs with
  | nil => exact (List.append_nil _).symm
  | cons c cs => rw [eraseFrom, next_of_breaksOff (h c rfl), erase, eraseFrom, List.append_assoc]

theorem eraseFrom_append (r : Reading) (front : List Char) {back : List Char}
    (h : ∀ c ∈ back.head?, breaksOff c = true) :
    eraseFrom r (front ++ back) = eraseFrom r front ++ erase back := by
  induction front generalizing r with
  | nil => exact eraseFrom_of_breaksOff r h
  | cons c front ih => rw [List.cons_append, eraseFrom, ih, eraseFrom, List.append_assoc]

theorem IsSequence.breaksOff {s : List Char} (h : IsSequence s) (back : List Char) :
    ∀ c ∈ (s ++ back).head?, breaksOff c = true := by
  obtain ⟨codes, -, rfl⟩ := h
  rintro c ⟨⟩
  decide

theorem next_of_isCode {c : Char} (h : isCode c = true) (read : List Char) :
    (Reading.codes read).next c = ([], .codes (read ++ [c])) := by
  have notEscape : c ≠ escape := by
    rintro rfl
    exact absurd h (by decide)
  have notFinal : c ≠ 'm' := by
    rintro rfl
    exact absurd h (by decide)
  simp [Reading.next, notEscape, notFinal, h]

theorem erase_sequence {s : List Char} (h : IsSequence s) (back : List Char) :
    erase (s ++ back) = erase back := by
  obtain ⟨codes, isCodes, rfl⟩ := h
  have completed : ∀ read, eraseFrom (.codes read) (codes ++ 'm' :: back) = erase back := by
    induction codes with
    | nil => exact fun read => rfl
    | cons c codes ih =>
      rw [List.all_cons, Bool.and_eq_true] at isCodes
      intro read
      rw [List.cons_append, eraseFrom, next_of_isCode isCodes.1]
      exact ih isCodes.2 _
  have opened : erase (escape :: '[' :: codes ++ ['m'] ++ back) =
      eraseFrom (.codes []) (codes ++ 'm' :: back) := by
    rw [List.append_assoc]
    rfl
  rw [opened, completed]

theorem eraseFrom_sequence (r : Reading) {s : List Char} (h : IsSequence s) (back : List Char) :
    eraseFrom r (s ++ back) = r.text ++ erase back := by
  rw [eraseFrom_of_breaksOff r (h.breaksOff back), erase_sequence h]

theorem erase_append_of_notMem {front : List Char} (free : escape ∉ front) (back : List Char) :
    erase (front ++ back) = front ++ erase back := by
  induction front with
  | nil => rfl
  | cons c front ih =>
    rw [List.mem_cons, not_or] at free
    have written : Reading.outside.next c = ([c], .outside) := if_neg (Ne.symm free.1)
    rw [List.cons_append, erase, eraseFrom, written]
    exact congrArg (c :: ·) (ih free.2)

theorem erase_of_notMem {cs : List Char} (free : escape ∉ cs) : erase cs = cs := by
  have whole := erase_append_of_notMem free []
  have nothing : erase [] = [] := rfl
  rwa [nothing, List.append_nil] at whole

/-- Exactly the texts without a sequence stay as they are. -/
theorem erase_eq_self_iff (cs : List Char) : erase cs = cs ↔ ¬HasSequence cs := by
  constructor
  · rintro same ⟨s, isSequence, front, back, rfl⟩
    have length := congrArg List.length same
    have short := (eraseFrom_sublist .outside front).length_le
    have short' := (eraseFrom_sublist .outside back).length_le
    obtain ⟨codes, -, rfl⟩ := id isSequence
    rw [List.append_assoc, erase, eraseFrom_append _ _ (isSequence.breaksOff back),
      erase_sequence isSequence] at length
    simp only [List.length_append, List.length_cons, Reading.text, List.nil_append,
      erase] at length short short'
    omega
  · exact eraseFrom_of_not_hasSequence (r := .outside) trivial

theorem not_hasSequence_of_notMem {cs : List Char} (free : escape ∉ cs) : ¬HasSequence cs :=
  (erase_eq_self_iff cs).1 (erase_of_notMem free)

/-! ## Styled texts -/

theorem isSequence_reset : IsSequence reset := ⟨['0'], by decide, by decide⟩

theorem Style.isSequence_opening (style : Style) : IsSequence style.opening := by
  refine ⟨(";".intercalate style.codes).toList, ?_, ?_⟩
  · obtain ⟨bold, dimmed, colour⟩ := style
    cases bold <;> cases dimmed <;> rcases colour with _ | colour <;> try cases colour
    all_goals decide
  · simp only [Style.opening, String.toList_append]
    rfl

theorem reopen_reset_append (style cs : List Char) :
    reopen style 0 (reset ++ cs) = reset ++ (style ++ reopen style 0 cs) := by
  have chars : reset = ['\x1b', '[', '0', 'm'] := by decide
  simp [chars, reopen]

/-- The styles that are opened again behind a reset leave no trace. -/
theorem eraseFrom_reopen {style : List Char} (h : IsSequence style) (r : Reading)
    (text back : List Char) :
    eraseFrom r (reopen style 0 text ++ back) = eraseFrom r (text ++ back) := by
  -- On the length, as a reset is copied as a whole. What has been read before it is written by
  -- then.
  induction length : text.length using Nat.strongRecOn generalizing r text with
  | ind n ih =>
    by_cases resets : reset <+: text
    · obtain ⟨rest, rfl⟩ := resets
      have shorter : rest.length < n := by
        rw [← length, List.length_append]
        exact Nat.lt_add_of_pos_left (by decide)
      rw [reopen_reset_append, List.append_assoc, List.append_assoc, List.append_assoc,
        eraseFrom_sequence r isSequence_reset, eraseFrom_sequence r isSequence_reset,
          erase_sequence h]
      exact congrArg _ (ih _ shorter .outside rest rfl)
    · cases text with
      | nil => rfl
      | cons c cs =>
        have kept : reopen style 0 (c :: cs) = c :: reopen style 0 cs := by
          rw [reopen, if_neg (mt List.isPrefixOf_iff_prefix.1 resets)]
        rw [kept, List.cons_append, List.cons_append, eraseFrom, eraseFrom]
        exact congrArg _ (ih _ (length ▸ Nat.lt_succ_self _) _ cs rfl)

/-- A coloured span is erased up to what it holds, and so is a plain one if no sequence can go
across its end. -/
theorem erase_span (colours : Bool) (s : Span) (back : List Char)
    (h : escape ∉ s.text.toList ∨ ∀ c ∈ back.head?, breaksOff c = true) :
    erase (s.render colours ++ back) = erase s.text.toList ++ erase back := by
  unfold Span.render
  split
  · rw [List.append_assoc, List.append_assoc, erase_sequence s.style.isSequence_opening, erase,
      eraseFrom_reopen s.style.isSequence_opening,
        eraseFrom_append _ _ (isSequence_reset.breaksOff back),
      erase_sequence isSequence_reset]
    rfl
  · rcases h with free | breaks
    · rw [erase_append_of_notMem free, erase_of_notMem free]
    · exact eraseFrom_append _ _ breaks

/-- Whether a span starts with a character that continues no sequence. -/
def Span.Delimits (s : Span) : Prop := ∃ c ∈ s.text.toList.head?, breaksOff c = true

/-- Whether a span that may hold a part of a sequence has a span behind it that breaks off any
sequence. -/
def Delimited : Styled → Prop
  | [] => True
  | s :: rest => (escape ∉ s.text.toList ∨ ∃ u ∈ rest.head?, u.Delimits) ∧ Delimited rest

theorem Delimited.append {t u : Styled} (ht : Delimited t) (hu : Delimited u) :
    Delimited (t ++ u) := by
  induction t with
  | nil => exact hu
  | cons s rest ih =>
    refine ⟨ht.1.imp id ?_, ih ht.2⟩
    rintro ⟨v, next, delimits⟩
    exact ⟨v, by simp [List.head?_append, Option.mem_def.1 next], delimits⟩

/-- Whether no span holds an escape character. -/
def Unescaped (t : Styled) : Prop := ∀ s ∈ t, escape ∉ s.text.toList

theorem unescaped_cons {s : Span} {t : Styled} (hs : escape ∉ s.text.toList) (ht : Unescaped t) :
    Unescaped (s :: t) :=
  List.forall_mem_cons.2 ⟨hs, ht⟩

theorem unescaped_append {t u : Styled} (ht : Unescaped t) (hu : Unescaped u) :
    Unescaped (t ++ u) :=
  List.forall_mem_append.2 ⟨ht, hu⟩

theorem Unescaped.delimited {t : Styled} (h : Unescaped t) : Delimited t := by
  induction t with
  | nil => trivial
  | cons s rest ih =>
    rw [Unescaped, List.forall_mem_cons] at h
    exact ⟨.inl h.1, ih h.2⟩

theorem Delimited.flatMap {α : Type} {l : List α} {f : α → Styled} (h : ∀ a ∈ l, Delimited (f a)) :
    Delimited (l.flatMap f) := by
  induction l with
  | nil => trivial
  | cons a rest ih =>
    rw [List.forall_mem_cons] at h
    exact h.1.append (ih h.2)

theorem Span.Delimits.breaksOff {u : Span} (h : u.Delimits) (colours : Bool) (rest : List Char) :
    ∀ c ∈ (u.render colours ++ rest).head?, breaksOff c = true := by
  obtain ⟨d, first, breaks⟩ := h
  unfold Span.render
  split
  · rw [List.append_assoc, List.append_assoc]
    exact u.style.isSequence_opening.breaksOff _
  · intro c mem
    rw [List.head?_append, Option.mem_def.1 first] at mem
    cases mem
    exact breaks

/-- What is left of a styled text when its sequences are erased: what the spans hold. -/
theorem erase_spans (colours : Bool) {t : Styled} (h : Delimited t) :
    erase (t.flatMap (Span.render colours)) = t.flatMap fun s => erase s.text.toList := by
  induction t with
  | nil => rfl
  | cons s rest ih =>
    rw [List.flatMap_cons, List.flatMap_cons, erase_span colours s _ (h.1.imp id ?_), ih h.2]
    rintro ⟨u, next, delimits⟩
    obtain ⟨rest, rfl⟩ := List.head?_eq_some_iff.1 next
    exact delimits.breaksOff colours _

/-- Parts that can only shrink make up the same whole exactly if none of them does. -/
theorem flatMap_eq_flatMap_iff {α β : Type} {l : List α} {f g : α → List β}
    (h : ∀ a ∈ l, (f a).Sublist (g a)) :
    l.flatMap f = l.flatMap g ↔ ∀ a ∈ l, f a = g a := by
  induction l with
  | nil => exact iff_of_true rfl nofun
  | cons a rest ih =>
    rw [List.forall_mem_cons] at h ⊢
    rw [List.flatMap_cons, List.flatMap_cons, ← ih h.2]
    constructor
    · intro eq
      have length := congrArg List.length eq
      have first := h.1.length_le
      have others := (List.Sublist.flatMap_right rest h.2).length_le
      rw [List.length_append, List.length_append] at length
      exact List.append_inj eq (by omega)
    · rintro ⟨eq, eq'⟩
      rw [eq, eq']

theorem eraseEscapes_render (colours : Bool) {t : Styled} (h : Delimited t) :
    eraseEscapes (render colours t) = String.ofList (t.flatMap fun s => erase s.text.toList) := by
  rw [eraseEscapes, render, String.toList_ofList, erase_spans colours h]

/-- Erasing gives the text without colours exactly if no span holds a sequence of its own. -/
theorem eraseEscapes_render_eq_iff (colours : Bool) {t : Styled} (h : Delimited t) :
    eraseEscapes (render colours t) = render false t ↔ ∀ s ∈ t, ¬HasSequence s.text.toList := by
  have plain : ∀ s : Span, s.render false = s.text.toList := fun s => rfl
  have each : ∀ s ∈ t, (erase s.text.toList).Sublist s.text.toList :=
    fun s _ => eraseFrom_sublist .outside _
  rw [eraseEscapes_render colours h, render, String.ofList_inj]
  simp only [funext plain, flatMap_eq_flatMap_iff each, erase_eq_self_iff]

end PackageCoupling.Text
