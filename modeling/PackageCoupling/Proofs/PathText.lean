import Mathlib.Data.List.Basic
import PackageCoupling.Path.Basic

/-!
# Path texts and their segments

Cutting a text at its slashes and putting slashes between texts undo each other
(`intercalate_parts`, `parts_intercalate`). The steps that are read off a text are *proper*: they
can be written down and read again (`steps_stepsText`), so on the texts that paths are written as,
working with segments and working with steps is the same. Appending one text to another goes first
the one way and then the other (`Location.ofText_append`).
-/

namespace PackageCoupling.Path

/-! ## Cutting at slashes -/

section Lists

variable {α : Type} [DecidableEq α] {slash : α}

theorem segments_slash_cons (cs : List α) :
    segments slash (slash :: cs) = [] :: segments slash cs := by
  simp [segments]

theorem segments_ne_nil (cs : List α) : segments slash cs ≠ [] := by
  cases cs with
  | nil => simp [segments]
  | cons c cs =>
    rw [segments]
    split
    · simp
    · split <;> simp

theorem segments_cons {c : α} (h : c ≠ slash) (cs : List α) :
    ∃ s rest, segments slash cs = s :: rest ∧ segments slash (c :: cs) = (c :: s) :: rest := by
  cases eq : segments slash cs with
  | nil => exact absurd eq (segments_ne_nil cs)
  | cons s rest => exact ⟨s, rest, rfl, by simp [segments, h, eq]⟩

theorem slash_notMem_segments {cs s : List α} (h : s ∈ segments slash cs) : slash ∉ s := by
  induction cs generalizing s with
  | nil =>
    rw [segments, List.mem_singleton] at h
    simp [h]
  | cons c cs ih =>
    by_cases eq : c = slash
    · subst eq
      rw [segments_slash_cons] at h
      rcases List.mem_cons.1 h with rfl | h
      · simp
      · exact ih h
    · obtain ⟨front, rest, cut, cut'⟩ := segments_cons eq cs
      rw [cut'] at h
      rcases List.mem_cons.1 h with rfl | h
      · have := ih (cut ▸ List.mem_cons_self)
        simp [this, Ne.symm eq]
      · exact ih (cut ▸ List.mem_cons_of_mem _ h)

theorem intercalate_segments (cs : List α) : [slash].intercalate (segments slash cs) = cs := by
  induction cs with
  | nil => rfl
  | cons c cs ih =>
    by_cases eq : c = slash
    · subst eq
      cases cut : segments c cs with
      | nil => exact absurd cut (segments_ne_nil cs)
      | cons s rest =>
        rw [cut] at ih
        rw [segments_slash_cons, cut, List.intercalate_cons_cons, ih]
        rfl
    · obtain ⟨s, rest, cut, cut'⟩ := segments_cons eq cs
      rw [cut']
      rw [cut] at ih
      cases rest with
      | nil => simpa using ih
      | cons r rest =>
        rw [List.intercalate_cons_cons] at ih ⊢
        rw [← ih]
        rfl

theorem segments_append_slash {a : List α} (h : slash ∉ a) (b : List α) :
    segments slash (a ++ slash :: b) = a :: segments slash b := by
  induction a with
  | nil => exact segments_slash_cons b
  | cons c a ih =>
    rw [List.mem_cons, not_or] at h
    obtain ⟨s, rest, eq, eq'⟩ := segments_cons (Ne.symm h.1) (a ++ slash :: b)
    rw [ih h.2] at eq
    cases eq
    exact eq'

theorem segments_of_notMem {a : List α} (h : slash ∉ a) : segments slash a = [a] := by
  induction a with
  | nil => rfl
  | cons c a ih =>
    rw [List.mem_cons, not_or] at h
    obtain ⟨s, rest, eq, eq'⟩ := segments_cons (Ne.symm h.1) a
    rw [ih h.2] at eq
    cases eq
    exact eq'

theorem segments_append (a b : List α) :
    segments slash (a ++ slash :: b) = segments slash a ++ segments slash b := by
  induction a with
  | nil => exact segments_slash_cons b
  | cons c a ih =>
    by_cases eq : c = slash
    · subst eq
      rw [List.cons_append, segments_slash_cons, segments_slash_cons, ih, List.cons_append]
    · obtain ⟨s, rest, cut, cut'⟩ := segments_cons eq a
      obtain ⟨t, more, cutt, cutt'⟩ := segments_cons eq (a ++ slash :: b)
      rw [ih, cut, List.cons_append, List.cons.injEq] at cutt
      rw [List.cons_append, cutt', cut', ← cutt.1, ← cutt.2, List.cons_append]

theorem segments_intercalate {l : List (List α)} (ne : l ≠ []) (h : ∀ s ∈ l, slash ∉ s) :
    segments slash ([slash].intercalate l) = l := by
  induction l with
  | nil => exact absurd rfl ne
  | cons s rest ih =>
    have hs := h s List.mem_cons_self
    cases rest with
    | nil => simpa using segments_of_notMem hs
    | cons r rest =>
      have ih := ih (List.cons_ne_nil _ _) fun t ht => h t (List.mem_cons_of_mem _ ht)
      rw [List.intercalate_cons_cons, List.append_assoc]
      exact (segments_append_slash hs _).trans (congrArg _ ih)

/-- What is put behind a root is cut apart from it, and a slash at the end of the root is not
repeated. -/
theorem segments_appendList {root : List α} (ne : root ≠ []) {path : List α}
    (relative : path.head? ≠ some slash) :
    ∃ front, (segments slash root = front ∨ segments slash root = front ++ [[]]) ∧
      segments slash (appendList slash root path) = front ++ segments slash path := by
  by_cases ends : root.getLast? = some slash
  · obtain ⟨front, rfl⟩ := List.getLast?_eq_some_iff.1 ends
    refine ⟨segments slash front, .inr (segments_append front []), ?_⟩
    rw [appendList, if_neg (by simp [relative]), if_pos ends, List.append_assoc,
      List.singleton_append, segments_append]
  · refine ⟨segments slash root, .inl rfl, ?_⟩
    rw [appendList, if_neg (by simp [relative, ne]), if_neg ends, segments_append]

theorem head?_appendList {root : List α} (ne : root ≠ []) {path : List α}
    (relative : path.head? ≠ some slash) : (appendList slash root path).head? = root.head? := by
  rw [appendList, if_neg (by simp [relative, ne])]
  split
  · exact List.head?_append_of_ne_nil _ ne
  · exact List.head?_append_of_ne_nil _ ne

theorem appendList_of_rooted {path : List α} (rooted : path.head? = some slash) (root : List α) :
    appendList slash root path = path :=
  if_pos (.inl rooted)

theorem mem_of_mem_segments {cs s : List α} (h : s ∈ segments slash cs) {c : α} (mem : c ∈ s) :
    c ∈ cs := by
  induction cs generalizing s with
  | nil =>
    rw [segments, List.mem_singleton] at h
    exact h ▸ mem
  | cons d cs ih =>
    by_cases eq : d = slash
    · subst eq
      rw [segments_slash_cons] at h
      rcases List.mem_cons.1 h with rfl | h
      · exact absurd mem List.not_mem_nil
      · exact List.mem_cons_of_mem _ (ih h mem)
    · obtain ⟨front, rest, cut, cut'⟩ := segments_cons eq cs
      rw [cut'] at h
      rcases List.mem_cons.1 h with rfl | h
      · rcases List.mem_cons.1 mem with rfl | mem
        · exact List.mem_cons_self
        · exact List.mem_cons_of_mem _ (ih (cut ▸ List.mem_cons_self) mem)
      · exact List.mem_cons_of_mem _ (ih (cut ▸ List.mem_cons_of_mem _ h) mem)

end Lists

/-! ## The parts of a text -/

theorem slash_notMem_parts {s p : String} (h : p ∈ parts s) : '/' ∉ p.toList := by
  obtain ⟨cs, hcs, rfl⟩ := List.mem_map.1 h
  rw [String.toList_ofList]
  exact slash_notMem_segments hcs

theorem parts_ne_nil (s : String) : parts s ≠ [] := by
  simp [parts, segments_ne_nil]

theorem intercalate_parts (s : String) : "/".intercalate (parts s) = s := by
  apply String.toList_injective
  have chars : (parts s).map String.toList = segments '/' s.toList := by
    simp [parts, Function.comp_def]
  rw [String.toList_intercalate, chars]
  exact intercalate_segments s.toList

theorem parts_intercalate {l : List String} (ne : l ≠ []) (h : ∀ p ∈ l, '/' ∉ p.toList) :
    parts ("/".intercalate l) = l := by
  have noSlash : ∀ cs ∈ l.map String.toList, '/' ∉ cs := by
    intro cs hcs
    obtain ⟨p, hp, rfl⟩ := List.mem_map.1 hcs
    exact h p hp
  have cut : segments '/' ("/".intercalate l).toList = l.map String.toList := by
    rw [String.toList_intercalate]
    exact segments_intercalate (by simpa using ne) noSlash
  rw [parts, cut]
  simp [Function.comp_def]

/-! ## Steps that can be written down -/

/-- Whether a text names an entry of a directory. -/
def IsName (s : String) : Prop := s ≠ "" ∧ s ≠ "." ∧ s ≠ ".." ∧ '/' ∉ s.toList

instance (s : String) : Decidable (IsName s) := inferInstanceAs (Decidable (_ ∧ _ ∧ _ ∧ _))

def Step.Proper : Step → Prop
  | .down name => IsName name
  | .up => True

theorem Step.text_ne_empty {st : Step} (h : st.Proper) : st.text ≠ "" := by
  cases st with
  | down name => exact h.1
  | up => decide

theorem Step.text_ne_dot {st : Step} (h : st.Proper) : st.text ≠ "." := by
  cases st with
  | down name => exact h.2.1
  | up => decide

theorem Step.slash_notMem_text {st : Step} (h : st.Proper) : '/' ∉ st.text.toList := by
  cases st with
  | down name => exact h.2.2.2
  | up => decide

theorem Step.proper_of_ofSegment? {s : List Char} {st : Step} (h : ofSegment? s = some st)
    (noSlash : '/' ∉ s) : st.Proper := by
  unfold ofSegment? at h
  split at h
  · cases h
  · rename_i plain
    simp only [Bool.or_eq_true, beq_iff_eq, not_or] at plain
    split at h
    · cases h
      exact trivial
    · rename_i notUp
      rw [beq_iff_eq] at notUp
      cases h
      have chars : ∀ cs : List Char, s ≠ cs → String.ofList s ≠ String.ofList cs := by
        intro cs ne eq
        exact ne (String.ofList_injective eq)
      exact ⟨chars [] plain.1, chars ['.'] plain.2, chars ['.', '.'] notUp,
        by rwa [String.toList_ofList]⟩

theorem Step.ofSegment?_text {st : Step} (h : st.Proper) : ofSegment? st.text.toList = some st := by
  cases st with
  | up => rfl
  | down name =>
    have chars : ∀ t : String, name ≠ t → name.toList ≠ t.toList := by
      intro t ne eq
      exact ne (String.toList_injective eq)
    have h1 : name.toList ≠ [] := chars "" h.1
    have h2 : name.toList ≠ ['.'] := chars "." h.2.1
    have h3 : name.toList ≠ ['.', '.'] := chars ".." h.2.2.1
    simp [ofSegment?, text, h1, h2, h3]

theorem steps_proper (s : String) : ∀ st ∈ steps s, st.Proper := by
  intro st h
  obtain ⟨cs, hcs, eq⟩ := List.mem_filterMap.1 h
  exact Step.proper_of_ofSegment? eq (slash_notMem_segments hcs)

theorem steps_eq_parts (s : String) :
    steps s = (parts s).filterMap fun p => Step.ofSegment? p.toList := by
  simp [steps, parts, List.filterMap_map]

theorem parts_stepsText {l : List Step} (ne : l ≠ []) (h : ∀ st ∈ l, st.Proper) :
    parts (stepsText l) = l.map Step.text := by
  have written : stepsText l = "/".intercalate (l.map Step.text) := by
    cases l with
    | nil => exact absurd rfl ne
    | cons st rest => rfl
  rw [written]
  apply parts_intercalate (by simpa using ne)
  intro p hp
  obtain ⟨st, hst, rfl⟩ := List.mem_map.1 hp
  exact Step.slash_notMem_text (h st hst)

/-- Proper steps are read back as they were written. -/
theorem steps_stepsText {l : List Step} (h : ∀ st ∈ l, st.Proper) : steps (stepsText l) = l := by
  by_cases ne : l = []
  · subst ne
    rfl
  · rw [steps_eq_parts, parts_stepsText ne h, List.filterMap_map]
    have back : ∀ st ∈ l, ((fun p : String => Step.ofSegment? p.toList) ∘ Step.text) st = some st :=
      fun st hst => Step.ofSegment?_text (h st hst)
    rw [List.filterMap_congr back, List.filterMap_some]

theorem steps_intercalate {names : List String} (h : ∀ name ∈ names, IsName name) :
    steps ("/".intercalate names) = names.map .down := by
  have proper : ∀ st ∈ names.map Step.down, st.Proper := by
    intro st hst
    obtain ⟨name, hname, rfl⟩ := List.mem_map.1 hst
    exact h name hname
  cases names with
  | nil => rfl
  | cons name rest =>
    have written : stepsText ((name :: rest).map .down) = "/".intercalate (name :: rest) := by
      simp [stepsText, Step.text, Function.comp_def]
    rw [← written]
    exact steps_stepsText proper

/-! ## Characters of a path -/

theorem Step.text_of_ofSegment? {s : List Char} {st : Step} (h : ofSegment? s = some st) :
    st.text.toList = s := by
  unfold ofSegment? at h
  split at h
  · cases h
  · split at h
    · rename_i up
      cases h
      exact (beq_iff_eq.1 up).symm
    · cases h
      exact String.toList_ofList

theorem mem_of_mem_steps {s : String} {st : Step} (h : st ∈ steps s) {c : Char}
    (mem : c ∈ st.text.toList) : c ∈ s.toList := by
  obtain ⟨cs, hcs, eq⟩ := List.mem_filterMap.1 h
  rw [Step.text_of_ofSegment? eq] at mem
  exact mem_of_mem_segments hcs mem

/-- Beside its steps a written path has only slashes, or a dot for none. -/
theorem mem_stepsText {l : List Step} {c : Char} (h : c ∈ (stepsText l).toList) :
    c = '.' ∨ c = '/' ∨ ∃ st ∈ l, c ∈ st.text.toList := by
  induction l with
  | nil => exact .inl (List.mem_singleton.1 h)
  | cons st rest ih =>
    cases rest with
    | nil =>
      have single : stepsText [st] = st.text := rfl
      exact .inr (.inr ⟨st, List.mem_cons_self, single ▸ h⟩)
    | cons st' rest =>
      have chars : (stepsText (st :: st' :: rest)).toList =
          st.text.toList ++ ['/'] ++ (stepsText (st' :: rest)).toList := by
        simp [stepsText, String.toList_intercalate]
      rw [chars, List.append_assoc, List.mem_append, List.mem_append, List.mem_singleton] at h
      rcases h with here | slash | behind
      · exact .inr (.inr ⟨st, List.mem_cons_self, here⟩)
      · exact .inr (.inl slash)
      · rcases ih behind with dot | slash | ⟨st', mem, here⟩
        · exact .inl dot
        · exact .inr (.inl slash)
        · exact .inr (.inr ⟨st', List.mem_cons_of_mem _ mem, here⟩)

/-! ## One path behind another -/

theorem isRooted_eq_false_iff {s : String} :
    isRooted s = false ↔ s.toList.head? ≠ some '/' := by
  rw [isRooted, beq_eq_false_iff_ne]

/-- What is put behind a root is cut apart from it. -/
theorem parts_append_root {root : String} (ne : root ≠ "") (path : String)
    (relative : isRooted path = false) :
    ∃ front, (parts root = front ∨ parts root = front ++ [""]) ∧
      parts (append root path) = front ++ parts path := by
  have chars : root.toList ≠ [] := fun nil => ne (String.toList_injective nil)
  obtain ⟨front, cut, appended⟩ :=
    segments_appendList chars (isRooted_eq_false_iff.1 relative)
  refine ⟨front.map String.ofList, cut.imp ?_ ?_, ?_⟩
  · intro eq
    rw [parts, eq]
  · intro eq
    rw [parts, eq, List.map_append]
    rfl
  · rw [parts, append, String.toList_ofList, appended, List.map_append, parts]

theorem steps_append {root path : String} (ne : root ≠ "") (relative : isRooted path = false) :
    steps (append root path) = steps root ++ steps path := by
  obtain ⟨front, cut, appended⟩ := parts_append_root ne path relative
  rw [steps_eq_parts, appended, List.filterMap_append, steps_eq_parts, steps_eq_parts]
  rcases cut with eq | eq
  · rw [eq]
  · have nothing : [""].filterMap (fun p : String => Step.ofSegment? p.toList) = [] := by decide
    rw [eq, List.filterMap_append, nothing, List.append_nil]

theorem isRooted_append {root path : String} (ne : root ≠ "") (relative : isRooted path = false) :
    isRooted (append root path) = isRooted root := by
  have chars : root.toList ≠ [] := fun nil => ne (String.toList_injective nil)
  rw [isRooted, append, String.toList_ofList,
    head?_appendList chars (isRooted_eq_false_iff.1 relative), isRooted]

theorem append_of_isRooted {path : String} (rooted : isRooted path = true) (root : String) :
    append root path = path := by
  rw [append, appendList_of_rooted (beq_iff_eq.1 rooted), String.ofList_toList]

/-- The appended text leads where first `root` and then `path` lead. -/
theorem Location.ofText_append {root : String} (ne : root ≠ "") (path : String) :
    ofText (append root path) = (ofText root).andThen (ofText path) := by
  unfold andThen
  cases relative : isRooted path with
  | true => simp [ofText, append_of_isRooted relative, relative]
  | false => simp [ofText, relative, isRooted_append ne relative, steps_append ne relative]

theorem ne_empty_of_isRooted {s : String} (rooted : isRooted s = true) : s ≠ "" := by
  rintro rfl
  cases rooted

theorem isRooted_append_of_isRooted {root : String} (rooted : isRooted root = true)
    (path : String) : isRooted (append root path) = true := by
  cases relative : isRooted path with
  | true => rw [append_of_isRooted relative, relative]
  | false => rw [isRooted_append (ne_empty_of_isRooted rooted) relative, rooted]

theorem parent_slash (file : String) : parent (slash file) = parent file := by
  rw [parent, parent, slash, steps_stepsText (steps_proper file)]

end PackageCoupling.Path
