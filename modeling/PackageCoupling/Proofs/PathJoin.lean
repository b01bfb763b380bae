import PackageCoupling.Proofs.PathText

/-!
# Joined paths

What a path comes down to is a list of *reduced* steps: no step goes up behind one that goes down
(`reduceSteps_reduced`), and reducing such a list changes nothing (`reduceSteps_of_reduced`). Steps
are taken from where the steps before them have led (`reduceSteps_append`). Going down from a path
only adds steps at its end (`join_stepsText_down`), so a join with proper names can be read off
without any reduction.
-/

namespace PackageCoupling.Path

/-! ## Reduced steps -/

/-- Whether all steps up stand in front of all steps down. -/
def Reduced (l : List Step) : Prop := l.Pairwise fun a b => b = .up → a = .up

theorem reduced_concat_down {l : List Step} (h : Reduced l) (name : String) :
    Reduced (l ++ [.down name]) := by
  rw [Reduced, List.pairwise_append]
  refine ⟨h, List.pairwise_singleton _ _, ?_⟩
  intro a _ b hb up
  rw [List.mem_singleton.1 hb] at up
  cases up

theorem reduced_concat_up {l : List Step} (h : Reduced (l ++ [.up])) :
    Reduced (l ++ [.up] ++ [.up]) := by
  rw [Reduced, List.pairwise_append]
  refine ⟨h, List.pairwise_singleton _ _, ?_⟩
  intro a ha b _ _
  rcases List.mem_append.1 ha with ha | ha
  · exact (List.pairwise_append.1 h).2.2 a ha .up List.mem_cons_self rfl
  · exact List.mem_singleton.1 ha

theorem Reduced.of_append {l rest : List Step} (h : Reduced (l ++ rest)) : Reduced l :=
  (List.pairwise_append.1 h).1

/-- However the steps go, what is on the stack stays reduced. -/
theorem reduceSteps_reduced (rooted : Bool) (stack l : List Step) (h : Reduced stack.reverse) :
    Reduced (reduceSteps rooted stack l) := by
  fun_induction reduceSteps rooted stack l with
  | case1 stack => exact h
  | case2 stack n rest ih =>
    apply ih
    rw [List.reverse_cons]
    exact reduced_concat_down h n
  | case3 n stack rest ih =>
    apply ih
    rw [List.reverse_cons] at h
    exact h.of_append
  | case4 rest ih =>
    apply ih
    cases rooted
    · exact List.pairwise_singleton _ _
    · exact .nil
  | case5 stack rest ih =>
    apply ih
    rw [List.reverse_cons] at h
    rw [List.reverse_cons, List.reverse_cons]
    exact reduced_concat_up h

/-- Reduced steps are taken as they are. -/
theorem reduceSteps_of_reduced (stack : List Step) {l : List Step}
    (h : Reduced (stack.reverse ++ l)) : reduceSteps false stack l = stack.reverse ++ l := by
  induction l generalizing stack with
  | nil => cases stack <;> simp [reduceSteps]
  | cons st rest ih =>
    have shift : ∀ st : Step, stack.reverse ++ st :: rest = (st :: stack).reverse ++ rest := by
      intro st
      simp
    cases st with
    | down n =>
      rw [shift] at h ⊢
      rw [reduceSteps, ih _ h]
    | up =>
      cases stack with
      | nil => exact ih [.up] h
      | cons top stack =>
        cases top with
        | up =>
          rw [shift] at h ⊢
          rw [reduceSteps, ih _ h]
        | down n =>
          -- A step up behind this one would not be reduced.
          have before :=
            (List.pairwise_append.1 h).2.2 (.down n) (by simp) .up List.mem_cons_self rfl
          cases before

/-- Steps are taken from where the steps before them have led. -/
theorem reduceSteps_append (rooted : Bool) (stack l l' : List Step) :
    reduceSteps rooted stack (l ++ l') =
      reduceSteps rooted (reduceSteps rooted stack l).reverse l' := by
  fun_induction reduceSteps rooted stack l with
  | case1 stack => rw [List.nil_append, List.reverse_reverse]
  | case2 stack n rest ih => rwa [List.cons_append, reduceSteps]
  | case3 n stack rest ih => rwa [List.cons_append, reduceSteps]
  | case4 rest ih => rwa [List.cons_append, reduceSteps]
  | case5 stack rest ih => rwa [List.cons_append, reduceSteps]

theorem reduceSteps_down (rooted : Bool) (stack : List Step) (names : List String) :
    reduceSteps rooted stack (names.map .down) = stack.reverse ++ names.map .down := by
  induction names generalizing stack with
  | nil => cases stack <;> simp [reduceSteps]
  | cons n names ih =>
    rw [List.map_cons, reduceSteps, ih, List.reverse_cons, List.append_assoc, List.singleton_append]

theorem reduceSteps_append_down (rooted : Bool) (stack l : List Step) (names : List String) :
    reduceSteps rooted stack (l ++ names.map .down) =
      reduceSteps rooted stack l ++ names.map .down := by
  rw [reduceSteps_append, reduceSteps_down, List.reverse_reverse]

theorem exists_names {l : List Step} (plain : .up ∉ l) :
    ∃ names : List String, l = names.map .down := by
  induction l with
  | nil => exact ⟨[], rfl⟩
  | cons st rest ih =>
    rw [List.mem_cons, not_or] at plain
    obtain ⟨names, rfl⟩ := ih plain.2
    cases st with
    | down name => exact ⟨name :: names, rfl⟩
    | up => exact absurd rfl plain.1

/-- Where nothing goes up, every step is taken. -/
theorem reduceSteps_of_plain (rooted : Bool) (stack : List Step) {l : List Step} (plain : .up ∉ l) :
    reduceSteps rooted stack l = stack.reverse ++ l := by
  obtain ⟨names, rfl⟩ := exists_names plain
  exact reduceSteps_down rooted stack names

theorem reduceSteps_proper (rooted : Bool) (stack l : List Step) (hs : ∀ st ∈ stack, st.Proper)
    (hl : ∀ st ∈ l, st.Proper) : ∀ st ∈ reduceSteps rooted stack l, st.Proper := by
  fun_induction reduceSteps rooted stack l with
  | case1 stack => simpa using hs
  | case2 stack n rest ih =>
    rw [List.forall_mem_cons] at hl
    exact ih (List.forall_mem_cons.2 ⟨hl.1, hs⟩) hl.2
  | case3 n stack rest ih =>
    rw [List.forall_mem_cons] at hl hs
    exact ih hs.2 hl.2
  | case4 rest ih =>
    rw [List.forall_mem_cons] at hl
    refine ih ?_ hl.2
    cases rooted
    · exact List.forall_mem_cons.2 ⟨trivial, hs⟩
    · exact hs
  | case5 stack rest ih =>
    rw [List.forall_mem_cons] at hl
    exact ih (List.forall_mem_cons.2 ⟨trivial, hs⟩) hl.2

/-- From the root nothing leads up. -/
theorem up_notMem_reduceSteps (stack l : List Step) (plain : .up ∉ stack) :
    .up ∉ reduceSteps true stack l := by
  fun_induction reduceSteps true stack l with
  | case1 stack => rwa [List.mem_reverse]
  | case2 stack n rest ih => exact ih (List.not_mem_cons_of_ne_of_not_mem nofun plain)
  | case3 n stack rest ih => exact ih (List.not_mem_of_not_mem_cons plain)
  | case4 rest ih => exact ih plain
  | case5 stack rest ih => exact absurd List.mem_cons_self plain

/-! ## What a path comes down to -/

/-- The steps of a path, reduced. -/
def reducedSteps (s : String) : List Step := (Location.ofText s).reduce.steps

theorem reducedSteps_proper (s : String) : ∀ st ∈ reducedSteps s, st.Proper :=
  reduceSteps_proper _ _ _ (by simp) (steps_proper s)

/-- Names as steps down. -/
theorem proper_map_down {names : List String} (h : ∀ name ∈ names, IsName name) :
    ∀ st ∈ names.map Step.down, st.Proper := by
  intro st hst
  obtain ⟨name, hname, rfl⟩ := List.mem_map.1 hst
  exact h name hname

theorem map_text_map_down (names : List String) : (names.map Step.down).map Step.text = names := by
  rw [List.map_map]
  exact (List.map_congr_left fun _ _ => rfl).trans (List.map_id _)

theorem stepsText_of_ne_nil {l : List Step} (ne : l ≠ []) :
    stepsText l = "/".intercalate (l.map Step.text) := by
  cases l with
  | nil => exact absurd rfl ne
  | cons st rest => rfl

theorem isRooted_stepsText {l : List Step} (h : ∀ st ∈ l, st.Proper) :
    isRooted (stepsText l) = false := by
  cases l with
  | nil => decide
  | cons st rest =>
    have noSlash := Step.slash_notMem_text (h st List.mem_cons_self)
    have ne := Step.text_ne_empty (h st List.mem_cons_self)
    cases chars : st.text.toList with
    | nil => exact absurd (String.toList_injective chars) ne
    | cons c cs =>
      have hc : c ≠ '/' := by
        rintro rfl
        rw [chars] at noSlash
        exact noSlash List.mem_cons_self
      have start : (stepsText (st :: rest)).toList.head? = some c := by
        cases rest with
        | nil => simp [stepsText, chars]
        | cons r rest => simp [stepsText, String.toList_append, chars]
      simp [isRooted, start, hc]

theorem ofText_stepsText {l : List Step} (h : ∀ st ∈ l, st.Proper) :
    Location.ofText (stepsText l) = ⟨false, l⟩ := by
  rw [Location.ofText, isRooted_stepsText h, steps_stepsText h]

theorem reducedSteps_stepsText {l : List Step} (h : ∀ st ∈ l, st.Proper) (reduced : Reduced l) :
    reducedSteps (stepsText l) = l := by
  rw [reducedSteps, ofText_stepsText h]
  exact reduceSteps_of_reduced [] reduced

theorem join_of_relative (base : String) {rel : String} (relative : isRooted rel = false) :
    join base rel = stepsText (reduceSteps (isRooted base) [] (steps base ++ steps rel)) := by
  simp [join, Location.andThen, Location.ofText, relative, Location.reduce]

/-- A join is written from proper and reduced steps, and none of them goes up if it starts at the
root. -/
theorem join_steps (base rel : String) :
    ∃ l : List Step, (∀ st ∈ l, st.Proper) ∧ Reduced l ∧
      (isRooted base = true ∨ isRooted rel = true → .up ∉ l) ∧ join base rel = stepsText l := by
  refine ⟨_, reduceSteps_proper _ [] _ nofun ?_, reduceSteps_reduced _ [] _ .nil, ?_, rfl⟩
  · intro st hst
    unfold Location.andThen at hst
    split at hst
    · exact steps_proper rel st hst
    · exact (List.mem_append.1 hst).elim (steps_proper base st) (steps_proper rel st)
  · intro absolute
    have rooted : ((Location.ofText base).andThen (Location.ofText rel)).rooted = true := by
      unfold Location.andThen
      split
      · assumption
      · rename_i relative
        exact absolute.resolve_right relative
    rw [rooted]
    exact up_notMem_reduceSteps [] _ nofun

/-- Going down from a path adds the names behind what the path comes down to. -/
theorem join_stepsText_down (base : String) (names : List String)
    (h : ∀ name ∈ names, IsName name) :
    join base (stepsText (names.map .down)) = stepsText (reducedSteps base ++ names.map .down) := by
  have proper := proper_map_down h
  rw [join_of_relative base (isRooted_stepsText proper), steps_stepsText proper,
    reduceSteps_append_down]
  rfl

theorem join_dot (base : String) : join base "." = stepsText (reducedSteps base) := by
  simpa [stepsText] using join_stepsText_down base [] (by simp)

theorem join_name (base : String) {name : String} (h : IsName name) :
    join base name = stepsText (reducedSteps base ++ [.down name]) := by
  simpa [stepsText, Step.text] using join_stepsText_down base [name] (by simpa using h)

theorem stepsText_injective {l l' : List Step} (h : ∀ st ∈ l, st.Proper)
    (h' : ∀ st ∈ l', st.Proper) (eq : stepsText l = stepsText l') : l = l' := by
  rw [← steps_stepsText h, ← steps_stepsText h', eq]

/-! ## Last segments -/

theorem baseName_eq_getLastD (s : String) : baseName s = (parts s).getLastD "" := by
  rw [baseName, parts, List.getLastD_eq_getLast?, List.getLastD_eq_getLast?, List.getLast?_map]
  cases (segments '/' s.toList).getLast? <;> rfl

theorem baseName_stepsText {l : List Step} (h : ∀ st ∈ l, st.Proper) :
    baseName (stepsText l) = (l.getLast?.map Step.text).getD "." := by
  by_cases ne : l = []
  · subst ne
    decide
  · rw [baseName_eq_getLastD, parts_stepsText ne h, List.getLastD_eq_getLast?, List.getLast?_map]
    cases last : l.getLast? with
    | none => exact absurd (List.getLast?_eq_none_iff.1 last) ne
    | some st => rfl

theorem parent_stepsText {l : List Step} (h : ∀ st ∈ l, st.Proper) :
    parent (stepsText l) = stepsText l.dropLast := by
  rw [parent, steps_stepsText h]

end PackageCoupling.Path
