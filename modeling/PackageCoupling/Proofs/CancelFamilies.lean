import Mathlib.Algebra.GroupWithZero.Nat
import Mathlib.Data.List.Infix
import Mathlib.Logic.Relation
import PackageCoupling.Cancellation

/-!
# Families of tokens fire together

A token keeps no list of its copies. It shares a flag with its family and has a deadline of its own,
which copies take over. What its check finds is nonetheless told by the history of all tokens:

* `step_cases`: all that one step can do;
* `step_of_history`: every step of a history was taken, and what it did to the tokens is still
  there;
* `connected_iff`: a chain of copies connects exactly the tokens of one family;
* `mem_cancelled_iff`: the cancelled families are those of the tokens that some step cancels;
* `fired_of_unconcerned`: steps that cancel no relative of a token are to it the passing of time.
-/

namespace PackageCoupling.Cancellation

/-! ## What a history says -/

def Step.makes : Step → Bool
  | .create _ | .clone _ => true
  | .cancel _ | .wait _ => false

/-- How many tokens some steps make, which is also the place of the next one. -/
def made (steps : List Step) : Nat := steps.countP Step.makes

def Step.time : Step → Nat
  | .wait time => time
  | _ => 0

/-- The time that passes during some steps. -/
def waited (steps : List Step) : Nat := (steps.map Step.time).sum

/-- Whether the token at `copy` was made as a copy of the one at `source`. -/
def Cloned (steps : List Step) (source copy : Nat) : Prop :=
  ∃ before, before ++ [.clone source] <+: steps ∧ copy = made before

/-- Whether two tokens are connected by a chain of copies, whatever the directions of its links. -/
def Connected (steps : List Step) : Nat → Nat → Prop := Relation.EqvGen (Cloned steps)

theorem connected_mono {steps more : List Step} {i j : Nat} (h : Connected steps i j) :
    Connected (steps ++ more) i j := by
  refine Relation.EqvGen.mono ?_ _ _ h
  rintro i j ⟨before, early, rfl⟩
  exact ⟨before, early.trans (List.prefix_append ..), rfl⟩

/-! ## One step -/

section Step

variable {c c' : Cancellation} {s : Step}

theorem step_cases (taken : c.step s = some c') :
    (∃ d, s = .create d ∧
      c' = { c with tokens := c.tokens ++ [⟨c.tokens.length, d.instant? c.now⟩] }) ∨
    (∃ i t, s = .clone i ∧ c.tokens[i]? = some t ∧ c' = { c with tokens := c.tokens ++ [t] }) ∨
    (∃ i t, s = .cancel i ∧ c.tokens[i]? = some t ∧
      c' = { c with cancelled := t.family :: c.cancelled }) ∨
    ∃ time, s = .wait time ∧ c' = c.wait time := by
  cases s with
  | create d =>
    rw [step, create] at taken
    split at taken
    · cases taken
      exact .inl ⟨d, rfl, rfl⟩
    · cases taken
  | clone i =>
    obtain ⟨t, found, rfl⟩ := Option.map_eq_some_iff.1 taken
    exact .inr (.inl ⟨i, t, rfl, found, rfl⟩)
  | cancel i =>
    obtain ⟨t, found, rfl⟩ := Option.map_eq_some_iff.1 taken
    exact .inr (.inr (.inl ⟨i, t, rfl, found, rfl⟩))
  | wait time =>
    cases taken
    exact .inr (.inr (.inr ⟨time, rfl, rfl⟩))

/-- Tokens are never taken away or changed, and no cancellation is taken back. -/
theorem grows_step (taken : c.step s = some c') :
    c.tokens <+: c'.tokens ∧ c.cancelled ⊆ c'.cancelled ∧ c'.now = c.now + s.time ∧
      c'.tokens.length = c.tokens.length + if s.makes then 1 else 0 := by
  obtain ⟨d, rfl, rfl⟩ | ⟨i, t, rfl, -, rfl⟩ | ⟨i, t, rfl, -, rfl⟩ | ⟨time, rfl, rfl⟩ :=
    step_cases taken
  · exact ⟨List.prefix_append .., List.Subset.refl _, rfl, List.length_append⟩
  · exact ⟨List.prefix_append .., List.Subset.refl _, rfl, List.length_append⟩
  · exact ⟨List.prefix_refl _, List.subset_cons_self .., rfl, rfl⟩
  · exact ⟨List.prefix_refl _, List.Subset.refl _, rfl, rfl⟩

theorem mem_cancelled_step (taken : c.step s = some c') (f : Nat) :
    f ∈ c'.cancelled ↔
      f ∈ c.cancelled ∨ ∃ k t, s = .cancel k ∧ c.tokens[k]? = some t ∧ t.family = f := by
  obtain ⟨d, rfl, rfl⟩ | ⟨i, t, rfl, -, rfl⟩ | ⟨i, t, rfl, found, rfl⟩ | ⟨time, rfl, rfl⟩ :=
    step_cases taken
  · simp
  · simp
  · simp [found, or_comm, eq_comm]
  · simp [wait]

end Step

theorem fired_iff (c : Cancellation) (t : CancelToken) :
    c.fired t = true ↔
      t.family ∈ c.cancelled ∨ ∃ instant, t.deadline = some instant ∧ instant ≤ c.now := by
  simp [fired, Option.any_eq_true]

theorem check_eq_error_iff (c : Cancellation) (t : CancelToken) :
    c.check t = .error .canceled ↔ c.fired t = true := by
  unfold check
  split <;> simp_all

theorem check_congr {c c' : Cancellation} {t : CancelToken}
    (h : c.fired t = true ↔ c'.fired t = true) : c.check t = c'.check t := by
  unfold check
  rw [Bool.eq_iff_iff.2 h]

/-! ## Any steps -/

section Run

variable {start : Nat} {steps more : List Step} {c c' : Cancellation}
  {t u : CancelToken} {i j : Nat}

theorem getElem?_of_begins {l m : List CancelToken} (h : l <+: m) (token : l[i]? = some t) :
    m[i]? = some t := by
  obtain ⟨more, rfl⟩ := h
  obtain ⟨bound, -⟩ := List.getElem?_eq_some_iff.1 token
  rw [List.getElem?_append_left bound, token]

theorem getElem?_concat_cases {l : List CancelToken} (token : (l ++ [u])[i]? = some t) :
    l[i]? = some t ∨ (i = l.length ∧ u = t) := by
  rw [List.getElem?_append] at token
  split at token
  · exact .inl token
  · rw [List.getElem?_singleton] at token
    split at token
    · cases token
      exact .inr ⟨by omega, rfl⟩
    · cases token

theorem grows_foldlM (taken : more.foldlM step c = some c') :
    c.tokens <+: c'.tokens ∧ c.cancelled ⊆ c'.cancelled ∧ c'.now = c.now + waited more ∧
      c'.tokens.length = c.tokens.length + made more := by
  induction more generalizing c with
  | nil =>
    cases taken
    exact ⟨List.prefix_refl _, List.Subset.refl _, rfl, rfl⟩
  | cons s rest ih =>
    obtain ⟨next, first, behind⟩ := Option.bind_eq_some_iff.1 taken
    obtain ⟨tokens, cancelled, now, length⟩ := grows_step first
    obtain ⟨tokens', cancelled', now', length'⟩ := ih behind
    refine ⟨tokens.trans tokens', List.Subset.trans cancelled cancelled', ?_, ?_⟩
    · have total : waited (s :: rest) = s.time + waited rest := rfl
      omega
    · have total : made (s :: rest) = made rest + if s.makes then 1 else 0 := List.countP_cons ..
      omega

/-- Steps that cancel no token of a family leave its flag alone. -/
theorem mem_cancelled_foldlM (taken : more.foldlM step c = some c') {f : Nat}
    (other : ∀ k u, .cancel k ∈ more → c'.tokens[k]? = some u → u.family ≠ f) :
    f ∈ c'.cancelled ↔ f ∈ c.cancelled := by
  induction more generalizing c with
  | nil =>
    cases taken
    rfl
  | cons s rest ih =>
    have kept : c.tokens <+: c'.tokens := (grows_foldlM taken).1
    obtain ⟨next, first, behind⟩ := Option.bind_eq_some_iff.1 taken
    rw [ih behind fun k u mem => other k u (List.mem_cons_of_mem _ mem), mem_cancelled_step first]
    refine or_iff_left ?_
    rintro ⟨k, u, rfl, found, eq⟩
    exact other k u List.mem_cons_self (getElem?_of_begins kept found) eq

theorem fired_of_unconcerned (taken : more.foldlM step c = some c')
    (other : ∀ k u, .cancel k ∈ more → c'.tokens[k]? = some u → u.family ≠ t.family) :
    c'.fired t = true ↔ (c.wait (waited more)).fired t = true := by
  rw [fired_iff, fired_iff, mem_cancelled_foldlM taken other, (grows_foldlM taken).2.2.1]
  rfl

/-- No step takes back what has fired. -/
theorem fired_foldlM (taken : more.foldlM step c = some c') (fired : c.fired t = true) :
    c'.fired t = true := by
  obtain ⟨-, cancelled, now, -⟩ := grows_foldlM taken
  rw [fired_iff] at fired ⊢
  refine fired.imp (cancelled ·) fun ⟨instant, deadline, passed⟩ => ⟨instant, deadline, ?_⟩
  omega

theorem after_append (reached : after start (steps ++ more) = some c') :
    ∃ c, after start steps = some c ∧ more.foldlM step c = some c' := by
  rw [after, List.foldlM_append] at reached
  exact Option.bind_eq_some_iff.1 reached

theorem now_after (reached : after start steps = some c) : c.now = start + waited steps :=
  (grows_foldlM reached).2.2.1

theorem length_after (reached : after start steps = some c) : c.tokens.length = made steps := by
  rw [(grows_foldlM reached).2.2.2]
  exact Nat.zero_add _

/-! ## Histories and tokens -/

/-- Every step of a history was taken from where the steps before it lead, and the tokens and the
cancellations that were there behind it are still there. -/
theorem step_of_history (reached : after start steps = some c) {before : List Step} {s : Step}
    (early : before ++ [s] <+: steps) :
    ∃ past next, after start before = some past ∧ past.step s = some next ∧
      next.tokens <+: c.tokens ∧ next.cancelled ⊆ c.cancelled := by
  obtain ⟨behind, rfl⟩ := early
  obtain ⟨next, taken, rest⟩ := after_append reached
  obtain ⟨past, before', last⟩ := after_append taken
  obtain ⟨tokens, cancelled, -⟩ := grows_foldlM rest
  refine ⟨past, next, before', ?_, tokens, cancelled⟩
  simpa using last

theorem token_of_create (reached : after start steps = some c) {before : List Step} {d : Deadline}
    (early : before ++ [.create d] <+: steps) :
    c.tokens[made before]? = some ⟨made before, d.instant? (start + waited before)⟩ := by
  obtain ⟨past, next, reached', taken, kept, -⟩ := step_of_history reached early
  have length := length_after reached'
  have now := now_after reached'
  obtain ⟨_, eq, rfl⟩ | ⟨_, _, eq, -⟩ | ⟨_, _, eq, -⟩ | ⟨_, eq, -⟩ := step_cases taken <;> cases eq
  apply getElem?_of_begins kept
  rw [← length, ← now, List.getElem?_concat_length]

theorem token_of_clone (reached : after start steps = some c) (cloned : Cloned steps i j) :
    ∃ t, c.tokens[i]? = some t ∧ c.tokens[j]? = some t := by
  obtain ⟨before, early, rfl⟩ := cloned
  obtain ⟨past, next, reached', taken, kept, -⟩ := step_of_history reached early
  have length := length_after reached'
  obtain ⟨_, eq, -⟩ | ⟨_, t, eq, found, rfl⟩ | ⟨_, _, eq, -⟩ | ⟨_, eq, -⟩ :=
    step_cases taken <;> cases eq
  refine ⟨t, getElem?_of_begins kept (getElem?_of_begins (List.prefix_append ..) found), ?_⟩
  apply getElem?_of_begins kept
  rw [← length, List.getElem?_concat_length]

theorem token_of_cancel (reached : after start steps = some c) {k : Nat} (mem : .cancel k ∈ steps) :
    ∃ t, c.tokens[k]? = some t ∧ t.family ∈ c.cancelled := by
  obtain ⟨before, behind, rfl⟩ := List.append_of_mem mem
  have early : before ++ [.cancel k] <+: before ++ .cancel k :: behind := ⟨behind, by simp⟩
  obtain ⟨past, next, -, taken, kept, cancelled⟩ := step_of_history reached early
  obtain ⟨_, eq, -⟩ | ⟨_, _, eq, -⟩ | ⟨_, t, eq, found, rfl⟩ | ⟨_, eq, -⟩ :=
    step_cases taken <;> cases eq
  exact ⟨t, getElem?_of_begins kept found, cancelled List.mem_cons_self⟩

/-- Every token goes back to one that was created, after which its family is named. -/
theorem origin_of_token (reached : after start steps = some c) (token : c.tokens[i]? = some t) :
    Connected steps t.family i ∧ ∃ before d, before ++ [.create d] <+: steps ∧
      made before = t.family := by
  -- Going forward in time: only the token that the last step makes is new.
  induction steps using List.reverseRecOn generalizing c i t with
  | nil =>
    cases reached
    simp [initial] at token
  | append_singleton steps s ih =>
    obtain ⟨past, reached', last⟩ := after_append reached
    have taken : past.step s = some c := by simpa using last
    have length := length_after reached'
    have old : ∀ {k u}, past.tokens[k]? = some u → Connected (steps ++ [s]) u.family k ∧
        ∃ before d, before ++ [.create d] <+: steps ++ [s] ∧ made before = u.family := by
      intro k u known
      obtain ⟨connected, before, d, early, eq⟩ := ih reached' known
      exact ⟨connected_mono connected, before, d, early.trans (List.prefix_append ..), eq⟩
    obtain ⟨d, rfl, rfl⟩ | ⟨k, u, rfl, found, rfl⟩ | ⟨k, u, rfl, -, rfl⟩ | ⟨time, rfl, rfl⟩ :=
      step_cases taken
    · rcases getElem?_concat_cases token with known | ⟨rfl, rfl⟩
      · exact old known
      · rw [length]
        exact ⟨.refl _, steps, d, List.prefix_refl _, rfl⟩
    · rcases getElem?_concat_cases token with known | ⟨rfl, rfl⟩
      · exact old known
      · obtain ⟨connected, origin⟩ := old found
        have copied : Cloned (steps ++ [.clone k]) k past.tokens.length :=
          ⟨steps, List.prefix_refl _, length⟩
        exact ⟨connected.trans _ _ _ (.rel _ _ copied), origin⟩
    · exact old token
    · exact old token

/-- Copies are alike in all. -/
theorem getElem?_of_connected (reached : after start steps = some c)
    (connected : Connected steps i j) : c.tokens[i]? = c.tokens[j]? := by
  induction connected with
  | rel i j cloned =>
    obtain ⟨t, source, copy⟩ := token_of_clone reached cloned
    rw [source, copy]
  | refl => rfl
  | symm _ _ _ ih => exact ih.symm
  | trans _ _ _ _ _ ih ih' => exact ih.trans ih'

/-- A chain of copies connects exactly the tokens of one family. -/
theorem connected_iff (reached : after start steps = some c) (token : c.tokens[i]? = some t)
    (token' : c.tokens[j]? = some u) : Connected steps i j ↔ t.family = u.family := by
  constructor
  · intro connected
    have same := getElem?_of_connected reached connected
    rw [token, token'] at same
    rw [Option.some.inj same]
  · intro eq
    obtain ⟨fromOrigin, -⟩ := origin_of_token reached token
    obtain ⟨toOther, -⟩ := origin_of_token reached token'
    rw [← eq] at toOther
    exact (fromOrigin.symm _ _).trans _ _ _ toOther

/-- The cancelled families are those of the tokens that some step cancels. -/
theorem mem_cancelled_iff (reached : after start steps = some c) (token : c.tokens[i]? = some t) :
    t.family ∈ c.cancelled ↔ ∃ k, Connected steps i k ∧ .cancel k ∈ steps := by
  constructor
  · intro mem
    by_contra none
    have untouched : t.family ∈ c.cancelled ↔ t.family ∈ (initial start).cancelled := by
      apply mem_cancelled_foldlM reached
      intro k u cancels token' eq
      exact none ⟨k, (connected_iff reached token token').2 eq.symm, cancels⟩
    simp [initial] at untouched
    exact untouched mem
  · rintro ⟨k, connected, cancels⟩
    obtain ⟨u, token', mem⟩ := token_of_cancel reached cancels
    rwa [(connected_iff reached token token').1 connected]

/-- The deadline of a token is that of the creation it goes back to. -/
theorem deadline_eq_some_iff (reached : after start steps = some c) (token : c.tokens[i]? = some t)
    (instant : Nat) :
    t.deadline = some instant ↔ ∃ before time, before ++ [.create (.after time)] <+: steps ∧
      Connected steps i (made before) ∧
      instant = start + waited before + time := by
  constructor
  · intro deadline
    obtain ⟨connected, before, d, early, eq⟩ := origin_of_token reached token
    have created := token_of_create reached early
    rw [eq, getElem?_of_connected reached connected, token, Option.some.injEq] at created
    rw [created] at deadline
    cases d with
    | never => cases deadline
    | after time =>
      cases deadline
      exact ⟨before, time, early, eq ▸ connected.symm _ _, rfl⟩
  · rintro ⟨before, time, early, connected, rfl⟩
    have created := token_of_create reached early
    rw [← getElem?_of_connected reached connected, token, Option.some.injEq] at created
    rw [created]
    rfl

/-- Cancellation tokens after any steps. The check of a token fails exactly if a token that a chain
of copies connects with it has been cancelled, or if the creation it goes back to gave it a time
that has elapsed. Further steps that cancel no token connected with it are to it the passing of
time, whatever they do to others. Once its check fails it fails for good. -/
theorem check_after (reached : after start steps = some c) (token : c.tokens[i]? = some t) :
    (c.check t = .error .canceled ↔
      (∃ k, Connected steps i k ∧ .cancel k ∈ steps) ∨
      ∃ before time, before ++ [.create (.after time)] <+: steps ∧
        Connected steps i (made before) ∧
        waited before + time ≤ waited steps) ∧
    ∀ more c', after start (steps ++ more) = some c' →
      c'.tokens[i]? = some t ∧
      ((∀ k, .cancel k ∈ more → ¬Connected (steps ++ more) i k) →
        c'.check t = (c.wait (waited more)).check t) ∧
      (c.check t = .error .canceled → c'.check t = .error .canceled) := by
  constructor
  · rw [check_eq_error_iff, fired_iff, mem_cancelled_iff reached token]
    refine or_congr_right ?_
    have now := now_after reached
    constructor
    · rintro ⟨instant, deadline, passed⟩
      obtain ⟨before, time, early, connected, rfl⟩ :=
        (deadline_eq_some_iff reached token _).1 deadline
      exact ⟨before, time, early, connected, by omega⟩
    · rintro ⟨before, time, early, connected, elapsed⟩
      exact ⟨_, (deadline_eq_some_iff reached token _).2 ⟨before, time, early, connected, rfl⟩,
        by omega⟩
  · intro more c' reached'
    obtain ⟨past, known, taken⟩ := after_append reached'
    cases reached.symm.trans known
    have token' : c'.tokens[i]? = some t := getElem?_of_begins (grows_foldlM taken).1 token
    refine ⟨token', ?_, ?_⟩
    · intro unconcerned
      apply check_congr
      apply fired_of_unconcerned taken
      intro k u cancels found eq
      exact unconcerned k cancels ((connected_iff reached' token' found).2 eq.symm)
    · rw [check_eq_error_iff, check_eq_error_iff]
      exact fired_foldlM taken

end Run

/-- Two families, of which the second one has a deadline after 20 milliseconds. A copy of a copy in
the first one is cancelled 5 milliseconds before that deadline. -/
def twoFamilies : List Step :=
  [.create .never, .clone 0, .create (.after 20000000), .clone 1, .clone 2,
    .wait 15000000, .cancel 3]

/-- Where they lead from the instant 5 on. -/
def twoFamiliesState : Cancellation :=
  ⟨15000005, [⟨0, none⟩, ⟨0, none⟩, ⟨2, some 20000005⟩, ⟨0, none⟩, ⟨2, some 20000005⟩], [0]⟩

theorem check_after_twoFamilies :
    after 5 twoFamilies = some twoFamiliesState ∧
    twoFamiliesState.check ⟨0, none⟩ = .error .canceled ∧
    ∃ c', after 5 (twoFamilies ++ [.cancel 0, .wait 5000000]) = some c' ∧
      c'.check ⟨2, some 20000005⟩ = (twoFamiliesState.wait 5000000).check ⟨2, some 20000005⟩ := by
  have reached : after 5 twoFamilies = some twoFamiliesState := by decide
  have reached' : after 5 (twoFamilies ++ [.cancel 0, .wait 5000000]) =
      some ⟨20000005, twoFamiliesState.tokens, [0, 0]⟩ := by decide
  have first := (check_after (i := 0) reached rfl).1
  have second := (check_after (i := 4) reached rfl).2 _ _ reached'
  have copied : Cloned twoFamilies 0 1 := ⟨[.create .never], by decide, by decide⟩
  have copiedAgain : Cloned twoFamilies 1 3 :=
    ⟨[.create .never, .clone 0, .create (.after 20000000)], by decide, by decide⟩
  refine ⟨reached, first.2 (.inl ⟨3, ?_, by decide⟩), _, reached', second.2.1 ?_⟩
  · exact (Relation.EqvGen.rel _ _ copied).trans _ _ _ (.rel _ _ copiedAgain)
  · intro k cancels connected
    have zero : k = 0 := by simpa using cancels
    subst zero
    have apart := connected_iff (i := 4) (j := 0) reached' rfl rfl
    exact absurd (apart.1 connected) (by decide)

end PackageCoupling.Cancellation
