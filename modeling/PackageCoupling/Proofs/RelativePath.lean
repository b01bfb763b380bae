import PackageCoupling.Path.Relative
import PackageCoupling.Proofs.PathJoin

/-!
# Paths seen from a directory

Two ways from the root share their first steps and then part (`exists_parting`). Going from the end
of the one to the end of the other undoes what the first has beyond that and takes what the second
has:

* `reduceSteps_between`: these steps lead there, whatever the second way does;
* `stepsBetween_sublist`: whoever goes there takes them, so no way is shorter.

A relativized path is written from these steps.
-/

namespace PackageCoupling.Path

/-! ## Where two ways part -/

/-- Whether two ways do not begin with the same step. -/
def Apart (l l' : List Step) : Prop := ∀ st ∈ l.head?, st ∉ l'.head?

theorem exists_parting (base target : List Step) :
    ∃ shared beyond rest, base = shared ++ beyond ∧ target = shared ++ rest ∧
      Apart beyond rest := by
  induction base generalizing target with
  | nil => exact ⟨[], [], target, rfl, rfl, nofun⟩
  | cons b base ih =>
    by_cases same : target.head? = some b
    · obtain ⟨target, rfl⟩ := List.head?_eq_some_iff.1 same
      obtain ⟨shared, beyond, rest, rfl, rfl, apart⟩ := ih target
      exact ⟨b :: shared, beyond, rest, rfl, rfl, apart⟩
    · refine ⟨[], b :: base, target, rfl, rfl, ?_⟩
      rintro st ⟨⟩ mem
      exact same mem

theorem stepsBetween_append (shared base target : List Step) :
    stepsBetween (shared ++ base) (shared ++ target) = stepsBetween base target := by
  induction shared with
  | nil => rfl
  | cons st shared ih =>
    rw [← ih]
    simp [stepsBetween, commonLength]

theorem stepsBetween_of_apart {base target : List Step} (apart : Apart base target) :
    stepsBetween base target = List.replicate base.length .up ++ target := by
  have nothing : commonLength target base = 0 := by
    cases target with
    | nil => rfl
    | cons t target =>
      cases base with
      | nil => rfl
      | cons b base =>
        have ne : t ≠ b := by
          rintro rfl
          exact apart t rfl rfl
        simp [commonLength, ne]
  simp [stepsBetween, nothing]

theorem stepsBetween_eq_nil_iff (base target : List Step) :
    stepsBetween base target = [] ↔ base = target := by
  obtain ⟨shared, beyond, rest, rfl, rfl, apart⟩ := exists_parting base target
  rw [stepsBetween_append, stepsBetween_of_apart apart, List.append_cancel_left_eq,
    List.append_eq_nil_iff, List.replicate_eq_nil_iff, List.length_eq_zero_iff]
  constructor
  · rintro ⟨rfl, rfl⟩
    rfl
  · rintro rfl
    cases beyond with
    | nil => exact ⟨rfl, rfl⟩
    | cons b beyond => exact absurd rfl (apart b rfl)

theorem stepsBetween_proper (base : List Step) {target : List Step}
    (proper : ∀ st ∈ target, st.Proper) : ∀ st ∈ stepsBetween base target, st.Proper := by
  intro st mem
  rcases List.mem_append.1 mem with up | rest
  · rw [List.eq_of_mem_replicate up]
    trivial
  · exact proper st (List.mem_of_mem_drop rest)

/-! ## The way from one place to another -/

theorem reduceSteps_down_up (rooted : Bool) (stack : List Step) (names : List String)
    (l : List Step) :
    reduceSteps rooted stack (names.map .down ++ (List.replicate names.length .up ++ l)) =
      reduceSteps rooted stack l := by
  induction names generalizing stack l with
  | nil => rfl
  | cons n names ih =>
    rw [List.map_cons, List.cons_append, List.length_cons, List.replicate_succ', List.append_assoc,
      reduceSteps, ih, List.singleton_append, reduceSteps]

/-- The steps between two places lead from the first to the second. The first is to be reached
without going up, as a step up cannot be undone by another one. -/
theorem reduceSteps_between (rooted : Bool) {base : List Step} (plain : .up ∉ base)
    (target : List Step) :
    reduceSteps rooted [] (base ++ stepsBetween base target) = reduceSteps rooted [] target := by
  obtain ⟨shared, beyond, rest, rfl, rfl, apart⟩ := exists_parting base target
  obtain ⟨names, rfl⟩ := exists_names fun up => plain (List.mem_append_right shared up)
  rw [stepsBetween_append, stepsBetween_of_apart apart, List.append_assoc, reduceSteps_append,
    List.length_map, reduceSteps_down_up, ← reduceSteps_append]

/-- From one step further on, the way has one more step up, unless that step was part of it. -/
theorem stepsBetween_concat (base target : List Step) (st : Step) :
    stepsBetween (base ++ [st]) target = .up :: stepsBetween base target ∨
      stepsBetween base target = st :: stepsBetween (base ++ [st]) target := by
  obtain ⟨shared, beyond, rest, rfl, rfl, apart⟩ := exists_parting base target
  rw [List.append_assoc, stepsBetween_append, stepsBetween_append, stepsBetween_of_apart apart]
  by_cases towards : beyond = [] ∧ rest.head? = some st
  · obtain ⟨rfl, next⟩ := towards
    obtain ⟨rest, rfl⟩ := List.head?_eq_some_iff.1 next
    have remaining : stepsBetween [st] (st :: rest) = rest :=
      (stepsBetween_append [st] [] rest).trans (stepsBetween_of_apart nofun)
    right
    rw [List.nil_append, remaining]
    rfl
  · have apart' : Apart (beyond ++ [st]) rest := by
      cases beyond with
      | nil =>
        rintro st' ⟨⟩ mem
        exact towards ⟨rfl, mem⟩
      | cons b beyond => exact apart
    left
    rw [stepsBetween_of_apart apart', List.length_append, List.length_singleton,
      List.replicate_succ, List.cons_append]

section Sublist

variable {base target l : List Step} {st : Step}

theorem stepsBetween_sublist_cons (sub : (stepsBetween (base ++ [st]) target).Sublist l) :
    (stepsBetween base target).Sublist (st :: l) := by
  rcases stepsBetween_concat base target st with eq | eq
  · rw [eq] at sub
    exact ((List.sublist_cons_self _ _).trans sub).cons _
  · rw [eq]
    exact sub.cons_cons st

theorem stepsBetween_concat_sublist (sub : (stepsBetween base target).Sublist l) :
    (stepsBetween (base ++ [st]) target).Sublist (.up :: l) := by
  rcases stepsBetween_concat base target st with eq | eq
  · rw [eq]
    exact sub.cons_cons .up
  · rw [eq] at sub
    exact ((List.sublist_cons_self _ _).trans sub).cons _

end Sublist

/-- Whatever steps lead from one place to another, the steps between the two are among them. -/
theorem stepsBetween_sublist (rooted : Bool) (stack l : List Step) :
    (stepsBetween stack.reverse (reduceSteps rooted stack l)).Sublist l := by
  -- The stack is where the steps so far have led, and the induction is on those that remain.
  fun_induction reduceSteps rooted stack l with
  | case1 stack => rw [(stepsBetween_eq_nil_iff _ _).2 rfl]
  | case2 stack n rest ih =>
    rw [List.reverse_cons] at ih
    exact stepsBetween_sublist_cons ih
  | case3 n stack rest ih =>
    rw [List.reverse_cons]
    exact stepsBetween_concat_sublist ih
  | case4 rest ih =>
    cases rooted with
    | true => exact ih.cons _
    | false => exact stepsBetween_sublist_cons ih
  | case5 stack rest ih =>
    rw [List.reverse_cons] at ih
    exact stepsBetween_sublist_cons ih

/-! ## Relativized paths -/

section Relativize

variable {root : String} (absolute : isRooted root = true) (path cwd : String)

include absolute

theorem relativize_eq :
    relativize root path cwd = stepsText (stepsBetween (steps cwd) (steps (append root path))) :=
  if_pos (isRooted_append_of_isRooted absolute path)

theorem join_eq_target :
    join root path = stepsText (reduceSteps true [] (steps (append root path))) := by
  rw [join, ← Location.ofText_append (ne_empty_of_isRooted absolute), Location.reduce,
    Location.ofText, isRooted_append_of_isRooted absolute]

theorem relativize_eq_dot_iff :
    relativize root path cwd = "." ↔ steps cwd = steps (append root path) := by
  have proper := stepsBetween_proper (steps cwd) (steps_proper (append root path))
  rw [relativize_eq absolute, ← stepsBetween_eq_nil_iff]
  constructor
  · intro dot
    exact stepsText_injective proper nofun dot
  · intro nil
    rw [nil]
    rfl

end Relativize

theorem mem_append {root path : String} {c : Char} (h : c ∈ (append root path).toList) :
    c ∈ root.toList ∨ c = '/' ∨ c ∈ path.toList := by
  rw [append, String.toList_ofList, appendList] at h
  split at h
  · exact .inr (.inr h)
  · split at h
    · exact (List.mem_append.1 h).imp id .inr
    · rw [List.mem_append, List.mem_cons] at h
      exact h

/-- A relativized path is made up of the characters of the root and of the path, slashes and dots.
The directory from which it is seen leaves no character in it. -/
theorem mem_relativize {root path cwd : String} {c : Char}
    (h : c ∈ (relativize root path cwd).toList) :
    c = '.' ∨ c = '/' ∨ c ∈ root.toList ∨ c ∈ path.toList := by
  unfold relativize at h
  dsimp only at h
  split at h
  · rcases mem_stepsText h with dot | slash | ⟨st, hst, mem⟩
    · exact .inl dot
    · exact .inr (.inl slash)
    · rcases List.mem_append.1 hst with up | rest
      · rw [List.eq_of_mem_replicate up] at mem
        exact .inl (List.eq_of_mem_replicate (n := 2) mem)
      · have within := mem_of_mem_steps (List.mem_of_mem_drop rest) mem
        rcases mem_append within with inRoot | slash | inPath
        · exact .inr (.inr (.inl inRoot))
        · exact .inr (.inl slash)
        · exact .inr (.inr (.inr inPath))
  · exact .inr (.inr (.inr h))

/-- A path below an absolute root, seen from an absolute directory that is written without going up,
names the same place. If the path never goes up, it is seen the shortest way: up as often as the
directory has steps that the path does not share, then down what remains of the path, and `.` if
both are the same place. Any other relative path that leads there takes these steps too. -/
theorem relativize_same_place (root path cwd : String) (absolute : isRooted root = true)
    (absolute' : isRooted cwd = true) (plain : .up ∉ steps cwd) :
    let target := append root path
    let seen := relativize root path cwd
    join cwd seen = join root path ∧
    (.up ∉ steps target →
      (∃ shared beyond rest, steps cwd = shared ++ beyond ∧ steps target = shared ++ rest ∧
        Apart beyond rest ∧ seen = stepsText (List.replicate beyond.length .up ++ rest)) ∧
      (seen = "." ↔ Location.ofText cwd = Location.ofText target) ∧
      ∀ other, isRooted other = false → join cwd other = join root path →
        (steps seen).Sublist (steps other)) := by
  intro target seen
  have written : seen = stepsText (stepsBetween (steps cwd) (steps target)) :=
    relativize_eq absolute path cwd
  have proper := stepsBetween_proper (steps cwd) (steps_proper target)
  refine ⟨?_, fun down => ⟨?_, ?_, ?_⟩⟩
  · rw [written, join_of_relative cwd (isRooted_stepsText proper), absolute',
      steps_stepsText proper, reduceSteps_between true plain, join_eq_target absolute]
  · obtain ⟨shared, beyond, rest, here, there, apart⟩ := exists_parting (steps cwd) (steps target)
    refine ⟨shared, beyond, rest, here, there, apart, ?_⟩
    rw [written, here, there, stepsBetween_append, stepsBetween_of_apart apart]
  · rw [relativize_eq_dot_iff absolute, Location.ofText, Location.ofText,
      Location.mk.injEq, absolute', isRooted_append_of_isRooted absolute]
    exact (and_iff_right rfl).symm
  · intro other relative same
    have arrives : reduceSteps true (steps cwd).reverse (steps other) = steps target := by
      rw [join_of_relative cwd relative, join_eq_target absolute, absolute', reduceSteps_append,
        reduceSteps_of_plain true [] plain, reduceSteps_of_plain true [] down, List.reverse_nil,
        List.nil_append, List.nil_append] at same
      have back : ∀ st ∈ (steps cwd).reverse, st.Proper :=
        fun st mem => steps_proper cwd st (List.mem_reverse.1 mem)
      exact stepsText_injective (reduceSteps_proper true _ _ back (steps_proper other))
        (steps_proper target) same
    have sub := stepsBetween_sublist true (steps cwd).reverse (steps other)
    rw [arrives, List.reverse_reverse] at sub
    rwa [written, steps_stepsText proper]

/-- A file seen from a directory beside its own. -/
theorem relativize_beside :
    let seen := relativize "/srv/app/" "src//main.go" "/srv/./app/docs/api"
    isRooted "/srv/app/" = true ∧ isRooted "/srv/./app/docs/api" = true ∧
    .up ∉ steps "/srv/./app/docs/api" ∧ .up ∉ steps (append "/srv/app/" "src//main.go") ∧
    seen = "../../src/main.go" ∧ join "/srv/./app/docs/api" seen = join "/srv/app/" "src//main.go" ∧
    isRooted "../../docs/../src/main.go" = false ∧
    join "/srv/./app/docs/api" "../../docs/../src/main.go" = join "/srv/app/" "src//main.go" ∧
    (steps seen).Sublist (steps "../../docs/../src/main.go") := by
  intro seen
  have plain : .up ∉ steps "/srv/./app/docs/api" := by decide +kernel
  have down : .up ∉ steps (append "/srv/app/" "src//main.go") := by decide +kernel
  have detour : join "/srv/./app/docs/api" "../../docs/../src/main.go" =
      join "/srv/app/" "src//main.go" := by decide +kernel
  obtain ⟨same, shortest⟩ := relativize_same_place "/srv/app/" "src//main.go" "/srv/./app/docs/api"
    (by decide) (by decide) plain
  exact ⟨by decide, by decide, plain, down, by decide +kernel, same, by decide, detour,
    (shortest down).2.2 _ (by decide) detour⟩

end PackageCoupling.Path
