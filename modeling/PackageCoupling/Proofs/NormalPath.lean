import PackageCoupling.Proofs.PathJoin

/-!
# Normal forms of paths

A join first puts the steps of both sides behind each other and then reduces them. Reducing a part
beforehand makes no difference, neither in front (`reduceSteps_append`) nor behind
(`reduceSteps_reduceSteps`), so relative paths can be joined in any grouping.

What a join gives is a *normal form*: segments that go up, then segments that go down
(`NormalSegments`), and `.` for none (`segmentsText`). Normal forms are what reduced steps are
written as (`normalSegments_of_reduced`, `NormalSegments.exists_steps`), so whatever is known of
such steps holds of them.
-/

namespace PackageCoupling.Path

/-! ## Joins in any grouping -/

/-- Steps that have been reduced on a stack of their own lead to the same place. -/
theorem reduceSteps_reduceSteps (stack inner l : List Step) :
    reduceSteps false stack (reduceSteps false inner l) =
      reduceSteps false stack (inner.reverse ++ l) := by
  fun_induction reduceSteps false inner l with
  | case1 inner => rw [List.append_nil]
  | case2 inner n rest ih => rw [ih, List.reverse_cons, List.append_assoc, List.singleton_append]
  | case3 n inner rest ih =>
    -- The step down on top of the inner stack and the step up cancel behind any other steps.
    rw [ih, List.reverse_cons, List.append_assoc, List.singleton_append, reduceSteps_append,
      reduceSteps_append _ _ inner.reverse, reduceSteps, reduceSteps]
  | case4 rest ih => exact ih
  | case5 inner rest ih =>
    rw [ih, List.reverse_cons, List.append_assoc, List.singleton_append]

theorem isRooted_join (base rel : String) : isRooted (join base rel) = false := by
  obtain ⟨l, proper, -, -, eq⟩ := join_steps base rel
  rw [eq, isRooted_stepsText proper]

section Relative

variable {a b c : String} (ha : isRooted a = false) (hb : isRooted b = false)

include ha hb

theorem join_eq_reduceSteps : join a b = stepsText (reduceSteps false [] (steps a ++ steps b)) := by
  rw [join_of_relative a hb, ha]

theorem steps_join : steps (join a b) = reduceSteps false [] (steps a ++ steps b) := by
  rw [join_eq_reduceSteps ha hb]
  apply steps_stepsText
  refine reduceSteps_proper false [] _ nofun fun st hst => ?_
  exact (List.mem_append.1 hst).elim (steps_proper a st) (steps_proper b st)

theorem join_join_left (hc : isRooted c = false) :
    join (join a b) c = stepsText (reduceSteps false [] (steps a ++ (steps b ++ steps c))) := by
  rw [join_eq_reduceSteps (isRooted_join a b) hc, steps_join ha hb, reduceSteps_append,
    reduceSteps_reduceSteps, List.reverse_nil, List.nil_append, ← reduceSteps_append,
      List.append_assoc]

theorem join_join_right (hc : isRooted c = false) :
    join c (join a b) = stepsText (reduceSteps false [] (steps c ++ (steps a ++ steps b))) := by
  rw [join_eq_reduceSteps hc (isRooted_join a b), steps_join ha hb, reduceSteps_append,
    reduceSteps_reduceSteps, List.reverse_nil, List.nil_append, ← reduceSteps_append]

end Relative

/-- On either side, a text without steps only has the other one reduced. -/
theorem join_noSteps {e a : String} (he : isRooted e = false) (none : steps e = [])
    (ha : isRooted a = false) :
    join e a = stepsText (reduceSteps false [] (steps a)) ∧
      join a e = stepsText (reduceSteps false [] (steps a)) := by
  constructor
  · rw [join_eq_reduceSteps he ha, none, List.nil_append]
  · rw [join_eq_reduceSteps ha he, none, List.append_nil]

/-- Relative paths are joined in any grouping, and `.` is the unit: to join a path with it, or with
the empty text, from either side only brings the path into normal form, and changes nothing of what
a join has given. -/
theorem join_assoc_unit (a b c : String) (ha : isRooted a = false) (hb : isRooted b = false)
    (hc : isRooted c = false) :
    join (join a b) c = join a (join b c) ∧
    (join "." a = join a "." ∧ join a "." = join a "" ∧ join a "" = join "" a) ∧
    join "." (join a b) = join a b ∧ join (join a b) "." = join a b := by
  obtain ⟨dot, dot'⟩ := join_noSteps (e := ".") (by decide) (by decide) ha
  obtain ⟨empty, empty'⟩ := join_noSteps (e := "") (by decide) (by decide) ha
  obtain ⟨joined, joined'⟩ := join_noSteps (e := ".") (by decide) (by decide) (isRooted_join a b)
  have again : stepsText (reduceSteps false [] (steps (join a b))) = join a b := by
    rw [steps_join ha hb, reduceSteps_reduceSteps, join_eq_reduceSteps ha hb]
    rfl
  refine ⟨?_, ⟨dot.trans dot'.symm, dot'.trans empty'.symm, empty'.trans empty.symm⟩,
    joined.trans again, joined'.trans again⟩
  rw [join_join_left ha hb hc, join_join_right hb hc ha]

/-- Steps up that cross both boundaries between three paths. The first two of them cancel. -/
theorem join_assoc_unit_crossing :
    let a := "x//y/./.."
    let b := "./../z/../x/.."
    let c := "../../w/"
    isRooted a = false ∧ isRooted b = false ∧ isRooted c = false ∧
    join (join a b) c = join a (join b c) ∧ join a (join b c) = "../../w" ∧ join "" a = "x" ∧
    join "." a = join a "." := by
  intro a b c
  have ha : isRooted a = false := by decide
  have hb : isRooted b = false := by decide
  have hc : isRooted c = false := by decide
  obtain ⟨assoc, ⟨unit, -⟩, -⟩ := join_assoc_unit a b c ha hb hc
  exact ⟨ha, hb, hc, assoc, by decide +kernel, by decide +kernel, unit⟩

/-! ## What is written for reduced steps -/

/-- Segments with slashes between them; `.` for none. -/
def segmentsText : List String → String
  | [] => "."
  | segs => "/".intercalate segs

/-- Whether segments first go up and then only down. -/
def NormalSegments (segs : List String) : Prop :=
  ∃ ups names, segs = List.replicate ups ".." ++ names ∧ ∀ name ∈ names, IsName name

theorem stepsText_eq_segmentsText (l : List Step) :
    stepsText l = segmentsText (l.map Step.text) := by
  cases l <;> rfl

theorem normalSegments_of_reduced {l : List Step} (proper : ∀ st ∈ l, st.Proper)
    (reduced : Reduced l) : NormalSegments (l.map Step.text) := by
  induction l with
  | nil => exact ⟨0, [], rfl, List.forall_mem_nil _⟩
  | cons st rest ih =>
    rw [List.forall_mem_cons] at proper
    rw [Reduced, List.pairwise_cons] at reduced
    cases st with
    | up =>
      obtain ⟨ups, names, eq, isName⟩ := ih proper.2 reduced.2
      exact ⟨ups + 1, names, by rw [List.map_cons, eq]; rfl, isName⟩
    | down name =>
      have plain : .up ∉ rest := by
        intro mem
        cases reduced.1 .up mem rfl
      obtain ⟨names, rfl⟩ := exists_names plain
      refine ⟨0, name :: names, by rw [List.map_cons, map_text_map_down]; rfl, ?_⟩
      refine List.forall_mem_cons.2 ⟨proper.1, fun n mem => ?_⟩
      exact proper.2 (.down n) (List.mem_map_of_mem mem)

theorem NormalSegments.exists_steps {segs : List String} (h : NormalSegments segs) :
    ∃ l : List Step, (∀ st ∈ l, st.Proper) ∧ Reduced l ∧ segs = l.map Step.text := by
  obtain ⟨ups, names, rfl, isName⟩ := h
  refine ⟨List.replicate ups .up ++ names.map .down, ?_, ?_, ?_⟩
  · intro st mem
    rcases List.mem_append.1 mem with up | down
    · rw [List.eq_of_mem_replicate up]
      trivial
    · exact proper_map_down isName st down
  · have down : (names.map Step.down).Pairwise fun a b => b = .up → a = .up := by
      rw [List.pairwise_map]
      apply List.pairwise_of_forall
      intro _ _ up
      cases up
    rw [Reduced, List.pairwise_append]
    exact ⟨List.pairwise_replicate.2 (.inr id), down,
      fun st up _ _ _ => List.eq_of_mem_replicate up⟩
  · rw [List.map_append, List.map_replicate, map_text_map_down]
    rfl

theorem up_notMem_map_text {l : List Step} (proper : ∀ st ∈ l, st.Proper) (plain : .up ∉ l) :
    ".." ∉ l.map Step.text := by
  intro mem
  obtain ⟨st, hst, text⟩ := List.mem_map.1 mem
  cases st with
  | up => exact plain hst
  | down name => exact (proper _ hst).2.2.1 text

/-- Every join is in normal form, without a step up if one of its sides is absolute. A normal form
stays as it is, whether it is written in slash form or joined with `.`, and its parent and base name
are its segments but the last one and that one. -/
theorem join_normal_form (base rel : String) :
    (∃ segs, NormalSegments segs ∧ join base rel = segmentsText segs ∧
      (isRooted base = true ∨ isRooted rel = true → ".." ∉ segs)) ∧
    ∀ segs, NormalSegments segs →
      let n := segmentsText segs
      slash n = n ∧ join "." n = n ∧ join n "." = n ∧
      ∀ front last, segs = front ++ [last] → parent n = segmentsText front ∧ baseName n = last := by
  refine ⟨?_, ?_⟩
  · obtain ⟨l, proper, reduced, plain, eq⟩ := join_steps base rel
    refine ⟨l.map Step.text, normalSegments_of_reduced proper reduced, ?_, ?_⟩
    · rw [eq, stepsText_eq_segmentsText]
    · exact fun absolute => up_notMem_map_text proper (plain absolute)
  · intro segs normal n
    obtain ⟨l, proper, reduced, rfl⟩ := normal.exists_steps
    have written : n = stepsText l := (stepsText_eq_segmentsText l).symm
    have fixed : reduceSteps false [] l = l := reduceSteps_of_reduced [] reduced
    have relative : isRooted n = false := written ▸ isRooted_stepsText proper
    have same : steps n = l := by rw [written, steps_stepsText proper]
    obtain ⟨left, right⟩ := join_noSteps (e := ".") (by decide) (by decide) relative
    rw [same, fixed, ← written] at left right
    refine ⟨?_, left, right, ?_⟩
    · rw [slash, same, written]
    · intro front last eq
      have init : l.dropLast.map Step.text = front := by
        rw [List.map_dropLast, eq, List.dropLast_concat]
      have final : l.getLast?.map Step.text = some last := by
        rw [← List.getLast?_map, eq, List.getLast?_concat]
      rw [written, parent_stepsText proper, baseName_stepsText proper, stepsText_eq_segmentsText,
        init, final]
      exact ⟨rfl, rfl⟩

/-- An absolute path that goes up beyond the root, and a normal form that starts with steps up. -/
theorem join_normal_form_mixed :
    let segs := ["..", "..", "x", ".y"]
    isRooted "/a/../../b" = true ∧ NormalSegments segs ∧ segmentsText segs = "../../x/.y" ∧
    (∃ segs, NormalSegments segs ∧ join "/a/../../b" "c//./../../../d" = segmentsText segs ∧
      ".." ∉ segs) ∧
    slash (segmentsText segs) = segmentsText segs ∧ join "." (segmentsText segs) =
      segmentsText segs ∧
    join (segmentsText segs) "." = segmentsText segs ∧
    parent (segmentsText segs) = "../../x" ∧ baseName (segmentsText segs) = ".y" := by
  intro segs
  have absolute : isRooted "/a/../../b" = true := by decide
  have normal : NormalSegments segs := ⟨2, ["x", ".y"], rfl, by decide⟩
  obtain ⟨⟨joined, isNormal, eq, plain⟩, fixed⟩ := join_normal_form "/a/../../b" "c//./../../../d"
  obtain ⟨slashed, left, right, split⟩ := fixed segs normal
  obtain ⟨outer, name⟩ := split ["..", "..", "x"] ".y" rfl
  exact ⟨absolute, normal, by decide, ⟨joined, isNormal, eq, plain (.inl absolute)⟩, slashed,
    left, right, outer.trans (by decide), name⟩

end PackageCoupling.Path
