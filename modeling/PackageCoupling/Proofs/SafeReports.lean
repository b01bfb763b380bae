import PackageCoupling.Checked.Report

/-!
# Reports that do not break off

Lists are read at indices below their lengths, and paths are cut where they part from the current
directory, so every report can be written, with one exception: a table breaks off where the name of
a package is too long for a column (`metricsTable_of_wide`).
-/

namespace PackageCoupling

theorem Path.commonLength_le (target base : List Step) :
    commonLength target base ≤ target.length := by
  induction target generalizing base with
  | nil => exact Nat.le_refl _
  | cons a as ih =>
    cases base with
    | nil => exact Nat.zero_le _
    | cons b bs =>
      rw [commonLength]
      split
      · exact Nat.succ_le_succ (ih bs)
      · exact Nat.zero_le _

namespace Checked

open Text

theorem relativize_ok (root path cwd : String) :
    relativize root path cwd = .ok (Path.relativize root path cwd) := by
  unfold relativize Path.relativize
  dsimp only
  split
  · rw [drop_ok (Path.commonLength_le ..)]
    rfl
  · rfl

/-! ## Branches -/

/-- The last item is the one whose index is one less than the length. -/
theorem flatten_branches {α : Type} (item : α → Styled) (l : List α) (first : Nat) :
    ((l.zipIdx first).map fun e => Report.branch (e.2 == first + l.length - 1) (item e.1)).flatten =
      Report.branches item l := by
  induction l generalizing first with
  | nil => rfl
  | cons a rest ih =>
    cases rest with
    | nil => simp [Report.branches]
    | cons b rest =>
      have later := ih (first + 1)
      have length : first + 1 + (b :: rest).length = first + (a :: b :: rest).length := by
        simp only [List.length_cons]
        omega
      have inner : (first == first + (a :: b :: rest).length - 1) = false := by
        simp only [List.length_cons, beq_eq_false_iff_ne]
        omega
      rw [length] at later
      rw [List.zipIdx_cons, List.map_cons, List.flatten_cons, later]
      dsimp only
      rw [inner]
      rfl

theorem branches_ok {α : Type} (item : α → Styled) (l : List α) :
    branches item l = .ok (Report.branches item l) := by
  have each : ∀ e ∈ l.zipIdx, (do
      .ok (Report.branch (e.2 == (← sub l.length 1)) (item e.1)) : Checked Styled) =
      .ok (Report.branch (e.2 == l.length - 1) (item e.1)) := by
    intro e mem
    have below := List.snd_lt_of_mem_zipIdx mem
    rw [sub_ok (by omega)]
    rfl
  have joined := flatten_branches item l 0
  rw [Nat.zero_add] at joined
  rw [branches, mapM_ok each, ok_bind, ← joined]

/-! ## The tree -/

theorem diagnostics_ok (root cwd : String) (ds : List Diagnostic) :
    diagnostics root cwd ds = .ok (Report.diagnostics root cwd ds) := by
  have each : ∀ d ∈ ds, (do
      .ok (Report.diagnosticLine (← relativize root d.path cwd) d) : Checked Styled) =
      .ok (Report.diagnosticLine (Path.relativize root d.path cwd) d) := by
    intro d _
    rw [relativize_ok]
    rfl
  unfold diagnostics Report.diagnostics
  split
  · rfl
  · rw [mapM_ok each, ok_bind, List.flatMap_def]

theorem packageTree_ok (g : ImportGraph) (entry : String × Stats) :
    packageTree g entry = .ok (Report.packageTree g entry.1 entry.2) := by
  rw [packageTree, branches_ok]
  rfl

theorem graphReport_ok (a : Analysis) (root cwd : String) :
    graphReport a root cwd = .ok (Report.graph a root cwd) := by
  rw [graphReport, mapM_ok fun e _ => packageTree_ok a.graph e, ok_bind, diagnostics_ok, ok_bind,
    Report.graph, List.flatMap_def]

/-! ## The table -/

theorem nameWidth_le_iff (figures : List Figures) (n : Nat) :
    Report.nameWidth figures ≤ n ↔ 7 ≤ n ∧ ∀ f ∈ figures, f.package.utf8ByteSize ≤ n := by
  have folded : ∀ (fs : List Figures) (w : Nat),
      fs.foldl (fun w f => max w f.package.utf8ByteSize) w ≤ n ↔
        w ≤ n ∧ ∀ f ∈ fs, f.package.utf8ByteSize ≤ n := by
    intro fs
    induction fs with
    | nil => simp
    | cons f rest ih =>
      intro w
      rw [List.foldl_cons, ih, Nat.max_le, List.forall_mem_cons, and_assoc]
  exact folded figures 7

theorem metricsTable_of_narrow {figures : List Figures}
    (narrow : ∀ f ∈ figures, f.package.utf8ByteSize ≤ widthLimit) :
    metricsTable figures = .ok (Report.metricsTable figures) := by
  have width : Report.nameWidth figures ≤ widthLimit :=
    (nameWidth_le_iff ..).2 ⟨by decide, narrow⟩
  have ruled : Report.nameWidth figures + Report.otherColumns < countLimit :=
    Nat.lt_of_le_of_lt (Nat.add_le_add_right width _) (by decide)
  unfold metricsTable Report.metricsTable
  split
  · rfl
  · rw [columnWidth, if_pos width, ok_bind, add_ok ruled, ok_bind]

theorem metricsTable_of_wide {figures : List Figures} {f : Figures} (mem : f ∈ figures)
    (wide : widthLimit < f.package.utf8ByteSize) : metricsTable figures = .error .width := by
  have width : ¬Report.nameWidth figures ≤ widthLimit := by
    intro narrow
    have := ((nameWidth_le_iff ..).1 narrow).2 f mem
    omega
  have some_package : figures.isEmpty = false := by
    cases figures with
    | nil => cases mem
    | cons _ _ => rfl
  rw [metricsTable, some_package, columnWidth, if_neg width]
  rfl

theorem violations_ok (vs : List Violation) : violations vs = .ok (Report.violations vs) := by
  cases vs with
  | nil => rfl
  | cons v rest =>
    unfold violations
    rw [branches_ok]
    rfl

end Checked

end PackageCoupling
