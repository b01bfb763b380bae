import PackageCoupling.Command.Run
import PackageCoupling.Proofs.SafeExtraction
import PackageCoupling.Proofs.SafeReports
import PackageCoupling.Proofs.SourceSize

/-!
# Commands end with a report or an error

A command that is accepted breaks off in two cases only: its timeout leads beyond all points in
time, or it is to print a table in which the name of a package is too long for a column. Everything
else that it does with texts, indices and counts succeeds: slices are cut at quotes and slashes,
indices come from lengths, and the files of a tree cannot hold more imports than bytes.
-/

namespace PackageCoupling

/-! ## Analyses -/

theorem exists_of_map_eq_ok {ε α β : Type} {f : α → β} {x : Except ε α} {b : β}
    (h : x.map f = .ok b) : ∃ a, x = .ok a ∧ f a = b := by
  cases x with
  | error e => cases h
  | ok a => exact ⟨a, rfl, Except.ok.inj h⟩

/-- A graph counts no more imports than the listed files hold bytes. -/
theorem Analysis.importCount_of_run {tree : Node} {root : RawText} {o : AnalyzeOptions}
    {cancelled : Bool}
    {registry : Registry} {a : Analysis} (h : (run tree root o cancelled registry).1 = .ok a) :
    a.graph.importCount ≤ listedBytes tree root o := by
  unfold run at h
  unfold listedBytes
  cases listed : listFiles tree root (listOptions o) with
  | error fault =>
    rw [listed] at h
    cases h
  | ok files =>
    rw [listed] at h
    dsimp only at h ⊢
    split at h
    · cases h
    · unfold ofFiles at h
      obtain ⟨⟨contributions, failures⟩, extracted, rfl⟩ := exists_of_map_eq_ok h
      rw [ImportGraph.importCount_ofFiles]
      exact Nat.le_trans (occurrences_extractAll_le extracted) (sum_work_le ..)

namespace Checked

open Analysis

theorem modules_ok (tree : Node) (root : RawText) (files : List RawText)
    (kinds : List DescriptorKind) :
    (kinds.mapM fun kind => do .ok (kind, ← resolve tree root kind (ofKind files kind)) :
      Checked (List (DescriptorKind × ModuleMap × List Diagnostic))) =
      .ok (kinds.map fun kind => (kind, modulesOf tree root files kind)) := by
  apply mapM_ok
  intro kind _
  rw [resolve_ok]
  rfl

theorem ofFiles_ok {tree : Node} {root : RawText} (o : AnalyzeOptions) (cancelled : Bool)
    (registry : Registry) {files : List RawText}
    (small : (files.map (bytesAt tree root)).sum < countLimit) :
    ofFiles tree root o cancelled registry files =
      .ok (Analysis.ofFiles tree root o cancelled registry files) := by
  unfold ofFiles Analysis.ofFiles
  rw [modules_ok, ok_bind]
  dsimp only
  rw [extractAll_ok, ok_bind]
  split
  · rename_i fault after extracted
    rw [extracted]
    rfl
  · rename_i contributions failures after extracted
    have few := Nat.le_trans (occurrences_extractAll_le (by rw [extracted])) (sum_work_le ..)
    rw [extracted, graphOf_ok (Nat.lt_of_le_of_lt few small)]
    rfl

/-- An analysis does not break off. -/
theorem run_ok {tree : Node} {root : RawText} {o : AnalyzeOptions} (cancelled : Bool)
    (registry : Registry) (small : listedBytes tree root o < countLimit) :
    run tree root o cancelled registry = .ok (Analysis.run tree root o cancelled registry) := by
  unfold listedBytes at small
  unfold run Analysis.run
  cases listed : listFiles tree root (listOptions o) with
  | error fault => rfl
  | ok files =>
    rw [listed] at small
    dsimp only
    rw [ofFiles_ok o cancelled registry small]
    split <;> rfl

end Checked

namespace Command

open Text

/-! ## What a command ends with -/

/-- The analysis of `root` that a configuration asks for. -/
def analysisAt (env : Environment) (c : Config) (root : RawText) : Except Fault Analysis :=
  (Analysis.run env.tree root c.analyzeOptions
    ((c.deadline.instant? env.now).any (· ≤ env.now)) .empty).1

def graphOutcome (env : Environment) (c : Config) (root : RawText) (a : Analysis) : Outcome :=
  ⟨0, fun elapsed =>
    match c.format with
    | .json => Report.graphDocument a
    | .text => render env.colours (Report.graph a root.text env.cwd ++
        finished env c a.filesAnalyzed elapsed), ""⟩

def metricsOutcome (env : Environment) (c : Config) (root : RawText) (a : Analysis) : Outcome :=
  let figures := a.graph.metrics.map Metrics.figures
  let above := (c.maxInstability.map (violations figures)).getD []
  let left := if a.diagnostics.isEmpty then [] else
    Report.line [] ++ Report.diagnostics root.text env.cwd a.diagnostics
  ⟨if above.isEmpty then 0 else 1, fun elapsed =>
    match c.format with
    | .json => Report.metricsDocument figures
    | .text => render env.colours (Report.metricsTable figures ++ Report.violations above ++ left ++
        finished env c a.filesAnalyzed elapsed), ""⟩

/-- What a command ends with if nothing breaks it off. -/
def outcome (env : Environment) (task : Task) (c : Config) : Outcome :=
  match resolveRoot env.tree env.cwd c.root with
  | .error e => .failed e
  | .ok root =>
    match analysisAt env c root, task with
    | .error f, _ => .failed (.fault f)
    | .ok a, .graph => graphOutcome env c root a
    | .ok a, .metrics => metricsOutcome env c root a

/-- Whether an outcome shows something: a report, or an error. -/
def Outcome.Reports (o : Outcome) : Prop := o.error ≠ "" ∨ ∀ elapsed, o.output elapsed ≠ ""

theorem reports_failed (e : RunError) : (Outcome.failed e).Reports := by
  refine .inl fun empty => ?_
  have length := congrArg String.length empty
  simp [Outcome.failed] at length

theorem append_newline_ne_empty (s : String) : s ++ "\n" ≠ "" := by
  intro empty
  have length := congrArg String.length empty
  simp at length

theorem render_line_ne_empty (colours : Bool) (before spans : Styled) :
    render colours (before ++ Report.line spans) ≠ "" := by
  intro empty
  have length := congrArg String.length empty
  simp [render, Report.line, Span.render, plain, Style.codes] at length

theorem reports_graphOutcome (env : Environment) (c : Config) (root : RawText) (a : Analysis) :
    (graphOutcome env c root a).Reports := by
  refine .inr fun elapsed => ?_
  unfold graphOutcome
  dsimp only
  cases c.format with
  | json => exact append_newline_ne_empty _
  | text =>
    dsimp only
    rw [finished, ← List.append_assoc]
    exact render_line_ne_empty _ _ _

theorem reports_metricsOutcome (env : Environment) (c : Config) (root : RawText) (a : Analysis) :
    (metricsOutcome env c root a).Reports := by
  refine .inr fun elapsed => ?_
  unfold metricsOutcome
  dsimp only
  cases c.format with
  | json => exact append_newline_ne_empty _
  | text =>
    dsimp only
    rw [finished, ← List.append_assoc]
    exact render_line_ne_empty _ _ _

theorem reports_outcome (env : Environment) (task : Task) (c : Config) :
    (outcome env task c).Reports := by
  unfold outcome
  cases resolveRoot env.tree env.cwd c.root with
  | error e => exact reports_failed e
  | ok root =>
    dsimp only
    cases analysisAt env c root with
    | error f => exact reports_failed _
    | ok a =>
      cases task with
      | graph => exact reports_graphOutcome ..
      | metrics => exact reports_metricsOutcome ..

/-! ## Where it breaks off -/

/-- Whether nothing breaks off a command on `root`: the deadline can be expressed, and where a table
is asked for, the names of the packages fit into a column. -/
structure Unbroken (env : Environment) (task : Task) (c : Config) (root : RawText) : Prop where
  timely : c.deadline.fits env.now = true
  narrow : task = .metrics → c.format = .text → ∀ a, analysisAt env c root = .ok a →
    ∀ p ∈ a.graph.packages, p.utf8ByteSize ≤ Checked.widthLimit

theorem runTask_of_failed {env : Environment} {c : Config} {e : RunError}
    (failed : analyze env.now env.tree env.cwd c = .ok (.error e)) (task : Task) :
    runTask env task c = .ok (.failed e) := by
  cases task with
  | graph =>
    rw [runTask, runGraph, failed]
    rfl
  | metrics =>
    rw [runTask, runMetrics, check, failed]
    rfl

theorem analyze_of_unresolved {env : Environment} {c : Config} {e : RunError}
    (unresolved : resolveRoot env.tree env.cwd c.root = .error e) :
    analyze env.now env.tree env.cwd c = .ok (.error e) := by
  unfold analyze
  rw [unresolved]

section Root

variable {env : Environment} {c : Config} {root : RawText}
  (resolved : resolveRoot env.tree env.cwd c.root = .ok root)

include resolved

theorem analyze_of_late (late : c.deadline.fits env.now = false) :
    analyze env.now env.tree env.cwd c = .error .instant := by
  unfold analyze
  rw [resolved]
  dsimp only
  rw [deadlineAt, late]
  rfl

theorem runTask_of_late (late : c.deadline.fits env.now = false) (task : Task) :
    runTask env task c = .error .instant := by
  have broken := analyze_of_late resolved late
  cases task with
  | graph =>
    rw [runTask, runGraph, broken]
    rfl
  | metrics =>
    rw [runTask, runMetrics, check, broken]
    rfl

variable (timely : c.deadline.fits env.now = true)
  (small : Analysis.listedBytes env.tree root c.analyzeOptions < Checked.countLimit)

include timely small

theorem analyze_of_timely :
    analyze env.now env.tree env.cwd c =
      .ok (match analysisAt env c root with
        | .ok a => .ok (root, a)
        | .error f => .error (.fault f)) := by
  unfold analyze
  rw [resolved]
  dsimp only
  rw [deadlineAt, timely, if_pos rfl, Checked.ok_bind, Checked.run_ok _ _ small,
    Checked.ok_bind, analysisAt]
  rcases Analysis.run env.tree root c.analyzeOptions
    ((c.deadline.instant? env.now).any (· ≤ env.now)) .empty
    with ⟨f | a, registry⟩ <;> rfl

theorem runTask_of_fault {f : Fault} (failed : analysisAt env c root = .error f) (task : Task) :
    runTask env task c = .ok (.failed (.fault f)) := by
  have ran := analyze_of_timely resolved timely small
  rw [failed] at ran
  exact runTask_of_failed ran task

theorem runTask_graph {a : Analysis} (analysed : analysisAt env c root = .ok a) :
    runTask env .graph c = .ok (graphOutcome env c root a) := by
  have ran := analyze_of_timely resolved timely small
  rw [analysed] at ran
  rw [runTask, runGraph, ran, Checked.ok_bind, graphOutcome]
  dsimp only
  cases c.format with
  | json => rfl
  | text =>
    dsimp only
    rw [Checked.graphReport_ok]
    rfl

theorem check_of_analysis {a : Analysis} (analysed : analysisAt env c root = .ok a) :
    check env.now env.tree env.cwd c =
      .ok (.ok { root
                 figures := a.graph.metrics.map Metrics.figures
                 violations :=
                   (c.maxInstability.map (violations (a.graph.metrics.map Metrics.figures))).getD []
                 diagnostics := a.diagnostics
                 filesAnalyzed := a.filesAnalyzed }) := by
  have ran := analyze_of_timely resolved timely small
  rw [analysed] at ran
  have few : a.graph.importCount < Checked.countLimit :=
    Nat.lt_of_le_of_lt (Analysis.importCount_of_run analysed) small
  rw [check, ran, Checked.ok_bind]
  dsimp only
  rw [Checked.metrics_ok few, Checked.ok_bind, Checked.mapM_figures_ok few]
  rfl

theorem runTask_metrics {a : Analysis} (analysed : analysisAt env c root = .ok a)
    (narrow : c.format = .text → ∀ p ∈ a.graph.packages, p.utf8ByteSize ≤ Checked.widthLimit) :
    runTask env .metrics c = .ok (metricsOutcome env c root a) := by
  rw [runTask, runMetrics, check_of_analysis resolved timely small analysed, Checked.ok_bind,
    metricsOutcome]
  dsimp only
  cases format : c.format with
  | json => rfl
  | text =>
    have table : ∀ f ∈ a.graph.metrics.map Metrics.figures,
        f.package.utf8ByteSize ≤ Checked.widthLimit := by
      intro f mem
      obtain ⟨m, hm, rfl⟩ := List.mem_map.1 mem
      exact narrow format _ (ImportGraph.package_mem hm)
    dsimp only
    rw [Checked.metricsTable_of_narrow table, Checked.ok_bind, Checked.violations_ok,
      Checked.ok_bind, tableDiagnostics]
    dsimp only
    rw [Checked.diagnostics_ok]
    cases a.diagnostics.isEmpty <;> rfl

theorem runTask_of_wide {a : Analysis} (analysed : analysisAt env c root = .ok a)
    (text : c.format = .text)
    {p : String} (mem : p ∈ a.graph.packages) (wide : Checked.widthLimit < p.utf8ByteSize) :
    runTask env .metrics c = .error .width := by
  rw [← ImportGraph.map_package_metrics] at mem
  obtain ⟨m, hm, rfl⟩ := List.mem_map.1 mem
  rw [runTask, runMetrics, check_of_analysis resolved timely small analysed, Checked.ok_bind]
  dsimp only
  rw [text]
  dsimp only
  rw [Checked.metricsTable_of_wide (f := m.figures) (List.mem_map_of_mem hm) wide]
  rfl

end Root

section Tree

variable {env : Environment} {task : Task} {c : Config}
  (small : ∀ root, resolveRoot env.tree env.cwd c.root = .ok root →
    Analysis.listedBytes env.tree root c.analyzeOptions < Checked.countLimit)

include small

theorem runTask_of_unbroken
    (unbroken : ∀ root, resolveRoot env.tree env.cwd c.root = .ok root → Unbroken env task c root) :
    runTask env task c = .ok (outcome env task c) := by
  unfold outcome
  cases resolved : resolveRoot env.tree env.cwd c.root with
  | error e => exact runTask_of_failed (analyze_of_unresolved resolved) task
  | ok root =>
    obtain ⟨timely, narrow⟩ := unbroken root resolved
    dsimp only
    cases analysed : analysisAt env c root with
    | error f => exact runTask_of_fault resolved timely (small root resolved) analysed task
    | ok a =>
      cases task with
      | graph => exact runTask_graph resolved timely (small root resolved) analysed
      | metrics =>
        exact runTask_metrics resolved timely (small root resolved) analysed
          fun text => narrow rfl text a analysed

theorem unbroken_of_runTask {o : Outcome} (ended : runTask env task c = .ok o) {root : RawText}
    (resolved : resolveRoot env.tree env.cwd c.root = .ok root) : Unbroken env task c root := by
  have timely : c.deadline.fits env.now = true := by
    by_contra late
    rw [Bool.not_eq_true] at late
    rw [runTask_of_late resolved late] at ended
    cases ended
  refine ⟨timely, ?_⟩
  rintro rfl text a analysed p mem
  by_contra wide
  rw [runTask_of_wide resolved timely (small root resolved) analysed text mem
    (Nat.lt_of_not_le wide)] at ended
  cases ended

end Tree

/-- A command ends, with a report or an error, if and only if its deadline can be expressed and the
names of its packages fit into the table that it is to print, given that the listed files hold fewer
bytes than numbers can count. What it then ends with is what the plain analysis and the plain
reports give. -/
theorem runTask_ends_iff (env : Environment) (task : Task) (c : Config)
    (small : ∀ root, resolveRoot env.tree env.cwd c.root = .ok root →
      Analysis.listedBytes env.tree root c.analyzeOptions < Checked.countLimit) :
    ((∃ o, runTask env task c = .ok o) ↔
      ∀ root, resolveRoot env.tree env.cwd c.root = .ok root → Unbroken env task c root) ∧
    ∀ o, runTask env task c = .ok o → o = outcome env task c ∧ o.Reports := by
  have unbroken : ∀ o, runTask env task c = .ok o →
      ∀ root, resolveRoot env.tree env.cwd c.root = .ok root → Unbroken env task c root :=
    fun _ ended _ resolved => unbroken_of_runTask small ended resolved
  refine ⟨⟨?_, fun h => ⟨_, runTask_of_unbroken small h⟩⟩, ?_⟩
  · rintro ⟨o, ended⟩
    exact unbroken o ended
  · intro o ended
    rw [runTask_of_unbroken small (unbroken o ended)] at ended
    cases ended
    exact ⟨rfl, reports_outcome env task c⟩

/-- A tree with one package, seen from its root. -/
def onePackage : Environment :=
  ⟨0, Node.empty.put ["a.go"] (.file (Utf8.encode "package a\n\nimport \"fmt\"\n")), "/", false, 1⟩

theorem resolved_onePackage : resolveRoot onePackage.tree onePackage.cwd "." = .ok "/" := by
  decide +kernel

theorem packages_onePackage {a : Analysis} (analysed : analysisAt onePackage .default "/" = .ok a) :
    a.graph.packages = ["a"] := by
  have computed : (analysisAt onePackage .default "/").toOption.map (·.graph.packages) =
      some ["a"] := by
    decide +kernel
  have given := congrArg (fun r => r.toOption.map (·.graph.packages)) analysed
  exact Option.some.inj (given.symm.trans computed)

theorem runTask_onePackage :
    (∀ root, resolveRoot onePackage.tree onePackage.cwd Config.default.root = .ok root →
      Analysis.listedBytes onePackage.tree root Config.default.analyzeOptions <
        Checked.countLimit) ∧
    ∃ o, runTask onePackage .metrics .default = .ok o ∧ o.Reports := by
  have small : ∀ root, resolveRoot onePackage.tree onePackage.cwd Config.default.root = .ok root →
      Analysis.listedBytes onePackage.tree root Config.default.analyzeOptions <
        Checked.countLimit := by
    intro root resolved
    cases resolved_onePackage.symm.trans resolved
    decide +kernel
  obtain ⟨ends, shown⟩ := runTask_ends_iff onePackage .metrics .default small
  obtain ⟨o, ended⟩ := ends.2 <| by
    intro root resolved
    cases resolved_onePackage.symm.trans resolved
    refine ⟨by decide, fun _ _ a analysed p mem => ?_⟩
    rw [packages_onePackage analysed] at mem
    cases List.mem_singleton.1 mem
    decide
  exact ⟨small, o, ended, (shown o ended).2⟩

/-- An accepted timeout can break off a command. -/
theorem timeout_breaks_off :
    ∃ c, graphConfig ["--timeout", "18446744073709551615"] = .ok c ∧
      runTask onePackage .graph c = .error .instant := by
  refine ⟨{ Config.default with timeout := some 18446744073709551615 }, rfl, ?_⟩
  exact runTask_of_late resolved_onePackage (by decide) .graph

end Command

end PackageCoupling
