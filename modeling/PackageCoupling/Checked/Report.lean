import PackageCoupling.Checked.Basic
import PackageCoupling.Report.Graph
import PackageCoupling.Report.Metrics

/-!
Reports for readers with every index, length and width checked.
-/

namespace PackageCoupling.Checked

open Text

/-- The path of `path` below `root` as seen from `cwd`. -/
def relativize (root path cwd : String) : Checked String :=
  let target := Path.append root path
  if Path.isRooted target then do
    let shared := Path.commonLength (Path.steps target) (Path.steps cwd)
    let down ← drop (Path.steps target) shared
    .ok (Path.stepsText (List.replicate ((Path.steps cwd).length - shared) .up ++ down))
  else .ok path

/-- The items of a list under a heading. The last one is known by its index. -/
def branches {α : Type} (item : α → Styled) (l : List α) : Checked Styled := do
  let items ← l.zipIdx.mapM fun (a, i) => do
    .ok (Report.branch (i == (← sub l.length 1)) (item a))
  .ok items.flatten

def diagnostics (root cwd : String) (ds : List Diagnostic) : Checked Styled :=
  if ds.isEmpty then .ok []
  else do
    let lines ← ds.mapM fun d => do
      .ok (Report.diagnosticLine (← relativize root d.path cwd) d)
    .ok (Report.diagnosticsHeader ds.length ++ lines.flatten)

def packageTree (g : ImportGraph) (entry : String × Stats) : Checked Styled := do
  let imports ← branches (Report.importSpans g) entry.2.entries
  .ok (Report.line [boldColoured .brightWhite entry.1] ++ imports ++ Report.line [])

def graphReport (a : Analysis) (root cwd : String) : Checked Styled := do
  let trees ← a.graph.table.entries.mapM (packageTree a.graph)
  let left ← diagnostics root cwd a.diagnostics
  .ok (Report.graphHeader a.graph ++ trees.flatten ++ left)

def metricsTable (figures : List Figures) : Checked Styled :=
  if figures.isEmpty then .ok Report.noPackages
  else do
    let width ← columnWidth (Report.nameWidth figures)
    let ruled ← add width Report.otherColumns
    .ok (Report.tableOf figures width ruled)

def violations (vs : List Violation) : Checked Styled :=
  if vs.isEmpty then .ok []
  else do
    let first ← get vs 0
    let items ← branches Report.violationSpans vs
    .ok (Report.violationsHeader vs.length first.bound ++ items)

end PackageCoupling.Checked
