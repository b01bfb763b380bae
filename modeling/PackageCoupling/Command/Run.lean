import PackageCoupling.Checked.Report
import PackageCoupling.Command.Check

/-!
What a command writes and the code it ends with. Paths are written as they are shown, also a root
that is no text.
-/

namespace PackageCoupling.Command

open Text

/-- What a command sees besides its arguments. -/
structure Environment where
  /-- The time on the clock, in nanoseconds. -/
  now : Nat
  tree : Node
  /-- The current directory, which has a path that is a text. -/
  cwd : String
  colours : Bool
  /-- How many threads are used where none are asked for. -/
  processors : Nat

structure Outcome where
  code : Nat
  /-- What is written, given how the time that the command took is to be shown. -/
  output : Span → String
  error : String

def Outcome.failed (e : RunError) : Outcome := ⟨1, fun _ => "", "Error: " ++ e.message⟩

/-- The last line of a report. -/
def finished (env : Environment) (c : Config) (files : Nat) (elapsed : Span) : Styled :=
  Report.line [] ++
  Report.line [coloured .brightBlue "●", plain " Finished in ", elapsed, plain "ms on ",
    coloured .cyan (Decimal.natText files), plain " files (using ",
    coloured .cyan (Decimal.natText (c.threads.getD env.processors)), plain " threads)."]

def runGraph (env : Environment) (c : Config) : Checked Outcome := do
  match ← analyze env.now env.tree env.cwd c with
  | .error e => .ok (.failed e)
  | .ok (root, a) =>
    match c.format with
    | .json => .ok ⟨0, fun _ => Report.graphDocument a, ""⟩
    | .text =>
      let report ← Checked.graphReport a root.text env.cwd
      .ok ⟨0,
        fun elapsed => render env.colours (report ++ finished env c a.filesAnalyzed elapsed), ""⟩

/-- The diagnostics behind a table, after an empty line. -/
def tableDiagnostics (env : Environment) (r : CheckResult) : Checked Styled :=
  if r.diagnostics.isEmpty then .ok []
  else do .ok (Report.line [] ++ (← Checked.diagnostics r.root.text env.cwd r.diagnostics))

/-- A package above the bound makes the command fail. -/
def runMetrics (env : Environment) (c : Config) : Checked Outcome := do
  match ← check env.now env.tree env.cwd c with
  | .error e => .ok (.failed e)
  | .ok r =>
    let code := if r.violations.isEmpty then 0 else 1
    match c.format with
    | .json => .ok ⟨code, fun _ => Report.metricsDocument r.figures, ""⟩
    | .text =>
      let table ← Checked.metricsTable r.figures
      let above ← Checked.violations r.violations
      let left ← tableDiagnostics env r
      .ok ⟨code, fun elapsed => render env.colours
        (table ++ above ++ left ++ finished env c r.filesAnalyzed elapsed), ""⟩

/-- What a command ends with, unless it breaks off. -/
def runTask (env : Environment) : Task → Config → Checked Outcome
  | .graph => runGraph env
  | .metrics => runMetrics env

end PackageCoupling.Command
