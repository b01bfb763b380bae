import PackageCoupling.Checked.Analysis
import PackageCoupling.Command.Usage

/-!
Running a command on a file tree. Whether the time is up is decided once, when the run starts.
-/

namespace PackageCoupling.Command

/-- Why a command fails. -/
inductive RunError where
  | rootNotDirectory (root : String)
  | fault (f : Fault)
  deriving DecidableEq, Repr

def RunError.message : RunError → String
  | .rootNotDirectory root => "Root " ++ root ++ " is not a directory"
  | .fault f => f.message

/-- The directory that a root names, in canonical form where that exists. -/
def resolveRoot (tree : Node) (cwd root : RawText) : Except RunError RawText :=
  let full := cwd.append root
  let found := (tree.canonical full).toOption.getD root
  if tree.isDirAt full then .ok found else .error (.rootNotDirectory found.text)

/-- The instant at which a run that starts now is to end. It must be expressible. -/
def deadlineAt (now : Nat) (d : Deadline) : Checked (Option Nat) :=
  if d.fits now then .ok (d.instant? now) else .error .instant

/-- Analyses what a configuration asks for. Gives the root as well. -/
def analyze (now : Nat) (tree : Node) (cwd : String) (c : Config) :
    Checked (Except RunError (RawText × Analysis)) :=
  match resolveRoot tree cwd c.root with
  | .error e => .ok (.error e)
  | .ok root => do
    let deadline ← deadlineAt now c.deadline
    match ← Checked.run tree root c.analyzeOptions (deadline.any (· ≤ now)) .empty with
    | (.ok a, _) => .ok (.ok (root, a))
    | (.error f, _) => .ok (.error (.fault f))

/-- The outcome of a coupling check. -/
structure CheckResult where
  root : RawText
  figures : List Figures
  violations : List Violation
  diagnostics : List Diagnostic
  filesAnalyzed : Nat

def check (now : Nat) (tree : Node) (cwd : String) (c : Config) :
    Checked (Except RunError CheckResult) := do
  match ← analyze now tree cwd c with
  | .error e => .ok (.error e)
  | .ok (root, a) =>
    let figures ← (← Checked.metrics a.graph).mapM Checked.figures
    .ok (.ok { root, figures
               violations := (c.maxInstability.map (violations figures)).getD []
               diagnostics := a.diagnostics
               filesAnalyzed := a.filesAnalyzed })

end PackageCoupling.Command
