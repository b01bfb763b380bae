import PackageCoupling.Fault
import PackageCoupling.Graph

/-!
The result of an analysis.
-/

namespace PackageCoupling

structure Analysis where
  graph : ImportGraph
  /-- The files that were left out, in the order of their paths. -/
  diagnostics : List Diagnostic
  /-- How many files of the selected languages were found. -/
  filesAnalyzed : Nat

end PackageCoupling
