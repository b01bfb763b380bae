import PackageCoupling.Checked.Basic
import PackageCoupling.Coupling.Metrics

/-!
The import graph and the coupling of its packages, with every addition checked.
-/

namespace PackageCoupling.Checked

/-! ## Counts -/

def record (s : Stats) (id : String) (count : Nat) : Checked Stats := do
  .ok (s.insert id (← add (s.get id) count))

def tally (s : Stats) (ids : List String) : Checked Stats :=
  ids.foldlM (fun s id => record s id 1) s

def ofCounts (counts : List (String × Nat)) : Checked Stats :=
  counts.foldlM (fun s (id, n) => record s id n) Table.empty

def total (s : Stats) : Checked Nat := sum (s.entries.map (·.2))

/-! ## The graph -/

def addFile (g : ImportGraph) (file : FileImports) : Checked ImportGraph := do
  .ok ⟨g.table.insert file.package (← tally (g.stats file.package) file.imports)⟩

/-- The graph that files contribute to. -/
def graphOf (files : List FileImports) : Checked ImportGraph := files.foldlM addFile .empty

/-! ## Metrics -/

def invertEdge (g : ImportGraph) (t : Table Stats) (e : String × String × Nat) :
    Checked (Table Stats) :=
  if g.isInternal e.1 e.2.1 then do
    .ok (t.insert e.2.1 (← record ((t.find? e.2.1).getD Table.empty) e.1 e.2.2))
  else .ok t

def importers (g : ImportGraph) : Checked (Table Stats) :=
  g.edges.foldlM (invertEdge g) Table.empty

def metricsOf (importers : Table Stats) (entry : String × Stats) : Checked Metrics := do
  let inward ← ofCounts ((importers.find? entry.1).getD Table.empty).entries
  let outward ← ofCounts entry.2.entries
  .ok ⟨entry.1, inward, outward⟩

def metrics (g : ImportGraph) : Checked (List Metrics) := do
  let importers ← importers g
  g.table.entries.mapM (metricsOf importers)

/-- The figures of a package. Its two couplings are added up. -/
def figures (m : Metrics) : Checked Figures := do
  let inward ← total m.inward
  let outward ← total m.outward
  let sum ← add inward outward
  .ok ⟨m, inward, outward, if sum == 0 then 0.0 else Float.ofNat outward / Float.ofNat sum⟩

end PackageCoupling.Checked
