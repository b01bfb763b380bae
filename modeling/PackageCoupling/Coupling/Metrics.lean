import PackageCoupling.Graph

/-!
Coupling metrics of a package: what it imports, which other packages import it, and the share of
the first in both, its *instability*.
-/

namespace PackageCoupling

structure Metrics where
  package : String
  inward : Stats
  outward : Stats

namespace Metrics

/-- Ca: how often other packages import this one. -/
def inwardCoupling (m : Metrics) : Nat := m.inward.total

/-- Ce: how often this package imports anything. -/
def outwardCoupling (m : Metrics) : Nat := m.outward.total

/-- The share of Ce in Ca + Ce, in numbers of any kind; zero for a package without any coupling. -/
def share {α : Type} (zero : α) (divide : Nat → Nat → α) (m : Metrics) : α :=
  let sum := m.inwardCoupling + m.outwardCoupling
  if sum == 0 then zero else divide m.outwardCoupling sum

/-- Ce / (Ca + Ce) in double precision. -/
def instability (m : Metrics) : Float :=
  m.share 0.0 fun part whole => Float.ofNat part / Float.ofNat whole

end Metrics

/-- Metrics with the figures that are read off them. -/
structure Figures where
  metrics : Metrics
  inwardCoupling : Nat
  outwardCoupling : Nat
  instability : Float

def Figures.package (f : Figures) : String := f.metrics.package

def Metrics.figures (m : Metrics) : Figures :=
  ⟨m, m.inwardCoupling, m.outwardCoupling, m.instability⟩

namespace ImportGraph

/-- Every import of the graph: who imports, what, and how often. -/
def edges (g : ImportGraph) : List (String × String × Nat) :=
  g.table.entries.flatMap fun (package, imports) =>
    imports.entries.map fun (id, n) => (package, id, n)

/-- Whether an import leads from one package of the graph to another one. -/
def isInternal (g : ImportGraph) (package id : String) : Bool := id != package && g.contains id

/-- Turns one import around, if it is internal. -/
def invertEdge (g : ImportGraph) (t : Table Stats) (e : String × String × Nat) : Table Stats :=
  if g.isInternal e.1 e.2.1 then
    t.alter e.2.1 fun old => Stats.record (old.getD Table.empty) e.1 e.2.2
  else t

/-- For each package that others import, how often each of them does. -/
def importers (g : ImportGraph) : Table Stats := g.edges.foldl g.invertEdge Table.empty

/-- The metrics of every package, in order. -/
def metrics (g : ImportGraph) : List Metrics :=
  let importers := g.importers
  g.table.entries.map fun (package, imports) =>
    { package
      inward := Stats.ofCounts ((importers.find? package).getD Table.empty).entries
      outward := Stats.ofCounts imports.entries }

end ImportGraph

/-- A package whose instability exceeds the bound. -/
structure Violation where
  package : String
  instability : Float
  bound : Float

def violations (figures : List Figures) (bound : Float) : List Violation :=
  (figures.filter (fun f => bound < f.instability)).map fun f => ⟨f.package, f.instability, bound⟩

end PackageCoupling
