import PackageCoupling.Coupling.Stats

/-!
The import graph: for each package the identifiers it imports, with the number of times.
-/

namespace PackageCoupling

/-- What one source file contributes to the graph. -/
structure FileImports where
  path : String
  package : String
  imports : List String
  deriving DecidableEq, Repr

structure ImportGraph where
  table : Table Stats

namespace ImportGraph

def empty : ImportGraph := ⟨Table.empty⟩

/-- Counts each occurrence in `imports` as an import of `package`, which becomes a package of the
graph even without any. -/
def add (g : ImportGraph) (package : String) (imports : List String) : ImportGraph :=
  ⟨g.table.alter package fun old => Stats.tally (old.getD Table.empty) imports⟩

def addFile (g : ImportGraph) (file : FileImports) : ImportGraph := g.add file.package file.imports

def packages (g : ImportGraph) : List String := g.table.keys

def contains (g : ImportGraph) (package : String) : Bool := g.table.contains package

def stats (g : ImportGraph) (package : String) : Stats := (g.table.find? package).getD Table.empty

def imports (g : ImportGraph) (package : String) : List String := (g.stats package).keys

def count (g : ImportGraph) (package id : String) : Nat := Stats.get (g.stats package) id

def size (g : ImportGraph) : Nat := g.table.size

def isEmpty (g : ImportGraph) : Bool := g.table.isEmpty

/-- Each package with the list of what it imports. -/
def toLists (g : ImportGraph) : List (String × List String) :=
  g.table.entries.map fun (package, stats) => (package, stats.keys)

theorem find?_add (g : ImportGraph) (package : String) (imports : List String) (p : String) :
    (g.add package imports).table.find? p =
      if p = package then some ((g.stats p).tally imports) else g.table.find? p := by
  rw [add, Table.find?_alter]
  split
  · rename_i eq
    rw [eq, stats]
  · rfl

theorem stats_add (g : ImportGraph) (package : String) (imports : List String) (p : String) :
    (g.add package imports).stats p =
      if p = package then (g.stats p).tally imports else g.stats p := by
  rw [stats, find?_add]
  split <;> rfl

end ImportGraph

/-- A graph in the making: the counts of each package seen so far, in no particular order. -/
structure Assembler where
  entries : List (String × Stats)
  distinct : (entries.map (·.1)).Nodup

namespace Assembler

def empty : Assembler := ⟨[], List.nodup_nil⟩

/-- Counts `imports` for `package` where it stands; one that is not there yet comes last. -/
def tallyEntries (package : String) (imports : List String) :
    List (String × Stats) → List (String × Stats)
  | [] => [(package, Stats.tally Table.empty imports)]
  | (p, s) :: rest =>
    if p = package then (p, Stats.tally s imports) :: rest
    else (p, s) :: tallyEntries package imports rest

theorem keys_tallyEntries (package : String) (imports : List String) (l : List (String × Stats)) :
    (tallyEntries package imports l).map (·.1) =
      if package ∈ l.map (·.1) then l.map (·.1) else l.map (·.1) ++ [package] := by
  induction l with
  | nil => rfl
  | cons e rest ih =>
    obtain ⟨p, s⟩ := e
    rw [tallyEntries]
    split
    · rename_i eq
      simp [eq]
    · rename_i ne
      have ne' : package ≠ p := fun eq => ne eq.symm
      simp only [List.map_cons, ih, List.mem_cons, ne', false_or]
      split <;> rfl

theorem distinct_tallyEntries (package : String) (imports : List String)
    {l : List (String × Stats)} (h : (l.map (·.1)).Nodup) :
    ((tallyEntries package imports l).map (·.1)).Nodup := by
  rw [keys_tallyEntries]
  split
  · exact h
  · rename_i absent
    rw [List.nodup_append]
    refine ⟨h, by simp, ?_⟩
    rintro a ha b hb rfl
    exact absent (List.mem_singleton.1 hb ▸ ha)

/-- Adds the contribution of one file. -/
def merge (a : Assembler) (file : FileImports) : Assembler :=
  ⟨tallyEntries file.package file.imports a.entries,
    distinct_tallyEntries file.package file.imports a.distinct⟩

/-- The graph of what has been merged, now in order. -/
def finish (a : Assembler) : ImportGraph :=
  ⟨a.entries.foldl (fun t (package, stats) => t.insert package stats) Table.empty⟩

end Assembler

/-- The graph that files contribute to, merged one after the other. -/
def ImportGraph.ofFiles (files : List FileImports) : ImportGraph :=
  (files.foldl Assembler.merge Assembler.empty).finish

end PackageCoupling
