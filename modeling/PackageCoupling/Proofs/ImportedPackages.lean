import PackageCoupling.Proofs.GraphGrowth
import PackageCoupling.Proofs.Selection

/-!
# Inward coupling of the packages of a tree

A package is imported from within a graph where some source spells its path
(`inwardCoupling_of_imports`). Rust and Python spell no slashes between names, but a path of one
name can be imported like any other name, and then the package has inward coupling
(`plain_name_imported`).
-/

namespace PackageCoupling

/-! ## Coupling -/

namespace ImportGraph

theorem count_ofFiles_eq_zero_iff (files : List FileImports) (p i : String) :
    (ofFiles files).count p i = 0 ↔ ∀ f ∈ files, f.package = p → i ∉ f.imports := by
  rw [count_ofFiles, List.sum_eq_zero_iff_forall_eq_nat, List.forall_mem_map]
  simp only [List.mem_filter, beq_iff_eq, and_imp, List.count_eq_zero]

/-- A package of assembled files has no inward coupling exactly if no file of another package
imports it. -/
theorem inwardCoupling_eq_zero_iff {files : List FileImports} {m : Metrics}
    (h : m ∈ (ofFiles files).metrics) :
    m.inwardCoupling = 0 ↔ ∀ f ∈ files, m.package ∈ f.imports → f.package = m.package := by
  rw [inwardCoupling_eq h, Finset.sum_eq_zero_iff]
  simp only [count_ofFiles_eq_zero_iff, Finset.mem_erase, List.mem_toFinset]
  constructor
  · intro none f hf imported
    by_contra ne
    have known : f.package ∈ (ofFiles files).packages :=
      (mem_packages_iff _ _).2 ((contains_ofFiles files _).2 ⟨f, hf, rfl⟩)
    exact none f.package ⟨ne, known⟩ f hf rfl imported
  · rintro own q ⟨ne, -⟩ f hf rfl imported
    exact ne (own f hf imported)

end ImportGraph

namespace Analysis

theorem mem_contributions {tree : Node} {root : RawText} {languages : List Language}
    {files : List RawText} {f : FileImports} :
    f ∈ (files.filterMap fun path => (fate tree root languages files path).contribution?) ↔
      ∃ path ∈ files, fate tree root languages files path = .contributes f := by
  rw [List.mem_filterMap]
  constructor
  · rintro ⟨path, mem, eq⟩
    refine ⟨path, mem, ?_⟩
    cases result : fate tree root languages files path with
    | contributes file => rw [result] at eq; cases eq; rfl
    | fails d => rw [result] at eq; cases eq
    | reported d => rw [result] at eq; cases eq
    | passedOver => rw [result] at eq; cases eq
  · rintro ⟨path, mem, eq⟩
    exact ⟨path, mem, by rw [eq]; rfl⟩

/-- Whether some listed file contributes `f`. -/
def Contributes (tree : Node) (root : RawText) (o : AnalyzeOptions) (files : List RawText)
    (f : FileImports) : Prop :=
  ∃ path ∈ files, fate tree root o.languages files path = .contributes f

/-- Inward coupling in the graph of an analysis. A package has none exactly if every source that
imports its path is its own, so all packages are without inward coupling exactly if no source
imports the package of another source that is not its own. Nothing else keeps a package from being
imported: no matter in which language the sources are written and what their packages are called,
an import that is spelled like the path of another package counts. -/
theorem inwardCoupling_of_imports (tree : Node) (root : RawText) (o : AnalyzeOptions)
    (files : List RawText) (listed : listFiles tree root (listOptions o) = .ok files) :
    ∃ a, (run tree root o false .empty).1 = .ok a ∧
      ((∀ m ∈ a.graph.metrics, m.inwardCoupling = 0) ↔
        ∀ f g, Contributes tree root o files f → Contributes tree root o files g →
          g.package ∈ f.imports → f.package = g.package) ∧
      ∀ m ∈ a.graph.metrics, m.inwardCoupling = 0 ↔
        ∀ f, Contributes tree root o files f → m.package ∈ f.imports → f.package = m.package := by
  obtain ⟨a, ran, graph, -⟩ := run_of_listed listed o.languages
  have record : ∀ m ∈ a.graph.metrics,
      (∃ g, Contributes tree root o files g ∧ g.package = m.package) ∧ (m.inwardCoupling = 0 ↔
        ∀ f, Contributes tree root o files f → m.package ∈ f.imports → f.package = m.package) := by
    rw [graph]
    intro m hm
    have known := (ImportGraph.mem_packages_iff _ _).1 (ImportGraph.package_mem hm)
    obtain ⟨g, hg, eq⟩ := (ImportGraph.contains_ofFiles _ _).1 known
    refine ⟨⟨g, mem_contributions.1 hg, eq⟩, ?_⟩
    rw [ImportGraph.inwardCoupling_eq_zero_iff hm]
    simp only [mem_contributions, Contributes]
  refine ⟨a, ran, ?_, fun m hm => (record m hm).2⟩
  constructor
  · intro none f g hf hg imported
    have known : g.package ∈ a.graph.packages := by
      rw [graph, ImportGraph.mem_packages_iff, ImportGraph.contains_ofFiles]
      exact ⟨g, mem_contributions.2 hg, rfl⟩
    obtain ⟨m, hm, eq⟩ := ImportGraph.exists_record known
    rw [← eq] at imported ⊢
    exact (record m hm).2.1 (none m hm) f hf imported
  · intro own m hm
    obtain ⟨⟨g, hg, eq⟩, zero⟩ := record m hm
    rw [← eq] at zero
    exact zero.2 fun f hf imported => own f g hf hg imported

/-- Two Python packages with paths of one name, one of which imports the other. -/
def plainNames : Node :=
  (Node.empty.put ["src", "foo", "a.py"] (.file (Utf8.encode "x = 1\n"))).put ["src", "bar", "b.py"]
    (.file (Utf8.encode "import foo\n"))

def pythonOnly : AnalyzeOptions := ⟨[.python], [], true⟩

def plainPaths : List RawText := ["bar/b.py", "foo/a.py"]

theorem listed_plainNames :
    listFiles plainNames "/src" (listOptions pythonOnly) = .ok plainPaths := by
  decide +kernel

theorem contributes_plainNames {path : RawText} {f : FileImports} (mem : path ∈ plainPaths)
    (h : (fate plainNames "/src" pythonOnly.languages plainPaths path).contribution? = some f) :
    Contributes plainNames "/src" pythonOnly plainPaths f :=
  mem_contributions.1 (List.mem_filterMap.2 ⟨path, mem, h⟩)

theorem inwardCoupling_of_plainNames :
    listFiles plainNames "/src" (listOptions pythonOnly) = .ok plainPaths ∧
      ∃ a, (run plainNames "/src" pythonOnly false .empty).1 = .ok a ∧ ∃ m ∈ a.graph.metrics,
        m.inwardCoupling ≠ 0 := by
  refine ⟨listed_plainNames, ?_⟩
  obtain ⟨a, ran, all, -⟩ :=
    inwardCoupling_of_imports plainNames "/src" pythonOnly _ listed_plainNames
  refine ⟨a, ran, ?_⟩
  by_contra none
  push Not at none
  have importer : Contributes plainNames "/src" pythonOnly plainPaths
      ⟨"bar/b.py", "bar", ["foo"]⟩ :=
    contributes_plainNames List.mem_cons_self (by decide +kernel)
  have imported : Contributes plainNames "/src" pythonOnly plainPaths ⟨"foo/a.py", "foo", []⟩ :=
    contributes_plainNames (List.mem_cons_of_mem _ List.mem_cons_self) (by decide +kernel)
  have same := all.1 none _ _ importer imported List.mem_cons_self
  exact absurd same (by decide)

/-- An import can be spelled like the path of a package, which then has inward coupling. -/
theorem plain_name_imported :
    (run plainNames "/src" pythonOnly false .empty).1.toOption.map
      (·.graph.metrics.map fun m => (m.package, m.inwardCoupling)) =
      some [("bar", 0), ("foo", 1)] := by
  decide +kernel

end Analysis

end PackageCoupling
