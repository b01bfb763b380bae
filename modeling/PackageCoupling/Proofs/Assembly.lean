import Mathlib.Algebra.GroupWithZero.Nat
import Mathlib.Control.Monad.Basic
import PackageCoupling.Extraction.Basic
import PackageCoupling.Proofs.ByteOrder

/-!
# The graph of a set of files

Files can be added to a graph one by one, or merged without any order and sorted at the end. Both
ways give the same graph:

* `addFile_comm`: the order of two files does not matter, so the order of many does not either;
* `finish_eq_foldl`: what has been merged, listed in any order, is the graph of the added files;
* `count_foldl`, `contains_foldl`: the counts and the packages, read off the files;
* `Reachable.positive`: no graph that is built by adding holds a count of zero.
-/

namespace PackageCoupling

theorem nodup_eraseDups {α : Type} [BEq α] [LawfulBEq α] (l : List α) : l.eraseDups.Nodup := by
  generalize len : l.length = n
  induction n using Nat.strongRecOn generalizing l with
  | ind n ih =>
    cases l with
    | nil => exact List.nodup_nil
    | cons a rest =>
      have shorter := List.length_filter_le (fun b => !b == a) rest
      rw [List.length_cons] at len
      rw [List.eraseDups_cons, List.nodup_cons, List.mem_eraseDups, List.mem_filter]
      exact ⟨by simp, ih _ (by omega) _ rfl⟩

/-! ## Adding files in any order -/

namespace Stats

theorem tally_comm (s : Stats) (a b : List String) : (s.tally a).tally b = (s.tally b).tally a := by
  apply Table.ext_find?
  intro k
  simp only [find?_tally, get_tally]
  by_cases ha : k ∈ a <;> by_cases hb : k ∈ b
  · simp only [ha, hb, if_true]
    congr 1
    omega
  all_goals simp [ha, hb, List.count_eq_zero_of_not_mem]

end Stats

namespace ImportGraph

theorem ext_table {g h : ImportGraph} (eq : ∀ p, g.table.find? p = h.table.find? p) : g = h := by
  cases g
  cases h
  exact congrArg _ (Table.ext_find? eq)

theorem addFile_comm (g : ImportGraph) (a b : FileImports) :
    (g.addFile a).addFile b = (g.addFile b).addFile a := by
  apply ext_table
  intro p
  simp only [addFile, find?_add, stats_add]
  by_cases ha : p = a.package <;> by_cases hb : p = b.package
  · simp only [if_pos ha, if_pos hb]
    rw [Stats.tally_comm]
  · simp only [if_pos ha, if_neg hb]
  · simp only [if_neg ha, if_pos hb]
  · simp only [if_neg ha, if_neg hb]

theorem foldl_addFile_perm {order files : List FileImports} (perm : order.Perm files)
    (g : ImportGraph) : order.foldl addFile g = files.foldl addFile g :=
  perm.foldl_eq' (fun a _ b _ g => addFile_comm g a b) g

/-! ## What the files say of the graph -/

theorem count_add (g : ImportGraph) (package : String) (imports : List String) (p i : String) :
    (g.add package imports).count p i =
      g.count p i + if p = package then imports.count i else 0 := by
  simp only [count, stats_add]
  split
  · exact Stats.get_tally ..
  · rfl

theorem count_addFile (g : ImportGraph) (f : FileImports) (p i : String) :
    (g.addFile f).count p i = g.count p i + if f.package == p then f.imports.count i else 0 := by
  rw [addFile, count_add]
  simp only [beq_iff_eq, eq_comm (a := p)]

/-- The count of an import is the number of its occurrences in the files of the package. -/
theorem count_foldl (files : List FileImports) (g : ImportGraph) (p i : String) :
    (files.foldl addFile g).count p i =
      g.count p i + ((files.filter (·.package == p)).map (·.imports.count i)).sum := by
  induction files generalizing g with
  | nil => simp
  | cons f rest ih =>
    rw [List.foldl_cons, ih, count_addFile, List.filter_cons]
    split
    · rw [List.map_cons, List.sum_cons, Nat.add_assoc]
    · simp

theorem contains_add (g : ImportGraph) (package : String) (imports : List String) (p : String) :
    (g.add package imports).contains p = true ↔ g.contains p = true ∨ p = package := by
  simp only [contains, Table.contains, find?_add]
  split
  · simp_all
  · simp_all

/-- The packages are those that some file declares. -/
theorem contains_foldl (files : List FileImports) (g : ImportGraph) (p : String) :
    (files.foldl addFile g).contains p = true ↔
      g.contains p = true ∨ ∃ f ∈ files, f.package = p := by
  induction files generalizing g with
  | nil => simp
  | cons f rest ih =>
    rw [List.foldl_cons, ih, addFile, contains_add]
    simp only [List.mem_cons, exists_eq_or_imp, or_assoc, eq_comm (a := p)]

/-- The graphs that adding leads to. -/
inductive Reachable : ImportGraph → Prop where
  | empty : Reachable empty
  | add {g : ImportGraph} (package : String) (imports : List String) :
      Reachable g → Reachable (g.add package imports)

theorem reachable_foldl {g : ImportGraph} (h : Reachable g) (files : List FileImports) :
    Reachable (files.foldl addFile g) := by
  induction files generalizing g with
  | nil => exact h
  | cons f rest ih => exact ih (.add f.package f.imports h)

/-- Whether something has been counted for every import. -/
def Positive (g : ImportGraph) : Prop :=
  ∀ p stats, g.table.find? p = some stats → ∀ i n, stats.find? i = some n → 0 < n

theorem positive_stats {g : ImportGraph} (h : g.Positive) (p i : String) (n : Nat)
    (found : (g.stats p).find? i = some n) : 0 < n := by
  unfold stats at found
  cases lookup : g.table.find? p with
  | none => simp [lookup] at found
  | some s => exact h p s lookup i n (by simpa [lookup] using found)

theorem positive_add {g : ImportGraph} (h : g.Positive) (package : String)
    (imports : List String) : (g.add package imports).Positive := by
  intro p stats lookup i n found
  rw [find?_add] at lookup
  split at lookup
  · cases lookup
    rw [Stats.find?_tally] at found
    split at found
    · rename_i mem
      have := List.count_pos_iff.2 mem
      cases found
      omega
    · exact positive_stats h p i n found
  · exact h p stats lookup i n found

theorem Reachable.positive {g : ImportGraph} (h : Reachable g) : g.Positive := by
  induction h with
  | empty =>
    intro p stats lookup
    simp [ImportGraph.empty] at lookup
  | add package imports _ ih => exact positive_add ih package imports

theorem mem_imports_iff {g : ImportGraph} (h : g.Positive) (p i : String) :
    i ∈ g.imports p ↔ 0 < g.count p i := by
  rw [imports, Table.mem_keys_iff, count, Stats.get]
  constructor
  · rintro ⟨n, found⟩
    simpa [found] using positive_stats h p i n found
  · intro pos
    cases found : (g.stats p).find? i with
    | none => simp [found] at pos
    | some n => exact ⟨n, rfl⟩

end ImportGraph

/-! ## Merging without an order -/

namespace Assembler

theorem lookup_tallyEntries (package : String) (imports : List String)
    (l : List (String × Stats)) (p : String) :
    (tallyEntries package imports l).lookup p =
      if p = package then some (Stats.tally ((l.lookup p).getD Table.empty) imports)
      else l.lookup p := by
  induction l with
  | nil =>
    rw [tallyEntries, Table.lookup_cons_eq]
    rfl
  | cons e rest ih =>
    obtain ⟨q, s⟩ := e
    rw [tallyEntries, Table.lookup_cons_eq]
    by_cases eq : q = package
    · subst eq
      rw [if_pos rfl, Table.lookup_cons_eq]
      by_cases hp : p = q <;> simp [hp]
    · rw [if_neg eq, Table.lookup_cons_eq, ih]
      by_cases hp : p = q
      · subst hp
        simp [eq]
      · simp [hp]

/-- Whether the assembler has counted for each package what the graph holds. -/
def Agrees (a : Assembler) (g : ImportGraph) : Prop := ∀ p, a.entries.lookup p = g.table.find? p

theorem agrees_merge {a : Assembler} {g : ImportGraph} (h : a.Agrees g) (f : FileImports) :
    (a.merge f).Agrees (g.addFile f) := by
  intro p
  rw [merge, ImportGraph.addFile, ImportGraph.find?_add]
  simp only [lookup_tallyEntries, h p, ImportGraph.stats]

theorem agrees_foldl {a : Assembler} {g : ImportGraph} (h : a.Agrees g)
    (files : List FileImports) :
      (files.foldl merge a).Agrees (files.foldl ImportGraph.addFile g) := by
  induction files generalizing a g with
  | nil => exact h
  | cons f rest ih => exact ih (agrees_merge h f)

theorem find?_foldl_insert {l : List (String × Stats)} (distinct : (l.map (·.1)).Nodup)
    (t : Table Stats) (p : String) :
    (l.foldl (fun t (package, stats) => t.insert package stats) t).find? p =
      (l.lookup p).or (t.find? p) := by
  induction l generalizing t with
  | nil => rfl
  | cons e rest ih =>
    obtain ⟨q, s⟩ := e
    rw [List.map_cons, List.nodup_cons] at distinct
    rw [List.foldl_cons, ih distinct.2, Table.find?_insert, Table.lookup_cons_eq]
    by_cases eq : p = q
    · subst eq
      have absent : rest.lookup p = none := Table.lookup_eq_none_of_fresh distinct.1
      simp [absent]
    · simp [eq]

theorem find?_finish (a : Assembler) (p : String) :
    a.finish.table.find? p = a.entries.lookup p := by
  rw [finish, find?_foldl_insert a.distinct]
  simp

/-- However the packages are listed at the end, and in whatever order the files came, the result is
the graph of the added files. -/
theorem finish_eq_foldl {files order : List FileImports} (perm : order.Perm files) {a : Assembler}
    (listed : a.entries.Perm (order.foldl merge empty).entries) :
    a.finish = files.foldl ImportGraph.addFile ImportGraph.empty := by
  have agrees : (order.foldl merge empty).Agrees (order.foldl ImportGraph.addFile .empty) :=
    agrees_foldl (fun _ => rfl) order
  rw [← ImportGraph.foldl_addFile_perm perm]
  apply ImportGraph.ext_table
  intro p
  rw [find?_finish, Table.lookup_perm (order.foldl merge empty).distinct listed, agrees p]

end Assembler

theorem ImportGraph.ofFiles_eq_foldl {order files : List FileImports} (perm : order.Perm files) :
    ofFiles order = files.foldl addFile empty :=
  Assembler.finish_eq_foldl perm (.refl _)

/-! ## Files that were extracted -/

namespace Extraction

/-- Whether a contribution is what some source file gives. -/
def Extracted (f : FileImports) : Prop :=
  ∃ tree root language modules cancelled registry path,
    (ofFile tree root language modules cancelled registry path).1 = .ok f

theorem ofSource_ok {language : Language} {modules : ModuleMap} {path : String} {content : Bytes}
    {f : FileImports} (h : ofSource language modules path content = .ok f) :
    f.imports = importsOf (Source.scan language content) := by
  unfold ofSource ofCaptures at h
  dsimp only at h
  split at h
  · cases h
    rfl
  · cases h

theorem ofFile_ok {tree : Node} {root : RawText} {language : Language} {modules : ModuleMap}
    {cancelled : Bool} {registry : Registry} {path : RawText} {f : FileImports}
    (h : (ofFile tree root language modules cancelled registry path).1 = .ok f) :
    ∃ content, tree.read (root.append path) = .ok content ∧
      ofSource language modules path.text content = .ok f := by
  cases read : tree.read (root.append path) with
  | error e =>
    rw [ofFile_of_unread _ _ _ _ read] at h
    cases h
  | ok content =>
    rw [ofFile_of_read _ _ _ _ read] at h
    dsimp only at h
    split at h
    · cases h
    · split at h
      · cases h
      · exact ⟨content, rfl, h⟩

theorem Extracted.nodup_imports {f : FileImports} (h : Extracted f) : f.imports.Nodup := by
  obtain ⟨tree, root, language, modules, cancelled, registry, path, ok⟩ := h
  obtain ⟨content, _, ok⟩ := ofFile_ok ok
  rw [ofSource_ok ok]
  exact nodup_eraseDups _

end Extraction

/-- Where no file repeats an import, occurrences are files. -/
theorem sum_count_eq_length {files : List FileImports} (h : ∀ f ∈ files, f.imports.Nodup)
    (p i : String) :
    ((files.filter (·.package == p)).map (·.imports.count i)).sum =
      (files.filter fun f => f.package == p && f.imports.contains i).length := by
  induction files with
  | nil => rfl
  | cons f rest ih =>
    have ih := ih fun f hf => h f (List.mem_cons_of_mem _ hf)
    have once := (h f List.mem_cons_self).count (a := i)
    rw [List.filter_cons, List.filter_cons]
    by_cases hp : f.package == p <;> by_cases hi : i ∈ f.imports
    all_goals simp only [hp, hi, if_true, if_false, List.map_cons, List.sum_cons, List.length_cons,
      Bool.true_and, Bool.false_and, Bool.false_eq_true, List.contains_iff_mem, once, ih]
    all_goals omega

/-- The graph of some files: in whatever order they are merged, and however the packages are listed
in the end, it is the graph to which the files are added one after the other, and it says of a
package exactly what its files say. -/
theorem assembled_graph (files : List FileImports) :
    let g := files.foldl ImportGraph.addFile ImportGraph.empty
    (∀ order : List FileImports, order.Perm files →
      ImportGraph.ofFiles order = g ∧
      ∀ a : Assembler, a.entries.Perm (order.foldl Assembler.merge Assembler.empty).entries →
        a.finish = g) ∧
    (∀ p, g.contains p = true ↔ ∃ f ∈ files, f.package = p) ∧
    (∀ p i, g.count p i = ((files.filter (·.package == p)).map (·.imports.count i)).sum) ∧
    (∀ p i, i ∈ g.imports p ↔ 0 < g.count p i) ∧
    g.packages.Pairwise Utf8.Before ∧
    (∀ p, (g.imports p).Pairwise Utf8.Before) ∧
    (∀ p stats, (p, stats) ∈ g.table.entries → ∀ i n, (i, n) ∈ stats.entries → n ≠ 0) ∧
    ((∀ f ∈ files, Extraction.Extracted f) → ∀ p i,
      g.count p i = (files.filter fun f => f.package == p && f.imports.contains i).length) := by
  intro g
  have positive : g.Positive := (ImportGraph.reachable_foldl .empty files).positive
  have counts : ∀ p i,
      g.count p i = ((files.filter (·.package == p)).map (·.imports.count i)).sum := by
    intro p i
    rw [ImportGraph.count_foldl]
    exact Nat.zero_add _
  refine ⟨?_, ?_, counts, ImportGraph.mem_imports_iff positive, ?_, ?_, ?_, ?_⟩
  · intro order perm
    exact ⟨Assembler.finish_eq_foldl perm (.refl _), fun a => Assembler.finish_eq_foldl perm⟩
  · intro p
    rw [ImportGraph.contains_foldl]
    simp [ImportGraph.contains, ImportGraph.empty, Table.contains]
  · exact (Utf8.pairwise_before_iff _).2 g.table.sorted_keys
  · exact fun p => (Utf8.pairwise_before_iff _).2 (g.stats p).sorted_keys
  · intro p stats hp i n hi
    rw [← Table.find?_eq_some_iff] at hp hi
    exact Nat.ne_of_gt (positive p stats hp i n hi)
  · intro extracted p i
    rw [counts, sum_count_eq_length fun f hf => (extracted f hf).nodup_imports]

/-- Two sources of one package that share an import. -/
def sharedImport : Node :=
  .dir [("lib", .dir [("a.py", .file (Utf8.encode "import os")),
    ("b.py", .file (Utf8.encode "import os, re"))])]

theorem assembled_graph_two_files :
    let a : FileImports := ⟨"a.py", "lib", ["os"]⟩
    let b : FileImports := ⟨"b.py", "lib", ["os", "re"]⟩
    [b, a].Perm [a, b] ∧ (∀ f ∈ [a, b], Extraction.Extracted f) ∧
      ImportGraph.ofFiles [b, a] = [a, b].foldl ImportGraph.addFile ImportGraph.empty ∧
      ([a, b].foldl ImportGraph.addFile ImportGraph.empty).count "lib" "os" = 2 := by
  intro a b
  have perm : [b, a].Perm [a, b] := .swap ..
  have extracted : ∀ f ∈ [a, b], Extraction.Extracted f := by
    have first : (Extraction.ofFile sharedImport "/lib" .python (Table.empty.insert "." "lib") false
        .empty "a.py").1 = .ok a := by decide +kernel
    have second :
        (Extraction.ofFile sharedImport "/lib" .python (Table.empty.insert "." "lib") false
        .empty "b.py").1 = .ok b := by decide +kernel
    simp only [List.forall_mem_cons, List.not_mem_nil, false_imp_iff, implies_true, and_true]
    exact ⟨⟨_, _, _, _, _, _, _, first⟩, ⟨_, _, _, _, _, _, _, second⟩⟩
  obtain ⟨orders, -, -, -, -, -, -, counts⟩ := assembled_graph [a, b]
  exact ⟨perm, extracted, (orders _ perm).1, counts extracted "lib" "os"⟩

end PackageCoupling
