import PackageCoupling.Proofs.EscapeSequences
import PackageCoupling.Proofs.RelativePath
import PackageCoupling.Report.Graph

/-!
# Reports without their colours

Where an analysis holds no escape characters, the only texts of a report that can bring some along
are the paths of diagnostics, because they are shown through the root. A report is a front part
without escape characters and a line for each diagnostic (`EscapeFree.graph_eq`). In such a line a
text that breaks off any sequence stands behind the path (`diagnosticLine_eq`), so what is erased of
the report is what is erased of its spans.
-/

namespace PackageCoupling.Report

open Text

/-! ## The parts of a report -/

theorem escape_notMem_natText (n : Nat) : escape ∉ (Decimal.natText n).toList := by
  intro mem
  rw [Decimal.natText, String.toList_ofList] at mem
  have digit := Nat.isDigit_of_mem_toDigits (by decide) (by decide) mem
  exact absurd digit (by decide)

theorem unescaped_line {spans : Styled} (h : Unescaped spans) : Unescaped (line spans) :=
  unescaped_append h (unescaped_cons (by decide) nofun)

theorem unescaped_branch (last : Bool) {spans : Styled} (h : Unescaped spans) :
    Unescaped (branch last spans) := by
  refine unescaped_line (unescaped_cons ?_ (unescaped_cons (by decide) h))
  cases last <;> decide

theorem unescaped_branches {α : Type} {item : α → Styled} {l : List α}
    (h : ∀ a ∈ l, Unescaped (item a)) : Unescaped (branches item l) := by
  fun_induction branches item l with
  | case1 => exact nofun
  | case2 a => exact unescaped_branch true (h a List.mem_cons_self)
  | case3 a rest _ ih =>
    rw [List.forall_mem_cons] at h
    exact unescaped_append (unescaped_branch false h.1) (ih h.2)

theorem unescaped_importSpans (g : ImportGraph) {entry : String × Nat}
    (h : escape ∉ entry.1.toList) : Unescaped (importSpans g entry) := by
  have name : escape ∉ (if g.contains entry.1 then coloured .blue entry.1
      else plain entry.1).text.toList := by
    split <;> exact h
  have number : escape ∉ (" (" ++ Decimal.natText entry.2 ++ " files)").toList := by
    rw [String.toList_append, String.toList_append]
    refine List.not_mem_append (List.not_mem_append (by decide) (escape_notMem_natText _))
      (by decide)
  unfold importSpans
  dsimp only
  split
  · exact unescaped_cons name (unescaped_cons number nofun)
  · exact unescaped_cons name nofun

theorem unescaped_packageTree (g : ImportGraph) {package : String} {imports : Stats}
    (h : escape ∉ package.toList) (h' : ∀ id ∈ imports.keys, escape ∉ id.toList) :
    Unescaped (packageTree g package imports) := by
  refine unescaped_append (unescaped_append (unescaped_line (unescaped_cons h nofun)) ?_)
    (unescaped_line nofun)
  refine unescaped_branches fun entry mem => unescaped_importSpans g (h' entry.1 ?_)
  exact List.mem_map_of_mem mem

theorem unescaped_graphHeader (g : ImportGraph) : Unescaped (graphHeader g) := by
  unfold graphHeader
  split
  · exact unescaped_line (unescaped_cons (by decide) (unescaped_cons (by decide) nofun))
  · refine unescaped_append (unescaped_line ?_) (unescaped_line nofun)
    exact unescaped_cons (by decide) (unescaped_cons (by decide)
      (unescaped_cons (escape_notMem_natText _) (unescaped_cons (by decide) nofun)))

theorem unescaped_diagnosticsHeader (count : Nat) : Unescaped (diagnosticsHeader count) := by
  refine unescaped_append (unescaped_line (unescaped_cons ?_ nofun)) (unescaped_line ?_)
  · show escape ∉ (String.ofList (List.replicate 60 '─')).toList
    rw [String.toList_ofList]
    exact fun mem => absurd (List.eq_of_mem_replicate mem) (by decide)
  · exact unescaped_cons (by decide) (unescaped_cons (by decide)
      (unescaped_cons (escape_notMem_natText _) (unescaped_cons (by decide) nofun)))

/-! ## Diagnostics -/

/-- Behind the path of a diagnostic stands a text that breaks off any sequence the path may have
begun. -/
theorem diagnosticLine_eq (shown : String) {d : Diagnostic}
    (h : ∀ name ∈ d.language, escape ∉ name.toList) : ∃ label, diagnosticLine shown d =
        [plain "  ", coloured .blue shown, plain label, dimmed d.message, plain "\n"] ∧
      escape ∉ label.toList ∧ (plain label).Delimits := by
  unfold diagnosticLine
  cases language : d.language with
  | none => exact ⟨"" ++ ": ", rfl, by decide, ':', by decide, by decide⟩
  | some name =>
    refine ⟨" (" ++ name ++ ")" ++ ": ", rfl, ?_, ' ', ?_, by decide⟩
    · simp only [String.toList_append]
      refine List.not_mem_append
        (List.not_mem_append (List.not_mem_append (by decide) ?_) (by decide)) (by decide)
      exact h name language
    · simp [plain, String.toList_append]

section DiagnosticLine

variable (shown : String) {d : Diagnostic} (h : ∀ name ∈ d.language, escape ∉ name.toList)
  (h' : escape ∉ d.message.toList)

include h h'

theorem delimited_diagnosticLine : Delimited (diagnosticLine shown d) := by
  obtain ⟨label, eq, free, delimits⟩ := diagnosticLine_eq shown h
  rw [eq]
  exact ⟨.inl (by decide), .inr ⟨_, rfl, delimits⟩, .inl free, .inl h', .inl (by decide), trivial⟩

theorem hasSequence_diagnosticLine_iff :
    (∀ s ∈ diagnosticLine shown d, ¬HasSequence s.text.toList) ↔ ¬HasSequence shown.toList := by
  obtain ⟨label, eq, free, -⟩ := diagnosticLine_eq shown h
  have none : ∀ {cs : List Char}, escape ∉ cs → ¬HasSequence cs := not_hasSequence_of_notMem
  simp only [eq, List.forall_mem_cons]
  constructor
  · exact fun ⟨_, path, _⟩ => path
  · exact fun path => ⟨none (by decide), path, none free, none h', none (by decide), nofun⟩

end DiagnosticLine

/-! ## The whole report -/

/-- Whether an analysis holds no escape character. -/
structure EscapeFree (a : Analysis) : Prop where
  packages : ∀ p ∈ a.graph.packages, escape ∉ p.toList
  imports : ∀ p ∈ a.graph.packages, ∀ id ∈ a.graph.imports p, escape ∉ id.toList
  paths : ∀ d ∈ a.diagnostics, escape ∉ d.path.toList
  languages : ∀ d ∈ a.diagnostics, ∀ name ∈ d.language, escape ∉ name.toList
  messages : ∀ d ∈ a.diagnostics, escape ∉ d.message.toList

theorem EscapeFree.unescaped_trees {a : Analysis} (free : EscapeFree a) :
    Unescaped (a.graph.table.entries.flatMap fun (package, imports) =>
      packageTree a.graph package imports) := by
  intro s hs
  obtain ⟨⟨package, imports⟩, entry, mem⟩ := List.mem_flatMap.1 hs
  have known : package ∈ a.graph.packages := List.mem_map_of_mem entry
  have row : a.graph.stats package = imports := by
    rw [ImportGraph.stats, (a.graph.table.find?_eq_some_iff package imports).2 entry,
      Option.getD_some]
  exact unescaped_packageTree a.graph (free.packages package known)
    (row ▸ free.imports package known) s mem

/-- A report ends with a line for each diagnostic; nothing in front of them holds an escape
character. -/
theorem EscapeFree.graph_eq {a : Analysis} (free : EscapeFree a) (root cwd : String) :
    ∃ front, Unescaped front ∧ graph a root cwd =
      front ++ a.diagnostics.flatMap fun d =>
        diagnosticLine (Path.relativize root d.path cwd) d := by
  have tree := unescaped_append (unescaped_graphHeader a.graph) free.unescaped_trees
  unfold graph diagnostics
  split
  · rename_i none
    rw [List.isEmpty_iff.1 none]
    exact ⟨_, tree, rfl⟩
  · exact ⟨_, unescaped_append tree (unescaped_diagnosticsHeader _), (List.append_assoc ..).symm⟩

theorem EscapeFree.delimited_graph {a : Analysis} (free : EscapeFree a) (root cwd : String) :
    Delimited (graph a root cwd) := by
  obtain ⟨front, unescaped, eq⟩ := free.graph_eq root cwd
  rw [eq]
  apply unescaped.delimited.append
  apply Delimited.flatMap
  intro d mem
  exact delimited_diagnosticLine _ (free.languages d mem) (free.messages d mem)

/-- The only sequences that a report can hold besides those of its colours come with the paths of
diagnostics. -/
theorem EscapeFree.hasSequence_graph_iff {a : Analysis} (free : EscapeFree a) (root cwd : String) :
    (∀ s ∈ graph a root cwd, ¬HasSequence s.text.toList) ↔
      ∀ d ∈ a.diagnostics, ¬HasSequence (Path.relativize root d.path cwd).toList := by
  obtain ⟨front, unescaped, eq⟩ := free.graph_eq root cwd
  have inFront : ∀ s ∈ front, ¬HasSequence s.text.toList :=
    fun s mem => not_hasSequence_of_notMem (unescaped s mem)
  have inLine (d : Diagnostic) (mem : d ∈ a.diagnostics) :=
    hasSequence_diagnosticLine_iff (Path.relativize root d.path cwd) (free.languages d mem)
      (free.messages d mem)
  rw [eq, List.forall_mem_append, and_iff_right inFront]
  constructor
  · intro none d mem
    rw [← inLine d mem]
    exact fun s hs => none s (List.mem_flatMap.2 ⟨d, mem, hs⟩)
  · intro none s hs
    obtain ⟨d, mem, hs⟩ := List.mem_flatMap.1 hs
    exact (inLine d mem).2 (none d mem) s hs

theorem EscapeFree.escape_notMem_relativize {a : Analysis} (free : EscapeFree a) {root : String}
    (plainRoot : escape ∉ root.toList) (cwd : String) {d : Diagnostic} (mem : d ∈ a.diagnostics) :
    escape ∉ (Path.relativize root d.path cwd).toList := by
  intro shown
  rcases Path.mem_relativize shown with dot | slash | inRoot | inPath
  · exact absurd dot (by decide)
  · exact absurd slash (by decide)
  · exact plainRoot inRoot
  · exact free.paths d mem inPath

/-- Colours change nothing else. For an analysis without escape characters, deleting every sequence
from the report with colours gives what deleting them from the report without colours gives. This is
the report without colours itself exactly if no diagnostic is shown under a path that contains a
sequence. A path is shown through the root, so a root without escape characters suffices. -/
theorem graph_of_erased_colours (a : Analysis) (root cwd : String) (free : EscapeFree a) :
    let report := graph a root cwd
    eraseEscapes (render true report) = eraseEscapes (render false report) ∧
    (eraseEscapes (render true report) = render false report ↔
      ∀ d ∈ a.diagnostics, ¬HasSequence (Path.relativize root d.path cwd).toList) ∧
    (escape ∉ root.toList → eraseEscapes (render true report) = render false report) := by
  intro report
  have delimited : Delimited report := free.delimited_graph root cwd
  have whole :=
    (eraseEscapes_render_eq_iff true delimited).trans (free.hasSequence_graph_iff root cwd)
  refine ⟨?_, whole, fun plainRoot => whole.2 fun d mem => ?_⟩
  · rw [eraseEscapes_render true delimited, eraseEscapes_render false delimited]
  · exact not_hasSequence_of_notMem (free.escape_notMem_relativize plainRoot cwd mem)

/-- Two packages that import each other, two diagnostics with and without a language, and a current
directory with a sequence in its name. -/
theorem graph_of_erased_colours_twoPackages :
    let g := (ImportGraph.empty.add "p/a" ["p/b", "fmt", "fmt"]).add "p/b" ["p/a"]
    let a : Analysis :=
      ⟨g, [⟨"[0m.go", some "Go", .readFailure, "no such file"⟩,
        ⟨"go.mod", none, .parseFailure, ""⟩], 2⟩
    let report := graph a "/srv/[31m" "/srv/\x1b[31m"
    EscapeFree a ∧ escape ∉ "/srv/[31m".toList ∧
      Path.relativize "/srv/[31m" "[0m.go" "/srv/\x1b[31m" = "../[31m/[0m.go" ∧
      eraseEscapes (render true report) = render false report := by
  intro g a report
  have free : EscapeFree a := by
    constructor <;> decide +kernel
  have root : escape ∉ "/srv/[31m".toList := by decide
  exact ⟨free, root, by decide +kernel,
    (graph_of_erased_colours a "/srv/[31m" "/srv/\x1b[31m" free).2.2 root⟩

/-- A root that holds a sequence is a part of the paths that are shown. With the colours, that
sequence is deleted. -/
theorem escaped_root_deleted :
    let d := Diagnostic.of "Main.java" (some "Java") (.unsupportedLanguage "Main.java" "Java")
    let a : Analysis := ⟨.empty, [d], 0⟩
    let report := graph a "/srv/\x1b[31mx" "/srv"
    EscapeFree a ∧ Path.relativize "/srv/\x1b[31mx" d.path "/srv" = "\x1b[31mx/Main.java" ∧
      eraseEscapes (render true report) ≠ render false report := by
  intro d a report
  have free : EscapeFree a := by
    constructor <;> decide +kernel
  have shown : Path.relativize "/srv/\x1b[31mx" d.path "/srv" = "\x1b[31mx/Main.java" := by
    decide +kernel
  have holds : HasSequence "\x1b[31mx/Main.java".toList :=
    ⟨"\x1b[31m".toList, ⟨['3', '1'], by decide, by decide⟩, [], "x/Main.java".toList, by decide⟩
  refine ⟨free, shown, ?_⟩
  intro same
  rw [eraseEscapes_render_eq_iff true (free.delimited_graph _ _),
    free.hasSequence_graph_iff] at same
  exact same _ List.mem_cons_self (shown ▸ holds)

end PackageCoupling.Report
