import PackageCoupling.Analysis.Basic
import PackageCoupling.Json.Basic
import PackageCoupling.Path.Relative
import PackageCoupling.Text.Styled

/-!
Reports of an import graph: a tree for readers and a JSON document for programs.
-/

namespace PackageCoupling.Report

open Text

/-- A line of its own. -/
def line (spans : Styled) : Styled := spans ++ [plain "\n"]

/-- A horizontal rule. -/
def rule (width : Nat) : Styled := line [dimmed (String.ofList (List.replicate width '─'))]

def noPackages : Styled := line [boldColoured .yellow "⚠", plain " No packages found"]

/-- An item of a list under a heading, behind its branch. -/
def branch (last : Bool) (spans : Styled) : Styled :=
  line ([dimmed (if last then "└──" else "├──"), plain "  "] ++ spans)

/-- The items of a list under a heading; the last branch has a corner. -/
def branches (item : α → Styled) : List α → Styled
  | [] => []
  | [a] => branch true (item a)
  | a :: rest => branch false (item a) ++ branches item rest

/-! ## Diagnostics -/

/-- A file that was left out, with its path as it is to be shown. -/
def diagnosticLine (shown : String) (d : Diagnostic) : Styled :=
  let language :=
    match d.language with
    | some name => " (" ++ name ++ ")"
    | none => ""
  line [plain "  ", coloured .blue shown, plain (language ++ ": "), dimmed d.message]

def diagnosticsHeader (count : Nat) : Styled :=
  rule 60 ++
  line [boldColoured .yellow "⚠", plain " Skipped ", coloured .yellow (Decimal.natText count),
    plain " files"]

/-- The files that were left out. Their paths below `root` are shown as seen from `cwd`. -/
def diagnostics (root cwd : String) (ds : List Diagnostic) : Styled :=
  if ds.isEmpty then []
  else
    diagnosticsHeader ds.length ++
    ds.flatMap fun d => diagnosticLine (Path.relativize root d.path cwd) d

/-! ## The tree -/

/-- An imported identifier; one that is a package of the graph stands out. -/
def importSpans (g : ImportGraph) (entry : String × Nat) : Styled :=
  let (id, count) := entry
  let name := if g.contains id then coloured .blue id else plain id
  if 1 < count then [name, plain (" (" ++ Decimal.natText count ++ " files)")] else [name]

def packageTree (g : ImportGraph) (package : String) (imports : Stats) : Styled :=
  line [boldColoured .brightWhite package] ++ branches (importSpans g) imports.entries ++ line []

def graphHeader (g : ImportGraph) : Styled :=
  if g.isEmpty then noPackages
  else
    line [boldColoured .green "✓", plain " Import graph (",
      coloured .cyan (Decimal.natText g.size), plain " packages)"] ++ line []

/-- The tree of packages and imports, then the files that were left out. -/
def graph (a : Analysis) (root cwd : String) : Styled :=
  graphHeader a.graph ++
  a.graph.table.entries.flatMap (fun (package, imports) => packageTree a.graph package imports) ++
  diagnostics root cwd a.diagnostics

/-! ## The document -/

def graphJson (g : ImportGraph) : Json :=
  .obj (g.toLists.map fun (package, imports) => (package, .arr (imports.map .str)))

def diagnosticJson (d : Diagnostic) : Json :=
  .obj [("path", .str d.path),
    ("language", (d.language.map Json.str).getD .null),
    ("kind", .str d.kind.tag),
    ("message", .str d.message)]

def analysisJson (a : Analysis) : Json :=
  .obj [("graph", graphJson a.graph), ("diagnostics", .arr (a.diagnostics.map diagnosticJson))]

/-- The document as it is written to a file. -/
def graphDocument (a : Analysis) : String := (analysisJson a).pretty ++ "\n"

end PackageCoupling.Report
