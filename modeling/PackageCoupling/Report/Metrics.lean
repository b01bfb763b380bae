import PackageCoupling.Coupling.Metrics
import PackageCoupling.Decimal.Fixed
import PackageCoupling.Decimal.Shortest
import PackageCoupling.Report.Graph

/-!
Reports of coupling metrics: a table with a summary, the packages above a bound, and a JSON
document.
-/

namespace PackageCoupling.Report

open Text

/-- Ratios are shown with three decimal places. -/
def ratio (x : Float) : String := Decimal.fixedText 3 x

def padLeft (width : Nat) (s : String) : String :=
  String.ofList (List.replicate (width - s.length) ' ') ++ s

def padRight (width : Nat) (s : String) : String :=
  s ++ String.ofList (List.replicate (width - s.length) ' ')

/-- The width of the first column is the greatest number of bytes in a name, at least that of its
heading. -/
def nameWidth (figures : List Figures) : Nat :=
  figures.foldl (fun w f => max w f.package.utf8ByteSize) 7

def instabilityColour (x : Float) : Colour :=
  if 0.8 ≤ x then .red else if x ≤ 0.2 then .green else .yellow

def tableHeader (width ruled : Nat) : Styled :=
  line [bold (padRight width "Package" ++ "  " ++ padLeft 5 "Ca" ++ "  " ++
    padLeft 5 "Ce" ++ "  " ++ padLeft 6 "I")] ++
  rule ruled

def tableRow (width : Nat) (f : Figures) : Styled :=
  line [plain (padRight width f.package ++ "  " ++
      padLeft 5 (Decimal.natText f.inwardCoupling) ++ "  " ++
      padLeft 5 (Decimal.natText f.outwardCoupling) ++ "  "),
    coloured (instabilityColour f.instability) (padLeft 6 (ratio f.instability))]

/-- The package with the greatest instability; of equals the last. -/
def mostUnstable? (figures : List Figures) : Option Figures :=
  figures.foldl (fun best f =>
    match best with
    | none => some f
    | some b => if f.instability < b.instability then some b else some f) none

def meanInstability (figures : List Figures) : Float :=
  figures.foldl (fun sum f => sum + f.instability) 0.0 / Float.ofNat figures.length

def summary (figures : List Figures) : Styled :=
  rule 60 ++
  line [bold "Summary"] ++
  line [plain "  Packages: ", coloured .cyan (Decimal.natText figures.length)] ++
  line [plain "  Mean instability: ", coloured .cyan (ratio (meanInstability figures))] ++
  (match mostUnstable? figures with
   | some f =>
     line [plain "  Most unstable: ", coloured .blue f.package, plain " (",
       coloured .red (ratio f.instability), plain ")"]
   | none => [])

/-- How much wider the table is than its first column. -/
def otherColumns : Nat := 22

/-- A table with a first column and a rule of these widths. -/
def tableOf (figures : List Figures) (width ruled : Nat) : Styled :=
  tableHeader width ruled ++ figures.flatMap (tableRow width) ++ line [] ++ summary figures

def metricsTable (figures : List Figures) : Styled :=
  if figures.isEmpty then noPackages
  else tableOf figures (nameWidth figures) (nameWidth figures + otherColumns)

/-- The heading above packages that exceed a bound. -/
def violationsHeader (count : Nat) (bound : Float) : Styled :=
  line [] ++
  line [boldColoured .yellow "⚠", plain " ", boldColoured .yellow (Decimal.natText count),
    plain (" packages above max instability " ++ ratio bound)]

def violationSpans (v : Violation) : Styled :=
  [plain (v.package ++ " ("), coloured .red (ratio v.instability), plain ")"]

def violations (vs : List Violation) : Styled :=
  match vs with
  | [] => []
  | v :: _ => violationsHeader vs.length v.bound ++ branches violationSpans vs

/-! ## The document -/

def statsJson (s : Stats) : Json :=
  .obj (s.entries.map fun (id, n) => (id, .num (Decimal.natText n)))

def metricsRecord (f : Figures) : Json :=
  .obj [("package", .str f.package),
    ("inward", statsJson f.metrics.inward),
    ("outward", statsJson f.metrics.outward),
    ("inward_coupling", .num (Decimal.natText f.inwardCoupling)),
    ("outward_coupling", .num (Decimal.natText f.outwardCoupling)),
    ("instability", .num (Decimal.dataText f.instability))]

def metricsDocument (figures : List Figures) : String :=
  (Json.arr (figures.map metricsRecord)).pretty ++ "\n"

end PackageCoupling.Report
