import PackageCoupling.Proofs.ByteOrder
import PackageCoupling.Proofs.JsonReading
import PackageCoupling.Report.Graph

/-!
The documents of graphs and analyses read back.

A graph is written as the list of its packages with what each imports, so its text tells two graphs
apart exactly when these lists differ; the counts are not written.
-/

namespace PackageCoupling

namespace ImportGraph

theorem toLists_eq (g : ImportGraph) : g.toLists = g.packages.map fun p => (p, g.imports p) := by
  rw [toLists, packages, Table.keys, List.map_map]
  apply List.map_congr_left
  rintro ⟨p, s⟩ entry
  have found : g.table.find? p = some s := (g.table.find?_eq_some_iff p s).2 entry
  simp [imports, stats, found]

theorem packages_before (g : ImportGraph) : (g.toLists.map (·.1)).Pairwise Utf8.Before := by
  rw [Utf8.pairwise_before_iff, toLists, List.map_map]
  exact g.table.sorted_keys

theorem imports_before {g : ImportGraph} {e : String × List String} (h : e ∈ g.toLists) :
    e.2.Pairwise Utf8.Before := by
  obtain ⟨⟨p, s⟩, _, rfl⟩ := List.mem_map.1 h
  exact (Utf8.pairwise_before_iff _).2 s.sorted_keys

end ImportGraph

namespace Json

theorem readableItems_iff (items : List Json) (room : Nat) :
    readableItems items room ↔ ∀ v ∈ items, readable v room := by
  induction items with
  | nil => simp [readableItems]
  | cons v items ih => simp [readableItems, ih]

theorem readableMembers_iff (members : List (String × Json)) (room : Nat) :
    readableMembers members room ↔ ∀ m ∈ members, readable m.2 room := by
  induction members with
  | nil => simp [readableMembers]
  | cons m members ih => simp [readableMembers, ih]

end Json

namespace Report

open Json

theorem readable_packages (lists : List (String × List String)) {room : Nat} (h : 1 ≤ room) :
    readableMembers (lists.map fun (package, imports) =>
      (package, Json.arr (imports.map .str))) room := by
  rw [readableMembers_iff]
  intro m hm
  obtain ⟨⟨package, imports⟩, _, rfl⟩ := List.mem_map.1 hm
  have items : readableItems (imports.map Json.str) (room - 1) := by
    rw [readableItems_iff]
    intro v hv
    obtain ⟨id, _, rfl⟩ := List.mem_map.1 hv
    rfl
  simp only [readable, items, Bool.and_true, decide_eq_true_eq]
  omega

theorem readable_graphJson (g : ImportGraph) {room : Nat} (h : 2 ≤ room) :
    readable (graphJson g) room := by
  have members := readable_packages g.toLists (show 1 ≤ room - 1 by omega)
  simp only [graphJson, readable, members, Bool.and_true, decide_eq_true_eq]
  omega

theorem readable_diagnosticJson (d : Diagnostic) {room : Nat} (h : 1 ≤ room) :
    readable (diagnosticJson d) room := by
  have positive : 0 < room := h
  cases language : d.language <;>
    simp [diagnosticJson, language, readable, readableMembers, positive]

theorem readable_analysisJson (a : Analysis) : readable (analysisJson a) maxDepth := by
  have reports : readableItems (a.diagnostics.map diagnosticJson) 125 := by
    rw [readableItems_iff]
    intro v hv
    obtain ⟨d, _, rfl⟩ := List.mem_map.1 hv
    exact readable_diagnosticJson d (by decide)
  have graph : readable (graphJson a.graph) 126 := readable_graphJson a.graph (by decide)
  simp [analysisJson, maxDepth, readable, readableMembers, graph, reports]

theorem graphJson_injective {g h : ImportGraph} (eq : graphJson g = graphJson h) :
    g.toLists = h.toLists := by
  refine (List.map_inj_right ?_).1 (Json.obj.inj eq)
  rintro ⟨p, is⟩ ⟨q, js⟩ same
  obtain ⟨rfl, lists⟩ := Prod.mk.inj same
  rw [(List.map_inj_right fun _ _ => Json.str.inj).1 (Json.arr.inj lists)]

/-- The text of a graph reads back as its packages with their imports, both in the order of bytes.
The document of an analysis reads back as an object with that graph and the reports of all files
left out, in order. Two graphs have the same text exactly if they have the same packages with the
same imports. -/
theorem documents_read_back :
    (∀ g : ImportGraph,
      g.toLists = (g.packages.map fun p => (p, g.imports p)) ∧
      read? (graphJson g).compact =
        some (.obj (g.toLists.map fun (package, imports) => (package, .arr (imports.map .str)))) ∧
      (g.toLists.map (·.1)).Pairwise Utf8.Before ∧
      ∀ e ∈ g.toLists, e.2.Pairwise Utf8.Before) ∧
    (∀ a : Analysis, read? (graphDocument a) =
      some (.obj [
        ("graph", .obj (a.graph.toLists.map fun (package, imports) =>
          (package, .arr (imports.map .str)))),
        ("diagnostics", .arr (a.diagnostics.map fun d => .obj [
          ("path", .str d.path),
          ("language", (d.language.map .str).getD .null),
          ("kind", .str d.kind.tag),
          ("message", .str d.message)]))])) ∧
    (∀ g h : ImportGraph, (graphJson g).compact = (graphJson h).compact ↔
      g.toLists = h.toLists) := by
  refine ⟨fun g => ⟨g.toLists_eq, ?_, g.packages_before, fun e => g.imports_before⟩, ?_, ?_⟩
  · exact (read?_write .compact (readable_graphJson g (by decide))).1
  · exact fun a => (read?_write .pretty (readable_analysisJson a)).2
  · intro g h
    constructor
    · intro same
      exact graphJson_injective
        (compact_injective (readable_graphJson g (by decide))
          (readable_graphJson h (by decide)) same)
    · intro same
      rw [graphJson, graphJson, same]

end Report

end PackageCoupling
