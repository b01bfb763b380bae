import PackageCoupling.Proofs.Following
import PackageCoupling.Proofs.Listing

/-!
# Which files are listed

Whether a file is listed can be told from its place (`mem_files_iff`): the place holds a file, and
neither the file nor a directory on the way is left out. The path of a listed file leads back to
that place (`resolve_listed`).
-/

namespace PackageCoupling

namespace Lister

/-- A file is listed if its place holds a file and nothing on the way to it is left out. -/
theorem mem_files_iff {l : Lister} (wf : l.tree.WellFormed) (f : List RawText) :
    f ∈ l.files ↔ (∃ c, l.tree.entryAt? (l.root ++ f) = some (.file c)) ∧ l.admitted f = true := by
  simp only [Node.entryAt?_eq_file_iff, Node.find?_append]
  cases found : l.tree.find? l.root with
  | none => simp [files_eq_nil found]
  | some n =>
    rw [files_eq_filter wf found, List.mem_filter,
      Node.mem_filePlaces_iff (Node.wellFormed_find? wf found)]
    rfl

end Lister

/-! ## Listed paths -/

/-- The path of a listed file leads to the file. -/
theorem resolve_listed {tree : Node} (wf : tree.WellFormed) {root : RawText} {place : List RawText}
    (resolved : tree.resolve root = .ok place) {options : ListOptions} {f : List RawText}
    (listed : f ∈ Lister.files ⟨tree, place, options⟩) (below : f ≠ []) :
    tree.resolve (root.append (.ofNames f)) = .ok (place ++ f) := by
  obtain ⟨⟨c, found⟩, -⟩ := (Lister.mem_files_iff (l := ⟨tree, place, options⟩) wf f).1 listed
  exact Node.resolve_append resolved (Lister.files_names (l := ⟨tree, place, options⟩) wf f listed)
    below found (by simp)

end PackageCoupling
