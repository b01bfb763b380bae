import Mathlib.Algebra.Order.BigOperators.Group.List
import PackageCoupling.Proofs.Accounting
import PackageCoupling.Proofs.SafeCounts

/-!
# How many imports a source can hold

A source of some number of bytes has at most as many glyphs, a source of some number of glyphs has
at most as many tokens, and each language finds at most as many imports as there are tokens. So the
imports of all files that are listed in a tree are no more than the bytes of these files
(`occurrences_extractAll_le`).
-/

namespace PackageCoupling

theorem length_cutAll_le {α β σ : Type} (cut : σ → α → List α → Cut β σ) (n : Nat) (s : σ)
    (l : List α) : (cutAll cut n s l).length ≤ l.length := by
  induction l generalizing n s with
  | nil => exact Nat.le_refl _
  | cons a rest ih =>
    cases n with
    | zero => exact Nat.succ_le_succ (ih ..)
    | succ n => exact Nat.le_succ_of_le (ih ..)

namespace Source

theorem length_glyphs_le (content : Bytes) : (glyphs content).length ≤ content.length := by
  have decoded : (Utf8.decode content).length ≤ content.length := length_cutAll_le ..
  unfold glyphs
  split
  · rename_i c rest eq
    rw [eq, List.length_cons] at decoded
    split
    · exact Nat.le_of_succ_le decoded
    · exact decoded
  · exact decoded

theorem length_capture_le (kind : CaptureKind) (ts : List Token) :
    (capture kind ts).length ≤ 1 := by
  unfold capture
  cases (textOf? ts).map fun s => (⟨kind, s⟩ : Capture) with
  | none => exact Nat.zero_le _
  | some c => exact Nat.le_refl _

theorem length_flatMap_capture_le (kind : CaptureKind) (items : List (List Token)) :
    (items.flatMap (capture kind)).length ≤ items.length := by
  induction items with
  | nil => exact Nat.le_refl _
  | cons ts rest ih =>
    have here := length_capture_le kind ts
    rw [List.flatMap_cons, List.length_append, List.length_cons]
    omega

/-- A walk over tokens finds no more than there are if each step finds one at most. -/
theorem length_walk_le {μ : Type} {step : μ → Token → List Capture × μ}
    {walk : μ → List Token → List Capture} (stop : ∀ m, walk m [] = [])
    (go : ∀ m t ts, walk m (t :: ts) = (step m t).1 ++ walk (step m t).2 ts)
    (one : ∀ m t, (step m t).1.length ≤ 1) (m : μ) (ts : List Token) :
    (walk m ts).length ≤ ts.length := by
  induction ts generalizing m with
  | nil => exact Nat.le_of_eq (congrArg _ (stop m))
  | cons t ts ih =>
    have here := one m t
    have later := ih (step m t).2
    rw [go, List.length_append, List.length_cons]
    omega

/-! ## Go -/

theorem GoImports.length_step_le (m : Mode) (t : Token) : (step m t).1.length ≤ 1 := by
  unfold step
  split
  · exact Nat.zero_le _
  all_goals
    repeat' split
    all_goals first | exact length_capture_le .. | exact Nat.zero_le _

theorem GoImports.length_captures_le (gs : List Glyph) : (captures gs).length ≤ gs.length :=
  calc
    (captures gs).length ≤ ((tokens gs).filter (!·.isTrivia)).length :=
      length_walk_le (fun _ => rfl) (fun _ _ _ => rfl) length_step_le ..
    _ ≤ (tokens gs).length := List.length_filter_le ..
    _ ≤ gs.length := length_cutAll_le ..

/-! ## Rust -/

theorem RustImports.length_step_le (m : Mode) (t : Token) : (step m t).1.length ≤ 1 := by
  unfold step
  repeat' split
  all_goals first | exact length_capture_le .. | exact Nat.zero_le _

theorem RustImports.length_captures_le (gs : List Glyph) : (captures gs).length ≤ gs.length :=
  Nat.le_trans (length_walk_le (fun _ => rfl) (fun _ _ _ => rfl) length_step_le ..)
    (length_cutAll_le ..)

/-! ## Python -/

namespace PythonImports

theorem length_splitWhere_le {α : Type} (p : α → Bool) (l : List α) :
    (splitWhere p l).length ≤ l.length + 1 := by
  induction l with
  | nil => exact Nat.le_refl _
  | cons a rest ih =>
    rw [splitWhere, List.length_cons]
    split
    · exact Nat.succ_le_succ ih
    · cases parts : splitWhere p rest with
      | nil => exact Nat.le_add_left _ _
      | cons s more =>
        rw [parts] at ih
        exact Nat.le_succ_of_le ih

theorem sum_splitWhere_le {α : Type} (p : α → Bool) (l : List α) :
    ((splitWhere p l).map List.length).sum ≤ l.length := by
  induction l with
  | nil => exact Nat.le_refl _
  | cons a rest ih =>
    rw [splitWhere, List.length_cons]
    split
    · simp only [List.map_cons, List.length_nil, List.sum_cons]
      omega
    · cases parts : splitWhere p rest with
      | nil => simp
      | cons s more =>
        rw [parts] at ih
        simp only [List.map_cons, List.length_cons, List.sum_cons] at ih ⊢
        omega

theorem length_of_mapM_eq_some {α β : Type} {f : α → Option β} {l : List α} {bs : List β}
    (h : l.mapM f = some bs) : bs.length = l.length := by
  induction l generalizing bs with
  | nil =>
    cases h
    rfl
  | cons a l ih =>
    simp only [List.mapM_cons, bind, Option.bind_eq_some_iff, pure, Option.some.injEq] at h
    obtain ⟨b, -, rest, tail, rfl⟩ := h
    rw [List.length_cons, List.length_cons, ih tail]

/-- The keyword of a statement makes up for the item that no comma follows. -/
theorem length_ofStatement_le (ts : List Token) : (ofStatement ts).length ≤ ts.length := by
  unfold ofStatement
  have shorter := (List.dropWhile_sublist isFiller (l := ts)).length_le
  split
  · rename_i t rest eq
    rw [eq, List.length_cons] at shorter
    split
    · cases found : itemList? rest with
      | none => exact Nat.zero_le _
      | some items =>
        -- Commas separate the items, so there is at most one item more than tokens behind the
        -- keyword.
        have named := length_of_mapM_eq_some found
        have separated := length_splitWhere_le (·.isPunct ",") rest
        have captured := length_flatMap_capture_le .importName items
        rw [Option.getD_some]
        omega
    · split
      · dsimp only
        split
        · have captured := length_capture_le .importName
            (trimmed (rest.takeWhile (!·.isWord "import")))
          omega
        · exact Nat.zero_le _
      · exact Nat.zero_le _
  · exact Nat.zero_le _

theorem map_marked (depth : Nat) (ts : List Token) : (marked depth ts).map (·.1) = ts := by
  induction ts generalizing depth with
  | nil => rfl
  | cons t ts ih => rw [marked, List.map_cons, ih]

theorem length_captures_le (gs : List Glyph) : (captures gs).length ≤ gs.length := by
  have statement : (statements (tokens gs)).map List.length =
      (splitWhere (·.2) (marked 0 (tokens gs))).map List.length := by
    rw [statements, List.map_map]
    apply List.map_congr_left
    intro st _
    exact List.length_map _
  calc
    (captures gs).length = ((statements (tokens gs)).map fun st => (ofStatement st).length).sum :=
      List.length_flatMap
    _ ≤ ((statements (tokens gs)).map List.length).sum :=
      List.sum_le_sum fun st _ => length_ofStatement_le st
    _ ≤ (marked 0 (tokens gs)).length := statement ▸ sum_splitWhere_le ..
    _ = (tokens gs).length := by rw [← List.length_map, map_marked]
    _ ≤ gs.length := length_cutAll_le ..

end PythonImports

/-! ## JavaScript and its relatives -/

namespace ScriptImports

theorem length_walk_le (d : Dialect) (skip : Nat) (previous : Option Token) (ts : List Token) :
    (walk d skip previous ts).length ≤ ts.length := by
  induction ts generalizing skip previous with
  | nil => cases skip <;> exact Nat.le_refl _
  | cons t ts ih =>
    cases skip with
    | succ skip => exact Nat.le_succ_of_le (ih ..)
    | zero =>
      rw [walk]
      split
      · exact Nat.le_succ_of_le (ih ..)
      · have later := ih (atWord d previous t ts).2 (some t)
        have here : ((atWord d previous t ts).1.toList.flatMap fun u =>
            capture .importName [u]).length ≤ 1 := by
          cases (atWord d previous t ts).1 with
          | none => exact Nat.zero_le _
          | some u =>
            rw [Option.toList_some, List.flatMap_singleton]
            exact length_capture_le ..
        rw [List.length_append, List.length_cons]
        omega

theorem length_captures_le (d : Dialect) (gs : List Glyph) : (captures d gs).length ≤ gs.length :=
  calc
    (captures d gs).length ≤ ((Script.tokens d gs).filter (·.kind != .blank)).length :=
      length_walk_le ..
    _ ≤ (Script.tokens d gs).length := List.length_filter_le ..
    _ ≤ gs.length := length_cutAll_le ..

end ScriptImports

/-! ## All languages -/

theorem length_scan_le (language : Language) (content : Bytes) :
    (scan language content).length ≤ content.length := by
  refine Nat.le_trans ?_ (length_glyphs_le content)
  cases language with
  | go => exact GoImports.length_captures_le _
  | rust => exact RustImports.length_captures_le _
  | python => exact PythonImports.length_captures_le _
  | javaScript => exact ScriptImports.length_captures_le ..
  | typeScript => exact ScriptImports.length_captures_le ..
  | tsx => exact ScriptImports.length_captures_le ..

end Source

namespace Extraction

theorem length_importsOf_le (captures : List Source.Capture) :
    (importsOf captures).length ≤ captures.length := by
  unfold importsOf Source.imported
  calc
    _ ≤ ((((captures.filter (·.kind == .importName)).map (·.text)).map unquote).filter
      (· != "")).length :=
      (List.subperm_of_subset (nodup_eraseDups _) fun _ => List.mem_eraseDups.1).length_le
    _ ≤ (((captures.filter (·.kind == .importName)).map (·.text)).map unquote).length :=
      List.length_filter_le ..
    _ = (captures.filter (·.kind == .importName)).length := by rw [List.length_map, List.length_map]
    _ ≤ captures.length := List.length_filter_le ..

end Extraction

namespace Analysis

/-- How many bytes the file at `path` below `root` holds; none if it cannot be read. -/
def bytesAt (tree : Node) (root path : RawText) : Nat :=
  match tree.read (root.append path) with
  | .ok content => content.length
  | .error _ => 0

/-- How many bytes the files hold that an analysis lists. -/
def listedBytes (tree : Node) (root : RawText) (o : AnalyzeOptions) : Nat :=
  match listFiles tree root (listOptions o) with
  | .ok files => (files.map (bytesAt tree root)).sum
  | .error _ => 0

theorem length_imports_le {tree : Node} {root : RawText} {language : Language} {modules : ModuleMap}
    {cancelled : Bool} {registry : Registry} {path : RawText} {f : FileImports}
    (h : (Extraction.ofFile tree root language modules cancelled registry path).1 = .ok f) :
    f.imports.length ≤ bytesAt tree root path := by
  obtain ⟨content, read, source⟩ := Extraction.ofFile_ok h
  unfold bytesAt
  rw [Extraction.ofSource_ok source, read]
  exact Nat.le_trans (Extraction.length_importsOf_le _) (Source.length_scan_le ..)

/-- Where the sources are extracted without a fatal fault, the first of them contributes a file or
none. -/
theorem extractAll_cons_ok {tree : Node} {root : RawText} {modules : DescriptorKind → ModuleMap}
    {cancelled : Bool} {registry : Registry} {path : RawText} {l : Language}
    {rest : List (RawText × Language)} {files : List FileImports} {ds : List Diagnostic}
    (h : (extractAll tree root modules cancelled registry ((path, l) :: rest)).1 =
      .ok (files, ds)) :
    ∃ after others ds', (extractAll tree root modules cancelled after rest).1 = .ok (others, ds') ∧
      (files = others ∨ ∃ file, files = file :: others ∧
        (Extraction.ofFile tree root l (modules l.descriptor) cancelled registry path).1 =
          .ok file) := by
  rw [extractAll_cons] at h
  rcases extracted : Extraction.ofFile tree root l (modules l.descriptor) cancelled
    registry path with
    ⟨fault | file, after⟩
  all_goals
    rw [extracted] at h
    dsimp only at h
  · split at h
    · cases h
    · rcases tail : extractAll tree root modules cancelled after rest with
        ⟨_ | ⟨others, ds'⟩, last⟩ <;>
        rw [tail] at h <;> cases h
      exact ⟨after, others, ds', by rw [tail], .inl rfl⟩
  · rcases tail : extractAll tree root modules cancelled after rest with
      ⟨_ | ⟨others, ds'⟩, last⟩ <;>
      rw [tail] at h <;> cases h
    exact ⟨after, others, ds', by rw [tail], .inr ⟨file, rfl, rfl⟩⟩

theorem occurrences_extractAll_le {tree : Node} {root : RawText}
    {modules : DescriptorKind → ModuleMap}
    {cancelled : Bool} {registry : Registry} {work : List (RawText × Language)}
    {files : List FileImports}
    {ds : List Diagnostic}
    (h : (extractAll tree root modules cancelled registry work).1 = .ok (files, ds)) :
    ImportGraph.occurrences files ≤ (work.map fun w => bytesAt tree root w.1).sum := by
  induction work generalizing registry files ds with
  | nil =>
    cases h
    exact Nat.le_refl _
  | cons w rest ih =>
    obtain ⟨path, l⟩ := w
    obtain ⟨after, others, ds', tail, rfl | ⟨file, rfl, extracted⟩⟩ := extractAll_cons_ok h
    · exact Nat.le_trans (ih tail) (Nat.le_add_left _ _)
    · have here := length_imports_le extracted
      have later := ih tail
      simp only [ImportGraph.occurrences, List.map_cons, List.sum_cons] at later ⊢
      omega

/-- The sources among the listed files hold no more bytes than all of them. -/
theorem sum_work_le (tree : Node) (root : RawText) (languages : List Language)
    (files : List RawText) :
    ((((files.filter (descriptorKind? · == none)).map (classify tree root languages)).filterMap
      Class.source?).map fun w => bytesAt tree root w.1).sum ≤
        (files.map (bytesAt tree root)).sum := by
  rw [List.filterMap_map]
  have own : ∀ path w, (classify tree root languages path).source? = some w → w.1 = path := by
    intro path w h
    unfold classify at h
    repeat' split at h
    all_goals cases h
    rfl
  have sources := map_filterMap_sublist (h := id) own (files.filter (descriptorKind? · == none))
  rw [List.map_id] at sources
  have listed := (sources.trans List.filter_sublist).map (bytesAt tree root)
  rw [List.map_map] at listed
  exact listed.sum_le_sum fun _ _ => Nat.zero_le _

end Analysis

end PackageCoupling
