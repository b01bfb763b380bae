import PackageCoupling.Checked.Analysis

/-!
Extraction never breaks off: the checked operations on texts, directories and descriptors all
succeed, and give what the plain ones give.
-/

namespace PackageCoupling.Checked

open Source

/-! ## Import texts -/

theorem utf8Size_quote {q : Char} (h : q ∈ quoteMarks) : q.utf8Size = 1 := by
  simp only [quoteMarks, List.mem_cons, List.not_mem_nil, or_false] at h
  rcases h with rfl | rfl | rfl <;> rfl

theorem two_le_byteLength (c d : Char) (rest : List Char) : 2 ≤ byteLength (c :: d :: rest) := by
  rw [byteLength_cons, byteLength_cons]
  omega

/-- A text is quoted if and only if something stands between two quotes. -/
theorem isQuoted_eq {q : Char} (mark : q ∈ quoteMarks) (cs : List Char) :
    isQuoted cs q = (between? q cs).isSome := by
  match cs with
  | [] => rfl
  | [c] =>
    by_cases eq : c = q
    · subst eq
      simp [isQuoted, between?, byteLength, utf8Size_quote mark]
    · simp [isQuoted, between?, eq]
  | c :: d :: rest =>
    have long := two_le_byteLength c d rest
    simp only [between?, isQuoted, long, decide_true, Bool.true_and, List.head?_cons,
      List.getLast?_cons_cons, Option.some_beq_some]
    split <;> simp_all

/-- Quotes are one byte long, so the ends of the slice lie between characters. -/
theorem slice_quoted {q : Char} (mark : q ∈ quoteMarks) (inner : List Char) :
    slice (q :: inner ++ [q]) 1 (byteLength (q :: inner ++ [q]) - 1) = .ok inner := by
  have one : byteLength [q] = 1 := by simp [byteLength, utf8Size_quote mark]
  have stop : byteLength (q :: inner ++ [q]) - 1 = byteLength ([q] ++ inner) := by
    rw [byteLength_append, one, Nat.add_sub_cancel]
    rfl
  rw [stop, ← one]
  exact slice_append [q] inner [q]

theorem unquote_ok (s : String) : unquote s = .ok (PackageCoupling.unquote s) := by
  unfold unquote PackageCoupling.unquote
  dsimp only
  generalize Text.trimList s.toList = cs
  cases found : quoteMarks.findSome? (between? · cs) with
  | none =>
    rw [List.findSome?_eq_none_iff] at found
    have unquoted : quoteMarks.any (isQuoted cs) = false := by
      rw [List.any_eq_false]
      intro q mark
      rw [isQuoted_eq mark, found q mark]
      exact Bool.false_ne_true
    rw [unquoted]
    rfl
  | some inner =>
    obtain ⟨q, mark, between⟩ := List.exists_of_findSome?_eq_some found
    have quoted : quoteMarks.any (isQuoted cs) = true := by
      rw [List.any_eq_true]
      exact ⟨q, mark, by rw [isQuoted_eq mark, between, Option.isSome_some]⟩
    rw [quoted, if_pos rfl, eq_of_between? between]
    have long : 1 ≤ byteLength (q :: inner ++ [q]) := by
      rw [List.cons_append, byteLength_cons]
      exact Nat.le_add_left _ _
    rw [sub_ok long, ok_bind, slice_quoted mark]
    rfl

theorem importsOf_ok (captures : List Capture) :
    importsOf captures = .ok (Extraction.importsOf captures) := by
  rw [importsOf, mapM_ok fun s _ => unquote_ok s]
  rfl

/-! ## Directories -/

theorem nearest?_ok (m : ModuleMap) (dir : String) : nearest? m dir = .ok (m.nearest? dir) := by
  fun_induction ModuleMap.nearest? m dir with
  | case1 =>
    rw [nearest?]
    rfl
  | case2 dir inside id found =>
    rw [nearest?, dif_neg inside, found]
  | case3 dir inside absent ih =>
    rw [nearest?, dif_neg inside, absent]
    dsimp only
    split
    · rename_i outer out
      rw [around_ok] at out
      cases out
      exact ih
    · rename_i p out
      rw [around_ok] at out
      cases out

theorem directoryPath_ok (m : ModuleMap) (file : String) :
    directoryPath m file = .ok (m.directoryPath file) := by
  unfold directoryPath ModuleMap.directoryPath
  dsimp only
  rw [nearest?_ok, ok_bind]
  cases m.nearest? (Path.parent file) with
  | some found => rfl
  | none => cases m.find? "." <;> rfl

/-! ## Files -/

theorem ofSource_ok (language : Language) (modules : ModuleMap) (path : String) (content : Bytes) :
    ofSource language modules path content =
      .ok (Extraction.ofSource language modules path content) := by
  unfold ofSource Extraction.ofSource Extraction.ofCaptures
  dsimp only
  rw [directoryPath_ok, ok_bind, importsOf_ok]
  cases Extraction.packageName? language (scan language content)
    (modules.directoryPath (Path.slash path)) <;> rfl

theorem ofFile_ok (tree : Node) (root : RawText) (language : Language) (modules : ModuleMap)
    (cancelled : Bool) (registry : Registry) (path : RawText) :
    ofFile tree root language modules cancelled registry path =
      .ok (Extraction.ofFile tree root language modules cancelled registry path) := by
  unfold ofFile Extraction.ofFile
  cases tree.read (root.append path) with
  | error e => rfl
  | ok content =>
    dsimp only
    rw [ofSource_ok]
    cases (registry.acquire language).isPoisoned language with
    | true => rfl
    | false => cases cancelled <;> rfl

/-! ## Descriptors -/

/-- The first identifier is read only where there is exactly one. -/
theorem identifier_ok (kind : DescriptorKind) (path content : String) :
    identifier kind path content = .ok (Descriptor.identifier kind path content) := by
  unfold identifier Descriptor.identifier
  match Descriptor.identifiers? kind content with
  | none => rfl
  | some [] => rfl
  | some [id] => rfl
  | some (_ :: _ :: _) => rfl

theorem resolveStep_ok (tree : Node) (root : RawText) (kind : DescriptorKind)
    (s : ModuleMap × List Diagnostic) (path : RawText) :
    resolveStep tree root kind s path = .ok (Descriptor.resolveStep tree root kind s path) := by
  unfold resolveStep Descriptor.resolveStep Descriptor.ofFile
  cases tree.readText (root.append path) with
  | error e => rfl
  | ok content =>
    dsimp only
    rw [identifier_ok, ok_bind]
    cases Descriptor.identifier kind path.text content <;> rfl

theorem resolve_ok (tree : Node) (root : RawText) (kind : DescriptorKind) (paths : List RawText) :
    resolve tree root kind paths = .ok (Descriptor.resolve tree root kind paths) :=
  foldlM_ok (fun _ _ => True)
    (fun path _ s _ => ⟨resolveStep_ok tree root kind s path, trivial⟩) trivial

/-! ## Sources -/

theorem extractAll_ok (tree : Node) (root : RawText) (modules : DescriptorKind → ModuleMap)
    (cancelled : Bool) (registry : Registry) (work : List (RawText × Language)) :
    extractAll tree root modules cancelled registry work =
      .ok (Analysis.extractAll tree root modules cancelled registry work) := by
  induction work generalizing registry with
  | nil => rfl
  | cons source rest ih =>
    obtain ⟨path, l⟩ := source
    rw [Analysis.extractAll_cons, extractAll, ofFile_ok, ok_bind]
    rcases Extraction.ofFile tree root l (modules l.descriptor) cancelled registry path with
      ⟨fault | file, registry⟩
    · dsimp only
      rw [ih]
      split <;> rfl
    · dsimp only
      rw [ih]
      rfl

end PackageCoupling.Checked
