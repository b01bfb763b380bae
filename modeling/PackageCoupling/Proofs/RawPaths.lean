import PackageCoupling.Path.Raw
import PackageCoupling.Proofs.Decoding
import PackageCoupling.Proofs.PathText

/-!
# Paths as bytes and as texts

Bytes are cut at slashes and put together as characters are (`parts_ofNames`,
`parts_append_root`). A path is shown with its names shown, one after the other
(`text_ofNames`), and the name of an entry is shown as what may name one (`IsName.text`). Different
paths can be shown in the same way; those that are texts cannot (`IsText.eq_of_text_eq`).
-/

namespace PackageCoupling.RawText

/-! ## Texts as names -/

@[simp]
theorem text_ofText (s : String) : (ofText s).text = s := Utf8.lossy_encode s

@[simp]
theorem text?_ofText (s : String) : (ofText s).text? = some s := Utf8.text?_encode s

theorem ofText_injective : Function.Injective ofText := by
  intro a b eq
  rw [← text_ofText a, eq, text_ofText]

@[simp]
theorem ofText_inj {a b : String} : ofText a = ofText b ↔ a = b := ofText_injective.eq_iff

/-- Only the bytes of an ASCII text are shown as it. -/
theorem eq_ofText_of_text {r : RawText} {s : String} (h : r.text = s)
    (ascii : s.toList.all isAscii = true) : r = ofText s :=
  congrArg mk (Utf8.eq_encode_of_lossy h ascii)

/-- Whether bytes name an entry of a directory. -/
def IsName (name : RawText) : Prop :=
  name ≠ "" ∧ name ≠ "." ∧ name ≠ ".." ∧ separator ∉ name.bytes

instance (name : RawText) : Decidable name.IsName := inferInstanceAs (Decidable (_ ∧ _ ∧ _ ∧ _))

theorem slash_notMem_text {r : RawText} (h : separator ∉ r.bytes) : '/' ∉ r.text.toList := by
  intro slash
  rw [text, Utf8.lossy, String.toList_ofList] at slash
  exact h (Utf8.mem_of_mem_shown slash (by decide))

/-- What names an entry is shown as the name of one. -/
theorem IsName.text {name : RawText} (h : name.IsName) : Path.IsName name.text := by
  obtain ⟨notEmpty, notDot, notUp, noSlash⟩ := h
  exact ⟨fun eq => notEmpty (eq_ofText_of_text eq (by decide)),
    fun eq => notDot (eq_ofText_of_text eq (by decide)),
    fun eq => notUp (eq_ofText_of_text eq (by decide)), slash_notMem_text noSlash⟩

theorem isName_map_text {names : List RawText} (h : ∀ name ∈ names, name.IsName) :
    ∀ name ∈ names.map RawText.text, Path.IsName name :=
  List.forall_mem_map.2 fun name mem => (h name mem).text

/-! ## Names and the path that they make -/

theorem parts_ofNames {names : List RawText} (ne : names ≠ [])
    (h : ∀ name ∈ names, name.IsName) : (ofNames names).parts = names := by
  have noSlash : ∀ bs ∈ names.map bytes, separator ∉ bs :=
    List.forall_mem_map.2 fun name mem => (h name mem).2.2.2
  rw [parts, ofNames, Path.segments_intercalate (by simpa using ne) noSlash, List.map_map]
  exact List.map_id names

theorem bytes_ofNames_cons (name next : RawText) (rest : List RawText) :
    (ofNames (name :: next :: rest)).bytes =
      name.bytes ++ separator :: (ofNames (next :: rest)).bytes := by
  simp [ofNames, List.intercalate_cons_cons]

theorem isRooted_ofNames {names : List RawText} (h : ∀ name ∈ names, name.IsName) :
    (ofNames names).isRooted = false := by
  rw [isRooted, beq_eq_false_iff_ne]
  cases names with
  | nil => simp [ofNames]
  | cons name rest =>
    obtain ⟨notEmpty, -, -, noSlash⟩ := h name List.mem_cons_self
    obtain ⟨first, others, bytes⟩ : ∃ b bs, name.bytes = b :: bs :=
      List.exists_cons_of_ne_nil fun nil => notEmpty (congrArg mk nil)
    rw [bytes, List.mem_cons, not_or] at noSlash
    have front : (ofNames (name :: rest)).bytes.head? = some first := by
      cases rest with
      | nil => simp [ofNames, bytes]
      | cons next rest => rw [bytes_ofNames_cons, bytes, List.cons_append, List.head?_cons]
    rw [front]
    exact fun slash => noSlash.1 (Option.some.inj slash).symm

/-- Different names make different paths. -/
theorem ofNames_injective {names names' : List RawText} (h : ∀ name ∈ names, name.IsName)
    (h' : ∀ name ∈ names', name.IsName) (eq : ofNames names = ofNames names') :
    names = names' := by
  -- nothing has one part, and that one is empty
  have none : ∀ {l : List RawText}, (∀ name ∈ l, name.IsName) → ofNames l = ofNames [] →
      l = [] := by
    intro l proper nothing
    refine Decidable.byContradiction fun ne => ?_
    have cut := parts_ofNames ne proper
    rw [nothing] at cut
    exact (proper (ofText "") (cut ▸ by decide)).1 rfl
  by_cases empty : names = []
  · subst empty
    exact (none h' eq.symm).symm
  by_cases empty' : names' = []
  · subst empty'
    exact none h eq
  rw [← parts_ofNames empty h, eq, parts_ofNames empty' h']

/-- What is put behind a root is cut apart from it. -/
theorem parts_append_root {root : RawText} (ne : root ≠ "") {path : RawText}
    (relative : path.isRooted = false) :
    ∃ front, (root.parts = front ∨ root.parts = front ++ [ofText ""]) ∧
      (root.append path).parts = front ++ path.parts := by
  obtain ⟨front, cut, appended⟩ := Path.segments_appendList
    (fun nil => ne (congrArg mk nil)) (beq_eq_false_iff_ne.1 relative)
  refine ⟨front.map mk, cut.imp ?_ ?_, ?_⟩
  · intro eq
    rw [parts, eq]
  · intro eq
    rw [parts, eq, List.map_append]
    rfl
  · rw [parts, append, appended, List.map_append, parts]

/-- Name by name, paths compare as the bytes of their names do. -/
theorem map_bytes_lt {a b : List RawText} (h : a < b) : a.map bytes < b.map bytes := by
  induction h with
  | nil => exact List.nil_lt_cons _ _
  | rel lt => exact List.cons_lt_cons_iff.2 (.inl lt)
  | cons _ ih => exact List.cons_lt_cons_iff.2 (.inr ⟨rfl, ih⟩)

/-! ## Paths as they are shown -/

theorem toList_lossy_append (a b : Bytes) :
    (Utf8.lossy (a ++ separator :: b)).toList =
      (Utf8.lossy a).toList ++ '/' :: (Utf8.lossy b).toList := by
  have ascii : separator < 0x80 := by decide
  simp only [Utf8.lossy, String.toList_ofList]
  rw [Utf8.decode_append_ascii ascii, Utf8.decode_ascii ascii, List.map_append, List.map_cons]
  rfl

/-- A path is shown by its names. -/
theorem text_ofNames (names : List RawText) :
    (ofNames names).text = "/".intercalate (names.map text) := by
  apply String.toList_injective
  rw [String.toList_intercalate]
  induction names with
  | nil => rfl
  | cons name rest ih =>
    cases rest with
    | nil => simp [ofNames, text]
    | cons next rest =>
      rw [text, bytes_ofNames_cons, toList_lossy_append]
      rw [text] at ih
      simp [ih, text, List.intercalate_cons_cons]

/-- The names of a path are the steps of its slash form. -/
theorem steps_slash_ofNames {names : List RawText} (h : ∀ name ∈ names, name.IsName) :
    Path.steps (ofNames names).slash = (names.map text).map .down := by
  rw [slash, Path.slash, Path.steps_stepsText (Path.steps_proper _), text_ofNames,
    Path.steps_intercalate (isName_map_text h)]

/-- Paths with one slash form have names that are shown in the same way. -/
theorem map_text_eq_of_slash_eq {names names' : List RawText} (h : ∀ name ∈ names, name.IsName)
    (h' : ∀ name ∈ names', name.IsName) (eq : (ofNames names).slash = (ofNames names').slash) :
    names.map text = names'.map text := by
  have steps := congrArg Path.steps eq
  rw [steps_slash_ofNames h, steps_slash_ofNames h'] at steps
  exact List.map_injective_iff.2 (fun _ _ => Path.Step.down.inj) steps

/-- The last name of a path is the name of its file. -/
theorem fileName?_ofNames {names : List RawText} (ne : names ≠ [])
    (h : ∀ name ∈ names, name.IsName) : (ofNames names).fileName? = names.getLast? := by
  have kept : names.filter (fun (name : RawText) => name ≠ "" ∧ name ≠ ".") = names := by
    rw [List.filter_eq_self]
    exact fun name mem => by simp [(h name mem).1, (h name mem).2.1]
  have notUp := (h _ (List.getLast_mem ne)).2.2.1
  rw [fileName?, parts_ofNames ne h, kept, List.getLast?_eq_some_getLast ne, Option.filter_some,
    if_pos (by simpa using notUp)]

/-! ## The steps of any path -/

theorem ofNames_parts (r : RawText) : ofNames r.parts = r := by
  rw [ofNames, parts, List.map_map]
  exact congrArg mk ((congrArg _ (List.map_id _)).trans (Path.intercalate_segments r.bytes))

theorem parts_text (r : RawText) : Path.parts r.text = r.parts.map text := by
  have noSlash : ∀ part ∈ r.parts.map text, '/' ∉ part.toList := by
    rw [parts, List.forall_mem_map, List.forall_mem_map]
    exact fun bs cut => slash_notMem_text (Path.slash_notMem_segments cut)
  have ne : r.parts.map text ≠ [] := by simp [parts, Path.segments_ne_nil]
  rw [← Path.parts_intercalate ne noSlash, ← text_ofNames, ofNames_parts]

/-- A part is read as a step in the same way whether by its bytes or as it is shown. -/
theorem ofSegment?_text (part : RawText) : Path.Step.ofSegment? part.text.toList =
    if part ≠ "" ∧ part ≠ "." then some (if part = ".." then .up else .down part.text)
    else none := by
  have shown : ∀ {s : String}, s.toList.all isAscii = true →
      (part.text.toList = s.toList ↔ part = ofText s) := by
    intro s ascii
    refine ⟨fun eq => eq_ofText_of_text (String.toList_injective eq) ascii, ?_⟩
    rintro rfl
    rw [text_ofText]
  have empty : part.text.toList = [] ↔ part = ofText "" := shown (s := "") (by decide)
  have dot : part.text.toList = ['.'] ↔ part = ofText "." := shown (s := ".") (by decide)
  have up : part.text.toList = ['.', '.'] ↔ part = ofText ".." := shown (s := "..") (by decide)
  simp only [Path.Step.ofSegment?, Bool.or_eq_true, beq_iff_eq, empty, dot, up,
    String.ofList_toList]
  by_cases none : part = ofText "" ∨ part = ofText "."
  · rw [if_pos none, if_neg (by simpa [← not_or] using none)]
  · have proper : part ≠ ofText "" ∧ part ≠ ofText "." := not_or.1 none
    rw [if_neg none, if_pos proper]
    split <;> rfl

/-- The last step in the slash form of a path to a file is to its name. -/
theorem getLast?_steps_slash {r name : RawText} (h : r.fileName? = some name) :
    (Path.steps r.slash).getLast? = some (.down name.text) := by
  obtain ⟨last, notUp⟩ := Option.filter_eq_some_iff.1 h
  have steps : Path.steps r.slash =
      (r.parts.filter fun (part : RawText) => part ≠ "" ∧ part ≠ ".").map
        fun (part : RawText) => if part = ".." then .up else .down part.text := by
    rw [slash, Path.slash, Path.steps_stepsText (Path.steps_proper _), Path.steps_eq_parts,
      parts_text, List.filterMap_map, ← List.filterMap_eq_map, List.filterMap_filter]
    refine List.filterMap_congr fun part _ => ?_
    simp [ofSegment?_text]
  rw [steps, List.getLast?_map, last, Option.map_some, if_neg (by simpa using notUp)]

/-! ## Paths that are texts -/

/-- Whether bytes encode a text. -/
def IsText (r : RawText) : Prop := ∃ s : String, r = s

theorem IsText.eq_of_text_eq {a b : RawText} (ha : a.IsText) (hb : b.IsText)
    (eq : a.text = b.text) : a = b := by
  obtain ⟨s, rfl⟩ := ha
  obtain ⟨t, rfl⟩ := hb
  rw [text_ofText, text_ofText] at eq
  rw [eq]

end PackageCoupling.RawText
