import PackageCoupling.Json.Read

/-!
What is written as JSON reads back, in either layout (`read?_write`).

The reader takes one token at a time, so the statement that carries the induction is about a reader
in the middle of its work: from wherever a value may stand, the text of a value leads it to where
that value has been put into the innermost open container, and what follows the value is still to be
read. Numbers and words end where something else begins, which is why the text behind a value has to
be `Delimited`.
-/

namespace PackageCoupling.Json

/-! ## Tokens -/

theorem tokens_cons (c : Char) (rest : List Char) :
    tokens (c :: rest) =
      (front () c rest).value :: tokens (rest.drop (front () c rest).more) := cutAll_cons ..

@[simp] theorem tokens_nil : tokens [] = [] := rfl

@[simp] theorem tokens_newline (rest : List Char) :
    tokens ('\n' :: rest) = .blank :: tokens rest := rfl

@[simp] theorem tokens_space (rest : List Char) :
    tokens (' ' :: rest) = .blank :: tokens rest := rfl

@[simp] theorem tokens_openSquare (rest : List Char) :
    tokens ('[' :: rest) = .opening .square :: tokens rest := rfl

@[simp] theorem tokens_closeSquare (rest : List Char) :
    tokens (']' :: rest) = .closing .square :: tokens rest := rfl

@[simp] theorem tokens_openCurly (rest : List Char) :
    tokens ('{' :: rest) = .opening .curly :: tokens rest := rfl

@[simp] theorem tokens_closeCurly (rest : List Char) :
    tokens ('}' :: rest) = .closing .curly :: tokens rest := rfl

@[simp] theorem tokens_comma (rest : List Char) :
    tokens (',' :: rest) = .comma :: tokens rest := rfl

@[simp] theorem tokens_colon (rest : List Char) :
    tokens (':' :: rest) = .colon :: tokens rest := rfl

/-! ## Strings -/

theorem hexNumber?_control {n : Nat} (h : n < 32) :
    Text.hexNumber? ['0', '0', Text.hexDigit (n / 16), Text.hexDigit (n % 16)] = some n := by
  have : ∀ n : Fin 32, Text.hexNumber?
      ['0', '0', Text.hexDigit (n / 16), Text.hexDigit (n % 16)] = some n.val := by decide
  exact this ⟨n, h⟩

/-- Whether a piece stands for a character whatever pieces follow. -/
def Piece.StandsFor (p : Piece) (c : Char) : Prop :=
  ∀ ps, joinPieces? (p :: ps) = (joinPieces? ps).map (c :: ·)

theorem char_standsFor (c : Char) : (Piece.char c).StandsFor c := fun _ => by rw [joinPieces?]

/-- Control characters are no surrogates. -/
theorem unit_standsFor {c : Char} (h : c.toNat < 32) : (Piece.unit c.toNat).StandsFor c := by
  have high : isHighSurrogate c.toNat = false := by simp [isHighSurrogate]; omega
  have low : isLowSurrogate c.toNat = false := by simp [isLowSurrogate]; omega
  rintro (_ | ⟨p | n, ps⟩)
  all_goals simp [joinPieces?, high, low, Char.ofNat_toNat]

/-- An escaped character is one piece. -/
theorem pieces?_escape (c : Char) (rest : List Char) :
    ∃ p : Piece, p.StandsFor c ∧ pieces? (escape c ++ rest) =
      (pieces? rest).map fun (ps, used) => (p :: ps, used + (escape c).length) := by
  by_cases short : c ∈ ['"', '\\', '\n', '\r', '\t', Char.ofNat 8, Char.ofNat 12]
  · refine ⟨.char c, char_standsFor c, ?_⟩
    simp only [List.mem_cons, List.not_mem_nil, or_false] at short
    rcases short with rfl | rfl | rfl | rfl | rfl | rfl | rfl
    all_goals rfl
  · simp only [List.mem_cons, List.not_mem_nil, or_false, not_or] at short
    obtain ⟨quote, backslash, n, r, t, b, f⟩ := short
    by_cases control : c.toNat < 32
    · refine ⟨.unit c.toNat, unit_standsFor control, ?_⟩
      simp only [escape, beq_iff_eq, quote, backslash, n, r, t, b, f, control, if_true, if_false,
        List.cons_append, List.nil_append, pieces?, hexNumber?_control control, List.length_cons,
        List.length_nil]
    · refine ⟨.char c, char_standsFor c, ?_⟩
      have kept : escape c = [c] := by simp [escape, quote, backslash, n, r, t, b, f, control]
      rw [kept, List.singleton_append, pieces?]
      · simp [control, backslash]
      · exact quote
      · intros; exact backslash ‹_›
      · intros; exact backslash ‹_›

theorem pieces?_quoted (cs rest : List Char) :
    ∃ ps, pieces? (cs.flatMap escape ++ '"' :: rest) = some (ps, (cs.flatMap escape).length + 1) ∧
      joinPieces? ps = some cs := by
  induction cs with
  | nil => exact ⟨[], rfl, rfl⟩
  | cons c cs ih =>
    obtain ⟨ps, read, joined⟩ := ih
    obtain ⟨p, stands, piece⟩ := pieces?_escape c (cs.flatMap escape ++ '"' :: rest)
    refine ⟨p :: ps, ?_, ?_⟩
    · rw [List.flatMap_cons, List.append_assoc, piece, read, Option.map_some, List.length_append]
      simp only [Option.some.injEq, Prod.mk.injEq, true_and]
      omega
    · rw [stands, joined, Option.map_some]

theorem tokens_quote (s : String) (rest : List Char) :
    tokens (quote s ++ rest) = .text s :: tokens rest := by
  obtain ⟨ps, read, joined⟩ := pieces?_quoted s.toList rest
  have text : front () '"' (s.toList.flatMap escape ++ '"' :: rest) =
      ⟨.text s, (s.toList.flatMap escape).length + 1, ()⟩ := by
    simp [front, read, joined, String.ofList_toList]
  have unfolded : quote s ++ rest = '"' :: (s.toList.flatMap escape ++ '"' :: rest) := by
    simp [quote]
  rw [unfolded, tokens_cons, text, List.drop_length_add_append, List.drop_succ_cons, List.drop_zero]

/-! ## Numbers and words -/

/-- Whether nothing at the front of a text can belong to a number or a word before it. -/
def Delimited (rest : List Char) : Prop :=
  ∀ c ∈ rest.head?, isNumberChar c = false ∧ c.isAlpha = false

/-- Whether a text is the literal of a number. -/
def isLiteral (cs : List Char) : Bool := cs.all isNumberChar && isNumber cs

theorem takeWhile_eq_nil_of_head {p : Char → Bool} {rest : List Char}
    (ends : ∀ c ∈ rest.head?, p c = false) : rest.takeWhile p = [] := by
  cases rest with
  | nil => rfl
  | cons c rest => simp [ends c rfl]

/-- A word ends before anything that is no letter. -/
theorem tokens_word {word : String} {v : Json}
    (known : (word, v) ∈ [("null", Json.null), ("true", .bool true), ("false", .bool false)])
    {rest : List Char} (ends : Delimited rest) :
    tokens (word.toList ++ rest) = .scalar v :: tokens rest := by
  have none : rest.takeWhile Char.isAlpha = [] := takeWhile_eq_nil_of_head fun c hc => (ends c hc).2
  simp only [List.mem_cons, Prod.mk.injEq, List.not_mem_nil, or_false] at known
  rcases known with ⟨rfl, rfl⟩ | ⟨rfl, rfl⟩ | ⟨rfl, rfl⟩
  all_goals simp [tokens_cons, front, isNumberChar, none]

theorem isAlpha_of_isDigit {c : Char} (h : c.isDigit) : c.isAlpha = false := by
  simp only [Char.isDigit, Bool.and_eq_true, decide_eq_true_eq, ge_iff_le,
    UInt32.le_iff_toNat_le] at h
  unfold Char.isAlpha Char.isUpper Char.isLower
  simp only [Bool.or_eq_false_iff, Bool.and_eq_false_iff, decide_eq_false_iff_not, ge_iff_le,
    UInt32.le_iff_toNat_le]
  simp at *
  omega

/-- A number starts with a digit or a minus sign. -/
theorem starts_of_isNumber {c : Char} {cs : List Char} (h : isNumber (c :: cs)) :
    (c == '-' || c.isDigit) = true := by
  cases starts : c == '-' || c.isDigit with
  | true => rfl
  | false =>
    obtain ⟨minus, digit⟩ := Bool.or_eq_false_iff.1 starts
    simp [isNumber, beq_eq_false_iff_ne.1 minus, digit] at h

theorem tokens_number {cs rest : List Char} (literal : isLiteral cs) (ends : Delimited rest) :
    tokens (cs ++ rest) = .scalar (.num (String.ofList cs)) :: tokens rest := by
  obtain ⟨chars, number⟩ := Bool.and_eq_true_iff.1 literal
  have none : rest.takeWhile isNumberChar = [] := takeWhile_eq_nil_of_head fun c hc => (ends c hc).1
  cases cs with
  | nil => simp [isNumber] at number
  | cons c tail =>
    have starts := starts_of_isNumber number
    have other : ∀ d : Char, (d == '-' || d.isDigit) = false → (c == d) = false := by
      rintro d no
      rw [beq_eq_false_iff_ne]
      rintro rfl
      simp [starts] at no
    have front : front () c (tail ++ rest) =
        ⟨.scalar (.num (String.ofList (c :: tail))), tail.length, ()⟩ := by
      have letter : c.isAlpha = false := by
        rcases Bool.or_eq_true_iff.1 starts with minus | digit
        · rw [beq_iff_eq.1 minus]
          rfl
        · exact isAlpha_of_isDigit digit
      obtain ⟨numeric, all⟩ : isNumberChar c = true ∧ ∀ d ∈ tail, isNumberChar d = true := by
        simpa using chars
      have taken : (tail ++ rest).takeWhile isNumberChar = tail := by
        rw [List.takeWhile_append_of_pos all, none, List.append_nil]
      simp (disch := decide) only [front, other, letter, numeric, taken, number, Bool.or_false,
        Bool.not_false, Bool.and_true, if_true, Bool.false_eq_true, if_false]
    rw [List.cons_append, tokens_cons, front, List.drop_left]

/-! ## Values -/

mutual

/-- Whether a value can be read where `room` more containers may be opened: none of its containers
lies deeper, and its numbers are literals of numbers. -/
def readable : Json → Nat → Bool
  | .null, _ | .bool _, _ | .str _, _ => true
  | .num literal, _ => isLiteral literal.toList
  | .arr items, room => 0 < room && readableItems items (room - 1)
  | .obj members, room => 0 < room && readableMembers members (room - 1)

def readableItems : List Json → Nat → Bool
  | [], _ => true
  | item :: items, room => readable item room && readableItems items room

def readableMembers : List (String × Json) → Nat → Bool
  | [], _ => true
  | (_, value) :: members, room => readable value room && readableMembers members room

end

/-! Texts with what follows them, bracketed to the right as they are read. -/

theorem write_arr_append (layout : Layout) (depth : Nat) (item : Json) (items : List Json)
    (rest : List Char) :
    write layout depth (.arr (item :: items)) ++ rest =
      '[' :: (layout.newline (depth + 1) ++ (write layout (depth + 1) item ++
        (writeItems layout (depth + 1) items ++ (layout.newline depth ++ ']' :: rest)))) := by
  show '[' :: _ ++ _ ++ _ ++ _ ++ [']'] ++ rest = _
  simp only [List.append_assoc, List.cons_append, List.nil_append]

theorem write_obj_append (layout : Layout) (depth : Nat) (name : String) (value : Json)
    (members : List (String × Json)) (rest : List Char) :
    write layout depth (.obj ((name, value) :: members)) ++ rest =
      '{' :: (layout.newline (depth + 1) ++ (quote name ++ (layout.colon ++
        (write layout (depth + 1) value ++
          (writeMembers layout (depth + 1) members ++
            (layout.newline depth ++ '}' :: rest)))))) := by
  show '{' :: _ ++ _ ++ _ ++ _ ++ _ ++ _ ++ ['}'] ++ rest = _
  simp only [List.append_assoc, List.cons_append, List.nil_append]

theorem writeItems_append (layout : Layout) (depth : Nat) (item : Json) (items : List Json)
    (rest : List Char) :
    writeItems layout depth (item :: items) ++ rest =
      ',' :: (layout.newline depth ++
        (write layout depth item ++ (writeItems layout depth items ++ rest))) := by
  show ',' :: _ ++ _ ++ _ ++ rest = _
  simp only [List.append_assoc, List.cons_append]

theorem writeMembers_append (layout : Layout) (depth : Nat) (name : String) (value : Json)
    (members : List (String × Json)) (rest : List Char) :
    writeMembers layout depth ((name, value) :: members) ++ rest =
      ',' :: (layout.newline depth ++ (quote name ++ (layout.colon ++ (write layout depth value ++
        (writeMembers layout depth members ++ rest))))) := by
  show ',' :: _ ++ _ ++ _ ++ _ ++ _ ++ rest = _
  simp only [List.append_assoc, List.cons_append]

namespace Reader

@[simp] theorem run_nil (r : Reader) : r.run [] = some r := rfl

@[simp] theorem run_blank (r : Reader) (ts : List Token) : r.run (.blank :: ts) = r.run ts := rfl

/-- The start of a line is passed over. -/
theorem run_newline (r : Reader) (layout : Layout) (depth : Nat) (rest : List Char) :
    r.run (tokens (layout.newline depth ++ rest)) = r.run (tokens rest) := by
  cases layout with
  | compact => rfl
  | pretty =>
    simp only [Layout.newline, List.cons_append, tokens_newline, run_blank]
    generalize 2 * depth = n
    induction n with
    | zero => rfl
    | succ n ih => rw [List.replicate_succ, List.cons_append, tokens_space, run_blank, ih]

/-- The name of a member and what stands behind it. -/
theorem run_name (layout : Layout) (name : String) (rest : List Char) (frames : List Frame) :
    run ⟨.obj done old :: frames, .name mayClose⟩ (tokens (quote name ++ (layout.colon ++ rest))) =
      run ⟨.obj done name :: frames, .value false⟩ (tokens rest) := by
  rw [tokens_quote]
  cases layout <;> rfl

theorem delimited_newline (layout : Layout) (depth : Nat) {c : Char} (rest : List Char)
    (h : isNumberChar c = false ∧ c.isAlpha = false) :
    Delimited (layout.newline depth ++ c :: rest) := by
  cases layout with
  | compact => simpa [Delimited, Layout.newline] using h
  | pretty =>
    simp only [Delimited, Layout.newline, List.cons_append, List.head?_cons, Option.mem_some_iff]
    rintro _ rfl
    exact ⟨rfl, rfl⟩

theorem delimited_items (layout : Layout) (depth outer : Nat) (items : List Json)
    (rest : List Char) :
    Delimited (writeItems layout depth items ++ (layout.newline outer ++ ']' :: rest)) := by
  cases items with
  | nil => exact delimited_newline layout outer rest ⟨rfl, rfl⟩
  | cons item items =>
    rw [writeItems_append]
    rintro _ ⟨⟩
    exact ⟨rfl, rfl⟩

theorem delimited_members (layout : Layout) (depth outer : Nat) (members : List (String × Json))
    (rest : List Char) :
    Delimited (writeMembers layout depth members ++ (layout.newline outer ++ '}' :: rest)) := by
  cases members with
  | nil => exact delimited_newline layout outer rest ⟨rfl, rfl⟩
  | cons member members =>
    rw [writeMembers_append]
    rintro _ ⟨⟩
    exact ⟨rfl, rfl⟩

/-- A bracket opens a container where there is room for one more. -/
theorem run_openSquare {frames : List Frame} (space : frames.length < maxDepth) (mayClose : Bool)
    (ts : List Token) :
    run ⟨frames, .value mayClose⟩ (.opening .square :: ts) =
      run ⟨.arr [] :: frames, .value true⟩ ts := by
  simp [run, step, space]

theorem run_openCurly {frames : List Frame} (space : frames.length < maxDepth) (mayClose : Bool)
    (ts : List Token) :
    run ⟨frames, .value mayClose⟩ (.opening .curly :: ts) =
      run ⟨.obj [] "" :: frames, .name true⟩ ts := by
  simp [run, step, space]

mutual

/-- The text of a value leads the reader over that value. -/
theorem run_write (layout : Layout) (depth : Nat) (mayClose : Bool) (v : Json) (room : Nat)
    (fits : readable v room) (frames : List Frame) (space : frames.length + room ≤ maxDepth)
    (rest : List Char) (ends : Delimited rest) :
    run ⟨frames, .value mayClose⟩ (tokens (write layout depth v ++ rest)) =
      run (complete v frames) (tokens rest) := by
  match v with
  | .null =>
    show run _ (tokens ("null".toList ++ rest)) = _
    rw [tokens_word (v := .null) (by simp) ends]
    rfl
  | .bool true =>
    show run _ (tokens ("true".toList ++ rest)) = _
    rw [tokens_word (v := .bool true) (by simp) ends]
    rfl
  | .bool false =>
    show run _ (tokens ("false".toList ++ rest)) = _
    rw [tokens_word (v := .bool false) (by simp) ends]
    rfl
  | .num literal =>
    show run _ (tokens (literal.toList ++ rest)) = _
    rw [tokens_number fits ends, String.ofList_toList]
    rfl
  | .str s =>
    show run _ (tokens (quote s ++ rest)) = _
    rw [tokens_quote]
    rfl
  | .arr [] =>
    have more : 0 < room := by simpa [readable, readableItems] using fits
    show run _ (.opening .square :: .closing .square :: tokens rest) = _
    rw [run_openSquare (by omega)]
    rfl
  | .obj [] =>
    have more : 0 < room := by simpa [readable, readableMembers] using fits
    show run _ (.opening .curly :: .closing .curly :: tokens rest) = _
    rw [run_openCurly (by omega)]
    rfl
  | .arr (item :: items) =>
    obtain ⟨more, first, others⟩ : 0 < room ∧ readable item (room - 1) ∧
      readableItems items (room - 1) := by
      simpa [readable, readableItems] using fits
    have inner : frames.length + 1 + (room - 1) ≤ maxDepth := by omega
    rw [write_arr_append, tokens_openSquare, run_openSquare (by omega), run_newline,
      run_write layout (depth + 1) true item (room - 1) first (.arr [] :: frames) inner _
        (delimited_items _ _ _ _ _)]
    exact run_writeItems layout (depth + 1) depth items (room - 1) others frames inner [item] rest
  | .obj ((name, value) :: members) =>
    obtain ⟨more, first, others⟩ :
        0 < room ∧ readable value (room - 1) ∧ readableMembers members (room - 1) := by
      simpa [readable, readableMembers] using fits
    have inner : frames.length + 1 + (room - 1) ≤ maxDepth := by omega
    rw [write_obj_append, tokens_openCurly, run_openCurly (by omega), run_newline, run_name,
      run_write layout (depth + 1) false value (room - 1) first (.obj [] name :: frames) inner _
        (delimited_members _ _ _ _ _)]
    exact run_writeMembers layout (depth + 1) depth members (room - 1) others frames inner
      [(name, value)] name rest

/-- The items behind the first and the closing bracket complete the array. -/
theorem run_writeItems (layout : Layout) (depth outer : Nat) (items : List Json) (room : Nat)
    (fits : readableItems items room) (frames : List Frame)
    (space : frames.length + 1 + room ≤ maxDepth)
    (done : List Json) (rest : List Char) :
    run ⟨.arr done :: frames, .after⟩
        (tokens (writeItems layout depth items ++ (layout.newline outer ++ ']' :: rest))) =
      run (complete (.arr (done.reverse ++ items)) frames) (tokens rest) := by
  match items with
  | [] =>
    show run _ (tokens (layout.newline outer ++ ']' :: rest)) = _
    rw [run_newline, List.append_nil]
    rfl
  | item :: items =>
    rw [readableItems, Bool.and_eq_true] at fits
    have next : done.reverse ++ item :: items = (item :: done).reverse ++ items := by simp
    rw [writeItems_append, tokens_comma]
    show run ⟨.arr done :: frames, .value false⟩ _ = _
    rw [run_newline, run_write layout depth false item room fits.1 (.arr done :: frames)
      (by rw [List.length_cons]; omega) _ (delimited_items _ _ _ _ _), next]
    exact run_writeItems layout depth outer items room fits.2 frames space (item :: done) rest

/-- The members behind the first and the closing bracket complete the object. -/
theorem run_writeMembers (layout : Layout) (depth outer : Nat) (members : List (String × Json))
    (room : Nat) (fits : readableMembers members room) (frames : List Frame)
    (space : frames.length + 1 + room ≤ maxDepth) (done : List (String × Json)) (last : String)
    (rest : List Char) :
    run ⟨.obj done last :: frames, .after⟩
        (tokens (writeMembers layout depth members ++ (layout.newline outer ++ '}' :: rest))) =
      run (complete (.obj (done.reverse ++ members)) frames) (tokens rest) := by
  match members with
  | [] =>
    show run _ (tokens (layout.newline outer ++ '}' :: rest)) = _
    rw [run_newline, List.append_nil]
    rfl
  | (name, value) :: members =>
    rw [readableMembers, Bool.and_eq_true] at fits
    have next : done.reverse ++ (name, value) :: members = ((name, value) :: done).reverse ++
        members := by
      simp
    rw [writeMembers_append, tokens_comma]
    show run ⟨.obj done last :: frames, .name false⟩ _ = _
    rw [run_newline, run_name,
      run_write layout depth false value room fits.1 (.obj done name :: frames)
      (by rw [List.length_cons]; omega) _ (delimited_members _ _ _ _ _), next]
    exact run_writeMembers layout depth outer members room fits.2 frames space
      ((name, value) :: done) name rest

end

end Reader

theorem read?_eq_of_run {text : String} {v : Json}
    (h : Reader.start.run (tokens text.toList) = some ⟨[], .finished v⟩) : read? text = some v := by
  rw [read?, h]

/-- A value reads back from its text, also with the end of a line behind it. -/
theorem read?_write (layout : Layout) {v : Json} (fits : readable v maxDepth) :
    read? (String.ofList (write layout 0 v)) = some v ∧
      read? (String.ofList (write layout 0 v) ++ "\n") = some v := by
  have run := Reader.run_write layout 0 false v maxDepth fits [] (by simp)
  have nothing : Delimited [] := fun _ h => nomatch h
  have line : Delimited ['\n'] := fun _ h => by
    cases h
    exact ⟨rfl, rfl⟩
  constructor
  · apply read?_eq_of_run
    rw [String.toList_ofList, ← List.append_nil (write layout 0 v)]
    exact run [] nothing
  · apply read?_eq_of_run
    rw [String.toList_append, String.toList_ofList]
    exact run ['\n'] line

theorem compact_injective {v w : Json} (hv : readable v maxDepth) (hw : readable w maxDepth)
    (h : v.compact = w.compact) : v = w := by
  have back := (read?_write .compact hv).1
  rw [show String.ofList (write .compact 0 v) = w.compact from h] at back
  exact Option.some.inj (back.symm.trans (read?_write .compact hw).1)

end PackageCoupling.Json
