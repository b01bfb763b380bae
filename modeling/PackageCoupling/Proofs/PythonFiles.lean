import PackageCoupling.Proofs.Lexemes
import PackageCoupling.Proofs.PackagePath
import PackageCoupling.Source.PythonImports

/-!
# Python files of imports

A `File` holds import statements, one on a line, with comments and empty lines between them;
`File.text` writes it down. The tokens of the text are its lexemes (`reads`) and its statements are
its lines (`captures_lines`), in each of which the modules are found (`ofStatement_tokens`). So what
is extracted from the text are the modules that were written (`ofSource_pythonFile`).
-/

namespace PackageCoupling.Source.PythonImports

def alphabet : Alphabet := ⟨false, "#", [], ['.', ','], rfl, rfl, rfl⟩

/-! ## Reading lexemes -/

theorem isSpace_of_endsBefore {blanks : String} {c : Char}
    (h : (Lexeme.gap blanks).endsBefore c = true) : isSpace c = false := by
  simp only [Lexeme.endsBefore, Bool.or_eq_true, beq_iff_eq, Bool.and_eq_true,
    Bool.not_eq_true'] at h
  rcases h with rfl | ⟨ascii, solid⟩
  · rfl
  · have facts : (isAsciiSpace c || !isSpace c) = true :=
      of_isAscii (p := fun c => isAsciiSpace c || !isSpace c) (by decide) ascii
    simpa [solid] using facts

/-- Neither a quote nor a letter that belongs to one can stand behind a name. -/
theorem unquoted_of_endsBefore {text : String} {c : Char}
    (h : (Lexeme.word text).endsBefore c = true) :
    (c ≠ '"' ∧ c ≠ '\'') ∧ isStringLetter c = false := by
  have other := Lexeme.isWordPart_of_endsBefore h
  refine ⟨⟨?_, ?_⟩, ?_⟩
  · rintro rfl
    cases h
  · rintro rfl
    cases h
  · rw [Bool.eq_false_iff]
    intro letter
    have parts : ['r', 'R', 'b', 'B', 'u', 'U', 'f', 'F', 't', 'T'].all isWordPart = true := rfl
    rw [List.all_eq_true.1 parts c (List.contains_iff_mem.1 letter)] at other
    cases other

theorem quotesAt?_behind_letters {cs rest : List Char} (inside : ∀ c ∈ cs, c ≠ '"' ∧ c ≠ '\'')
    (behind : ∀ c, rest.head? = some c → (c ≠ '"' ∧ c ≠ '\'') ∧ isStringLetter c = false) :
    quotesAt? (((cs ++ rest).map .char).drop (runLength isStringLetter ((cs ++ rest).map .char))) =
      none := by
  induction cs with
  | nil =>
    cases rest with
    | nil => rfl
    | cons c rest =>
      obtain ⟨⟨double, single⟩, letter⟩ := behind c rfl
      simp [runLength, letter, quotesAt?, double, single]
  | cons c cs ih =>
    obtain ⟨⟨double, single⟩, others⟩ := List.forall_mem_cons.1 inside
    rw [List.cons_append, List.map_cons, runLength]
    split
    · exact ih others
    · simp [quotesAt?, double, single]

/-- A name starts no string, although strings can start with letters. -/
theorem lettered?_word {text : String} (fits : (Lexeme.word text).fits alphabet = true)
    {rest : List Char}
    (stops : (Lexeme.word text).StopsAt rest) :
      lettered? ((text.toList ++ rest).map .char) = none := by
  have inside : ∀ c ∈ text.toList, c ≠ '"' ∧ c ≠ '\'' := by
    intro c hc
    have part := List.all_eq_true.1 (Bool.and_eq_true_iff.1 fits).2 c hc
    constructor <;> rintro rfl <;> cases part
  rw [lettered?, quoted?,
    quotesAt?_behind_letters inside fun c hc => unquoted_of_endsBefore (stops c hc)]
  rfl

theorem front_letter {c : Char} (letter : alphabet.isLetter c = true) {gs : List Glyph}
    (plain : lettered? (.char c :: gs) = none) :
    front () (.char c) gs = piece .word (runLength isWordPart gs) (.char c) gs () := by
  have facts : (c != '\n' && !isSpace c && c != '\\' && c != '#' && isWordStart c) = true :=
    alphabet.of_isLetter (p := fun c => c != '\n' && !isSpace c && c != '\\' && c != '#' &&
      isWordStart c) (by decide)
      letter
  simp only [Bool.and_eq_true, Bool.not_eq_true', bne_iff_ne] at facts
  obtain ⟨⟨⟨⟨line, space⟩, backslash⟩, hash⟩, start⟩ := facts
  simp [front, line, space, backslash, hash, plain, start]

theorem front_blank {c : Char} (blank : c = ' ' ∨ c = '\t') (gs : List Glyph) :
    front () (.char c) gs = piece .blank (runLength isSpace gs) (.char c) gs () := by
  rcases blank with rfl | rfl <;> rfl

theorem reads : Reads front (fun _ => true) alphabet [⟨.newline, [.char '\n']⟩] fun _ => True where
  lexeme := by
    intro s x rest _ fits stops
    refine ⟨(), trivial, ?_⟩
    obtain ⟨c, cs, eq, opens⟩ := Lexeme.chars_of_fits fits
    cases x with
    | gap blanks =>
      refine kept_lexeme front _ eq ?_
      have blank := (Lexeme.all_of_gap (p := isSpace) fits rfl rfl).1
      rw [show blanks.toList = c :: cs from eq, List.all_cons, Bool.and_eq_true] at blank
      have length := runLength_append blank.2 fun d hd => isSpace_of_endsBefore (stops d hd)
      have opens : c = ' ' ∨ c = '\t' := by simpa [Lexeme.opens] using opens
      rw [front_blank opens, length]
      rfl
    | comment opening text =>
      refine kept_lexeme front _ eq ?_
      obtain ⟨rfl, rfl⟩ : c = '#' ∧ cs = text.toList := by
        rw [Lexeme.chars_comment fits] at eq
        exact (List.cons.inj eq).imp .symm .symm
      rw [← Lexeme.lineLength_comment fits eq stops]
      rfl
    | word text =>
      refine kept_lexeme front _ eq ?_
      have plain := lettered?_word fits stops
      rw [show text.toList = c :: cs from eq, List.cons_append, List.map_cons] at plain
      rw [front_letter opens plain,
        Lexeme.runLength_word (fun _ => Alphabet.isWordPart_of_isNameChar rfl)
        (fun _ => Lexeme.isWordPart_of_endsBefore) fits eq stops]
      rfl
    | quoted quote text => cases fits
    | mark c =>
      refine kept_lexeme front _ rfl ?_
      simp only [Lexeme.fits, alphabet, List.contains_iff_mem, List.mem_cons, List.not_mem_nil,
        or_false] at fits
      rcases fits with rfl | rfl <;> rfl
  lineEnd := fun _ _ => ⟨(), trivial, rfl⟩

/-! ## Files -/

/-- A name that is none of the words inside import statements. -/
structure Identifier extends alphabet.Name where
  free : text ≠ "as" ∧ text ≠ "import"

/-- Names with dots between them. -/
structure Dotted where
  first : Identifier
  others : List Identifier

/-- A module, maybe under another name. -/
structure Item where
  name : Dotted
  rename : Option Identifier

def Dotted.text (d : Dotted) : String := ".".intercalate ((d.first :: d.others).map (·.text))

def Item.text (item : Item) : String :=
  match item.rename with
  | none => item.name.text
  | some rename => item.name.text ++ " as " ++ rename.text

inductive Statement where
  /-- Imports modules. -/
  | modules (first : Item) (others : List Item)
  /-- Imports a member of a module. -/
  | member (source : Dotted) (known : source.text ≠ "__future__") (name : Identifier)

def Statement.text : Statement → String
  | modules first others => "import " ++ ", ".intercalate ((first :: others).map (·.text))
  | member source _ name => "from " ++ source.text ++ " import " ++ name.text

/-- The modules that a statement imports from. -/
def Statement.sources : Statement → List Dotted
  | modules first others => (first :: others).map (·.name)
  | member source _ _ => [source]

/-- A Python file of import statements, with comments and empty lines between them. -/
structure File where
  body : List (Line Statement)

def File.lines (file : File) : List String :=
  file.body.flatMap (Line.text "#" fun statement => [statement.text])

def File.text (file : File) : String := "\n".intercalate file.lines

/-- The modules that a file imports from, in the order of the text. -/
def File.sources (file : File) : List Dotted := (Line.codes file.body).flatMap (·.sources)

/-! ## Files as lexemes -/

def Dotted.lexemes (d : Dotted) : List Lexeme :=
  .word d.first.text :: d.others.flatMap fun n => [.mark '.', .word n.text]

/-- What gives a module another name. -/
def Item.tail (item : Item) : List Lexeme :=
  match item.rename with
  | none => []
  | some rename => [.gap " ", .word "as", .gap " ", .word rename.text]

def Item.lexemes (item : Item) : List Lexeme := item.name.lexemes ++ item.tail

def Statement.lexemes : Statement → List Lexeme
  | modules first others =>
    .word "import" :: .gap " " :: first.lexemes ++ others.flatMap fun item =>
      .mark ',' :: .gap " " :: item.lexemes
  | member source _ name =>
    .word "from" :: .gap " " :: source.lexemes ++ [.gap " ", .word "import", .gap " ",
      .word name.text]

def File.lexemes (file : File) : List (List Lexeme) :=
  file.body.flatMap (Line.lexemes "#" fun statement => [statement.lexemes])

theorem Dotted.toList_text (d : Dotted) : d.text.toList = lineChars d.lexemes := by
  rw [text, String.toList_intercalate, List.map_map, List.map_cons, intercalate_cons,
    lexemes, lineChars, List.flatMap_cons, List.flatMap_assoc, List.flatMap_map]
  simp [Lexeme.chars]

theorem Item.toList_text (item : Item) : item.text.toList = lineChars item.lexemes := by
  rw [lexemes, lineChars, List.flatMap_append, ← lineChars, ← Dotted.toList_text, text, tail]
  cases item.rename <;> simp [Lexeme.chars]

theorem Statement.toList_text (statement : Statement) :
    statement.text.toList = lineChars statement.lexemes := by
  cases statement with
  | modules first others =>
    rw [text, String.toList_append, String.toList_intercalate, List.map_map, List.map_cons,
      intercalate_cons, List.flatMap_map]
    simp [lexemes, lineChars, Lexeme.chars, Item.toList_text, List.flatMap_assoc]
  | member source known name => simp [text, lexemes, lineChars, Lexeme.chars, Dotted.toList_text]

theorem Dotted.writes (d : Dotted) {rest : List Lexeme} (h : alphabet.Writes rest)
    (follows : ∀ text, rest.head?.all (Lexeme.word text).precedes = true) :
      alphabet.Writes (d.lexemes ++ rest) := by
  have others : ∀ ns : List Identifier, ∀ n : Identifier, alphabet.Writes
      (.word n.text :: ns.flatMap (fun n => [.mark '.', .word n.text]) ++ rest) := by
    intro ns
    induction ns with
    | nil => exact fun n => .cons n.fits h (follows _)
    | cons n' ns ih => exact fun n => .cons n.fits (.cons rfl (ih n') rfl) rfl
  exact others d.others d.first

theorem Item.writes (item : Item) {rest : List Lexeme} (h : alphabet.Writes rest)
    (follows : ∀ text, rest.head?.all (Lexeme.word text).precedes = true) :
      alphabet.Writes (item.lexemes ++ rest) := by
  rw [lexemes, tail, List.append_assoc]
  cases item.rename with
  | none => exact item.name.writes h follows
  | some rename =>
    have tail : alphabet.Writes ([.gap " ", .word "as", .gap " ", .word rename.text] ++ rest) :=
      .cons rfl (.cons rfl (.cons rfl (.cons rename.fits h (follows _)) rfl) rfl) rfl
    exact item.name.writes tail fun _ => rfl

theorem Statement.writes (statement : Statement) : alphabet.Writes statement.lexemes := by
  cases statement with
  | modules first others =>
    have items : ∀ items : List Item, ∀ item : Item, alphabet.Writes
        (.gap " " :: (item.lexemes ++
          items.flatMap fun item => .mark ',' :: .gap " " :: item.lexemes)) := by
      intro items
      induction items with
      | nil => exact fun item => .cons rfl (item.writes .nil fun _ => rfl) rfl
      | cons item' items ih =>
        exact fun item => .cons rfl (item.writes (.cons rfl (ih item') rfl) fun _ => rfl) rfl
    exact .cons rfl (items others first) rfl
  | member source known name =>
    have behind : alphabet.Writes [.gap " ", .word "import", .gap " ", .word name.text] :=
      .cons rfl (.cons rfl (.cons rfl (.cons name.fits .nil rfl) rfl) rfl) rfl
    exact .cons rfl (.cons rfl (source.writes behind fun _ => rfl) rfl) rfl

theorem File.spells (file : File) : alphabet.Spells file.lines file.lexemes :=
  .flatMap (fun line => line.spells fun statement => .single statement.toList_text statement.writes)
    file.body

/-! ## Splitting into statements -/

section Split

variable {α β : Type} {p : α → Bool} {l : List α}

theorem splitWhere_of_none (h : ∀ x ∈ l, p x = false) : splitWhere p l = [l] := by
  induction l with
  | nil => rfl
  | cons x l ih =>
    obtain ⟨first, others⟩ := List.forall_mem_cons.1 h
    simp [splitWhere, first, ih others]

theorem splitWhere_append (h : ∀ x ∈ l, p x = false) {sep : α} (splits : p sep = true)
    (rest : List α) : splitWhere p (l ++ sep :: rest) = l :: splitWhere p rest := by
  induction l with
  | nil => simp [splitWhere, splits]
  | cons x l ih =>
    obtain ⟨first, others⟩ := List.forall_mem_cons.1 h
    simp [splitWhere, first, ih others]

theorem splitWhere_flatMap (h : ∀ x ∈ l, p x = false) {sep : α} (splits : p sep = true)
    {f : β → List α} {ys : List β}
    (none : ∀ y ∈ ys, ∀ x ∈ f y, p x = false) : splitWhere p (l ++ ys.flatMap (sep :: f ·)) =
      l :: ys.map f := by
  induction ys generalizing l with
  | nil => simpa using splitWhere_of_none h
  | cons y ys ih =>
    obtain ⟨first, others⟩ := List.forall_mem_cons.1 none
    rw [List.flatMap_cons, List.cons_append, splitWhere_append h splits, ih first others,
      List.map_cons]

end Split

/-- Without brackets, statements end at all their marks. -/
theorem statements_of_flat {ts : List Token} (flat : ∀ t ∈ ts, isOpening t = false) :
    statements ts = splitWhere endsStatement ts := by
  induction ts with
  | nil => rfl
  | cons t ts ih =>
    obtain ⟨first, others⟩ := List.forall_mem_cons.1 flat
    have outside : (if isOpening t then 0 + 1 else if isClosing t then 0 - 1 else 0) = 0 := by
      simp [first]
    rw [statements, marked, outside, splitWhere, splitWhere, ← ih others, statements]
    cases ends : endsStatement t with
    | true => rfl
    | false => cases splitWhere (·.2) (marked 0 ts) <;> rfl

theorem flat_of_fits {x : Lexeme} (h : x.fits alphabet = true) :
    isOpening x.token = false ∧ endsStatement x.token = false := by
  cases x with
  | gap _ => exact ⟨rfl, rfl⟩
  | comment _ _ => exact ⟨rfl, rfl⟩
  | word _ => exact ⟨rfl, rfl⟩
  | quoted _ _ => cases h
  | mark c =>
    simp only [Lexeme.fits, alphabet, List.contains_iff_mem, List.mem_cons, List.not_mem_nil,
      or_false] at h
    rcases h with rfl | rfl <;> exact ⟨rfl, rfl⟩

/-- Each line is a statement. -/
theorem captures_lines {lines : List String} {spelled : List (List Lexeme)}
    (h : alphabet.Spells lines spelled) : captures (glyphs (Utf8.encode ("\n".intercalate lines))) =
      spelled.flatMap fun line => ofStatement (line.map Lexeme.token) := by
  have read := reads.file h (s := ()) trivial
  simp only [List.filter_true] at read
  have flat : ∀ line ∈ spelled, ∀ t ∈ line.map Lexeme.token, isOpening t = false ∧
      endsStatement t = false := by
    intro line mem t ht
    obtain ⟨x, hx, rfl⟩ := List.mem_map.1 ht
    exact flat_of_fits ((h.2 line mem).fits_of_mem x hx)
  rw [captures, tokens, read]
  cases spelled with
  | nil => rfl
  | cons line spelled =>
    obtain ⟨first, others⟩ := List.forall_mem_cons.1 flat
    rw [List.map_cons, intercalate_cons, List.flatMap_map]
    simp only [List.singleton_append]
    rw [statements_of_flat, splitWhere_flatMap (fun t ht => (first t ht).2) rfl fun line mem t ht =>
      (others line mem t ht).2, List.flatMap_cons, List.flatMap_map, List.flatMap_cons]
    intro t ht
    simp only [List.mem_append, List.mem_flatMap, List.mem_cons] at ht
    rcases ht with ht | ⟨line, mem, rfl | ht⟩
    · exact (first t ht).1
    · rfl
    · exact (others line mem t ht).1

/-! ## Statements -/

theorem ofStatement_note (n : Note) : ofStatement ((n.lexemes "#").map Lexeme.token) = [] := by
  have filler : ((n.lexemes "#").map Lexeme.token).dropWhile isFiller = [] := by
    rw [List.dropWhile_eq_nil_iff]
    intro t ht
    simp [isFiller, n.isTrivia_tokens "#" t ht]
  rw [ofStatement, filler]

def Dotted.tokens (d : Dotted) : List Token := d.lexemes.map Lexeme.token

theorem Dotted.mem_lexemes {d : Dotted} {x : Lexeme} (h : x ∈ d.lexemes) :
    x = .mark '.' ∨ ∃ n : Identifier, x = .word n.text := by
  rw [lexemes, List.mem_cons, List.mem_flatMap] at h
  rcases h with rfl | ⟨n, -, h⟩
  · exact .inr ⟨d.first, rfl⟩
  · simp only [List.mem_cons, List.not_mem_nil, or_false] at h
    exact h.imp_right fun eq => ⟨n, eq⟩

/-- Inside a dotted name there are no blanks, commas or keywords. -/
theorem Dotted.mem_tokens {d : Dotted} {t : Token} (h : t ∈ d.tokens) :
    isFiller t = false ∧ t.isPunct "," = false ∧ t.isWord "as" = false ∧
      t.isWord "import" = false := by
  obtain ⟨x, hx, rfl⟩ := List.mem_map.1 h
  rcases d.mem_lexemes hx with rfl | ⟨n, rfl⟩
  · exact ⟨rfl, rfl, rfl, rfl⟩
  · refine ⟨rfl, rfl, ?_, ?_⟩
    · rw [Lexeme.isWord_token]
      exact beq_eq_false_iff_ne.2 n.free.1
    · rw [Lexeme.isWord_token]
      exact beq_eq_false_iff_ne.2 n.free.2

theorem Dotted.isDotted_tokens (d : Dotted) : isDotted d.tokens = true := by
  have names : ∀ ns : List Identifier, ∀ n : Identifier,
      isDotted ((Lexeme.word n.text :: ns.flatMap fun n =>
      [.mark '.', .word n.text]).map Lexeme.token) = true := by
    intro ns
    induction ns with
    | nil => exact fun n => rfl
    | cons n' ns ih => exact fun n => ih n'
  exact names d.others d.first

/-- The blank between words. -/
def blank : Token := (Lexeme.gap " ").token

section Between

variable (d : Dotted) {after : List Token} (filler : after.all isFiller = true)

include filler

theorem Dotted.solid_tokens : solid (blank :: d.tokens ++ after) = d.tokens := by
  have front : solid d.tokens = d.tokens := by
    refine List.filter_eq_self.2 fun t ht => ?_
    simp [(mem_tokens ht).1]
  have back : solid after = [] := by
    refine List.filter_eq_nil_iff.2 fun t ht => ?_
    simp [List.all_eq_true.1 filler t ht]
  change solid (d.tokens ++ after) = d.tokens
  rw [solid, List.filter_append, ← solid, ← solid, front, back, List.append_nil]

theorem Dotted.trimmed_tokens : trimmed (blank :: d.tokens ++ after) = d.tokens := by
  have kept : ∀ ts : List Token, (∀ t ∈ ts, t ∈ d.tokens) → ∀ rest, ts ≠ [] →
      (ts ++ rest).dropWhile isFiller = ts ++ rest := by
    intro ts sub rest ne
    cases ts with
    | nil => exact absurd rfl ne
    | cons t ts => simp [(mem_tokens (sub t List.mem_cons_self)).1]
  have ne : d.tokens ≠ [] := List.cons_ne_nil _ _
  have front : (blank :: d.tokens ++ after).dropWhile isFiller = d.tokens ++ after :=
    kept d.tokens (fun _ h => h) after ne
  have back : (after.reverse ++ d.tokens.reverse).dropWhile isFiller = d.tokens.reverse := by
    rw [List.dropWhile_append_of_pos
      fun t ht => List.all_eq_true.1 filler t (List.mem_reverse.1 ht)]
    simpa using kept d.tokens.reverse (fun _ => List.mem_reverse.1) [] (by simpa using ne)
  rw [trimmed, front, List.reverse_append, back, List.reverse_reverse]

end Between

/-- An item is found with the blank in front of it. -/
theorem item?_tokens (item : Item) :
    item? (blank :: item.lexemes.map Lexeme.token) = some item.name.tokens := by
  have inside : ∀ t ∈ blank :: item.name.tokens, (!t.isWord "as") = true := by
    refine List.forall_mem_cons.2 ⟨rfl, fun t ht => ?_⟩
    simp [(Dotted.mem_tokens ht).2.2.1]
  have found : ∀ after : List Token, after.all isFiller = true →
      (if isDotted (solid (blank :: item.name.tokens ++ after)) && true then
        some (trimmed (blank :: item.name.tokens ++ after)) else none) = some item.name.tokens := by
    intro after filler
    rw [item.name.solid_tokens filler, item.name.trimmed_tokens filler, item.name.isDotted_tokens]
    rfl
  rw [Item.lexemes, List.map_append, ← List.cons_append, item?, ← Dotted.tokens]
  simp only [List.takeWhile_append_of_pos inside, List.dropWhile_append_of_pos inside]
  rw [Item.tail]
  cases item.rename with
  | none => exact found [] rfl
  | some rename => exact found [blank] rfl

theorem Item.isPunct_comma {item : Item} {t : Token}
    (h : t ∈ blank :: item.lexemes.map Lexeme.token) : t.isPunct "," = false := by
  rw [lexemes, List.map_append, List.mem_cons, List.mem_append] at h
  rcases h with rfl | h | h
  · rfl
  · exact (Dotted.mem_tokens h).2.1
  · unfold tail at h
    cases rename : item.rename with
    | none =>
      rw [rename] at h
      cases h
    | some n =>
      simp only [rename, List.map_cons, List.map_nil, List.mem_cons, List.not_mem_nil,
        or_false] at h
      rcases h with rfl | rfl | rfl | rfl <;> rfl

theorem mapM_map {α β γ : Type} {f : α → β} {g : β → Option γ} {k : α → γ}
    (h : ∀ x, g (f x) = some (k x)) (l : List α) : (l.map f).mapM g = some (l.map k) := by
  induction l with
  | nil => rfl
  | cons x l ih => simp [h, ih]

/-- What follows `import` is split at the commas. -/
theorem itemList?_tokens (first : Item) (others : List Item) :
    itemList? (blank :: first.lexemes.map Lexeme.token ++
      others.flatMap fun item =>
        (Lexeme.mark ',').token :: blank :: item.lexemes.map Lexeme.token) =
      some ((first :: others).map (·.name.tokens)) := by
  rw [itemList?,
    splitWhere_flatMap (fun _ => Item.isPunct_comma) rfl fun _ _ _ => Item.isPunct_comma]
  exact mapM_map item?_tokens (first :: others)

theorem capture_dotted (d : Dotted) : capture .importName d.tokens = [⟨.importName, d.text⟩] :=
  capture_tokens _ _ d.toList_text

theorem ofStatement_modules (first : Item) (others : List Item) :
    ofStatement ((Statement.modules first others).lexemes.map Lexeme.token) =
      (first :: others).map fun item => ⟨.importName, item.name.text⟩ := by
  have tokens : (Statement.modules first others).lexemes.map Lexeme.token =
      (Lexeme.word "import").token ::
      (blank :: first.lexemes.map Lexeme.token ++
        others.flatMap fun item =>
          (Lexeme.mark ',').token :: blank :: item.lexemes.map Lexeme.token) := by
    simp [Statement.lexemes, List.map_flatMap, blank]
  have start : ∀ rest, ofStatement ((Lexeme.word "import").token :: rest) =
      ((itemList? rest).getD []).flatMap (capture .importName) := fun _ => rfl
  rw [tokens, start, itemList?_tokens, Option.getD_some, List.flatMap_map, List.map_eq_flatMap]
  exact congrArg (List.flatMap · (first :: others)) (funext fun item => capture_dotted item.name)

section Member

variable {d : Dotted}

theorem isModule_tokens : isModule (blank :: d.tokens ++ [blank]) = true := by
  have start : d.tokens.dropWhile (·.isPunct ".") = d.tokens := rfl
  rw [isModule, d.solid_tokens rfl, start, d.isDotted_tokens]
  rfl

theorem isFuture_tokens (known : d.text ≠ "__future__") :
    isFuture (blank :: d.tokens ++ [blank]) = false := by
  rw [isFuture, d.solid_tokens rfl, Dotted.tokens, Dotted.lexemes]
  cases others : d.others with
  | nil =>
    have text : d.text = d.first.text := by simp [Dotted.text, others]
    have spells : (Lexeme.word d.first.text).token.spells "__future__" =
        (d.first.text == "__future__") :=
      Lexeme.isWord_token ..
    exact spells.trans (beq_eq_false_iff_ne.2 (text ▸ known))
  | cons n ns => rfl

theorem ofStatement_member (known : d.text ≠ "__future__") (name : Identifier) :
    ofStatement ((Statement.member d known name).lexemes.map Lexeme.token) =
      [⟨.importName, d.text⟩] := by
  let behind : List Token :=
    [blank, (Lexeme.word "import").token, blank, (Lexeme.word name.text).token]
  have tokens : (Statement.member d known name).lexemes.map Lexeme.token =
      (Lexeme.word "from").token :: (blank :: d.tokens ++ behind) := by
    simp [Statement.lexemes, Dotted.tokens, blank, behind]
  have start : ∀ rest, ofStatement ((Lexeme.word "from").token :: rest) =
      let source := rest.takeWhile (!·.isWord "import")
      let names := (rest.dropWhile (!·.isWord "import")).drop 1
      if isModule source && !isFuture source && isImportedList names then
        capture .importName (trimmed source)
      else [] := fun _ => rfl
  have inside : ∀ t ∈ blank :: d.tokens, (!t.isWord "import") = true := by
    refine List.forall_mem_cons.2 ⟨rfl, fun t ht => ?_⟩
    simp [(Dotted.mem_tokens ht).2.2.2]
  have source : (blank :: d.tokens ++ behind).takeWhile (!·.isWord "import") = blank :: d.tokens ++
      [blank] := by
    rw [List.takeWhile_append_of_pos inside]
    rfl
  have names : ((blank :: d.tokens ++ behind).dropWhile (!·.isWord "import")).drop 1 =
      [blank, (Lexeme.word name.text).token] := by
    rw [List.dropWhile_append_of_pos inside]
    rfl
  rw [tokens, start]
  simp only [source, names, isModule_tokens, isFuture_tokens known,
    d.trimmed_tokens (rfl : [blank].all isFiller = true), capture_dotted]
  rfl

end Member

theorem ofStatement_tokens (statement : Statement) :
    ofStatement (statement.lexemes.map Lexeme.token) = statement.sources.map fun d =>
      ⟨.importName, d.text⟩ := by
  cases statement with
  | modules first others =>
    rw [ofStatement_modules, Statement.sources, List.map_map]
    rfl
  | member source known name => exact ofStatement_member known name

theorem captures_text (file : File) :
    captures (glyphs (Utf8.encode file.text)) = file.sources.map fun d =>
      ⟨.importName, d.text⟩ := by
  rw [File.text, captures_lines file.spells, File.lexemes, File.sources, List.flatMap_assoc]
  induction file.body with
  | nil => rfl
  | cons line body ih =>
    rw [List.flatMap_cons, ih]
    cases line with
    | note n => rw [Line.lexemes, List.flatMap_singleton, ofStatement_note, List.nil_append,
        Line.codes_note]
    | code statement =>
      rw [Line.lexemes, List.flatMap_singleton, ofStatement_tokens, Line.codes_code,
        List.flatMap_cons, List.map_append]

/-! ## Extraction -/

theorem Dotted.text_ne_empty (d : Dotted) : d.text ≠ "" := by
  intro empty
  have start := (Bool.and_eq_true_iff.1 d.first.fits).1
  have nil := d.toList_text
  rw [empty, lexemes, lineChars, List.flatMap_cons, Lexeme.chars] at nil
  rw [(List.append_eq_nil_iff.1 nil.symm).1] at start
  cases start

theorem Dotted.unquote_text (d : Dotted) : unquote d.text = d.text := by
  apply unquote_of_plain
  intro c hc
  rw [d.toList_text, lineChars, List.mem_flatMap] at hc
  obtain ⟨x, hx, hc⟩ := hc
  rcases d.mem_lexemes hx with rfl | ⟨n, rfl⟩
  · rw [List.mem_singleton.1 hc]
    decide
  · have part := List.all_eq_true.1 (Bool.and_eq_true_iff.1 n.fits).2 c hc
    refine ⟨Alphabet.isBlank_of_isNameChar part, fun mark => ?_⟩
    have others : quoteMarks.all (!alphabet.isNameChar ·) = true := rfl
    simpa [part] using List.all_eq_true.1 others c mark

/-- A Python file of import statements is extracted with the modules that it imports from, in the
order of the text, later repetitions dropped. What comments say does not count, nor do the names
that the imports bind. Its package is the path of its directory in normal form, which is the path
itself unless the file's own path goes up. -/
theorem ofSource_pythonFile (modules : ModuleMap) (path : String) (file : File) :
    let directory := modules.directoryPath (Path.slash path)
    Extraction.ofSource .python modules path (Utf8.encode file.text) =
        .ok ⟨Path.slash path, Path.join directory ".", (file.sources.map (·.text)).eraseDups⟩ ∧
      (.up ∉ Path.steps path → Path.join directory "." = directory) := by
  intro directory
  have found : scan .python (Utf8.encode file.text) = _ := captures_text file
  have imports : Extraction.importsOf (scan .python (Utf8.encode file.text)) =
      (file.sources.map (·.text)).eraseDups := by
    apply Extraction.importsOf_of_unquoted
    · rw [found, Extraction.imported_map, List.map_map]
      exact List.map_congr_left fun d _ => d.unquote_text
    · intro id mem
      obtain ⟨d, -, rfl⟩ := List.mem_map.1 mem
      exact d.text_ne_empty
  refine ⟨?_, join_directoryPath_dot modules⟩
  rw [Extraction.ofSource, ofCaptures_directory rfl, imports]

/-- Two modules under one statement, one of them renamed, and a member of the same module. -/
def renamedImports : File :=
  let os : Identifier := ⟨⟨"os", rfl⟩, by decide⟩
  let path : Identifier := ⟨⟨"path", rfl⟩, by decide⟩
  let sys : Identifier := ⟨⟨"sys", rfl⟩, by decide⟩
  ⟨[.code (.modules ⟨⟨os, [path]⟩, some path⟩ [⟨⟨sys, []⟩, none⟩]),
    .note ⟨.none, some ⟨" import re", rfl⟩⟩, .code (.member ⟨os, [path]⟩ (by decide) sys)]⟩

theorem ofSource_renamedImports :
    let modules : ModuleMap := Table.empty.insert "src" "acme/tool"
    .up ∉ Path.steps "src/cli/run.py" ∧
      renamedImports.text = "import os.path as path, sys\n# import re\nfrom os.path import sys" ∧
      Extraction.ofSource .python modules "src/cli/run.py" (Utf8.encode renamedImports.text) =
        .ok ⟨"src/cli/run.py", "acme/tool/cli", ["os.path", "sys"]⟩ := by
  intro modules
  have plain : .up ∉ Path.steps "src/cli/run.py" := by decide
  have directory : modules.directoryPath (Path.slash "src/cli/run.py") = "acme/tool/cli" := by
    decide +kernel
  have sources : (renamedImports.sources.map (·.text)).eraseDups = ["os.path", "sys"] := by
    decide +kernel
  obtain ⟨extracted, package⟩ := ofSource_pythonFile modules "src/cli/run.py" renamedImports
  refine ⟨plain, by decide +kernel, ?_⟩
  rw [extracted, package plain, directory, sources]
  rfl

end PackageCoupling.Source.PythonImports
