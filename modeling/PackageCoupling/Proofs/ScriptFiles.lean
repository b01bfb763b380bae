import PackageCoupling.Proofs.Lexemes
import PackageCoupling.Proofs.PackagePath
import PackageCoupling.Source.ScriptImports

/-!
# Scripts of one-line statements

A `File` holds statements of six forms, one on a line, with comments and empty lines between them;
`File.text` writes it down. While only parentheses are open (`Plain`), the tokens of the text are
its lexemes (`reads`). The walk over them takes one statement after the other (`walk_statement`) and
finds the sources of the first five forms, so these are what is extracted from the text in every
dialect (`ofSource_scriptFile`).
-/

namespace PackageCoupling.Source.ScriptImports

open Script

def alphabet : Alphabet :=
  ⟨true, "//", ['"', '\''], [';', '*', '=', '(', ')'], Alphabet.slashes_known, rfl, rfl⟩

/-! ## Reading lexemes -/

theorem isNamePart_of_isNameChar {c : Char} (h : alphabet.isNameChar c = true) :
    isNamePart c = true :=
  alphabet.of_isNameChar (p := isNamePart) (by decide) h

theorem isNamePart_of_endsBefore {text : String} {c : Char}
    (h : (Lexeme.word text).endsBefore c = true) : isNamePart c = false := by
  have part := Lexeme.isWordPart_of_endsBefore h
  simp only [isWordPart, Bool.or_eq_false_iff] at part
  simp only [Lexeme.endsBefore, Bool.and_eq_true, bne_iff_ne] at h
  simp [isNamePart, isNameStart, part, h.1.1.2, h.1.2]

/-- Whether only parentheses are open. -/
def Plain (s : State) : Prop := ∀ c ∈ s.contexts, ∃ head, c = .paren head

section Cut

variable (d : Dialect) {s : State} (plain : Plain s)

include plain

theorem front_of_plain (g : Glyph) (gs : List Glyph) : front d s g gs = inCode d s g gs := by
  unfold front
  cases contexts : s.contexts with
  | nil => rfl
  | cons c cs =>
    obtain ⟨head, rfl⟩ := plain c (contexts ▸ List.mem_cons_self)
    rfl

theorem front_blank {c : Char} (blank : isSpace c = true) (gs : List Glyph) :
    front d s (.char c) gs =
      piece .blank (runLength isSpace gs) (.char c) gs { s with started := true } := by
  have hash : c ≠ '#' := by
    rintro rfl
    cases blank
  simp [front_of_plain d plain, inCode, hash, blank]

theorem front_letter {c : Char} (letter : alphabet.isLetter c = true) (gs : List Glyph) :
    ∃ s', Plain s' ∧
      front d s (.char c) gs = piece .word (runLength isNamePart gs) (.char c) gs s' := by
  have facts : (!isSpace c && isNameStart c &&
      !List.contains ['#', '/', '<', '-', '"', '\'', '\x60', '}'] c) = true :=
    alphabet.of_isLetter (p := fun c => !isSpace c && isNameStart c &&
      !List.contains ['#', '/', '<', '-', '"', '\'', '\x60', '}'] c) (by decide) letter
  simp only [Bool.and_eq_true, Bool.not_eq_true', List.contains_eq_mem, decide_eq_false_iff_not,
    List.mem_cons, List.not_mem_nil, or_false, not_or] at facts
  obtain ⟨⟨space, start⟩, hash, slash, less, minus, double, single, tick, brace⟩ := facts
  let word : Token := ⟨.word, .char c :: gs.take (runLength isNamePart gs)⟩
  refine ⟨s.after word (!s.behindDot && operandWords.any word.spells), plain, ?_⟩
  rw [front_of_plain d plain]
  simp [inCode, hash, slash, less, minus, double, single, tick, brace, space, start, piece, word]

theorem front_quote {quote : Char} {text : String}
    (fits : (Lexeme.quoted quote text).fits alphabet = true) (rest : List Char) :
    ∃ s', Plain s' ∧ front d s (.char quote) ((text.toList ++ [quote] ++ rest).map .char) =
      piece .string (text.toList ++ [quote]).length (.char quote)
        ((text.toList ++ [quote] ++ rest).map .char) s' := by
  obtain ⟨known, path⟩ := Bool.and_eq_true_iff.1 fits
  simp only [alphabet, List.contains_iff_mem, List.mem_cons, List.not_mem_nil, or_false] at known
  have inside : ∀ c ∈ ['\\', quote, '\n', '\r'], c ∉ text.toList := by
    rcases known with rfl | rfl <;> exact notMem_of_isPathChar path rfl
  have ends := quoteEnd?_append inside (by rcases known with rfl | rfl <;> decide) rest
  rw [List.append_assoc, List.singleton_append, List.length_append, List.length_singleton]
  generalize (text.toList ++ quote :: rest).map Glyph.char = gs at ends
  let string : Token := ⟨.string, .char quote :: gs.take (text.toList.length + 1)⟩
  refine ⟨s.after string false, plain, ?_⟩
  have space : isSpace quote = false := by rcases known with rfl | rfl <;> rfl
  rw [front_of_plain d plain]
  rcases known with rfl | rfl <;> simp [inCode, space, ends, piece, string]

/-- A mark is cut off as it stands, and opens or closes no more than a parenthesis. -/
theorem front_mark {c : Char} (fits : (Lexeme.mark c).fits alphabet = true) {rest : List Char}
    (stops : (Lexeme.mark c).StopsAt rest) :
    ∃ s', Plain s' ∧ front d s (.char c) (rest.map .char) =
      piece .punct 0 (.char c) (rest.map .char) s' := by
  have arrow : startsWith ['>'] (rest.map .char) = false := by
    cases rest with
    | nil => rfl
    | cons c rest =>
      have other : c ≠ '>' := by simpa [Lexeme.endsBefore] using stops c rfl
      simp [startsWith, Ne.symm other]
  have others : alphabet.marks.all (fun c => !isSpace c && !isNameStart c) = true := rfl
  have other := List.all_eq_true.1 others c (List.contains_iff_mem.1 fits)
  simp only [Bool.and_eq_true, Bool.not_eq_true'] at other
  let t : Token := ⟨.punct, [.char c]⟩
  rw [front_of_plain d plain]
  simp only [Lexeme.fits, alphabet, List.contains_iff_mem, List.mem_cons, List.not_mem_nil,
    or_false] at fits
  rcases fits with rfl | rfl | rfl | rfl | rfl
  · refine ⟨s.after t true, plain, ?_⟩
    simp [inCode, other, piece, t]
  · refine ⟨s.after t true, plain, ?_⟩
    simp [inCode, other, piece, t]
  · refine ⟨s.after t true, plain, ?_⟩
    simp [inCode, other, piece, t, arrow]
  · refine ⟨(s.after t true).push (.paren (s.previousIs ["if", "while", "for", "with"] [])), ?_, ?_⟩
    · exact List.forall_mem_cons.2 ⟨⟨_, rfl⟩, plain⟩
    · simp [inCode, other, piece, t]
  · refine ⟨closing s t, ?_, ?_⟩
    · intro c mem
      refine plain c (List.drop_subset 1 _ ?_)
      unfold closing at mem
      split at mem <;> exact mem
    · simp [inCode, other, piece, t]

end Cut

theorem kept_blanks_eq (d : Dialect) {s : State} (plain : Plain s) {cs : List Char}
    (blank : cs.all isSpace = true) (ne : cs ≠ []) (rest : List Char) :
    kept (front d) (·.kind != .blank) s (cs ++ rest) =
      kept (front d) (·.kind != .blank) { s with started := true } rest := by
  have cut : ∀ (s : State) (c : Char) (gs : List Glyph), Plain s → isSpace c = true →
      front d s (.char c) gs =
        piece .blank (runLength isSpace gs) (.char c) gs { s with started := true } :=
    fun _ _ gs plain blank => front_blank d plain blank gs
  exact kept_blanks cut (fun _ plain => ⟨plain, rfl⟩) (fun _ => rfl) plain blank ne rest

theorem reads (d : Dialect) : Reads (front d) (·.kind != .blank) alphabet [] Plain where
  lexeme := by
    intro s x rest plain fits stops
    obtain ⟨c, cs, eq, opens⟩ := Lexeme.chars_of_fits fits
    cases x with
    | gap blanks =>
      obtain ⟨blank, ne⟩ := Lexeme.all_of_gap (p := isSpace) fits rfl rfl
      exact ⟨{ s with started := true }, plain, kept_blanks_eq d plain blank ne rest⟩
    | comment opening text =>
      obtain ⟨rfl, rfl⟩ : c = '/' ∧ cs = '/' :: text.toList := by
        rw [Lexeme.chars_comment fits] at eq
        exact (List.cons.inj eq).imp .symm .symm
      refine ⟨{ s with started := true }, plain, kept_lexeme (front d) _ eq ?_⟩
      rw [front_of_plain d plain, ← Lexeme.lineLength_comment fits eq stops]
      rfl
    | word text =>
      obtain ⟨s', plain', cut⟩ := front_letter d plain opens ((cs ++ rest).map .char)
      rw [Lexeme.runLength_word (fun _ => isNamePart_of_isNameChar)
        (fun _ => isNamePart_of_endsBefore) fits eq stops]
        at cut
      exact ⟨s', plain', kept_lexeme (front d) _ eq cut⟩
    | quoted quote text =>
      obtain ⟨s', plain', cut⟩ := front_quote d plain fits rest
      exact ⟨s', plain', kept_lexeme (front d) _ rfl cut⟩
    | mark c =>
      obtain ⟨s', plain', cut⟩ := front_mark d plain fits stops
      exact ⟨s', plain', kept_lexeme (front d) _ rfl cut⟩
  lineEnd := by
    intro s rest plain
    exact ⟨{ s with started := true }, plain,
      kept_blanks_eq d plain rfl (List.cons_ne_nil '\n' []) rest⟩

/-! ## Files -/

/-- A name that is none of the words by which statements start. -/
structure Identifier extends alphabet.Name where
  free : text ≠ "import" ∧ text ≠ "export"

inductive Statement where
  /-- Imports a source for what it does. -/
  | effect (source : alphabet.Literal)
  /-- Imports the default of a source. -/
  | default (name : Identifier) (source : alphabet.Literal)
  /-- Exports what a source exports. -/
  | reexport (source : alphabet.Literal)
  /-- Calls `require`. -/
  | required (name : Identifier) (source : alphabet.Literal)
  /-- Calls `import`. -/
  | dynamic (source : alphabet.Literal)
  /-- Calls any other function. -/
  | call (name callee : Identifier) (other : callee.text ≠ "require") (argument : alphabet.Literal)

def Statement.text : Statement → String
  | effect source => "import " ++ source.written ++ ";"
  | default name source => "import " ++ name.text ++ " from " ++ source.written ++ ";"
  | reexport source => "export * from " ++ source.written ++ ";"
  | required name source => "const " ++ name.text ++ " = require(" ++ source.written ++ ");"
  | dynamic source => "import(" ++ source.written ++ ");"
  | call name callee _ argument => "const " ++ name.text ++ " = " ++ callee.text ++ "(" ++
      argument.written ++ ");"

/-- What a statement imports from. -/
def Statement.source? : Statement → Option alphabet.Literal
  | effect source | default _ source | reexport source | required _ source | dynamic source =>
    some source
  | call .. => none

/-- A script of one-line statements, with comments and empty lines between them. -/
structure File where
  body : List (Line Statement)

def File.lines (file : File) : List String :=
  file.body.flatMap (Line.text "//" fun statement => [statement.text])

def File.text (file : File) : String := "\n".intercalate file.lines

/-- What a file imports from, in the order of the text. -/
def File.sources (file : File) : List alphabet.Literal :=
  (Line.codes file.body).filterMap (·.source?)

/-! ## Files as lexemes -/

def Statement.lexemes : Statement → List Lexeme
  | effect source => [.word "import", .gap " ", source.lexeme, .mark ';']
  | default name source =>
    [.word "import", .gap " ", .word name.text, .gap " ", .word "from", .gap " ",
      source.lexeme, .mark ';']
  | reexport source => [.word "export", .gap " ", .mark '*', .gap " ", .word "from", .gap " ",
      source.lexeme, .mark ';']
  | required name source => [.word "const", .gap " ", .word name.text, .gap " ", .mark '=',
    .gap " ", .word "require", .mark '(', source.lexeme, .mark ')', .mark ';']
  | dynamic source => [.word "import", .mark '(', source.lexeme, .mark ')', .mark ';']
  | call name callee _ argument => [.word "const", .gap " ", .word name.text, .gap " ",
    .mark '=', .gap " ", .word callee.text, .mark '(', argument.lexeme, .mark ')', .mark ';']

def File.lexemes (file : File) : List (List Lexeme) :=
  file.body.flatMap (Line.lexemes "//" fun statement => [statement.lexemes])

theorem Statement.toList_text (statement : Statement) :
    statement.text.toList = lineChars statement.lexemes := by
  unfold text lexemes
  cases statement <;> simp [lineChars, Lexeme.chars, Alphabet.Literal.toList_written]

theorem Statement.writes (statement : Statement) : alphabet.Writes statement.lexemes := by
  have ending (source : alphabet.Literal) : alphabet.Writes [source.lexeme, .mark ';'] :=
    .cons source.fits (.cons rfl .nil rfl) rfl
  have behindFrom (source : alphabet.Literal) :
      alphabet.Writes [.gap " ", .word "from", .gap " ", source.lexeme, .mark ';'] :=
    .cons rfl (.cons rfl (.cons rfl (ending source) rfl) rfl) rfl
  have argument (source : alphabet.Literal) :
      alphabet.Writes [.mark '(', source.lexeme, .mark ')', .mark ';'] :=
    .cons rfl (.cons source.fits (.cons rfl (.cons rfl .nil rfl) rfl) rfl) rfl
  have value (callee : alphabet.Name) (source : alphabet.Literal) :
      alphabet.Writes [.gap " ", .word callee.text, .mark '(', source.lexeme, .mark ')',
        .mark ';'] :=
    .cons rfl (.cons callee.fits (argument source) rfl) rfl
  have called (name callee : alphabet.Name) (source : alphabet.Literal) :
      alphabet.Writes [.word "const", .gap " ", .word name.text, .gap " ", .mark '=', .gap " ",
        .word callee.text, .mark '(', source.lexeme, .mark ')', .mark ';'] :=
    .cons rfl (.cons rfl (.cons name.fits (.cons rfl (.cons rfl (value callee source) rfl) rfl) rfl)
      rfl) rfl
  cases statement with
  | effect source => exact .cons rfl (.cons rfl (ending source) rfl) rfl
  | default name source =>
    exact .cons rfl (.cons rfl (.cons name.fits (behindFrom source) rfl) rfl) rfl
  | reexport source => exact .cons rfl (.cons rfl (.cons rfl (behindFrom source) rfl) rfl) rfl
  | required name source => exact called name.toName ⟨"require", rfl⟩ source
  | dynamic source => exact .cons rfl (argument source) rfl
  | call name callee other source => exact called name.toName callee.toName source

theorem File.spells (file : File) : alphabet.Spells file.lines file.lexemes :=
  .flatMap (fun line => line.spells fun statement => .single statement.toList_text statement.writes)
    file.body

/-! ## Walking over the tokens -/

abbrev word (text : String) : Token := (Lexeme.word text).token

abbrev mark (c : Char) : Token := (Lexeme.mark c).token

/-- Whether a token is passed without a look at what follows. -/
def isIdle (t : Token) : Bool :=
  t.kind != .comment && !t.isWord "import" && !t.isWord "export" && !t.isWord "require"

section Walk

variable (d : Dialect) (previous : Option Token)

theorem walk_idle (ts : List Token) (idle : ts.all isIdle = true) (rest : List Token) :
    walk d 0 previous (ts ++ rest) = walk d 0 (ts.getLast?.or previous) rest := by
  induction ts generalizing previous with
  | nil => rfl
  | cons t ts ih =>
    rw [List.all_cons, Bool.and_eq_true] at idle
    obtain ⟨first, others⟩ := idle
    simp only [isIdle, Bool.and_eq_true, bne_iff_ne, Bool.not_eq_true'] at first
    have passed : atWord d previous t (ts ++ rest) = (none, 0) := by simp [atWord, first]
    have last : (t :: ts).getLast?.or previous = ts.getLast?.or (some t) := by
      rw [List.getLast?_cons]
      cases ts.getLast? <;> rfl
    rw [List.cons_append, walk, passed, last, ← ih (some t) others]
    simp [first]

variable {previous} {u : Token} {ts : List Token}

/-- A name is passed wherever no call follows. -/
theorem walk_name (name : Identifier) (uncalled : callArgument? d ts = none) :
    walk d 0 previous (word name.text :: ts) = walk d 0 (some (word name.text)) ts := by
  have passed : atWord d previous (word name.text) ts = (none, 0) := by
    simp [atWord, Lexeme.isWord_token, name.free, uncalled]
  rw [walk, passed]
  rfl

/-- A word that brings in a source. -/
theorem walk_found {text : String} (found : atWord d previous (word text) ts = (some u, 0)) :
    walk d 0 previous (word text :: ts) = capture .importName [u] ++
      walk d 0 (some (word text)) ts := by
  rw [walk, found]
  simp [Lexeme.token, Lexeme.kind]

variable (start : isMember previous = false)

include start

theorem walk_import (called : callArgument? d ts = none) (assigned : assignment? ts = none)
    (found : importSource? ts = some u) :
    walk d 0 previous (word "import" :: ts) = capture .importName [u] ++
      walk d 0 (some (word "import")) ts := by
  apply walk_found
  simp [atWord, start, Lexeme.isWord_token, called, assigned, found]

theorem walk_export (found : exportSource? ts = some u) :
    walk d 0 previous (word "export" :: ts) = capture .importName [u] ++
      walk d 0 (some (word "export")) ts := by
  apply walk_found
  simp [atWord, start, Lexeme.isWord_token, found]

theorem walk_importCall (argument : callArgument? d ts = some u) :
    walk d 0 previous (word "import" :: ts) = capture .importName [u] ++
      walk d 0 (some (word "import")) ts := by
  apply walk_found
  simp [atWord, start, Lexeme.isWord_token, argument]

theorem walk_requireCall (called : isConstructed previous = false)
    (argument : callArgument? d ts = some u) :
    walk d 0 previous (word "require" :: ts) = capture .importName [u] ++
      walk d 0 (some (word "require")) ts := by
  apply walk_found
  simp [atWord, start, Lexeme.isWord_token, called, argument]

end Walk

/-! ## Statements -/

/-- The tokens of a line without white space. -/
def solid (line : List Lexeme) : List Token := (line.map Lexeme.token).filter (·.kind != .blank)

/-- The name in front of `from` may itself be spelled so. -/
theorem importSource?_default (name : Identifier) (source : alphabet.Literal) (rest : List Token) :
    importSource? (word name.text :: word "from" :: source.lexeme.token :: rest) =
      some source.lexeme.token := by
  have behind : clauseSource? 0 (word "from" :: source.lexeme.token :: significant rest) =
      some source.lexeme.token :=
    rfl
  change clauseSource? 0
    (word name.text :: word "from" :: source.lexeme.token :: significant rest) = _
  rw [clauseSource?, behind]
  cases (word name.text).isWord "from" <;> rfl

section Statements

variable (d : Dialect) {previous : Option Token} (start : isMember previous = false)
  (rest : List Token)

/-- The tokens from `const` to the equals sign. -/
theorem walk_const (name : Identifier) :
    walk d 0 previous (word "const" :: word name.text :: mark '=' :: rest) =
      walk d 0 (some (mark '=')) rest := by
  have keyword := walk_idle d previous [word "const"] rfl (word name.text :: mark '=' :: rest)
  have equals := walk_idle d (some (word name.text)) [mark '='] rfl rest
  exact keyword.trans ((walk_name d name rfl).trans equals)

/-- What is left of a statement when its source is found, or when there is none. -/
theorem walk_end (ts : List Token) (idle : ts.all isIdle = true) :
    walk d 0 previous (ts ++ mark ';' :: rest) = walk d 0 (some (mark ';')) rest := by
  have passed := walk_idle d previous (ts ++ [mark ';']) (by rw [List.all_append, idle]; rfl) rest
  rwa [List.append_assoc, List.singleton_append, List.getLast?_concat, Option.some_or] at passed

include start

/-- A statement is passed up to its semicolon. -/
theorem walk_statement (statement : Statement) :
    walk d 0 previous (solid statement.lexemes ++ rest) =
      statement.source?.toList.map (·.capture) ++ walk d 0 (some (mark ';')) rest := by
  cases statement with
  | effect source =>
    change walk d 0 previous (word "import" :: source.lexeme.token :: mark ';' :: rest) =
      [source.capture] ++ _
    rw [walk_import d start rfl rfl rfl, source.capture_token]
    exact congrArg ([source.capture] ++ ·) (walk_end d rest [source.lexeme.token] rfl)
  | default name source =>
    change walk d 0 previous
      (word "import" :: word name.text :: word "from" :: source.lexeme.token :: mark ';' ::
      rest) = [source.capture] ++ _
    rw [walk_import d start rfl rfl (importSource?_default name source _), source.capture_token,
      walk_name d name rfl]
    exact congrArg ([source.capture] ++ ·) (walk_end d rest [word "from", source.lexeme.token] rfl)
  | reexport source =>
    change walk d 0 previous
      (word "export" :: mark '*' :: word "from" :: source.lexeme.token :: mark ';' :: rest) =
      [source.capture] ++ _
    rw [walk_export d start rfl, source.capture_token]
    exact congrArg ([source.capture] ++ ·) (walk_end d rest [mark '*', word "from",
      source.lexeme.token] rfl)
  | required name source =>
    change walk d 0 previous
      (word "const" :: word name.text :: mark '=' :: word "require" :: mark '(' ::
      source.lexeme.token :: mark ')' :: mark ';' :: rest) = [source.capture] ++ _
    rw [walk_const, walk_requireCall d rfl rfl rfl, source.capture_token]
    exact congrArg ([source.capture] ++ ·) (walk_end d rest [mark '(', source.lexeme.token,
      mark ')'] rfl)
  | dynamic source =>
    change walk d 0 previous
      (word "import" :: mark '(' :: source.lexeme.token :: mark ')' :: mark ';' :: rest) =
      [source.capture] ++ _
    rw [walk_importCall d start rfl, source.capture_token]
    exact congrArg ([source.capture] ++ ·) (walk_end d rest [mark '(', source.lexeme.token,
      mark ')'] rfl)
  | call name callee other argument =>
    have idle : isIdle (word callee.text) = true := by
      rw [isIdle, Lexeme.isWord_token, Lexeme.isWord_token, Lexeme.isWord_token]
      simp [callee.free, other, Lexeme.token, Lexeme.kind]
    change walk d 0 previous
      (word "const" :: word name.text :: mark '=' :: word callee.text :: mark '(' ::
      argument.lexeme.token :: mark ')' :: mark ';' :: rest) = _
    rw [walk_const]
    refine walk_end d rest [word callee.text, mark '(', argument.lexeme.token, mark ')'] ?_
    rw [List.all_cons, idle]
    rfl

end Statements

/-! ## Extraction -/

/-- The comment of a note is passed, and its white space is gone. -/
theorem walk_note (d : Dialect) (previous : Option Token) (n : Note) (rest : List Token) :
    walk d 0 previous (solid (n.lexemes "//") ++ rest) = walk d 0 previous rest := by
  rw [Note.lexemes, solid, List.map_append, List.filter_append, n.indent.filter_tokens fun _ => rfl,
    List.nil_append]
  cases n.remark <;> rfl

theorem walk_lines (d : Dialect) {previous : Option Token} (start : isMember previous = false)
    (body : List (Line Statement)) :
    walk d 0 previous
      ((body.flatMap (Line.lexemes "//" fun statement => [statement.lexemes])).flatMap solid) =
      ((Line.codes body).filterMap (·.source?)).map (·.capture) := by
  -- Nothing behind a semicolon is a member, so every statement starts as the first one does.
  induction body generalizing previous with
  | nil => rfl
  | cons line body ih =>
    rw [List.flatMap_cons, List.flatMap_append]
    cases line with
    | note n => rw [Line.lexemes, List.flatMap_singleton, walk_note, ih start, Line.codes_note]
    | code statement =>
      rw [Line.lexemes, List.flatMap_singleton, walk_statement d start, ih rfl, Line.codes_code,
        List.filterMap_cons]
      cases statement.source? <;> rfl

theorem captures_text (d : Dialect) (file : File) :
    captures d (glyphs (Utf8.encode file.text)) = file.sources.map (·.capture) := by
  have read := (reads d).file file.spells (s := .initial) nofun
  rw [nil_intercalate, ← List.flatMap_def] at read
  rw [captures, tokens, File.text, read]
  exact walk_lines d rfl file.body

/-- A script of one-line statements is extracted with the sources of its imports, exports and calls
of `require` and `import`, in the order of the text, later repetitions dropped. What comments say
does not count, nor do the arguments of other calls. Its package is the path of its directory in
normal form, which is the path itself unless the file's own path goes up. -/
theorem ofSource_scriptFile (language : Language)
    (script : language ∈ [.javaScript, .typeScript, .tsx])
    (modules : ModuleMap) (path : String) (file : File) :
    let directory := modules.directoryPath (Path.slash path)
    Extraction.ofSource language modules path (Utf8.encode file.text) =
        .ok ⟨Path.slash path, Path.join directory ".", (file.sources.map (·.text)).eraseDups⟩ ∧
      (.up ∉ Path.steps path → Path.join directory "." = directory) := by
  intro directory
  have found : ∃ d,
      scan language (Utf8.encode file.text) = captures d (glyphs (Utf8.encode file.text)) ∧
      language.naming = .directory := by
    simp only [List.mem_cons, List.not_mem_nil, or_false] at script
    rcases script with rfl | rfl | rfl <;> exact ⟨_, rfl, rfl⟩
  obtain ⟨d, scanned, named⟩ := found
  refine ⟨?_, join_directoryPath_dot modules⟩
  rw [Extraction.ofSource, ofCaptures_directory named, scanned, captures_text,
    Alphabet.Literal.importsOf_captures]

/-- All six forms, with `require` also as a name. -/
def mixedStatements : File :=
  let require : Identifier := ⟨⟨"require", rfl⟩, by decide⟩
  let load : Identifier := ⟨⟨"load", rfl⟩, by decide⟩
  ⟨[.code (.effect ⟨'\'', "./setup", rfl, by decide⟩),
    .code (.default load ⟨'"', "@acme/load", rfl, by decide⟩),
    .note ⟨.none, some ⟨" import 'fs';", rfl⟩⟩, .code (.reexport ⟨'\'', "./setup", rfl, by decide⟩),
    .code (.required require ⟨'\'', "path", rfl, by decide⟩),
    .code (.dynamic ⟨'"', "path", rfl, by decide⟩),
    .code (.call load load (by decide) ⟨'\'', "os", rfl, by decide⟩)]⟩

theorem ofSource_mixedStatements :
    let modules : ModuleMap := Table.empty.insert "." "web"
    Language.tsx ∈ [Language.javaScript, .typeScript, .tsx] ∧ .up ∉ Path.steps "src/app.tsx" ∧
      mixedStatements.text =
        "import './setup';\nimport load from \"@acme/load\";\n// import 'fs';\n" ++
        "export * from './setup';\nconst require = require('path');\nimport(\"path\");\n" ++
        "const load = load('os');" ∧
      Extraction.ofSource .tsx modules "src/app.tsx" (Utf8.encode mixedStatements.text) =
        .ok ⟨"src/app.tsx", "web/src", ["./setup", "@acme/load", "path"]⟩ := by
  intro modules
  have script : Language.tsx ∈ [Language.javaScript, .typeScript, .tsx] := by decide
  have plain : .up ∉ Path.steps "src/app.tsx" := by decide
  have directory : modules.directoryPath (Path.slash "src/app.tsx") = "web/src" := by decide +kernel
  have sources : (mixedStatements.sources.map (·.text)).eraseDups =
      ["./setup", "@acme/load", "path"] := by
    decide +kernel
  obtain ⟨extracted, package⟩ :=
    ofSource_scriptFile .tsx script modules "src/app.tsx" mixedStatements
  refine ⟨script, plain, by decide +kernel, ?_⟩
  rw [extracted, package plain, directory, sources]
  rfl

end PackageCoupling.Source.ScriptImports
