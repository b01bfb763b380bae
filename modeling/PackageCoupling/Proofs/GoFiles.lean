import PackageCoupling.Proofs.Lexemes
import PackageCoupling.Proofs.PackagePath
import PackageCoupling.Source.GoImports

/-!
# Go files of a package clause and imports

A `File` holds a package clause and import declarations, with comments and empty lines between its
lines; `File.text` writes it down. The tokens of the text are its lexemes (`reads`), among which the
search finds the clause and one path for each import (`captures_text`). So what is extracted from
the text is what was written (`ofSource_goFile`).
-/

namespace PackageCoupling.Source.GoImports

def alphabet : Alphabet :=
  ⟨false, "//", ['"', '\x60'], ['(', ')', '.'], Alphabet.slashes_known, rfl, rfl⟩

/-! ## Reading lexemes -/

theorem front_blank {c : Char} (blank : isAsciiSpace c = true) (gs : List Glyph) :
    front () (.char c) gs = piece .blank (runLength isAsciiSpace gs) (.char c) gs () := by
  simp [front, blank]

theorem front_letter {c : Char} (letter : alphabet.isLetter c = true) (gs : List Glyph) :
    front () (.char c) gs = piece .word (runLength isWordPart gs) (.char c) gs () := by
  have facts : (!isAsciiSpace c && c != '/' && isWordStart c) = true :=
    alphabet.of_isLetter (p := fun c => !isAsciiSpace c && c != '/' && isWordStart c)
      (by decide) letter
  simp only [Bool.and_eq_true, Bool.not_eq_true', bne_iff_ne] at facts
  obtain ⟨⟨space, slash⟩, start⟩ := facts
  simp [front, space, slash, start]

theorem front_doubleQuote (gs : List Glyph) :
    front () (.char '"') gs =
      match quoteEnd? '"' ['\n'] gs with
      | some n => piece .string n (.char '"') gs ()
      | none => piece .punct 0 (.char '"') gs () := rfl

theorem front_backQuote (gs : List Glyph) :
    front () (.char '\x60') gs =
      match upTo? ['\x60'] gs with
      | some n => piece .string n (.char '\x60') gs ()
      | none => piece .punct 0 (.char '\x60') gs () := rfl

theorem front_quote {quote : Char} {text : String}
    (fits : (Lexeme.quoted quote text).fits alphabet = true) (rest : List Char) :
    front () (.char quote) ((text.toList ++ [quote] ++ rest).map .char) =
      piece .string (text.toList ++ [quote]).length (.char quote)
        ((text.toList ++ [quote] ++ rest).map .char) () := by
  obtain ⟨known, path⟩ := Bool.and_eq_true_iff.1 fits
  simp only [alphabet, List.contains_iff_mem, List.mem_cons, List.not_mem_nil, or_false] at known
  rw [List.append_assoc, List.singleton_append, List.length_append, List.length_singleton]
  rcases known with rfl | rfl
  · have ends : quoteEnd? '"' ['\n'] ((text.toList ++ '"' :: rest).map .char) =
        some (text.toList.length + 1) :=
      quoteEnd?_append (notMem_of_isPathChar path rfl) (by decide) rest
    rw [front_doubleQuote, ends]
  · have ticks : ['\x60'].all (!isPathChar ·) = true := rfl
    have inside := notMem_of_isPathChar path ticks '\x60' List.mem_cons_self
    rw [front_backQuote, upTo?_append inside]

theorem kept_blanks_eq {cs : List Char} (blank : cs.all isAsciiSpace = true) (ne : cs ≠ [])
    (rest : List Char) :
    kept front (!·.isTrivia) () (cs ++ rest) = kept front (!·.isTrivia) () rest := by
  have cut : ∀ (s : Unit) (c : Char) (gs : List Glyph), True → isAsciiSpace c = true →
      front s (.char c) gs = piece .blank (runLength isAsciiSpace gs) (.char c) gs s :=
    fun _ _ gs _ blank => front_blank blank gs
  exact kept_blanks cut (fun _ _ => ⟨trivial, rfl⟩) (fun _ => rfl) trivial blank ne rest

theorem reads : Reads front (!·.isTrivia) alphabet [] fun _ => True where
  lexeme := by
    intro s x rest _ fits stops
    refine ⟨(), trivial, ?_⟩
    obtain ⟨c, cs, eq, opens⟩ := Lexeme.chars_of_fits fits
    cases x with
    | gap blanks =>
      obtain ⟨blank, ne⟩ := Lexeme.all_of_gap (p := isAsciiSpace) fits rfl rfl
      exact kept_blanks_eq blank ne rest
    | comment opening text =>
      refine kept_lexeme front _ eq ?_
      obtain ⟨rfl, rfl⟩ : c = '/' ∧ cs = '/' :: text.toList := by
        rw [Lexeme.chars_comment fits] at eq
        exact (List.cons.inj eq).imp .symm .symm
      rw [← Lexeme.lineLength_comment fits eq stops]
      rfl
    | word text =>
      refine kept_lexeme front _ eq ?_
      rw [front_letter opens, Lexeme.runLength_word (fun _ => Alphabet.isWordPart_of_isNameChar rfl)
        (fun _ => Lexeme.isWordPart_of_endsBefore) fits eq stops]
      rfl
    | quoted quote text => exact kept_lexeme front _ rfl (front_quote fits rest)
    | mark c =>
      refine kept_lexeme front _ rfl ?_
      simp only [Lexeme.fits, alphabet, List.contains_iff_mem, List.mem_cons, List.not_mem_nil,
        or_false] at fits
      rcases fits with rfl | rfl | rfl <;> rfl
  lineEnd := by
    intro s rest _
    exact ⟨(), trivial, kept_blanks_eq rfl (List.cons_ne_nil '\n' []) rest⟩

/-! ## Files -/

/-- The name under which a package is imported. -/
inductive Rename where
  | name (n : alphabet.Name)
  | dot

/-- One import: a path, maybe under another name. -/
structure Spec where
  rename : Option Rename
  path : alphabet.Literal

inductive Declaration where
  | single (spec : Spec)
  /-- Imports in parentheses, each on a line of its own. -/
  | group (lines : List (Line (Indent × Spec)))

/-- A Go file of a package clause and imports, with comments and empty lines between any of its
lines. -/
structure File where
  preface : List Note
  package : alphabet.Name
  body : List (Line Declaration)

def Rename.text : Rename → String
  | name n => n.text
  | dot => "."

def Spec.text (spec : Spec) : String :=
  match spec.rename with
  | none => spec.path.written
  | some rename => rename.text ++ " " ++ spec.path.written

def Declaration.lines : Declaration → List String
  | single spec => ["import " ++ spec.text]
  | group lines =>
    "import (" :: lines.flatMap (Line.text "//" fun (indent, spec) => [indent.text ++ spec.text]) ++
      [")"]

def File.lines (file : File) : List String :=
  file.preface.map (·.text "//") ++
    ("package " ++ file.package.text) :: file.body.flatMap (Line.text "//" (·.lines))

def File.text (file : File) : String := "\n".intercalate file.lines

def Declaration.specs : Declaration → List Spec
  | single spec => [spec]
  | group lines => (Line.codes lines).map (·.2)

/-- The imports of a file, in the order of the text. -/
def File.specs (file : File) : List Spec := (Line.codes file.body).flatMap (·.specs)

/-! ## Files as lexemes -/

def Rename.lexeme : Rename → Lexeme
  | name n => .word n.text
  | dot => .mark '.'

def Spec.lexemes (spec : Spec) : List Lexeme :=
  match spec.rename with
  | none => [spec.path.lexeme]
  | some rename => [rename.lexeme, .gap " ", spec.path.lexeme]

def Declaration.lexemes : Declaration → List (List Lexeme)
  | single spec => [.word "import" :: .gap " " :: spec.lexemes]
  | group lines =>
    [.word "import", .gap " ", .mark '('] ::
      lines.flatMap (Line.lexemes "//" fun (indent, spec) => [indent.lexemes ++ spec.lexemes]) ++
        [[.mark ')']]

def File.lexemes (file : File) : List (List Lexeme) :=
  file.preface.map (·.lexemes "//") ++
    [.word "package", .gap " ", .word file.package.text] ::
      file.body.flatMap (Line.lexemes "//" (·.lexemes))

theorem Rename.spells (rename : Rename) :
    rename.text.toList = rename.lexeme.chars ∧ rename.lexeme.fits alphabet = true := by
  cases rename with
  | name n => exact ⟨rfl, n.fits⟩
  | dot => exact ⟨rfl, rfl⟩

theorem Spec.toList_text (spec : Spec) : spec.text.toList = lineChars spec.lexemes := by
  unfold text lexemes
  cases spec.rename with
  | none => simp [lineChars, spec.path.toList_written]
  | some rename => simp [lineChars, spec.path.toList_written, rename.spells.1, Lexeme.chars]

theorem Spec.writes (spec : Spec) : alphabet.Writes spec.lexemes := by
  unfold lexemes
  have path : alphabet.Writes [spec.path.lexeme] := .cons spec.path.fits .nil rfl
  cases spec.rename with
  | none => exact path
  | some rename =>
    refine .cons rename.spells.2 (.cons rfl path rfl) ?_
    cases rename <;> rfl

theorem Spec.starts (spec : Spec) : spec.lexemes.head?.all (Lexeme.gap " ").precedes = true := by
  unfold lexemes
  cases spec.rename with
  | none => rfl
  | some rename => cases rename <;> rfl

theorem Declaration.spells (declaration : Declaration) :
    alphabet.Spells declaration.lines declaration.lexemes := by
  cases declaration with
  | single spec =>
    refine .single ?_ ?_
    · simp [lineChars, Spec.toList_text, Lexeme.chars]
    · exact .cons rfl (.cons rfl spec.writes spec.starts) rfl
  | group lines =>
    have head : alphabet.Spells ["import ("] [[.word "import", .gap " ", .mark '(']] :=
      .single rfl (.cons rfl (.cons rfl (.cons rfl .nil rfl) rfl) rfl)
    have inside : ∀ line : Indent × Spec,
        alphabet.Spells [line.1.text ++ line.2.text] [line.1.lexemes ++ line.2.lexemes] := by
      intro line
      refine .single ?_ (line.1.writes_append line.2.writes line.2.starts)
      rw [String.toList_append, lineChars, List.flatMap_append, Spec.toList_text,
        ← Indent.lineChars_lexemes]
      rfl
    exact (head.append (.flatMap (fun line => line.spells inside) lines)).append
      (.single rfl (.cons rfl .nil rfl))

theorem File.spells (file : File) : alphabet.Spells file.lines file.lexemes := by
  have preface :
      alphabet.Spells (file.preface.map (·.text "//")) (file.preface.map (·.lexemes "//")) := by
    rw [List.map_eq_flatMap, List.map_eq_flatMap]
    exact .flatMap (·.spells) file.preface
  have clause : alphabet.Spells ["package " ++ file.package.text]
      [[.word "package", .gap " ", .word file.package.text]] :=
    .single (by simp [lineChars, Lexeme.chars])
      (.cons rfl (.cons rfl (.cons file.package.fits .nil rfl) rfl) rfl)
  exact preface.append (clause.append (.flatMap (fun line => line.spells (·.spells)) file.body))

/-! ## Walking over the tokens -/

/-- The tokens of some lines without white space and comments. -/
def solid (lines : List (List Lexeme)) : List Token :=
  lines.flatMap fun line => (line.map Lexeme.token).filter (!·.isTrivia)

theorem solid_append (lines lines' : List (List Lexeme)) :
    solid (lines ++ lines') = solid lines ++ solid lines' :=
  List.flatMap_append

theorem solid_note (n : Note) : solid [n.lexemes "//"] = [] := by
  rw [solid, List.flatMap_singleton, List.filter_eq_nil_iff]
  intro t ht
  simp [n.isTrivia_tokens "//" t ht]

theorem solid_notes (notes : List Note) : solid (notes.map (·.lexemes "//")) = [] := by
  rw [solid, List.flatMap_map, List.flatMap_eq_nil_iff]
  intro n _
  exact (List.flatMap_singleton _ _).symm.trans (solid_note n)

theorem solid_indent (i : Indent) (line : List Lexeme) :
    solid [i.lexemes ++ line] = solid [line] := by
  rw [solid, List.flatMap_singleton, List.map_append, List.filter_append,
    i.filter_tokens fun _ => rfl, List.nil_append, solid, List.flatMap_singleton]

/-- An import is read in one way inside of parentheses and outside of them. -/
theorem walk_spec {mode : Bool → Mode} {next : Mode}
    (rename : ∀ r : Rename, step (mode false) r.lexeme.token = ([], mode true))
    (path : ∀ aliased t, t.kind = .string →
      step (mode aliased) t = (Source.capture .importName [t], next))
    (spec : Spec) (rest : List Token) :
    walk (mode false) (solid [spec.lexemes] ++ rest) = spec.path.capture :: walk next rest := by
  have last : ∀ aliased,
      walk (mode aliased) (spec.path.lexeme.token :: rest) =
        spec.path.capture :: walk next rest := by
    intro aliased
    rw [walk, path aliased _ rfl, spec.path.capture_token]
    rfl
  unfold Spec.lexemes
  cases spec.rename with
  | none => exact last false
  | some r =>
    have tokens : solid [[r.lexeme, .gap " ", spec.path.lexeme]] =
        [r.lexeme.token, spec.path.lexeme.token] := by
      cases r <;> rfl
    rw [tokens, List.cons_append, List.cons_append, List.nil_append, walk, rename, last true]
    rfl

theorem walk_single (spec : Spec) (rest : List Token) :
    walk (.single false) (solid [spec.lexemes] ++ rest) = spec.path.capture :: walk .top rest :=
  walk_spec (fun r => by cases r <;> rfl) (fun _ _ h => by simp [step, h]) spec rest

theorem walk_grouped (spec : Spec) (rest : List Token) :
    walk (.group false) (solid [spec.lexemes] ++ rest) =
      spec.path.capture :: walk (.group false) rest :=
  walk_spec (fun r => by cases r <;> rfl) (fun _ _ h => by simp [step, h]) spec rest

/-- Where each piece of code leads back to the mode in which it was met, so do lines of code with
notes between them. -/
theorem walk_lines {α : Type} {mode : Mode} {spell : α → List (List Lexeme)}
    {found : α → List Capture}
    (code : ∀ x rest, walk mode (solid (spell x) ++ rest) = found x ++ walk mode rest)
    (lines : List (Line α))
    (rest : List Token) :
    walk mode (solid (lines.flatMap (Line.lexemes "//" spell)) ++ rest) =
      (Line.codes lines).flatMap found ++ walk mode rest := by
  induction lines with
  | nil => rfl
  | cons line lines ih =>
    rw [List.flatMap_cons, solid_append, List.append_assoc]
    cases line with
    | note n => rw [Line.lexemes, solid_note, List.nil_append, ih, Line.codes_note]
    | code x => rw [Line.lexemes, code, ih, Line.codes_code, List.flatMap_cons, List.append_assoc]

theorem walk_declaration (declaration : Declaration) (rest : List Token) :
    walk .top (solid declaration.lexemes ++ rest) = declaration.specs.map (·.path.capture) ++
      walk .top rest := by
  cases declaration with
  | single spec => exact walk_single spec rest
  | group lines =>
    have code : ∀ (line : Indent × Spec) rest,
        walk (.group false) (solid [line.1.lexemes ++ line.2.lexemes] ++ rest) =
        [line.2.path.capture] ++ walk (.group false) rest := by
      intro line rest
      rw [solid_indent, walk_grouped, List.singleton_append]
    calc walk .top (solid (Declaration.group lines).lexemes ++ rest)
      _ = walk (.group false) (solid (lines.flatMap
            (Line.lexemes "//" fun line => [line.1.lexemes ++ line.2.lexemes])) ++
              (solid [[.mark ')']] ++ rest)) := by
        rw [Declaration.lexemes, solid_append, List.append_assoc]
        rfl
      _ = (Line.codes lines).flatMap (fun line => [line.2.path.capture]) ++ walk .top rest :=
        walk_lines code lines _
      _ = (Declaration.group lines).specs.map (·.path.capture) ++ walk .top rest := by
        rw [Declaration.specs, List.map_map, List.map_eq_flatMap]
        rfl

theorem captures_text (file : File) :
    captures (glyphs (Utf8.encode file.text)) =
      ⟨.package, file.package.text⟩ :: file.specs.map (·.path.capture) := by
  have clause : ∀ rest,
      walk .top (solid [[.word "package", .gap " ", .word file.package.text]] ++ rest) =
      ⟨.package, file.package.text⟩ :: walk .top rest := by
    intro rest
    have name : Source.capture .package [(Lexeme.word file.package.text).token] =
        [⟨.package, file.package.text⟩] :=
      capture_of_plain _ (List.flatMap_singleton _ _)
    exact congrArg (· ++ walk .top rest) name
  have read := reads.file file.spells (s := ()) trivial
  rw [nil_intercalate, ← List.flatMap_def] at read
  rw [captures, tokens, File.text, read]
  calc walk .top (solid file.lexemes)
    _ = walk .top (solid [[.word "package", .gap " ", .word file.package.text]] ++
          (solid (file.body.flatMap (Line.lexemes "//" (·.lexemes))) ++ [])) := by
      rw [File.lexemes, solid_append, solid_notes, List.nil_append, List.append_nil]
      rfl
    _ = ⟨.package, file.package.text⟩ ::
          ((Line.codes file.body).flatMap (·.specs.map (·.path.capture)) ++ walk .top []) := by
      rw [clause, walk_lines walk_declaration]
    _ = ⟨.package, file.package.text⟩ :: file.specs.map (·.path.capture) := by
      rw [File.specs, List.map_flatMap, walk, List.append_nil]

/-! ## Extraction -/

theorem isIdentifier_name (n : alphabet.Name) : IsIdentifier n.text := by
  obtain ⟨start, parts⟩ := Bool.and_eq_true_iff.1 n.fits
  refine ⟨fun empty => by simp [empty] at start, fun c hc => ?_⟩
  have part := List.all_eq_true.1 parts c hc
  exact ⟨Alphabet.isWordPart_of_isNameChar rfl part, Alphabet.isBlank_of_isNameChar part⟩

/-- A Go file of a package clause and imports is extracted under the name that its clause declares,
with the paths of its imports in the order of the text, later repetitions dropped. What comments say
does not count, nor do the names under which packages are imported. -/
theorem ofSource_goFile (modules : ModuleMap) (path : String) (file : File) :
    Extraction.ofSource .go modules path (Utf8.encode file.text) = .ok ⟨Path.slash path,
      canonicalPackage file.package.text (modules.directoryPath (Path.slash path)),
      (file.specs.map (·.path.text)).eraseDups⟩ := by
  have found : scan .go (Utf8.encode file.text) = _ := captures_text file
  have clause : declared (scan .go (Utf8.encode file.text)) = some file.package.text := by
    rw [found]
    rfl
  have imports : Extraction.importsOf (scan .go (Utf8.encode file.text)) =
      (file.specs.map (·.path.text)).eraseDups := by
    rw [found]
    have literals := Alphabet.Literal.importsOf_captures (file.specs.map (·.path))
    rw [List.map_map, List.map_map] at literals
    exact literals
  rw [ofSource_go clause (isIdentifier_name file.package), imports]

example : File.text ⟨[⟨.none, some ⟨" import \"os\"", rfl⟩⟩], ⟨"main", rfl⟩, [.code (.group
    [.code (⟨"\t", rfl⟩, ⟨none, ⟨'"', "fmt", rfl, by decide⟩⟩),
      .code (⟨"\t", rfl⟩, ⟨some .dot, ⟨'\x60', "a/b", rfl, by decide⟩⟩)])]⟩ =
    "// import \"os\"\npackage main\nimport (\n\t\"fmt\"\n\t. \x60a/b\x60\n)" := by decide +kernel

end PackageCoupling.Source.GoImports
