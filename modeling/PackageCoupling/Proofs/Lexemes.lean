import Mathlib.Data.List.Basic
import PackageCoupling.Proofs.CapturedImports
import PackageCoupling.Proofs.Decoding

/-!
# Sources written from lexemes

A plain source is written line by line from lexemes: names, quoted texts, single marks, gaps and
comments. A lexeme is cut off as one token wherever the next character does not belong to it
(`Lexeme.StopsAt`), and lexemes that may be neighbours see to that (`Lexeme.stopsAt_append`). So a
language that reads single lexemes of its alphabet reads whole sources written in it
(`Reads.lines`).
-/

namespace PackageCoupling

/-! ## ASCII text as glyphs -/

theorem Source.glyphs_encode {s : String} (h : s.toList.all isAscii = true) :
    glyphs (Utf8.encode s) = s.toList.map .char := by
  rw [glyphs, Utf8.decode_encode]
  cases eq : s.toList with
  | nil => rfl
  | cons c cs =>
    rw [eq] at h
    have small : c.toNat < 128 := of_decide_eq_true (Bool.and_eq_true_iff.1 h).1
    have mark : (c.toNat == 0xFEFF) = false := by
      rw [beq_eq_false_iff_ne]
      omega
    simp [mark]

namespace Source

theorem capture_of_plain (kind : CaptureKind) {ts : List Token} {text : String}
    (h : ts.flatMap (·.glyphs) = text.toList.map .char) : capture kind ts = [⟨kind, text⟩] := by
  rw [capture, textOf?, h, Utf8.chars?_map_char, Option.map_some, String.ofList_toList]
  rfl

/-! ## Lengths of stretches -/

theorem runLength_append {p : Char → Bool} {cs rest : List Char} (inside : cs.all p = true)
    (behind : ∀ c, rest.head? = some c → p c = false) :
    runLength p ((cs ++ rest).map .char) = cs.length := by
  induction cs with
  | nil =>
    cases rest with
    | nil => rfl
    | cons c rest => simp [runLength, behind c rfl]
  | cons c cs ih =>
    obtain ⟨first, others⟩ := Bool.and_eq_true_iff.1 inside
    rw [List.cons_append, List.map_cons, runLength, if_pos first, ih others, List.length_cons]

theorem lineLength_append {cs rest : List Char} (inside : '\n' ∉ cs)
    (behind : ∀ c, rest.head? = some c → c = '\n') :
    lineLength ((cs ++ rest).map .char) = cs.length := by
  induction cs with
  | nil =>
    cases rest with
    | nil => rfl
    | cons c rest => simp [lineLength, behind c rfl]
  | cons c cs ih =>
    rw [List.mem_cons, not_or] at inside
    simp [lineLength, Ne.symm inside.1, ← ih inside.2]

theorem quoteEnd?_append {quote : Char} {stops cs : List Char}
    (inside : ∀ c ∈ '\\' :: quote :: stops, c ∉ cs) (plain : quote ≠ '\\') (rest : List Char) :
    quoteEnd? quote stops ((cs ++ quote :: rest).map .char) = some (cs.length + 1) := by
  induction cs with
  | nil => simp [quoteEnd?, plain]
  | cons c cs ih =>
    have ih := ih fun d hd mem => inside d hd (List.mem_cons_of_mem c mem)
    have backslash : c ≠ '\\' := fun eq => inside c (by simp [eq]) List.mem_cons_self
    have other : c ≠ quote := fun eq => inside c (by simp [eq]) List.mem_cons_self
    have stop : c ∉ stops := fun mem => inside c (by simp [mem]) List.mem_cons_self
    rw [List.cons_append, List.map_cons, quoteEnd?]
    · simp only [beq_iff_eq, other, List.contains_iff_mem, stop, if_false, ih, Option.map_some,
        List.length_cons]
    all_goals simp [backslash]

theorem upTo?_append {quote : Char} {cs : List Char} (inside : quote ∉ cs) (rest : List Char) :
    upTo? [quote] ((cs ++ quote :: rest).map .char) = some (cs.length + 1) := by
  induction cs with
  | nil => simp [upTo?, startsWith]
  | cons c cs ih =>
    rw [List.mem_cons, not_or] at inside
    rw [List.cons_append, List.map_cons, upTo?, if_neg (by simp [startsWith, inside.1]),
      ih inside.2, Option.map_some, List.length_cons]

/-! ## Lexemes -/

/-- Printable characters, the blank included. -/
def isPrintable (c : Char) : Bool := 0x20 ≤ c.toNat && c.toNat ≤ 0x7E

/-- What quoted texts are made of. -/
def isPathChar (c : Char) : Bool := c.isAlphanum || ['@', '.', '_', '-', '/'].contains c

/-- The signs of a language. -/
structure Alphabet where
  /-- Whether names may hold a dollar sign. -/
  dollar : Bool
  /-- What starts a comment. -/
  comment : String
  quotes : List Char
  marks : List Char
  comment_known : ["//", "#"].contains comment = true
  quotes_known : quotes.all quoteMarks.contains = true
  marks_known : marks.all ['(', ')', '.', ',', ';', '*', '='].contains = true

theorem Alphabet.slashes_known : ["//", "#"].contains "//" = true := rfl

def Alphabet.isLetter (a : Alphabet) (c : Char) : Bool :=
  c.isAlpha || c == '_' || (a.dollar && c == '$')

def Alphabet.isNameChar (a : Alphabet) (c : Char) : Bool := a.isLetter c || c.isDigit

inductive Lexeme where
  /-- Blanks and tabs. -/
  | gap (blanks : String)
  /-- The mark of a comment and what follows it on the line. -/
  | comment (opening text : String)
  | word (text : String)
  | quoted (quote : Char) (text : String)
  | mark (c : Char)

namespace Lexeme

def chars : Lexeme → List Char
  | gap blanks => blanks.toList
  | comment opening text => opening.toList ++ text.toList
  | word text => text.toList
  | quoted quote text => quote :: text.toList ++ [quote]
  | mark c => [c]

def kind : Lexeme → TokenKind
  | gap _ => .blank
  | comment .. => .comment
  | word _ => .word
  | quoted .. => .string
  | mark _ => .punct

def token (x : Lexeme) : Token := ⟨x.kind, x.chars.map .char⟩

/-- Whether the lexeme is written in an alphabet. -/
def fits (a : Alphabet) : Lexeme → Bool
  | gap blanks => blanks != "" && blanks.toList.all fun c => c == ' ' || c == '\t'
  | comment opening text => opening == a.comment && text.toList.all isPrintable
  | word text => text.toList.head?.any a.isLetter && text.toList.all a.isNameChar
  | quoted quote text => a.quotes.contains quote && text.toList.all isPathChar
  | mark c => a.marks.contains c

/-- Whether the lexeme is over when this character follows. -/
def endsBefore : Lexeme → Char → Bool
  | gap _, c => c == '\n' || (isAscii c && !isAsciiSpace c)
  | comment .., c => c == '\n'
  | word _, c => isAscii c && !isWordPart c && c != '$' && c != '\\' && !quoteMarks.contains c
  | quoted .., _ => true
  | mark _, c => c != '>'

def StopsAt (x : Lexeme) (rest : List Char) : Prop :=
  ∀ c, rest.head? = some c → x.endsBefore c = true

/-- Whether one lexeme may follow another without being taken for a part of it. Letters in front of
a quote can belong to it. -/
def precedes : Lexeme → Lexeme → Bool
  | gap _, gap _ => false
  | comment .., _ => false
  | word _, word _ => false
  | word _, quoted .. => false
  | _, _ => true

end Lexeme

/-! ## Characters of lexemes -/

/-- What holds of the first 128 characters holds of all ASCII characters. -/
theorem of_isAscii {p : Char → Bool} (all : (List.range 128).all (p <| Char.ofNat ·) = true)
    {c : Char} (h : isAscii c = true) : p c = true := by
  have holds := List.all_eq_true.1 all c.toNat (List.mem_range.2 (of_decide_eq_true h))
  rwa [Char.ofNat_toNat] at holds

theorem isAscii_of_isAlphanum {c : Char} (h : c.isAlphanum = true) : isAscii c = true := by
  have eq : c.toNat = c.val.toNat := rfl
  have upper : 'Z'.val.toNat = 90 := rfl
  have lower : 'z'.val.toNat = 122 := rfl
  have digit : '9'.val.toNat = 57 := rfl
  unfold Char.isAlphanum Char.isAlpha Char.isUpper Char.isLower Char.isDigit at h
  simp only [Bool.or_eq_true, Bool.and_eq_true, decide_eq_true_eq, UInt32.le_iff_toNat_le] at h
  simp only [isAscii, decide_eq_true_eq]
  omega

variable {a : Alphabet}

theorem Alphabet.isAscii_of_isNameChar (a : Alphabet) {c : Char} (h : a.isNameChar c = true) :
    isAscii c = true := by
  simp only [isNameChar, isLetter, Bool.or_eq_true, Bool.and_eq_true, beq_iff_eq] at h
  rcases h with ((alpha | rfl) | ⟨-, rfl⟩) | digit
  · exact isAscii_of_isAlphanum (by simp [Char.isAlphanum, alpha])
  · rfl
  · rfl
  · exact isAscii_of_isAlphanum (by simp [Char.isAlphanum, digit])

/-- What holds of the first 128 characters that can stand in a name holds of all that can. -/
theorem Alphabet.of_isNameChar {p : Char → Bool}
    (all : (List.range 128).all (fun n => !a.isNameChar (Char.ofNat n) || p (Char.ofNat n)) = true)
    {c : Char}
    (h : a.isNameChar c = true) : p c = true := by
  have either := of_isAscii (p := fun c => !a.isNameChar c || p c) all (a.isAscii_of_isNameChar h)
  simpa [h] using either

theorem Alphabet.of_isLetter {p : Char → Bool}
    (all : (List.range 128).all (fun n => !a.isLetter (Char.ofNat n) || p (Char.ofNat n)) = true)
    {c : Char}
    (h : a.isLetter c = true) : p c = true := by
  have ascii := a.isAscii_of_isNameChar (by simp [isNameChar, h] : a.isNameChar c = true)
  have either := of_isAscii (p := fun c => !a.isLetter c || p c) all ascii
  simpa [h] using either

theorem Alphabet.isBlank_of_isNameChar {c : Char} (h : a.isNameChar c = true) :
    Text.isBlank c = false := by
  have facts : (!(c.isAlpha || c == '_' || c == '$' || c.isDigit) || !Text.isBlank c) = true :=
    of_isAscii (p := fun c => !(c.isAlpha || c == '_' || c == '$' || c.isDigit) ||
      !Text.isBlank c) (by decide)
      (a.isAscii_of_isNameChar h)
  simp only [isNameChar, isLetter, Bool.or_eq_true, Bool.and_eq_true] at h
  have named : (c.isAlpha || c == '_' || c == '$' || c.isDigit) = true := by
    simp only [Bool.or_eq_true]
    exact h.imp_left (·.imp_right And.right)
  simpa [named] using facts

theorem Alphabet.isWordPart_of_isNameChar (plain : a.dollar = false) {c : Char}
    (h : a.isNameChar c = true) : isWordPart c = true := by
  simp only [isNameChar, isLetter, plain, Bool.false_and, Bool.or_false, Bool.or_eq_true] at h
  simp only [isWordPart, isWordStart, Bool.or_eq_true]
  exact h.imp_left .inl

theorem isAscii_of_isPathChar {c : Char} (h : isPathChar c = true) : isAscii c = true := by
  simp only [isPathChar, Bool.or_eq_true, List.contains_iff_mem, List.mem_cons, List.not_mem_nil,
    or_false] at h
  rcases h with alphanum | rfl | rfl | rfl | rfl | rfl
  · exact isAscii_of_isAlphanum alphanum
  all_goals rfl

theorem notMem_of_isPathChar {cs ds : List Char} (h : cs.all isPathChar = true)
    (others : ds.all (!isPathChar ·) = true) : ∀ d ∈ ds, d ∉ cs := by
  intro d hd mem
  have other := List.all_eq_true.1 others d hd
  rw [List.all_eq_true.1 h d mem] at other
  cases other

theorem Alphabet.comment_cases (a : Alphabet) : a.comment = "//" ∨ a.comment = "#" := by
  simpa using a.comment_known

theorem Alphabet.mem_quoteMarks {quote : Char} (h : a.quotes.contains quote = true) :
    quote ∈ quoteMarks :=
  List.contains_iff_mem.1 (List.all_eq_true.1 a.quotes_known quote (List.contains_iff_mem.1 h))

theorem Alphabet.mem_marks {c : Char} (h : a.marks.contains c = true) :
    c ∈ ['(', ')', '.', ',', ';', '*', '='] :=
  List.contains_iff_mem.1 (List.all_eq_true.1 a.marks_known c (List.contains_iff_mem.1 h))

namespace Lexeme

theorem isAscii_of_fits {x : Lexeme} (h : x.fits a = true) : x.chars.all isAscii = true := by
  rw [List.all_eq_true]
  cases x with
  | gap blanks =>
    simp only [fits, Bool.and_eq_true, List.all_eq_true, Bool.or_eq_true, beq_iff_eq] at h
    intro c hc
    rcases h.2 c hc with rfl | rfl <;> rfl
  | comment opening text =>
    simp only [fits, Bool.and_eq_true, List.all_eq_true, beq_iff_eq] at h
    intro c hc
    rcases List.mem_append.1 hc with hc | hc
    · rw [h.1] at hc
      have ascii : a.comment.toList.all isAscii = true := by rcases a.comment_cases with eq | eq <;>
        rw [eq] <;> rfl
      exact List.all_eq_true.1 ascii c hc
    · have printable := h.2 c hc
      simp only [isPrintable, Bool.and_eq_true, decide_eq_true_eq] at printable
      simp only [isAscii, decide_eq_true_eq]
      omega
  | word text =>
    simp only [fits, Bool.and_eq_true, List.all_eq_true] at h
    exact fun c hc => a.isAscii_of_isNameChar (h.2 c hc)
  | quoted quote text =>
    simp only [fits, Bool.and_eq_true, List.all_eq_true] at h
    have marks : quoteMarks.all isAscii = true := rfl
    have mark : isAscii quote = true := List.all_eq_true.1 marks quote (Alphabet.mem_quoteMarks h.1)
    intro c hc
    simp only [chars, List.cons_append, List.mem_cons, List.mem_append, List.not_mem_nil,
      or_false] at hc
    rcases hc with rfl | hc | rfl
    · exact mark
    · exact isAscii_of_isPathChar (h.2 c hc)
    · exact mark
  | mark c =>
    intro d hd
    rw [List.mem_singleton.1 hd]
    have marks : ['(', ')', '.', ',', ';', '*', '='].all isAscii = true := rfl
    exact List.all_eq_true.1 marks c (Alphabet.mem_marks h)

/-- The signs by which a comment or a mark starts. -/
def signs : List Char := ['/', '#', '(', ')', '.', ',', ';', '*', '=']

/-- The characters by which a lexeme can start. -/
def opens (a : Alphabet) : Lexeme → Char → Bool
  | gap _, c => c == ' ' || c == '\t'
  | word _, c => a.isLetter c
  | quoted .., c => quoteMarks.contains c
  | _, c => signs.contains c

theorem chars_of_fits {x : Lexeme} (h : x.fits a = true) :
    ∃ c cs, x.chars = c :: cs ∧ x.opens a c = true := by
  cases x with
  | gap blanks =>
    simp only [fits, Bool.and_eq_true, List.all_eq_true, bne_iff_ne] at h
    cases eq : blanks.toList with
    | nil => exact absurd (String.toList_eq_nil_iff.1 eq) h.1
    | cons c cs => exact ⟨c, cs, eq, h.2 c (eq ▸ List.mem_cons_self)⟩
  | comment opening text =>
    simp only [fits, Bool.and_eq_true, beq_iff_eq] at h
    rcases a.comment_cases with eq | eq <;> rw [eq] at h
    · exact ⟨'/', '/' :: text.toList, by rw [chars, h.1]; rfl, rfl⟩
    · exact ⟨'#', text.toList, by rw [chars, h.1]; rfl, rfl⟩
  | word text =>
    simp only [fits, Bool.and_eq_true] at h
    cases eq : text.toList with
    | nil => simp [eq] at h
    | cons c cs =>
      have letter : a.isLetter c = true := by simpa [eq] using h.1
      exact ⟨c, cs, eq, letter⟩
  | quoted quote text =>
    simp only [fits, Bool.and_eq_true] at h
    exact ⟨quote, text.toList ++ [quote], rfl,
      List.contains_iff_mem.2 (Alphabet.mem_quoteMarks h.1)⟩
  | mark c =>
    have known : ['(', ')', '.', ',', ';', '*', '='].all signs.contains = true := rfl
    exact ⟨c, [], rfl, List.all_eq_true.1 known c (Alphabet.mem_marks h)⟩

theorem endsBefore_letter {x : Lexeme} {text : String} {c : Char}
    (follows : x.precedes (word text) = true)
    (letter : a.isLetter c = true) : x.endsBefore c = true := by
  have ascii : isAscii c = true := a.isAscii_of_isNameChar (by simp [Alphabet.isNameChar, letter])
  have facts : (!(c.isAlpha || c == '_' || c == '$') || (!isAsciiSpace c && c != '>')) = true :=
    of_isAscii (p := fun c => !(c.isAlpha || c == '_' || c == '$') ||
      (!isAsciiSpace c && c != '>')) (by decide) ascii
  simp only [Alphabet.isLetter, Bool.or_eq_true, Bool.and_eq_true] at letter
  have letter : (c.isAlpha || c == '_' || c == '$') = true := by
    simp only [Bool.or_eq_true]
    exact letter.imp_right And.right
  simp only [letter, Bool.not_true, Bool.false_or, Bool.and_eq_true] at facts
  cases x with
  | gap _ => simp [endsBefore, ascii, facts.1]
  | comment _ _ => cases follows
  | word _ => cases follows
  | quoted _ _ => rfl
  | mark _ => exact facts.2

theorem endsBefore_sign {x : Lexeme} {c : Char} (sign : signs.contains c = true)
    (open_ : ∀ s t, x ≠ comment s t) : x.endsBefore c = true := by
  have facts :
      signs.all (fun c => (gap "").endsBefore c && (word "").endsBefore c &&
        (mark ' ').endsBefore c) = true :=
    rfl
  have facts := List.all_eq_true.1 facts c (List.contains_iff_mem.1 sign)
  simp only [Bool.and_eq_true] at facts
  cases x with
  | gap _ => exact facts.1.1
  | comment s t => exact absurd rfl (open_ s t)
  | word _ => exact facts.1.2
  | quoted _ _ => rfl
  | mark _ => exact facts.2

theorem endsBefore_quote {x : Lexeme} {quote : Char} {text : String}
    (follows : x.precedes (quoted quote text) = true)
    {c : Char} (mark : quoteMarks.contains c = true) : x.endsBefore c = true := by
  have facts : quoteMarks.all (fun c => (gap "").endsBefore c && (Lexeme.mark ' ').endsBefore c) =
      true := rfl
  have facts := List.all_eq_true.1 facts c (List.contains_iff_mem.1 mark)
  rw [Bool.and_eq_true] at facts
  cases x with
  | gap _ => exact facts.1
  | comment _ _ => cases follows
  | word _ => cases follows
  | quoted _ _ => rfl
  | mark _ => exact facts.2

/-- Neighbours are cut off from each other. -/
theorem stopsAt_append {x y : Lexeme} (follows : x.precedes y = true) (h : y.fits a = true)
    (rest : List Char) : x.StopsAt (y.chars ++ rest) := by
  obtain ⟨c, cs, eq, start⟩ := chars_of_fits h
  intro d hd
  rw [eq, List.cons_append, List.head?_cons, Option.some.injEq] at hd
  subst hd
  have open_ : ∀ s t, x ≠ comment s t := by
    rintro s t rfl
    cases y <;> cases follows
  cases y with
  | gap blanks =>
    simp only [opens, Bool.or_eq_true, beq_iff_eq] at start
    cases x with
    | gap _ => cases follows
    | comment _ _ => cases follows
    | word _ => rcases start with rfl | rfl <;> rfl
    | quoted _ _ => rfl
    | mark _ => rcases start with rfl | rfl <;> rfl
  | word text => exact endsBefore_letter follows start
  | comment _ _ => exact endsBefore_sign start open_
  | quoted _ _ => exact endsBefore_quote follows start
  | mark _ => exact endsBefore_sign start open_

theorem all_of_gap {p : Char → Bool} {blanks : String} (h : (gap blanks).fits a = true)
    (blank : p ' ' = true)
    (tab : p '\t' = true) : blanks.toList.all p = true ∧ blanks.toList ≠ [] := by
  simp only [fits, Bool.and_eq_true, bne_iff_ne, List.all_eq_true, Bool.or_eq_true, beq_iff_eq] at h
  refine ⟨List.all_eq_true.2 fun c hc => ?_, fun nil => h.1 (String.toList_eq_nil_iff.1 nil)⟩
  rcases h.2 c hc with rfl | rfl
  · exact blank
  · exact tab

theorem isWordPart_of_endsBefore {text : String} {c : Char} (h : (word text).endsBefore c = true) :
    isWordPart c = false := by
  simp only [endsBefore, Bool.and_eq_true, Bool.not_eq_true'] at h
  exact h.1.1.1.2

theorem runLength_word {p : Char → Bool} (parts : ∀ c, a.isNameChar c = true → p c = true)
    {text : String} (others : ∀ c, (word text).endsBefore c = true → p c = false)
    (fits : (word text).fits a = true)
    {c : Char} {cs rest : List Char} (eq : (word text).chars = c :: cs)
    (stops : (word text).StopsAt rest) : runLength p ((cs ++ rest).map .char) = cs.length := by
  have eq : text.toList = c :: cs := eq
  simp only [Lexeme.fits, Bool.and_eq_true, eq, List.all_cons, List.all_eq_true] at fits
  refine runLength_append (List.all_eq_true.2 fun d hd => parts d (fits.2.2 d hd))
    fun d hd => others d (stops d hd)

theorem chars_comment {opening text : String} (fits : (comment opening text).fits a = true) :
    (comment opening text).chars = a.comment.toList ++ text.toList := by
  rw [chars, beq_iff_eq.1 (Bool.and_eq_true_iff.1 fits).1]

theorem lineLength_comment {opening text : String}
    (fits : (comment opening text).fits a = true) {c : Char}
    {cs rest : List Char} (eq : (comment opening text).chars = c :: cs)
    (stops : (comment opening text).StopsAt rest) :
    lineLength ((cs ++ rest).map .char) = cs.length := by
  refine lineLength_append (fun line => ?_) fun d hd => beq_iff_eq.1 (stops d hd)
  have mem : '\n' ∈ (comment opening text).chars := eq ▸ List.mem_cons_of_mem c line
  simp only [Lexeme.fits, Bool.and_eq_true, beq_iff_eq, List.all_eq_true] at fits
  rcases List.mem_append.1 mem with line | line
  · rw [fits.1] at line
    rcases a.comment_cases with known | known <;> rw [known] at line <;> simp at line
  · cases fits.2 _ line

/-- At the end of a line every lexeme is over. -/
theorem stopsAt_lineEnd (x : Lexeme) {rest : List Char}
    (ends : ∀ c, rest.head? = some c → c = '\n') : x.StopsAt rest := by
  intro c hc
  rw [ends c hc]
  cases x <;> rfl

end Lexeme

/-! ## Lines of lexemes -/

/-- Whether a line is written in an alphabet, with neighbours that are not taken for one lexeme. -/
inductive Alphabet.Writes (a : Alphabet) : List Lexeme → Prop
  | nil : Writes a []
  | cons {x : Lexeme} {line : List Lexeme} (fits : x.fits a = true) (h : Writes a line)
      (follows : line.head?.all x.precedes = true) : Writes a (x :: line)

theorem Alphabet.Writes.fits_of_mem {line : List Lexeme} (h : a.Writes line) :
    ∀ x ∈ line, x.fits a = true := by
  induction h with
  | nil => exact nofun
  | cons fits _ _ ih => exact List.forall_mem_cons.2 ⟨fits, ih⟩

def lineChars (line : List Lexeme) : List Char := line.flatMap Lexeme.chars

/-- Whether some lines of text are made of these lexemes, written in an alphabet. -/
def Alphabet.Spells (a : Alphabet) (lines : List String) (spelled : List (List Lexeme)) : Prop :=
  lines.map String.toList = spelled.map lineChars ∧ ∀ line ∈ spelled, a.Writes line

theorem Alphabet.Spells.single {line : String} {lexemes : List Lexeme}
    (text : line.toList = lineChars lexemes)
    (writes : a.Writes lexemes) : a.Spells [line] [lexemes] :=
  ⟨by rw [List.map_singleton, List.map_singleton, text], by simpa using writes⟩

theorem Alphabet.Spells.append {lines lines' : List String} {spelled spelled' : List (List Lexeme)}
    (h : a.Spells lines spelled) (h' : a.Spells lines' spelled') :
    a.Spells (lines ++ lines') (spelled ++ spelled') := by
  refine ⟨by rw [List.map_append, List.map_append, h.1, h'.1], ?_⟩
  intro line mem
  exact (List.mem_append.1 mem).elim (h.2 line) (h'.2 line)

theorem Alphabet.Spells.flatMap {α : Type} {write : α → List String}
    {spell : α → List (List Lexeme)}
    (h : ∀ x, a.Spells (write x) (spell x))
    (l : List α) : a.Spells (l.flatMap write) (l.flatMap spell) := by
  induction l with
  | nil => exact ⟨rfl, nofun⟩
  | cons x l ih =>
    rw [List.flatMap_cons, List.flatMap_cons]
    exact (h x).append ih

theorem isAscii_lineChars {line : List Lexeme} (h : a.Writes line) :
    (lineChars line).all isAscii = true := by
  rw [lineChars, List.all_flatMap, List.all_eq_true]
  exact fun x hx => Lexeme.isAscii_of_fits (h.fits_of_mem x hx)

theorem Lexeme.isWord_token (text s : String) :
    (Lexeme.word text).token.isWord s = (text == s) := by
  have injective : text.toList.map Glyph.char = s.toList.map Glyph.char ↔ text = s := by
    rw [(List.map_injective_iff.2 fun _ _ => Glyph.char.inj).eq_iff, String.toList_inj]
  rw [Bool.eq_iff_iff, beq_iff_eq, ← injective]
  simp [Token.isWord, Token.spells, token, kind, chars]

theorem glyphs_tokens (line : List Lexeme) :
    (line.map Lexeme.token).flatMap (·.glyphs) = (lineChars line).map .char := by
  rw [lineChars, List.map_flatMap, List.flatMap_map]
  rfl

/-- The text of a stretch of lexemes is captured as it is written. -/
theorem capture_tokens (kind : CaptureKind) (line : List Lexeme) {text : String}
    (h : text.toList = lineChars line) : capture kind (line.map Lexeme.token) = [⟨kind, text⟩] :=
  capture_of_plain kind (by rw [glyphs_tokens, h])

theorem intercalate_cons {α : Type} (sep l : List α) (ls : List (List α)) :
    sep.intercalate (l :: ls) = l ++ ls.flatMap (sep ++ ·) := by
  induction ls generalizing l with
  | nil => simp
  | cons l' ls ih => rw [List.intercalate_cons_cons, ih, List.flatMap_cons, List.append_assoc,
      List.append_assoc]

theorem nil_intercalate {α : Type} (ls : List (List α)) : [].intercalate ls = ls.flatten := by
  cases ls with
  | nil => rfl
  | cons l ls => exact (intercalate_cons [] l ls).trans (congrArg (l ++ ·) List.flatMap_id)

section Reading

variable {σ : Type} (front : σ → Glyph → List Glyph → Cut Token σ) (keep : Token → Bool)

/-- The tokens of a text that a language goes on with. -/
def kept (s : σ) (cs : List Char) : List Token := (cutAll front 0 s (cs.map .char)).filter keep

@[simp] theorem kept_nil (s : σ) : kept front keep s [] = [] := rfl

/-- A lexeme is cut off where the cutter takes all its characters and nothing else. -/
theorem kept_lexeme {s next : σ} {x : Lexeme} {c : Char} {cs rest : List Char}
    (eq : x.chars = c :: cs) (cut : front s (.char c) ((cs ++ rest).map .char) =
      piece x.kind cs.length (.char c) ((cs ++ rest).map .char) next) :
    kept front keep s (x.chars ++ rest) = [x.token].filter keep ++ kept front keep next rest := by
  have taken : ((cs ++ rest).map Glyph.char).take cs.length = cs.map .char := by
    rw [← List.map_take, List.take_left]
  have dropped : ((cs ++ rest).map Glyph.char).drop cs.length = rest.map .char := by
    rw [← List.map_drop, List.drop_left]
  rw [kept, eq, List.cons_append, List.map_cons, cutAll_cons, cut]
  simp only [piece]
  rw [taken, dropped, ← List.singleton_append, List.filter_append, Lexeme.token, eq]
  rfl

section Blanks

-- Blanks at the end of a line and those in front of the next one make one token. Where that token
-- is dropped, blanks can be taken off one by one.
variable {front keep} {Plain : σ → Prop} {p : Char → Bool} {after : σ → σ}
  (cut : ∀ s c gs, Plain s → p c = true →
    front s (.char c) gs = piece .blank (runLength p gs) (.char c) gs (after s))
  (stays : ∀ s, Plain s → Plain (after s) ∧ after (after s) = after s)
  (drops : ∀ gs, keep ⟨.blank, gs⟩ = false)

include cut stays drops

theorem kept_blank {s : σ} (plain : Plain s) {c : Char} (blank : p c = true) (rest : List Char) :
    kept front keep s (c :: rest) = kept front keep (after s) rest := by
  have first : ∀ s c gs, Plain s → p c = true → (cutAll front 0 s (.char c :: gs)).filter keep =
      (cutAll front 0 (after s) (gs.drop (runLength p gs))).filter keep := by
    intro s c gs plain blank
    rw [cutAll_cons, cut s c gs plain blank]
    simp [piece, drops]
  rw [kept, List.map_cons, first s c _ plain blank, kept]
  cases rest with
  | nil => rfl
  | cons d rest =>
    rw [List.map_cons, runLength]
    split
    · rename_i blank
      rw [List.drop_succ_cons, first _ d _ (stays s plain).1 blank, (stays s plain).2]
    · rfl

theorem kept_blanks {s : σ} (plain : Plain s) {cs : List Char} (blank : cs.all p = true)
    (ne : cs ≠ [])
    (rest : List Char) : kept front keep s (cs ++ rest) = kept front keep (after s) rest := by
  induction cs generalizing s with
  | nil => exact absurd rfl ne
  | cons c cs ih =>
    obtain ⟨first, others⟩ := Bool.and_eq_true_iff.1 blank
    rw [List.cons_append, kept_blank cut stays drops plain first]
    cases cs with
    | nil => rfl
    | cons d cs => rw [ih (stays s plain).1 others (List.cons_ne_nil d cs), (stays s plain).2]

end Blanks

/-- Whether a language reads an alphabet: in the states that the alphabet leads to it cuts off every
lexeme as one token, and a line end gives the tokens `newline`. -/
structure Reads (a : Alphabet) (newline : List Token) (Plain : σ → Prop) : Prop where
  lexeme : ∀ {s : σ} {x : Lexeme} {rest : List Char}, Plain s → x.fits a = true → x.StopsAt rest →
    ∃ s', Plain s' ∧ kept front keep s (x.chars ++ rest) = [x.token].filter keep ++
      kept front keep s' rest
  lineEnd : ∀ {s : σ} (rest : List Char), Plain s →
    ∃ s', Plain s' ∧ kept front keep s ('\n' :: rest) = newline ++ kept front keep s' rest

variable {front keep} {newline : List Token} {Plain : σ → Prop}

theorem Reads.line (reads : Reads front keep a newline Plain) {line : List Lexeme}
    (h : a.Writes line) {s : σ}
    (plain : Plain s) (rest : List Char) (ends : ∀ c, rest.head? = some c → c = '\n') :
    ∃ s', Plain s' ∧
      kept front keep s (lineChars line ++ rest) = (line.map Lexeme.token).filter keep ++
        kept front keep s' rest := by
  induction h generalizing s with
  | nil => exact ⟨s, plain, rfl⟩
  | @cons x line fits h follows ih =>
    have stops : x.StopsAt (lineChars line ++ rest) := by
      cases h with
      | nil => exact x.stopsAt_lineEnd ends
      | cons next =>
        rw [lineChars, List.flatMap_cons, List.append_assoc]
        exact Lexeme.stopsAt_append follows next _
    obtain ⟨s₁, plain₁, first⟩ := reads.lexeme plain fits stops
    obtain ⟨s₂, plain₂, others⟩ := ih plain₁
    refine ⟨s₂, plain₂, ?_⟩
    rw [lineChars, List.flatMap_cons, List.append_assoc, ← lineChars, first, others,
      ← List.append_assoc, ← List.filter_append]
    rfl

/-- A text is read line by line. -/
theorem Reads.lines (reads : Reads front keep a newline Plain) {lines : List (List Lexeme)}
    (h : ∀ line ∈ lines, a.Writes line) {s : σ} (plain : Plain s) :
    kept front keep s (['\n'].intercalate (lines.map lineChars)) =
      newline.intercalate (lines.map fun line => (line.map Lexeme.token).filter keep) := by
  induction lines generalizing s with
  | nil => rfl
  | cons line lines ih =>
    have first := h line List.mem_cons_self
    have others := fun line mem => h line (List.mem_cons_of_mem _ mem)
    cases lines with
    | nil =>
      obtain ⟨s₁, -, eq⟩ := reads.line first plain [] nofun
      simpa using eq
    | cons next lines =>
      let behind := ['\n'].intercalate ((next :: lines).map lineChars)
      obtain ⟨s₁, plain₁, eq₁⟩ := reads.line first plain ('\n' :: behind) (by simp)
      obtain ⟨s₂, plain₂, eq₂⟩ := reads.lineEnd behind plain₁
      rw [List.map_cons, List.map_cons, List.intercalate_cons_cons, List.append_assoc,
        List.singleton_append, ← List.map_cons, eq₁, eq₂, ih others plain₂]
      simp only [List.map_cons, List.intercalate_cons_cons, List.append_assoc]

theorem all_intercalate {p : Char → Bool} {sep : List Char} {ls : List (List Char)}
    (separator : sep.all p = true)
    (h : ∀ l ∈ ls, l.all p = true) : (sep.intercalate ls).all p = true := by
  induction ls with
  | nil => rfl
  | cons l ls ih =>
    have others := ih fun l mem => h l (List.mem_cons_of_mem _ mem)
    cases ls with
    | nil => simpa using h
    | cons l' ls =>
      rw [List.intercalate_cons_cons, List.all_append, List.all_append, h l List.mem_cons_self,
        separator, others]
      rfl

/-- The tokens of a file whose lines are spelled by lexemes. -/
theorem Reads.file (reads : Reads front keep a newline Plain) {lines : List String}
    {spelled : List (List Lexeme)} (h : a.Spells lines spelled) {s : σ} (plain : Plain s) :
    (cutAll front 0 s (glyphs (Utf8.encode ("\n".intercalate lines)))).filter keep =
      newline.intercalate (spelled.map fun line => (line.map Lexeme.token).filter keep) := by
  have text : ("\n".intercalate lines).toList = ['\n'].intercalate (spelled.map lineChars) := by
    rw [String.toList_intercalate, h.1]
    rfl
  have ascii : ("\n".intercalate lines).toList.all isAscii = true := by
    rw [text]
    apply all_intercalate rfl
    intro l mem
    obtain ⟨line, listed, rfl⟩ := List.mem_map.1 mem
    exact isAscii_lineChars (h.2 line listed)
  rw [glyphs_encode ascii, text]
  exact reads.lines h.2 plain

end Reading

/-! ## Names, literals and notes -/

structure Alphabet.Name (a : Alphabet) where
  text : String
  fits : (Lexeme.word text).fits a = true

/-- A text between quotes. -/
structure Alphabet.Literal (a : Alphabet) where
  quote : Char
  text : String
  fits : (Lexeme.quoted quote text).fits a = true
  ne_empty : text ≠ ""

def Alphabet.Literal.written (l : a.Literal) : String :=
  String.singleton l.quote ++ l.text ++ String.singleton l.quote

def Alphabet.Literal.lexeme (l : a.Literal) : Lexeme := .quoted l.quote l.text

theorem Alphabet.Literal.toList_written (l : a.Literal) : l.written.toList = l.lexeme.chars := by
  simp [written, lexeme, Lexeme.chars]

theorem Alphabet.Literal.unquote_written (l : a.Literal) : unquote l.written = l.text := by
  have mark : l.quote ∈ quoteMarks := Alphabet.mem_quoteMarks (Bool.and_eq_true_iff.1 l.fits).1
  have eq : l.written.toList = l.quote :: l.text.toList ++ [l.quote] := l.toList_written
  have solid : quoteMarks.all (!Text.isBlank ·) = true := rfl
  rw [unquote_eq_iff]
  refine ⟨l.written, ⟨[], [], by simp, nofun, ?_⟩, .inl ⟨l.quote, mark, eq⟩⟩
  intro c hc
  have ends : c = l.quote := by
    rw [eq, List.getLast?_concat] at hc
    simpa [eq_comm] using hc
  simpa [ends] using List.all_eq_true.1 solid l.quote mark

def Alphabet.Literal.capture (l : a.Literal) : Capture := ⟨.importName, l.written⟩

theorem Alphabet.Literal.capture_token (l : a.Literal) :
    Source.capture .importName [l.lexeme.token] = [l.capture] := by
  refine capture_tokens .importName [l.lexeme] ?_
  rw [l.toList_written, lineChars, List.flatMap_singleton]

theorem Alphabet.Literal.importsOf_captures (ls : List a.Literal) :
    Extraction.importsOf (ls.map capture) = (ls.map (·.text)).eraseDups := by
  apply Extraction.importsOf_of_unquoted
  · unfold capture
    rw [Extraction.imported_map, List.map_map]
    exact List.map_congr_left fun l _ => l.unquote_written
  · intro id mem
    obtain ⟨l, -, rfl⟩ := List.mem_map.1 mem
    exact l.ne_empty

/-- Blanks and tabs in front of a line. -/
structure Indent where
  text : String
  blank : (text.toList.all fun c => c == ' ' || c == '\t') = true

def Indent.none : Indent := ⟨"", rfl⟩

def Indent.lexemes (i : Indent) : List Lexeme := if i.text = "" then [] else [.gap i.text]

/-- What a comment says. -/
structure Remark where
  text : String
  printable : text.toList.all isPrintable = true

/-- A line that holds a comment or nothing. -/
structure Note where
  indent : Indent
  remark : Option Remark

/-- The text of a note in a language where comments start with `opening`. -/
def Note.text (opening : String) (n : Note) : String :=
  match n.remark with
  | none => n.indent.text
  | some remark => n.indent.text ++ opening ++ remark.text

def Note.lexemes (opening : String) (n : Note) : List Lexeme :=
  n.indent.lexemes ++ n.remark.toList.map fun remark => .comment opening remark.text

/-- A line of a source, or several that belong together. -/
inductive Line (α : Type) where
  | note (n : Note)
  | code (x : α)

namespace Line

variable {α : Type}

def code? : Line α → Option α
  | note _ => none
  | code x => some x

/-- The code of some lines, without the notes. -/
def codes (lines : List (Line α)) : List α := lines.filterMap code?

theorem codes_note (n : Note) (lines : List (Line α)) : codes (note n :: lines) = codes lines := rfl

theorem codes_code (x : α) (lines : List (Line α)) :
    codes (code x :: lines) = x :: codes lines := rfl

def text (opening : String) (write : α → List String) : Line α → List String
  | note n => [n.text opening]
  | code x => write x

def lexemes (opening : String) (spell : α → List (List Lexeme)) : Line α → List (List Lexeme)
  | note n => [n.lexemes opening]
  | code x => spell x

end Line

theorem Indent.lineChars_lexemes (i : Indent) : lineChars i.lexemes = i.text.toList := by
  unfold lexemes
  split
  · rename_i empty
    simp [lineChars, empty]
  · simp [lineChars, Lexeme.chars]

theorem Indent.filter_tokens {keep : Token → Bool} (drops : ∀ gs, keep ⟨.blank, gs⟩ = false)
    (i : Indent) : (i.lexemes.map Lexeme.token).filter keep = [] := by
  unfold lexemes
  split
  · rfl
  · simp [Lexeme.token, Lexeme.kind, drops]

/-- A line that starts with no gap may be indented. -/
theorem Indent.writes_append (i : Indent) {line : List Lexeme} (h : a.Writes line)
    (start : line.head?.all (Lexeme.gap " ").precedes = true) : a.Writes (i.lexemes ++ line) := by
  unfold lexemes
  split
  · exact h
  · rename_i ne
    have fits : (Lexeme.gap i.text).fits a = true := by simp [Lexeme.fits, ne, i.blank]
    have same : (Lexeme.gap i.text).precedes = (Lexeme.gap " ").precedes := by
      funext y
      cases y <;> rfl
    exact h.cons fits (same ▸ start)

theorem Note.lineChars_lexemes (opening : String) (n : Note) :
    lineChars (n.lexemes opening) = (n.text opening).toList := by
  rw [lexemes, text, lineChars, List.flatMap_append, ← lineChars, Indent.lineChars_lexemes]
  cases n.remark <;> simp [Lexeme.chars]

theorem Note.writes_lexemes (n : Note) : a.Writes (n.lexemes a.comment) := by
  apply Indent.writes_append
  · cases n.remark with
    | none => exact .nil
    | some remark => exact .cons (by simp [Lexeme.fits, remark.printable]) .nil rfl
  · cases n.remark <;> rfl

theorem Note.spells (n : Note) : a.Spells [n.text a.comment] [n.lexemes a.comment] :=
  .single (n.lineChars_lexemes a.comment).symm n.writes_lexemes

theorem Line.spells {α : Type} {write : α → List String} {spell : α → List (List Lexeme)}
    (h : ∀ x, a.Spells (write x) (spell x)) (line : Line α) :
    a.Spells (line.text a.comment write) (line.lexemes a.comment spell) := by
  cases line with
  | note n => exact n.spells
  | code x => exact h x

/-- A note is white space and comment. -/
theorem Note.isTrivia_tokens (opening : String) (n : Note) :
    ∀ t ∈ (n.lexemes opening).map Lexeme.token, t.isTrivia = true := by
  intro t ht
  obtain ⟨x, hx, rfl⟩ := List.mem_map.1 ht
  rcases List.mem_append.1 hx with hx | hx
  · unfold Indent.lexemes at hx
    split at hx
    · cases hx
    · rw [List.mem_singleton.1 hx]
      rfl
  · obtain ⟨remark, -, rfl⟩ := List.mem_map.1 hx
    rfl

end Source

end PackageCoupling
