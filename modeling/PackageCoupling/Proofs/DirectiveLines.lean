import Mathlib.Data.List.Basic
import PackageCoupling.Modules.Descriptor
import PackageCoupling.Proofs.Directive

/-!
# Module directives, line by line

Directives are searched for in the whole text, but each stands at the start of a line. So the search
can be done line by line, except where a directive leaves a quote open and a later line closes it
(`identifiers_append_iff`). Where every line has an even number of quotes this cannot happen, and a
descriptor declares what its lines declare (`identifier_of_balanced_lines`).
-/

namespace PackageCoupling.GoDirective

/-- The identifiers that are found from a state of the search: how many characters still belong to a
directive, and whether a line starts. -/
def found (n : Nat) (lineStart : Bool) (cs : List Char) : List String :=
  (cutAll front n lineStart cs).filterMap id

theorem found_nil (n : Nat) (s : Bool) : found n s [] = [] := by
  simp [found, cutAll]

theorem found_succ (n : Nat) (s : Bool) (c : Char) (rest : List Char) :
    found (n + 1) s (c :: rest) = found n s rest := rfl

theorem found_cons (s : Bool) (c : Char) (rest : List Char) :
    found 0 s (c :: rest) = (front s c rest).value.toList ++
      found (front s c rest).more (front s c rest).next rest := by
  rw [found, cutAll, List.filterMap_cons]
  cases (front s c rest).value <;> rfl

/-! ## One step of the search -/

theorem front_of_declared {c : Char} {rest : List Char} {id : String} {n : Nat}
    (declared : directive? (c :: rest) = some (id, n)) :
    front true c rest = ⟨some id, n - 1, false⟩ := by
  simp [front, declared]

theorem front_of_undeclared {s : Bool} {c : Char} {rest : List Char}
    (undeclared : s = true → directive? (c :: rest) = none) :
    front s c rest = ⟨none, 0, c == '\n'⟩ := by
  cases s with
  | false => rfl
  | true => simp [front, undeclared rfl]

/-- A step takes a directive, or one character that belongs to none. -/
theorem front_cases (s : Bool) (c : Char) (rest : List Char) :
    (∃ id n, s = true ∧ directive? (c :: rest) = some (id, n) ∧
      front s c rest = ⟨some id, n - 1, false⟩) ∨
      front s c rest = ⟨none, 0, c == '\n'⟩ := by
  by_cases undeclared : s = true → directive? (c :: rest) = none
  · exact .inr (front_of_undeclared undeclared)
  · simp only [Classical.not_imp] at undeclared
    obtain ⟨rfl, some⟩ := undeclared
    obtain ⟨⟨id, n⟩, declared⟩ := Option.ne_none_iff_exists'.1 some
    exact .inl ⟨id, n, rfl, declared, front_of_declared declared⟩

theorem more_le (s : Bool) (c : Char) (rest : List Char) : (front s c rest).more ≤ rest.length := by
  rcases front_cases s c rest with ⟨id, n, -, declared, eq⟩ | eq
  · have within := directive?_le_length declared
    rw [List.length_cons] at within
    simp only [eq]
    omega
  · simp [eq]

theorem next_eq_false {s : Bool} {c : Char} (ne : c ≠ '\n') (rest : List Char) :
    (front s c rest).next = false := by
  rcases front_cases s c rest with ⟨id, n, -, -, eq⟩ | eq <;> simp [eq, ne]

/-- Text behind a line end makes no difference to a step before it, unless it closes a quote. -/
theorem front_append {s : Bool} {c : Char} {rest b : List Char}
    (closed : s = true → Opens (c :: rest) → '"' ∉ b) :
    front s c (rest ++ '\n' :: b) = front s c rest := by
  cases s with
  | false => rfl
  | true =>
    unfold front
    rw [← List.cons_append, directive?_append (closed rfl)]

theorem front_newline (s : Bool) (b : List Char) : front s '\n' b = ⟨none, 0, true⟩ := by
  refine front_of_undeclared fun _ => ?_
  refine (directive?_append (x := []) ?_).trans rfl
  rintro ⟨inner, ⟨indent, gap, eq, -⟩, -⟩
  simp at eq

/-! ## Quotes that are left open -/

/-- Whether the search, going on from a state, comes to a directive that opens a quote and does not
close it. -/
inductive Unclosed : Nat → Bool → List Char → Prop where
  | here {cs : List Char} (opens : Opens cs) : Unclosed 0 true cs
  | inside {n : Nat} {s : Bool} {c : Char} {rest : List Char} (further : Unclosed n s rest) :
      Unclosed (n + 1) s (c :: rest)
  | behind {s : Bool} {c : Char} {rest : List Char}
      (further : Unclosed (front s c rest).more (front s c rest).next rest) :
        Unclosed 0 s (c :: rest)

/-- Whether a directive in the text leaves a quote open. -/
def LeavesOpen (text : String) : Prop := Unclosed 0 true text.toList

/-- If no open quote is closed behind a line end, the search starts anew there. -/
theorem found_append {x b : List Char} {n : Nat} {s : Bool} (fits : n ≤ x.length)
    (closed : Unclosed n s x → '"' ∉ b) :
    found n s (x ++ '\n' :: b) = found n s x ++ found 0 true b := by
  induction x generalizing n s with
  | nil =>
    obtain rfl : n = 0 := by simpa using fits
    rw [List.nil_append, found_cons, front_newline, found_nil]
    rfl
  | cons c rest ih =>
    rw [List.cons_append]
    cases n with
    | succ n =>
      rw [found_succ, found_succ]
      exact ih (by simpa using fits) fun unclosed => closed (.inside unclosed)
    | zero =>
      have same : front s c (rest ++ '\n' :: b) = front s c rest :=
        front_append fun start opens => closed (start ▸ .here opens)
      rw [found_cons, found_cons, same, List.append_assoc,
        ih (more_le s c rest) fun unclosed => closed (.behind unclosed)]

/-- Whether two results go apart at an identifier that goes over a line end in the one and does not
in the other. -/
def GoApart (whole part : List String) : Prop :=
  ∃ before id after word after', whole = before ++ id :: after ∧ '\n' ∈ id.toList ∧
    part = before ++ word :: after' ∧ '\n' ∉ word.toList

theorem goApart_of_opens {x b : List Char} (opens : Opens x) (closing : '"' ∈ b) :
    GoApart (found 0 true (x ++ '\n' :: b)) (found 0 true x) := by
  obtain ⟨⟨id, declares, across⟩, word, declares', within⟩ := declares_of_opens opens closing
  rw [← String.toList_ofList (l := id)] at declares across
  rw [← String.toList_ofList (l := word)] at declares' within
  obtain ⟨n, declared⟩ := declares_iff.1 declares
  obtain ⟨n', declared'⟩ := declares_iff.1 declares'
  cases x with
  | nil => cases declared'
  | cons c rest =>
    rw [List.cons_append] at declared ⊢
    rw [found_cons, found_cons, front_of_declared declared, front_of_declared declared']
    exact ⟨[], _, _, _, _, rfl, across, rfl, within⟩

/-- A quote that is closed behind a line end changes what is found before it. -/
theorem goApart_of_unclosed {x b : List Char} {n : Nat} {s : Bool} (unclosed : Unclosed n s x)
    (closing : '"' ∈ b) : GoApart (found n s (x ++ '\n' :: b)) (found n s x) := by
  induction unclosed with
  | here opens => exact goApart_of_opens opens closing
  | inside _ ih => exact ih
  | @behind s c rest _ ih =>
    by_cases opens : s = true ∧ Opens (c :: rest)
    · obtain ⟨rfl, opens⟩ := opens
      exact goApart_of_opens opens closing
    · have same : front s c (rest ++ '\n' :: b) = front s c rest :=
        front_append fun start opens' => absurd ⟨start, opens'⟩ opens
      obtain ⟨before, id, after, word, after', whole, across, part, within⟩ := ih
      rw [List.cons_append, found_cons, found_cons, same, whole, part]
      exact ⟨(front s c rest).value.toList ++ before, id, after, word, after', by simp,
        across, by simp, within⟩

/-- An identifier goes over a line end only if a quote is open there and closed behind it. -/
theorem exists_unclosed {cs : List Char} {n : Nat} {s : Bool} {id : String}
    (mem : id ∈ found n s cs)
    (across : '\n' ∈ id.toList) : ∃ x b, cs = x ++ '\n' :: b ∧ Unclosed n s x ∧ '"' ∈ b := by
  induction cs generalizing n s with
  | nil => simp [found_nil] at mem
  | cons c rest ih =>
    cases n with
    | succ n =>
      obtain ⟨x, b, rfl, unclosed, closing⟩ := ih mem
      exact ⟨c :: x, b, rfl, .inside unclosed, closing⟩
    | zero =>
      rw [found_cons, List.mem_append] at mem
      rcases mem with here | later
      · rcases front_cases s c rest with ⟨id', n, rfl, declared, eq⟩ | eq
        · rw [eq, Option.mem_toList] at here
          cases here
          obtain ⟨x, b, split, opens, closing⟩ := exists_opens (declares_iff.2 ⟨n, declared⟩) across
          exact ⟨x, b, split, .here opens, closing⟩
        · simp [eq] at here
      · obtain ⟨x, b, rfl, unclosed, closing⟩ := ih later
        refine ⟨c :: x, b, rfl, ?_, closing⟩
        by_cases opens : s = true ∧ Opens (c :: x)
        · obtain ⟨rfl, opens⟩ := opens
          exact .here opens
        · rw [front_append fun start opens' => absurd ⟨start, opens'⟩ opens] at unclosed
          exact .behind unclosed

/-- The identifiers of two texts with a line end between them are those of the one and those of the
other, if and only if no directive in the first leaves a quote open that the second closes. An
identifier goes over a line end exactly where this happens. -/
theorem identifiers_append_iff (a b text : String) :
    (identifiers (a ++ "\n" ++ b) = identifiers a ++ identifiers b ↔
      ¬(LeavesOpen a ∧ '"' ∈ b.toList)) ∧
    ((∃ id ∈ identifiers text, '\n' ∈ id.toList) ↔
      ∃ above below, text = above ++ "\n" ++ below ∧ LeavesOpen above ∧ '"' ∈ below.toList) := by
  have whole : ∀ a b : String,
      identifiers (a ++ "\n" ++ b) = found 0 true (a.toList ++ '\n' :: b.toList) := by
    intro a b
    simp [identifiers, found]
  constructor
  · rw [whole]
    constructor
    · rintro same ⟨unclosed, closing⟩
      obtain ⟨before, id, after, word, after', eq, across, eq', within⟩ :=
        goApart_of_unclosed unclosed closing
      have same : before ++ id :: after = before ++ word :: (after' ++ identifiers b) := by
        rw [← eq, same, ← List.cons_append, ← List.append_assoc, ← eq']
        rfl
      rw [(List.cons.inj (List.append_cancel_left same)).1] at across
      exact within across
    · intro closed
      exact found_append (Nat.zero_le _) fun unclosed closing => closed ⟨unclosed, closing⟩
  · constructor
    · rintro ⟨id, mem, across⟩
      obtain ⟨x, b, split, unclosed, closing⟩ := exists_unclosed mem across
      refine ⟨String.ofList x, String.ofList b, ?_, by simpa [LeavesOpen] using unclosed,
        by simpa using closing⟩
      rw [← String.toList_inj, split]
      simp
    · rintro ⟨above, below, rfl, unclosed, closing⟩
      obtain ⟨before, id, after, -, -, eq, across, -⟩ := goApart_of_unclosed unclosed closing
      rw [whole, eq]
      exact ⟨id, by simp, across⟩

/-- A descriptor with two directives, the first of which leaves a quote open. -/
def openQuote : String := "module \"a\nmodule example.com/b\n// \"\n"

/-- An open quote hides the directive on the next line, so that a descriptor with two directives is
taken for one with a single directive. -/
theorem open_quote_hides_directive :
    openQuote = "module \"a" ++ "\n" ++ "module example.com/b\n// \"\n" ∧
    identifiers openQuote = ["a\nmodule example.com/b\n// "] ∧
    identifiers "module \"a" ++ identifiers "module example.com/b\n// \"\n" =
      ["\"a", "example.com/b"] ∧
    Descriptor.identifier .goModule "go.mod" openQuote = .ok "a\nmodule example.com/b\n// " := by
  have hidden : identifiers openQuote = ["a\nmodule example.com/b\n// "] := by decide +kernel
  refine ⟨by decide +kernel, hidden, by decide +kernel, ?_⟩
  simp [Descriptor.identifier, Descriptor.identifiers?, hidden]

/-! ## Single lines -/

/-- Where no line starts, a quote can be left open only behind the next line end. -/
theorem newline_mem_of_unclosed {n : Nat} {s : Bool} {cs : List Char} (unclosed : Unclosed n s cs)
    (within : s = false) : '\n' ∈ cs := by
  induction unclosed with
  | here => cases within
  | inside _ ih => exact List.mem_cons_of_mem _ (ih within)
  | @behind s c rest _ ih =>
    by_cases newline : c = '\n'
    · exact newline ▸ List.mem_cons_self
    · exact List.mem_cons_of_mem _ (ih (next_eq_false newline rest))

theorem opens_of_unclosed {line : List Char} (single : '\n' ∉ line)
    (unclosed : Unclosed 0 true line) : Opens line := by
  cases unclosed with
  | here opens => exact opens
  | @behind _ c rest further =>
    rw [List.mem_cons, not_or] at single
    exact absurd (newline_mem_of_unclosed further (next_eq_false (Ne.symm single.1) rest)) single.2

theorem found_eq_nil {n : Nat} {cs : List Char} (single : '\n' ∉ cs) : found n false cs = [] := by
  induction cs generalizing n with
  | nil => exact found_nil n false
  | cons c rest ih =>
    rw [List.mem_cons, not_or] at single
    cases n with
    | succ n => exact ih single.2
    | zero =>
      rw [found_cons, front_of_undeclared (by simp), beq_false_of_ne (Ne.symm single.1),
        ih single.2]
      rfl

/-- What is found in a single line. -/
theorem found_line {line : List Char} (single : '\n' ∉ line) :
    found 0 true line = ((directive? line).map (·.1)).toList := by
  cases line with
  | nil => rfl
  | cons c rest =>
    rw [List.mem_cons, not_or] at single
    rw [found_cons, next_eq_false (Ne.symm single.1), found_eq_nil single.2, List.append_nil]
    cases declared : directive? (c :: rest) with
    | none => rw [front_of_undeclared fun _ => declared]; rfl
    | some r => rw [front_of_declared declared]; rfl

/-! ## Balanced lines -/

theorem count_quote_of_opens {line : List Char} (opens : Opens line) : line.count '"' = 1 := by
  obtain ⟨inner, ⟨indent, gap, rfl, -, inIndent, inGap⟩, noQuote⟩ := opens
  have noneInIndent : '"' ∉ indent := fun mem => absurd (inIndent _ mem) (by decide)
  have noneInGap : '"' ∉ gap := fun mem => absurd (inGap _ mem) (by decide)
  have noneInKeyword : '"' ∉ "module".toList := by decide
  simp only [List.count_append, List.count_cons_self, List.count_eq_zero_of_not_mem noneInIndent,
    List.count_eq_zero_of_not_mem noneInGap, List.count_eq_zero_of_not_mem noneInKeyword,
    List.count_eq_zero_of_not_mem noQuote]

/-- The lines of a text. -/
def lines (text : String) : List (List Char) := text.toList.splitOn '\n'

/-- Where every line has an even number of quotes, the identifiers are those of the lines. -/
theorem found_of_balanced {cs : List Char}
    (balanced : ∀ line ∈ cs.splitOn '\n', 2 ∣ line.count '"') :
    found 0 true cs = (cs.splitOn '\n').flatMap fun line =>
      ((directive? line).map (·.1)).toList := by
  have closed : ∀ {line : List Char}, '\n' ∉ line → 2 ∣ line.count '"' → ¬Unclosed 0 true line := by
    intro line single even unclosed
    rw [count_quote_of_opens (opens_of_unclosed single unclosed)] at even
    omega
  -- by induction on the text, one line at a time
  induction length : cs.length using Nat.strongRecOn generalizing cs with
  | ind n ih =>
    by_cases newline : '\n' ∈ cs
    · obtain ⟨line, rest, rfl, single⟩ := List.eq_append_cons_of_mem newline
      rw [List.splitOn_append_cons_self_of_not_mem single] at balanced ⊢
      rw [List.forall_mem_cons] at balanced
      have shorter : rest.length < n := by
        rw [← length, List.length_append, List.length_cons]
        omega
      rw [found_append (Nat.zero_le _) fun unclosed => absurd unclosed (closed single balanced.1),
        found_line single, ih rest.length shorter balanced.2 rfl, List.flatMap_cons]
    · rw [List.splitOn_eq_singleton newline, found_line newline, List.flatMap_singleton]

/-- Whether a line is a directive. -/
def IsDirective (line : List Char) : Prop := ∃ id, Declares line id

theorem isDirective_iff {line : List Char} :
    IsDirective line ↔ (directive? line).isSome = true := by
  rw [Option.isSome_iff_exists]
  constructor
  · rintro ⟨id, declares⟩
    rw [← String.toList_ofList (l := id)] at declares
    obtain ⟨n, declared⟩ := declares_iff.1 declares
    exact ⟨_, declared⟩
  · rintro ⟨r, declared⟩
    exact ⟨_, declares_iff.2 ⟨r.2, declared⟩⟩

instance : DecidablePred IsDirective := fun _ => decidable_of_iff _ isDirective_iff.symm

/-- If every line has an even number of quotes, a descriptor has an identifier exactly if one of its
lines is a directive and no other is, and then it is that line's. Otherwise the number of directives
is reported. -/
theorem identifier_of_balanced_lines (path content : String)
    (balanced : ∀ line ∈ lines content, 2 ∣ line.count '"') :
    (∀ id, Descriptor.identifier .goModule path content = .ok id ↔
      (lines content).countP IsDirective = 1 ∧ ∃ line ∈ lines content, Declares line id.toList) ∧
    ((lines content).countP IsDirective ≠ 1 →
      Descriptor.identifier .goModule path content =
        .error (.ambiguousModule path ((lines content).countP IsDirective))) := by
  have all : identifiers content =
      (lines content).filterMap fun line => (directive? line).map (·.1) := by
    rw [List.filterMap_eq_flatMap_toList]
    exact found_of_balanced balanced
  have number : (identifiers content).length = (lines content).countP IsDirective := by
    rw [all, List.length_filterMap_eq_countP]
    refine List.countP_congr fun line _ => ?_
    simp [isDirective_iff]
  have members : ∀ id, id ∈ identifiers content ↔ ∃ line ∈ lines content,
      Declares line id.toList := by
    intro id
    rw [all, List.mem_filterMap]
    simp [declares_iff]
  unfold Descriptor.identifier Descriptor.identifiers?
  refine ⟨fun id => ?_, fun other => ?_⟩
  · rw [← number, ← members]
    rcases identifiers content with _ | ⟨first, _ | ⟨second, rest⟩⟩
    · simp
    · simp [eq_comm]
    · simp
  · rw [← number] at other ⊢
    generalize identifiers content = ids at other ⊢
    rcases ids with _ | ⟨first, _ | ⟨second, rest⟩⟩
    · rfl
    · exact absurd rfl other
    · rfl

/-- A comment that mentions a module, a quoted directive and a requirement: one line declares
something. -/
theorem identifier_of_quoted_directive :
    (∀ line ∈ lines "// \"module\" x\n\tmodule \"a b\" // \"\"\nrequire module\n",
      2 ∣ line.count '"') ∧
    Descriptor.identifier .goModule "go.mod"
      "// \"module\" x\n\tmodule \"a b\" // \"\"\nrequire module\n" = .ok "a b" := by
  have balanced : ∀ line ∈ lines "// \"module\" x\n\tmodule \"a b\" // \"\"\nrequire module\n",
      2 ∣ line.count '"' := by decide +kernel
  refine ⟨balanced, ((identifier_of_balanced_lines _ _ balanced).1 _).2 ⟨by decide +kernel, ?_⟩⟩
  exact ⟨"\tmodule \"a b\" // \"\"".toList, by decide +kernel,
    declares_iff.2 ⟨13, by decide +kernel⟩⟩

end PackageCoupling.GoDirective
