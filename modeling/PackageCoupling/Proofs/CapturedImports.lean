import Mathlib.Data.List.Basic
import Mathlib.Data.List.TakeWhile
import PackageCoupling.Proofs.Assembly
import PackageCoupling.Proofs.SafeExtraction

/-!
# What a file imports, read off its captures

The imports of a file are what its captures stand for (`mem_importsOf`), each once and in the order
in which they first occur (`pairwise_importsOf`). What a capture stands for is said by `StandsFor`,
without reference to how it is computed. The graph only counts imports, so the order of the captures
does not reach it (`ofFiles_congr`).
-/

namespace PackageCoupling

/-! ## First occurrences -/

theorem idxOf_filter_lt_iff {l : List String} {p : String → Bool} {a b : String} (ha : p a = true)
    (hb : p b = true) : (l.filter p).idxOf a < (l.filter p).idxOf b ↔ l.idxOf a < l.idxOf b := by
  induction l with
  | nil => rfl
  | cons c l ih =>
    rw [List.filter_cons]
    by_cases ca : c = a
    · subst ca
      rw [if_pos ha, List.idxOf_cons_self, List.idxOf_cons_self]
      by_cases cb : c = b
      · simp [cb]
      · simp [List.idxOf_cons_ne _ cb]
    by_cases cb : c = b
    · subst cb
      simp [hb]
    by_cases hc : p c = true
    · rw [if_pos hc]
      simp [List.idxOf_cons_ne _ ca, List.idxOf_cons_ne _ cb, ih]
    · rw [if_neg hc, ih]
      simp [List.idxOf_cons_ne _ ca, List.idxOf_cons_ne _ cb]

/-- Without repetitions the elements stand in the order of their first occurrences. -/
theorem pairwise_eraseDups (l : List String) :
    l.eraseDups.Pairwise fun a b => l.idxOf a < l.idxOf b := by
  generalize len : l.length = n
  induction n using Nat.strongRecOn generalizing l with
  | ind n ih =>
    cases l with
    | nil => exact .nil
    | cons c rest =>
      have shorter := List.length_filter_le (fun b => !b == c) rest
      rw [List.length_cons] at len
      have others : ∀ a ∈ (rest.filter fun b => !b == c).eraseDups, a ≠ c := by
        intro a ha
        simpa using (List.mem_filter.1 (List.mem_eraseDups.1 ha)).2
      rw [List.eraseDups_cons, List.pairwise_cons]
      constructor
      · intro b hb
        rw [List.idxOf_cons_self, List.idxOf_cons_ne _ (others b hb).symm]
        exact Nat.succ_pos _
      · refine (ih _ (by omega) _ rfl).imp_of_mem ?_
        intro a b ha hb before
        have ha := others a ha
        have hb := others b hb
        rw [idxOf_filter_lt_iff (by simpa using ha) (by simpa using hb)] at before
        rw [List.idxOf_cons_ne _ ha.symm, List.idxOf_cons_ne _ hb.symm]
        exact Nat.succ_lt_succ before

theorem eraseDups_perm {l l' : List String} (h : l'.Perm l) : l'.eraseDups.Perm l.eraseDups := by
  rw [List.perm_ext_iff_of_nodup (nodup_eraseDups _) (nodup_eraseDups _)]
  intro a
  rw [List.mem_eraseDups, List.mem_eraseDups, h.mem_iff]

/-! ## What an import text stands for -/

/-- Whether `u` is `s` without the white space at its ends. -/
def Text.TrimsTo (s u : String) : Prop :=
  ∃ before after : List Char, s.toList = before ++ u.toList ++ after ∧
    (∀ c ∈ before ++ after, isBlank c = true) ∧
    ∀ c, u.toList.head? = some c ∨ u.toList.getLast? = some c → isBlank c = false

theorem Text.trimsTo_trim (s : String) : TrimsTo s (trim s) := by
  let inner := s.toList.dropWhile isBlank
  have back : (trim s).toList ++ (inner.reverse.takeWhile isBlank).reverse = inner := by
    rw [trim, String.toList_ofList, trimList, dropEndWhile, ← List.reverse_append,
      List.takeWhile_append_dropWhile, List.reverse_reverse]
  refine ⟨s.toList.takeWhile isBlank, (inner.reverse.takeWhile isBlank).reverse, ?_, ?_, ?_⟩
  · rw [List.append_assoc, back, List.takeWhile_append_dropWhile]
  · intro c hc
    rcases List.mem_append.1 hc with hc | hc
    · exact List.all_eq_true.1 List.all_takeWhile c hc
    · exact List.all_eq_true.1 List.all_takeWhile c (List.mem_reverse.1 hc)
  · rintro c (first | last)
    · have head : inner.head? = some c := by
        rw [← back, List.head?_append, first]
        rfl
      have := List.head?_dropWhile_not isBlank s.toList
      rwa [head] at this
    · rw [trim, String.toList_ofList, trimList, dropEndWhile, List.getLast?_reverse] at last
      have := List.head?_dropWhile_not isBlank inner.reverse
      rwa [last] at this

theorem Text.dropWhile_blank_append {before l : List Char} (blank : ∀ c ∈ before, isBlank c = true)
    (solid : ∀ c, l.head? = some c → isBlank c = false) : (before ++ l).dropWhile isBlank = l := by
  rw [List.dropWhile_append_of_pos blank]
  cases l with
  | nil => rfl
  | cons c l => simp [solid c rfl]

/-- A text has only one form without white space at its ends. -/
theorem Text.trimsTo_iff {s u : String} : TrimsTo s u ↔ u = trim s := by
  constructor
  · rintro ⟨before, after, eq, blank, solid⟩
    have leading := fun c hc => blank c (List.mem_append_left after hc)
    have trailing := fun c hc => blank c (List.mem_append_right before hc)
    rw [← String.toList_inj, trim, String.toList_ofList, trimList, dropEndWhile, eq,
      List.append_assoc]
    by_cases empty : u.toList = []
    · rw [empty, List.nil_append, List.dropWhile_append_of_pos leading,
        List.dropWhile_eq_nil_iff.2 trailing]
      rfl
    · have head : ∀ c, (u.toList ++ after).head? = some c → isBlank c = false := by
        intro c hc
        rw [List.head?_append_of_ne_nil _ empty] at hc
        exact solid c (.inl hc)
      have last : ∀ c, u.toList.reverse.head? = some c → isBlank c = false := by
        intro c hc
        rw [List.head?_reverse] at hc
        exact solid c (.inr hc)
      rw [dropWhile_blank_append leading head, List.reverse_append,
        dropWhile_blank_append (fun c hc => trailing c (List.mem_reverse.1 hc)) last,
          List.reverse_reverse]
  · rintro rfl
    exact trimsTo_trim s

/-- Whether an import text stands for `id`: without white space at its ends it is `id` between two
quotes of one kind, or it is `id` and stands between no quotes. -/
def StandsFor (s id : String) : Prop :=
  ∃ u, Text.TrimsTo s u ∧
    ((∃ quote ∈ quoteMarks, u.toList = quote :: id.toList ++ [quote]) ∨
      (∀ quote ∈ quoteMarks, ∀ inner, u.toList ≠ quote :: inner ++ [quote]) ∧ id = u)

theorem between?_eq_some_iff {quote : Char} {cs inner : List Char} :
    between? quote cs = some inner ↔ cs = quote :: inner ++ [quote] := by
  constructor
  · exact eq_of_between?
  · rintro rfl
    cases inner with
    | nil => simp [between?]
    | cons d inner =>
      have last : (d :: inner ++ [quote]).getLast? = some quote := List.getLast?_concat
      have front : (d :: inner ++ [quote]).dropLast = d :: inner := List.dropLast_concat
      simp only [List.cons_append] at last front ⊢
      simp [between?, last, front]

theorem standsFor_unquote (s : String) : StandsFor s (unquote s) := by
  refine ⟨Text.trim s, Text.trimsTo_trim s, ?_⟩
  unfold unquote
  dsimp only
  rw [Text.trim, String.toList_ofList]
  cases found : quoteMarks.findSome? (between? · (Text.trimList s.toList)) with
  | none =>
    rw [List.findSome?_eq_none_iff] at found
    refine .inr ⟨fun quote mark inner eq => ?_, rfl⟩
    have none := found quote mark
    rw [between?_eq_some_iff.2 eq] at none
    cases none
  | some inner =>
    obtain ⟨quote, mark, between⟩ := List.exists_of_findSome?_eq_some found
    refine .inl ⟨quote, mark, ?_⟩
    rw [Option.getD_some, String.toList_ofList]
    exact eq_of_between? between

/-- A text stands for one identifier only. -/
theorem StandsFor.unique {s id id' : String} (h : StandsFor s id) (h' : StandsFor s id') :
    id = id' := by
  obtain ⟨u, trims, stands⟩ := h
  obtain ⟨u', trims', stands'⟩ := h'
  rw [Text.trimsTo_iff] at trims trims'
  subst trims trims'
  rcases stands with ⟨quote, mark, eq⟩ | ⟨plain, rfl⟩
  · rcases stands' with ⟨quote', -, eq'⟩ | ⟨plain, -⟩
    · rw [eq, List.cons_append, List.cons_append, List.cons.injEq] at eq'
      obtain ⟨rfl, eq'⟩ := eq'
      exact String.toList_inj.1 (List.append_cancel_right eq')
    · exact absurd eq (plain quote mark _)
  · rcases stands' with ⟨quote', mark', eq'⟩ | ⟨-, rfl⟩
    · exact absurd eq' (plain quote' mark' _)
    · rfl

theorem unquote_eq_iff {s id : String} : unquote s = id ↔ StandsFor s id :=
  ⟨fun eq => eq ▸ standsFor_unquote s, fun h => (standsFor_unquote s).unique h⟩

theorem unquote_of_plain {s : String}
    (h : ∀ c ∈ s.toList, Text.isBlank c = false ∧ c ∉ quoteMarks) : unquote s = s := by
  rw [unquote_eq_iff]
  refine ⟨s, ⟨[], [], by simp, nofun, ?_⟩, .inr ⟨fun quote mark inner eq => ?_, rfl⟩⟩
  · rintro c (hc | hc)
    · exact (h c (List.mem_of_head? hc)).1
    · exact (h c (List.mem_of_getLast? hc)).1
  · exact (h quote (eq ▸ List.mem_cons_self)).2 mark

/-! ## The imports of a file -/

namespace Extraction

open Source

theorem mem_imported {captures : List Capture} {text : String} :
    text ∈ imported captures ↔ ∃ c ∈ captures, c.kind = .importName ∧ c.text = text := by
  simp [imported, and_assoc]

theorem imported_map {α : Type} (text : α → String) (l : List α) :
    imported (l.map fun x => ⟨.importName, text x⟩) = l.map text := by
  induction l with
  | nil => rfl
  | cons x l ih => exact congrArg (text x :: ·) ih

theorem mem_importsOf {captures : List Capture} {id : String} :
    id ∈ importsOf captures ↔
      id ≠ "" ∧ ∃ c ∈ captures, c.kind = .importName ∧ StandsFor c.text id := by
  rw [importsOf, List.mem_eraseDups, List.mem_filter, List.mem_map, and_comm]
  simp only [mem_imported, unquote_eq_iff, bne_iff_ne]
  refine and_congr_right fun _ => ⟨?_, ?_⟩
  · rintro ⟨_, ⟨c, listed, kind, rfl⟩, stands⟩
    exact ⟨c, listed, kind, stands⟩
  · rintro ⟨c, listed, kind, stands⟩
    exact ⟨c.text, ⟨c, listed, kind, rfl⟩, stands⟩

/-- Leaving out the empty texts changes nothing in the order of the others. -/
theorem pairwise_importsOf (captures : List Capture) :
    (importsOf captures).Pairwise fun a b =>
      ((imported captures).map unquote).idxOf a < ((imported captures).map unquote).idxOf b := by
  refine (pairwise_eraseDups _).imp_of_mem fun {a b} ha hb before => ?_
  have kept : ∀ id ∈ importsOf captures, (id != "") = true := fun id h => by
    simpa using (mem_importsOf.1 h).1
  exact (idxOf_filter_lt_iff (p := (· != "")) (kept a ha) (kept b hb)).1 before

theorem importsOf_of_unquoted {captures : List Capture} {ids : List String}
    (texts : (imported captures).map unquote = ids) (named : ∀ id ∈ ids, id ≠ "") :
    importsOf captures = ids.eraseDups := by
  rw [importsOf, texts, List.filter_eq_self.2 fun id mem => by simpa using named id mem]

theorem importsOf_perm {captures captures' : List Capture} (h : captures'.Perm captures) :
    (importsOf captures').Perm (importsOf captures) :=
  eraseDups_perm ((((h.filter _).map _).map _).filter _)

/-! ## The contribution of a file -/

/-- Extraction fails only for want of a name that has to be declared. -/
theorem ofCaptures_ok_iff {language : Language} {modules : ModuleMap} {path : String}
    {captures : List Capture} : (∃ file, ofCaptures language modules path captures = .ok file) ↔
      language.naming = .directory ∨ (declared captures).isSome = true := by
  unfold ofCaptures packageName?
  cases language.naming <;> cases declared captures <;> simp

theorem imports_ofCaptures {language : Language} {modules : ModuleMap} {path : String}
    {captures : List Capture}
    {file : FileImports} (h : ofCaptures language modules path captures = .ok file) :
    file.imports = importsOf captures := by
  unfold ofCaptures at h
  dsimp only at h
  split at h
  · cases h
    rfl
  · cases h

/-- Captures in another order fail alike, or make a file of the same package that imports the same.
-/
theorem ofCaptures_perm (language : Language) (modules : ModuleMap) (path : String)
    {captures captures' : List Capture}
    (h : captures'.Perm captures) (same : declared captures' = declared captures) :
    (∃ fault, ofCaptures language modules path captures' = .error fault ∧
      ofCaptures language modules path captures = .error fault) ∨
    ∃ file file', ofCaptures language modules path captures' = .ok file' ∧
      ofCaptures language modules path captures = .ok file ∧ file'.path = file.path ∧
      file'.package = file.package ∧ file'.imports.Perm file.imports := by
  have name : ∀ directory, packageName? language captures' directory =
      packageName? language captures directory := by
    intro directory
    rw [packageName?, packageName?, same]
  unfold ofCaptures
  dsimp only
  rw [name]
  cases packageName? language captures (modules.directoryPath (Path.slash path)) with
  | none => exact .inl ⟨_, rfl, rfl⟩
  | some name => exact .inr ⟨_, _, rfl, rfl, rfl, rfl, importsOf_perm h⟩

end Extraction

theorem Stats.tally_perm (s : Stats) {ids ids' : List String} (h : ids'.Perm ids) :
    s.tally ids' = s.tally ids := by
  apply Table.ext_find?
  intro k
  rw [find?_tally, find?_tally, h.count_eq, if_congr h.mem_iff rfl rfl]

/-- A graph does not tell in which order a file imports. -/
theorem ImportGraph.addFile_congr {file file' : FileImports}
    (package : file'.package = file.package)
    (imports : file'.imports.Perm file.imports)
    (g : ImportGraph) : g.addFile file' = g.addFile file := by
  apply ext_table
  intro p
  rw [addFile, addFile, find?_add, find?_add, package, Stats.tally_perm _ imports]

theorem ImportGraph.ofFiles_congr {file file' : FileImports}
    (package : file'.package = file.package)
    (imports : file'.imports.Perm file.imports) (before after : List FileImports) :
    ofFiles (before ++ file' :: after) = ofFiles (before ++ file :: after) := by
  rw [ofFiles_eq_foldl (.refl _), ofFiles_eq_foldl (.refl _), List.foldl_append, List.foldl_append,
    List.foldl_cons, List.foldl_cons, addFile_congr package imports]

open Source in
/-- What a file contributes, for anything that may have been found in it. Its imports are what
the import captures stand for, without the empty text and without repetitions, in the order of their
first occurrences, and the slices taken for them lie between characters. Captures in another order
contribute the same to the graph, as long as they declare the same package. -/
theorem contribution_of_captures (language : Language) (modules : ModuleMap) (path : String)
    (captures : List Capture) :
    ((∃ file, Extraction.ofCaptures language modules path captures = .ok file) ↔
      language.naming = .directory ∨ (declared captures).isSome = true) ∧
    (∀ file, Extraction.ofCaptures language modules path captures = .ok file →
      file.imports.Nodup ∧ "" ∉ file.imports ∧
      (∀ id, id ∈ file.imports ↔ id ≠ "" ∧ ∃ c ∈ captures, c.kind = .importName ∧
        StandsFor c.text id) ∧
      file.imports.Pairwise fun a b =>
        ((imported captures).map unquote).idxOf a < ((imported captures).map unquote).idxOf b) ∧
    (∀ s id, unquote s = id ↔ StandsFor s id) ∧
    (∀ s, Checked.unquote s = .ok (unquote s)) ∧
    ∀ captures' : List Capture, captures'.Perm captures → declared captures' = declared captures →
      ∀ before after : List FileImports,
        ImportGraph.ofFiles
            (before ++ (Extraction.ofCaptures language modules path captures').toOption.toList ++
              after) =
          ImportGraph.ofFiles
            (before ++ (Extraction.ofCaptures language modules path captures).toOption.toList ++
              after) := by
  refine ⟨Extraction.ofCaptures_ok_iff, ?_, fun _ _ => unquote_eq_iff, Checked.unquote_ok, ?_⟩
  · intro file ok
    rw [Extraction.imports_ofCaptures ok]
    refine ⟨nodup_eraseDups _, ?_, fun _ => Extraction.mem_importsOf,
      Extraction.pairwise_importsOf captures⟩
    intro empty
    exact (Extraction.mem_importsOf.1 empty).1 rfl
  · intro captures' perm same before after
    rcases Extraction.ofCaptures_perm language modules path perm same with
      ⟨fault, failed', failed⟩ | ⟨file, file', ok', ok, -, package, imports⟩
    · rw [failed', failed]
    · rw [ok', ok]
      simpa [Except.toOption] using ImportGraph.ofFiles_congr package imports before after

/-- One import spelled in two ways, one that is empty, and one that opens a quote and does not close
it. -/
def mixedQuotes : List Source.Capture :=
  [⟨.package, "main"⟩, ⟨.importName, "\"fmt\""⟩, ⟨.importName, "''"⟩, ⟨.importName, " 'fmt' "⟩,
    ⟨.importName, "\"é"⟩]

theorem contribution_of_mixedQuotes :
    let file : FileImports := ⟨"a.go", "main", ["fmt", "\"é"]⟩
    Extraction.ofCaptures .go .empty "a.go" mixedQuotes = .ok file ∧ file.imports.Nodup ∧
      StandsFor " 'fmt' " "fmt" ∧ mixedQuotes.reverse.Perm mixedQuotes ∧
      Source.declared mixedQuotes.reverse = Source.declared mixedQuotes ∧
      ImportGraph.ofFiles
        (Extraction.ofCaptures .go .empty "a.go" mixedQuotes.reverse).toOption.toList =
        ImportGraph.ofFiles [file] := by
  intro file
  have ok : Extraction.ofCaptures .go .empty "a.go" mixedQuotes = .ok file := by decide +kernel
  have same : Source.declared mixedQuotes.reverse = Source.declared mixedQuotes := by decide
  obtain ⟨-, imports, stands, -, reordered⟩ :=
    contribution_of_captures .go .empty "a.go" mixedQuotes
  have graph := reordered mixedQuotes.reverse (List.reverse_perm _) same [] []
  rw [ok] at graph
  exact ⟨ok, (imports file ok).1, (stands _ _).1 (by decide +kernel), List.reverse_perm _, same,
    by simpa [Except.toOption] using graph⟩

end PackageCoupling
