import Mathlib.Data.List.Perm.Basic
import PackageCoupling.Proofs.ListedFiles

/-!
# Trees that differ in one file

Two trees *differ only at* a place if everything else stands where it stood, and the place is empty
or holds a file in both (`DifferOnlyAt`); putting a file somewhere makes such a change
(`differOnlyAt_put`). A path that does not lead to the place leads to the same in both trees
(`resolve_elsewhere`, `read_elsewhere`). So if no ignore rules are read from the place, which only
links could bring about (`rulesApart_of_linkFree`), the same files are listed, but for the one
(`Lister.files_eq`).
-/

namespace PackageCoupling

structure DifferOnlyAt (x : List RawText) (tree tree' : Node) : Prop where
  elsewhere : ∀ place, place ≠ x → tree.entryAt? place = tree'.entryAt? place
  before : ∀ e, tree.entryAt? x = some e → ∃ content, e = .file content
  after : ∀ e, tree'.entryAt? x = some e → ∃ content, e = .file content

namespace DifferOnlyAt

variable {x : List RawText} {tree tree' : Node}

theorem symm (d : DifferOnlyAt x tree tree') : DifferOnlyAt x tree' tree :=
  ⟨fun place ne => (d.elsewhere place ne).symm, d.after, d.before⟩

theorem not_dir (d : DifferOnlyAt x tree tree') : tree.entryAt? x ≠ some .dir := by
  intro dir
  obtain ⟨content, eq⟩ := d.before .dir dir
  cases eq

theorem dir_iff (d : DifferOnlyAt x tree tree') (place : List RawText) :
    tree.entryAt? place = some .dir ↔ tree'.entryAt? place = some .dir := by
  by_cases eq : place = x
  · subst eq
    exact iff_of_false d.not_dir d.symm.not_dir
  · rw [d.elsewhere place eq]

end DifferOnlyAt

/-! ## Putting a file -/

namespace Node

theorem entryAt?_dir_cons (es : List (RawText × Node)) (name : RawText) (rest : List RawText) :
    (Node.dir es).entryAt? (name :: rest) = (es.lookup name).bind (·.entryAt? rest) := by
  rw [entryAt?, find?]
  cases es.lookup name <;> rfl

/-- Nothing stands below a file. -/
theorem entryAt?_below_file {n : Node} (h : ∃ content, n.entry = .file content) (name : RawText)
    (rest : List RawText) : n.entryAt? (name :: rest) = none := by
  obtain ⟨content, eq⟩ := h
  cases n with
  | file content => rfl
  | dir es => cases eq
  | link target => cases eq

theorem put_dir_cons {es : List (RawText × Node)} (sorted : es.Pairwise (fun a b => a.1 < b.1))
    (name : RawText) (rest : List RawText) (node : Node) :
    ∃ es', (Node.dir es).put (name :: rest) node = .dir es' ∧ ∀ k, es'.lookup k =
      if k = name then some (alter (fun _ => node) rest (es.lookup name)) else es.lookup k :=
  ⟨_, rfl, Table.lookup_alterEntries name _ sorted⟩

end Node

/-- Putting a file into a directory, for nothing or for another file, changes nothing else. -/
theorem differOnlyAt_put {tree : Node} (wf : tree.WellFormed) (dir : List RawText) (name : RawText)
    (parent : tree.entryAt? dir = some .dir)
    (old : ∀ e, tree.entryAt? (dir ++ [name]) = some e → ∃ content, e = .file content)
    (content : Bytes) :
    DifferOnlyAt (dir ++ [name]) tree (tree.put (dir ++ [name]) (.file content)) := by
  induction dir generalizing tree with
  | nil =>
    obtain ⟨es, found⟩ := Node.entryAt?_eq_dir_iff.1 parent
    cases found
    cases wf with
    | dir sorted names children =>
      obtain ⟨es', put, lookup⟩ := Node.put_dir_cons sorted name [] (.file content)
      rw [List.nil_append] at old ⊢
      rw [put]
      refine ⟨?_, old, ?_⟩
      · intro place ne
        cases place with
        | nil => rfl
        | cons k rest =>
          rw [Node.entryAt?_dir_cons, Node.entryAt?_dir_cons, lookup]
          by_cases eq : k = name
          · subst eq
            cases rest with
            | nil => exact absurd rfl ne
            | cons r rest =>
              rw [if_pos rfl]
              cases child : es.lookup k with
              | none => rfl
              | some n =>
                have file := old n.entry (by rw [Node.entryAt?_dir_cons, child]; rfl)
                exact Node.entryAt?_below_file file r rest
          · rw [if_neg eq]
      · intro e found
        rw [Node.entryAt?_dir_cons, lookup, if_pos rfl] at found
        cases found
        exact ⟨content, rfl⟩
  | cons d ds ih =>
    cases wf with
    | file c => cases parent
    | link target => cases parent
    | @dir es sorted names children =>
      rw [Node.entryAt?_dir_cons] at parent
      obtain ⟨child, lookupChild, parent⟩ := Option.bind_eq_some_iff.1 parent
      rw [List.cons_append] at old ⊢
      rw [Node.entryAt?_dir_cons, lookupChild] at old
      have inside := ih (children _ (Table.mem_of_lookup lookupChild)) parent old
      obtain ⟨es', put, lookup⟩ := Node.put_dir_cons sorted d (ds ++ [name]) (.file content)
      have lookup' : es'.lookup d = some (child.put (ds ++ [name]) (.file content)) := by
        rw [lookup, if_pos rfl, lookupChild]
        rfl
      rw [put]
      refine ⟨?_, ?_, ?_⟩
      · intro place ne
        cases place with
        | nil => rfl
        | cons k rest =>
          rw [Node.entryAt?_dir_cons, Node.entryAt?_dir_cons]
          by_cases eq : k = d
          · subst eq
            rw [lookupChild, lookup']
            exact inside.elsewhere rest fun same => ne (congrArg _ same)
          · rw [lookup, if_neg eq]
      · rw [Node.entryAt?_dir_cons, lookupChild]
        exact old
      · rw [Node.entryAt?_dir_cons, lookup']
        exact inside.after

/-! ## Paths that lead elsewhere -/

section Elsewhere

variable {x : List RawText} {tree tree' : Node}

theorem reaches_elsewhere (d : DifferOnlyAt x tree tree') {links : Nat}
    {here ps place : List RawText} (h : tree.Reaches links here ps place) (ne : place ≠ x) :
    tree'.Reaches links here ps place := by
  induction h with
  | done => exact .done
  | stay dir still _ ih => exact .stay ((d.dir_iff _).1 dir) still (ih ne)
  | up dir _ ih => exact .up ((d.dir_iff _).1 dir) (ih ne)
  | @down links here rest place part e proper found real further ih =>
    by_cases there : here ++ [part] = x
    · -- From a file the way does not go on.
      have stop := further.eq_here (there ▸ d.not_dir)
      exact absurd (stop.trans there) ne
    · rw [d.elsewhere _ there] at found
      exact .down proper found real (ih ne)
  | @link links here rest place part target proper found further ih =>
    have elsewhere : here ++ [part] ≠ x := by
      intro there
      rw [there] at found
      obtain ⟨content, eq⟩ := d.before _ found
      cases eq
    rw [d.elsewhere _ elsewhere] at found
    exact .link proper found (ih ne)

theorem resolve_elsewhere (d : DifferOnlyAt x tree tree') {path : RawText} {place : List RawText}
    (h : tree.resolve path = .ok place) (ne : place ≠ x) : tree'.resolve path = .ok place := by
  rw [Node.resolve_eq_ok_iff] at h ⊢
  exact ⟨h.1, reaches_elsewhere d h.2 ne⟩

theorem read_elsewhere (d : DifferOnlyAt x tree tree') {path : RawText} {content : Bytes}
    (h : tree.read path = .ok content) (apart : tree.resolve path ≠ .ok x) :
    tree'.read path = .ok content := by
  obtain ⟨place, resolved, found⟩ := Node.read_eq_ok_iff.1 h
  have ne : place ≠ x := by
    rintro rfl
    exact apart resolved
  rw [d.elsewhere place ne] at found
  exact Node.read_eq_ok_iff.2 ⟨place, resolve_elsewhere d resolved ne, found⟩

theorem read_ok_iff (d : DifferOnlyAt x tree tree') {path : RawText}
    (apart : tree.resolve path ≠ .ok x) (apart' : tree'.resolve path ≠ .ok x) (content : Bytes) :
    tree.read path = .ok content ↔ tree'.read path = .ok content :=
  ⟨fun h => read_elsewhere d h apart, fun h => read_elsewhere d.symm h apart'⟩

theorem exists?_elsewhere (d : DifferOnlyAt x tree tree') {path : RawText}
    (h : tree.exists? path = true) (apart : tree.resolve path ≠ .ok x) :
    tree'.exists? path = true := by
  obtain ⟨place, e, resolved, found⟩ := Node.exists?_iff.1 h
  have ne : place ≠ x := by
    rintro rfl
    exact apart resolved
  rw [d.elsewhere place ne] at found
  exact Node.exists?_iff.2 ⟨place, e, resolve_elsewhere d resolved ne, found⟩

end Elsewhere

/-! ## Ignore rules -/

/-- What the ignore rules of a directory are read from; ignore files only where they are respected.
-/
def ruleFiles (respect : Bool) : List String :=
  [".git", ".git/info/exclude"] ++ if respect then [".ignore", ".gitignore"] else []

/-- Whether nothing that ignore rules are read from leads to the file at `x`. -/
def RulesApart (respect : Bool) (x : List RawText) (tree : Node) : Prop :=
  ∀ dir, ∀ name ∈ ruleFiles respect, tree.resolve (Node.placePath (dir ++ [.ofText name])) ≠ .ok x

section Rules

variable {x : List RawText} {tree tree' : Node}

theorem ofFile_eq (d : DifferOnlyAt x tree tree') {path : RawText}
    (apart : tree.resolve path ≠ .ok x) (apart' : tree'.resolve path ≠ .ok x) :
    IgnoreRules.ofFile tree path = IgnoreRules.ofFile tree' path := by
  have same := read_ok_iff d apart apart'
  unfold IgnoreRules.ofFile
  cases read : tree.read path with
  | ok content => rw [(same content).1 read]
  | error e =>
    cases read' : tree'.read path with
    | error e' => rfl
    | ok content =>
      rw [(same content).2 read'] at read
      cases read

/-- The ignore rules of a directory stay the same. -/
theorem ofDir_eq (d : DifferOnlyAt x tree tree') {respect : Bool}
    (apart : RulesApart respect x tree)
    (apart' : RulesApart respect x tree') (place : List RawText) :
    IgnoreLevel.ofDir tree respect place = IgnoreLevel.ofDir tree' respect place := by
  have rules : ∀ name ∈ ruleFiles respect,
      IgnoreRules.ofFile tree (Node.placePath (place ++ [.ofText name])) =
        IgnoreRules.ofFile tree' (Node.placePath (place ++ [.ofText name])) :=
    fun name mem => ofFile_eq d (apart place name mem) (apart' place name mem)
  have git : ".git" ∈ ruleFiles respect := by simp [ruleFiles]
  have exclude : ".git/info/exclude" ∈ ruleFiles respect := by simp [ruleFiles]
  have repository : tree.exists? (Node.placePath (place ++ [.ofText ".git"])) =
      tree'.exists? (Node.placePath (place ++ [.ofText ".git"])) := by
    rw [Bool.eq_iff_iff]
    exact ⟨fun h => exists?_elsewhere d h (apart place _ git),
      fun h => exists?_elsewhere d.symm h (apart' place _ git)⟩
  cases respect with
  | false => simp [IgnoreLevel.ofDir, repository, rules _ exclude]
  | true =>
    simp [IgnoreLevel.ofDir, repository, rules _ exclude, rules ".ignore" (by decide),
      rules ".gitignore" (by decide)]

end Rules

/-! ## Listings -/

namespace Lister

variable {tree tree' : Node} {place : List RawText} {options : ListOptions}

section SameRules

variable (rules : ∀ dir, IgnoreLevel.ofDir tree options.respectIgnoreFiles dir =
  IgnoreLevel.ofDir tree' options.respectIgnoreFiles dir)

include rules in
theorem enter_eq (levels : List IgnoreLevel) (dir : List RawText) :
    enter ⟨tree, place, options⟩ levels dir = enter ⟨tree', place, options⟩ levels dir := by
  simp only [enter, rules]

include rules in
theorem above_eq : above ⟨tree, place, options⟩ = above ⟨tree', place, options⟩ := by
  unfold above
  dsimp only
  split
  · rename_i respected
    rw [respected] at rules
    simp only [levelsAbove, rules]
  · rfl

include rules in
theorem admits_eq (levels : List IgnoreLevel) (entry tail : List RawText) :
    admits ⟨tree, place, options⟩ levels entry tail =
      admits ⟨tree', place, options⟩ levels entry tail := by
  induction tail generalizing levels entry with
  | nil => rfl
  | cons name rest ih =>
    rw [admits, admits, ih, enter_eq rules]
    rfl

include rules in
theorem admitted_eq (f : List RawText) :
    admitted ⟨tree, place, options⟩ f = admitted ⟨tree', place, options⟩ f := by
  cases f with
  | nil => rfl
  | cons name rest => rw [admitted, admitted, above_eq rules, enter_eq rules, admits_eq rules]

end SameRules

/-- Where the rules are the same, so is the listing, but for the file that differs. -/
theorem files_eq (wf : tree.WellFormed) (wf' : tree'.WellFormed) {below : List RawText}
    (d : DifferOnlyAt (place ++ below) tree tree')
    (rules : ∀ dir, IgnoreLevel.ofDir tree options.respectIgnoreFiles dir =
      IgnoreLevel.ofDir tree' options.respectIgnoreFiles dir) :
    (files ⟨tree, place, options⟩).filter (· ≠ below) =
      (files ⟨tree', place, options⟩).filter (· ≠ below) := by
  have sorted := (files_sorted (l := ⟨tree, place, options⟩) wf).filter (· ≠ below)
  have sorted' := (files_sorted (l := ⟨tree', place, options⟩) wf').filter (· ≠ below)
  have distinct : ∀ {fs : List (List RawText)}, fs.Pairwise (· < ·) → fs.Nodup := by
    intro fs sorted
    refine sorted.imp ?_
    rintro a _ lt rfl
    exact List.lt_irrefl _ lt
  have members : ∀ f, f ∈ (files ⟨tree, place, options⟩).filter (· ≠ below) ↔
      f ∈ (files ⟨tree', place, options⟩).filter (· ≠ below) := by
    intro f
    rw [List.mem_filter, List.mem_filter, decide_eq_true_eq]
    refine and_congr_left fun ne => ?_
    rw [mem_files_iff (l := ⟨tree, place, options⟩) wf,
      mem_files_iff (l := ⟨tree', place, options⟩) wf',
      admitted_eq rules, d.elsewhere (place ++ f) fun eq => ne (List.append_cancel_left eq)]
  have perm := (List.perm_ext_iff_of_nodup (distinct sorted) (distinct sorted')).2 members
  exact perm.eq_of_pairwise (fun a b _ _ lt gt => absurd gt (List.lt_asymm lt)) sorted sorted'

end Lister

/-! ## Trees without links -/

namespace Node

inductive LinkFree : Node → Prop where
  | file (content : Bytes) : LinkFree (.file content)
  | dir {entries : List (RawText × Node)} (children : ∀ e ∈ entries, LinkFree e.2) :
      LinkFree (.dir entries)

theorem linkFree_alter {node : Node} (free : node.LinkFree) (place : List RawText)
    (old : Option Node) (h : ∀ n, old = some n → n.LinkFree) :
    (alter (fun _ => node) place old).LinkFree := by
  induction place generalizing old with
  | nil => exact free
  | cons name rest ih =>
    have new : (alter (fun _ => node) rest none).LinkFree := ih none (by simp)
    have alone : (Node.dir [(name, alter (fun _ => node) rest none)]).LinkFree := by
      refine .dir fun e he => ?_
      rw [List.mem_singleton.1 he]
      exact new
    unfold alter
    split
    · rename_i eq
      cases eq
    · rename_i entries eq
      cases eq
      cases h _ rfl with
      | dir children =>
        refine .dir fun e he => ?_
        rcases Table.mem_alterEntries he with there | rfl | ⟨a, there, rfl⟩
        · exact children e there
        · exact new
        · refine ih (some a) fun n hn => ?_
          cases hn
          exact children _ there
    · rename_i eq _
      cases eq
      exact alone

theorem linkFree_put {tree node : Node} (free : tree.LinkFree) (free' : node.LinkFree)
    (place : List RawText) : (tree.put place node).LinkFree := by
  refine linkFree_alter free' place (some tree) fun n hn => ?_
  cases hn
  exact free

theorem linkFree_find? {tree n : Node} (free : tree.LinkFree) {place : List RawText}
    (h : tree.find? place = some n) : n.LinkFree := by
  induction place generalizing tree with
  | nil =>
    rw [find?, Option.some.injEq] at h
    exact h ▸ free
  | cons name rest ih =>
    cases free with
    | file content => simp [find?] at h
    | dir children =>
      rw [find?] at h
      obtain ⟨child, found, h⟩ := Option.bind_eq_some_iff.1 h
      exact ih (children _ (Table.mem_of_lookup found)) h

theorem LinkFree.entryAt?_ne_link {tree : Node} (free : tree.LinkFree) (place : List RawText)
    (target : RawText) : tree.entryAt? place ≠ some (.link target) := by
  intro found
  obtain ⟨n, found, eq⟩ := Option.map_eq_some_iff.1 found
  have free := linkFree_find? free found
  cases n with
  | link target' => cases free
  | file content => cases eq
  | dir entries => cases eq

/-- Without links a path leads to something of its last name. -/
theorem LinkFree.getLast?_of_reaches {tree : Node} (free : tree.LinkFree) {links : Nat}
    {here qs place : List RawText} (h : tree.Reaches links here qs place) {name : RawText}
    (isName : name.IsName) : ∀ ps, qs = ps ++ [name] → place.getLast? = some name := by
  induction h with
  | done => simp
  | stay dir still further ih =>
    intro ps eq
    cases ps with
    | nil =>
      cases eq
      rcases still with still | still
      · exact absurd still isName.1
      · exact absurd still isName.2.1
    | cons p ps =>
      cases eq
      exact ih ps rfl
  | up dir further ih =>
    intro ps eq
    cases ps with
    | nil =>
      cases eq
      exact absurd rfl isName.2.2.1
    | cons p ps =>
      cases eq
      exact ih ps rfl
  | down proper found real further ih =>
    intro ps eq
    cases ps with
    | nil =>
      cases eq
      cases further
      exact List.getLast?_concat
    | cons p ps =>
      cases eq
      exact ih ps rfl
  | link proper found => exact absurd found (free.entryAt?_ne_link _ _)

end Node

theorem Node.bytes_placePath_cons (d : RawText) {place : List RawText} (ne : place ≠ []) :
    (placePath (d :: place)).bytes = RawText.separator :: d.bytes ++ (placePath place).bytes := by
  obtain ⟨next, rest, rfl⟩ := List.exists_cons_of_ne_nil ne
  rw [placePath, RawText.bytes_ofNames_cons]
  rfl

/-- The path of a place ends with the path that is put there. -/
theorem Node.parts_placePath_concat (dir : List RawText) (r : RawText) :
    ∃ front, (placePath (dir ++ [r])).parts = front ++ r.parts := by
  have ends : ∃ front, (placePath (dir ++ [r])).bytes = front ++ RawText.separator :: r.bytes := by
    induction dir with
    | nil => exact ⟨[], by simp [placePath, RawText.ofNames]⟩
    | cons d ds ih =>
      obtain ⟨front, eq⟩ := ih
      refine ⟨RawText.separator :: d.bytes ++ front, ?_⟩
      rw [List.cons_append, bytes_placePath_cons d (by simp), eq, List.append_assoc]
  obtain ⟨front, eq⟩ := ends
  exact ⟨_, by rw [RawText.parts, eq, Path.segments_append, List.map_append]; rfl⟩

/-- Without links, ignore rules are read from nothing but the files of that name. -/
theorem rulesApart_of_linkFree {tree : Node} (free : tree.LinkFree) (respect : Bool)
    {x : List RawText}
    (other : ∀ name ∈ ruleFiles true, x.getLast? ≠ some (.ofText (Path.baseName name))) :
    RulesApart respect x tree := by
  intro dir name mem resolved
  have mem : name ∈ ruleFiles true := by
    cases respect with
    | true => exact mem
    | false => exact List.mem_append_left _ (by simpa [ruleFiles] using mem)
  have isName : (RawText.ofText (Path.baseName name)).IsName := by
    have each : ∀ name ∈ ruleFiles true, (RawText.ofText (Path.baseName name)).IsName := by decide
    exact each name mem
  have last : (RawText.ofText name).parts =
      (RawText.ofText name).parts.dropLast ++ [.ofText (Path.baseName name)] := by
    have each : ∀ name ∈ ruleFiles true, (RawText.ofText name).parts =
        (RawText.ofText name).parts.dropLast ++ [.ofText (Path.baseName name)] := by decide
    exact each name mem
  obtain ⟨front, parts⟩ := Node.parts_placePath_concat dir name
  have reaches := (Node.resolve_eq_ok_iff.1 resolved).2
  rw [parts, last, ← List.append_assoc] at reaches
  exact other name mem (free.getLast?_of_reaches reaches isName _ rfl)

end PackageCoupling
