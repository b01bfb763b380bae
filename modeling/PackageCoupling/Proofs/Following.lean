import PackageCoupling.FileTree.Resolve
import PackageCoupling.Proofs.RawPaths

/-!
# Where a path leads

A tree is known by what stands at its places (`entryAt?`): a file, a link, or a directory. `Reaches`
says in these terms how a path is followed, one part after the other; it is what `follow` computes
(`follow_eq_ok_iff`). A path that leads somewhere and goes on with the names of real entries leads
to the entry below (`Reaches.append_names`), so a path in slash form below a root leads where its
names do (`resolve_append`).
-/

namespace PackageCoupling

/-! ## What stands at a place -/

/-- A node without what is in it. -/
inductive Entry where
  | file (content : Bytes)
  | dir
  | link (target : RawText)
  deriving DecidableEq

namespace Node

def entry : Node → Entry
  | .file content => .file content
  | .dir _ => .dir
  | .link target => .link target

def entryAt? (tree : Node) (place : List RawText) : Option Entry := (tree.find? place).map entry

theorem find?_append (tree : Node) (p q : List RawText) :
    tree.find? (p ++ q) = (tree.find? p).bind (find? q) := by
  induction p generalizing tree with
  | nil => rfl
  | cons name rest ih =>
    cases tree with
    | file content => rfl
    | link target => rfl
    | dir entries =>
      rw [List.cons_append, find?, find?, Option.bind_assoc]
      exact congrArg _ (funext ih)

theorem entryAt?_eq_file_iff {tree : Node} {place : List RawText} {content : Bytes} :
    tree.entryAt? place = some (.file content) ↔ tree.find? place = some (.file content) := by
  rw [entryAt?]
  cases tree.find? place with
  | none => simp
  | some n => cases n <;> simp [entry]

theorem entryAt?_eq_dir_iff {tree : Node} {place : List RawText} :
    tree.entryAt? place = some .dir ↔ ∃ entries, tree.find? place = some (.dir entries) := by
  rw [entryAt?]
  cases tree.find? place with
  | none => simp
  | some n => cases n <;> simp [entry]

theorem entryAt?_concat {tree : Node} {place : List RawText} {entries : List (RawText × Node)}
    (h : tree.find? place = some (.dir entries)) (name : RawText) :
    tree.entryAt? (place ++ [name]) = (entries.lookup name).map entry := by
  rw [entryAt?, find?_append, h, Option.bind_some, find?]
  cases entries.lookup name <;> rfl

/-- What has something below it is a directory. -/
theorem entryAt?_of_below {tree : Node} {place rest : List RawText} {name : RawText} {e : Entry}
    (h : tree.entryAt? (place ++ name :: rest) = some e) : tree.entryAt? place = some .dir := by
  rw [entryAt?, find?_append] at h
  rw [entryAt?_eq_dir_iff]
  cases found : tree.find? place with
  | none => simp [found] at h
  | some n =>
    cases n with
    | dir entries => exact ⟨entries, rfl⟩
    | file content => simp [found, find?] at h
    | link target => simp [found, find?] at h

/-! ## Following a path -/

/-- Whether following `parts` from `here` through at most so many links leads to a place. -/
inductive Reaches (tree : Node) : Nat → List RawText → List RawText → List RawText → Prop where
  | done {links : Nat} {here : List RawText} : Reaches tree links here [] here
  | stay {links : Nat} {here rest place : List RawText} {part : RawText}
      (dir : tree.entryAt? here = some .dir) (still : part = "" ∨ part = ".")
      (further : Reaches tree links here rest place) : Reaches tree links here (part :: rest) place
  | up {links : Nat} {here rest place : List RawText} (dir : tree.entryAt? here = some .dir)
      (further : Reaches tree links here.dropLast rest place) :
      Reaches tree links here ((".." : RawText) :: rest) place
  | down {links : Nat} {here rest place : List RawText} {part : RawText} {e : Entry}
      (proper : part ≠ "" ∧ part ≠ "." ∧ part ≠ "..")
      (found : tree.entryAt? (here ++ [part]) = some e) (real : ∀ target, e ≠ .link target)
      (further : Reaches tree links (here ++ [part]) rest place) :
      Reaches tree links here (part :: rest) place
  | link {links : Nat} {here rest place : List RawText} {part target : RawText}
      (proper : part ≠ "" ∧ part ≠ "." ∧ part ≠ "..")
      (found : tree.entryAt? (here ++ [part]) = some (.link target))
      (further : Reaches tree links (if target.isRooted then [] else here)
        (target.parts ++ rest) place) : Reaches tree (links + 1) here (part :: rest) place

theorem follow_nil (tree : Node) (links : Nat) (here : List RawText) :
    tree.follow links here [] = .ok here := by
  cases links <;> rfl

theorem follow_of_not_dir {tree : Node} {here : List RawText} (h : tree.entryAt? here ≠ some .dir)
    (links : Nat) (part : RawText) (rest : List RawText) :
    tree.follow links here (part :: rest) = .error .notDirectory := by
  have none : ∀ onLink, tree.followParts onLink here (part :: rest) = .error .notDirectory := by
    intro onLink
    rw [followParts]
    split
    · rename_i entries found
      exact absurd (entryAt?_eq_dir_iff.2 ⟨entries, found⟩) h
    · rfl
  cases links with
  | zero => exact none _
  | succ links => exact none _

theorem follow_stay {tree : Node} {here : List RawText} (dir : tree.entryAt? here = some .dir)
    (links : Nat) {part : RawText} (still : part = "" ∨ part = ".") (rest : List RawText) :
    tree.follow links here (part :: rest) = tree.follow links here rest := by
  obtain ⟨entries, found⟩ := entryAt?_eq_dir_iff.1 dir
  cases links <;> simp [follow, followParts, found, still]

theorem follow_up {tree : Node} {here : List RawText} (dir : tree.entryAt? here = some .dir)
    (links : Nat) (rest : List RawText) :
    tree.follow links here ((".." : RawText) :: rest) = tree.follow links here.dropLast rest := by
  obtain ⟨entries, found⟩ := entryAt?_eq_dir_iff.1 dir
  cases links <;> simp [follow, followParts, found]

/-- Following a name depends on the entry of that name. -/
theorem follow_name {tree : Node} {here : List RawText} (dir : tree.entryAt? here = some .dir)
    (links : Nat) {part : RawText} (proper : part ≠ "" ∧ part ≠ "." ∧ part ≠ "..")
    (rest : List RawText) :
    tree.follow links here (part :: rest) =
      match tree.entryAt? (here ++ [part]) with
      | none => .error .notFound
      | some (.link target) =>
        match links with
        | 0 => .error .tooManyLinks
        | links + 1 => tree.follow links (if target.isRooted then [] else here)
          (target.parts ++ rest)
      | some _ => tree.follow links (here ++ [part]) rest := by
  obtain ⟨entries, found⟩ := entryAt?_eq_dir_iff.1 dir
  rw [entryAt?_concat found]
  cases lookup : entries.lookup part with
  | none => cases links <;> simp [follow, followParts, found, proper, lookup]
  | some n => cases n <;> cases links <;> simp [follow, followParts, found, proper, lookup, entry]

/-- Every step but a link uses up a part. -/
theorem reaches_of_follow_of_links {tree : Node} {links : Nat} {place : List RawText}
    (behind : ∀ fewer here ps, links = fewer + 1 → tree.follow fewer here ps = .ok place →
      tree.Reaches fewer here ps place)
    {here ps : List RawText} (h : tree.follow links here ps = .ok place) :
    tree.Reaches links here ps place := by
  induction ps generalizing here with
  | nil =>
    rw [follow_nil] at h
    cases h
    exact .done
  | cons part rest ih =>
    by_cases dir : tree.entryAt? here = some .dir
    · by_cases still : part = "" ∨ part = "."
      · rw [follow_stay dir links still] at h
        exact .stay dir still (ih h)
      · by_cases up : part = ".."
        · subst up
          rw [follow_up dir] at h
          exact .up dir (ih h)
        · have proper : part ≠ "" ∧ part ≠ "." ∧ part ≠ ".." :=
            ⟨fun eq => still (.inl eq), fun eq => still (.inr eq), up⟩
          rw [follow_name dir links proper] at h
          split at h
          · cases h
          · rename_i target found
            split at h
            · cases h
            · exact .link proper found (behind _ _ _ rfl h)
          · rename_i e real found
            exact .down proper found (fun target eq => real target eq) (ih h)
    · rw [follow_of_not_dir dir] at h
      cases h

theorem reaches_of_follow {tree : Node} {links : Nat} {here ps place : List RawText}
    (h : tree.follow links here ps = .ok place) : tree.Reaches links here ps place := by
  induction links generalizing here ps with
  | zero => exact reaches_of_follow_of_links (fun fewer _ _ eq => by cases eq) h
  | succ links ih =>
    refine reaches_of_follow_of_links (fun fewer here ps eq => ?_) h
    cases eq
    exact ih

theorem Reaches.follow_eq {tree : Node} {links : Nat} {here ps place : List RawText}
    (h : tree.Reaches links here ps place) : tree.follow links here ps = .ok place := by
  induction h with
  | done => exact follow_nil ..
  | stay dir still _ ih => rwa [follow_stay dir _ still]
  | up dir _ ih => rwa [follow_up dir]
  | @down links here rest place part e proper found real _ ih =>
    rw [follow_name (entryAt?_of_below found) links proper, found]
    cases e with
    | link target => exact absurd rfl (real target)
    | file content => exact ih
    | dir => exact ih
  | link proper found _ ih =>
    rw [follow_name (entryAt?_of_below found) _ proper, found]
    exact ih

/-- Following computes where a path leads. -/
theorem follow_eq_ok_iff {tree : Node} {links : Nat} {here ps place : List RawText} :
    tree.follow links here ps = .ok place ↔ tree.Reaches links here ps place :=
  ⟨reaches_of_follow, Reaches.follow_eq⟩

theorem resolve_eq_ok_iff {tree : Node} {path : RawText} {place : List RawText} :
    tree.resolve path = .ok place ↔
      path ≠ "" ∧ tree.Reaches maxLinks [] path.parts place := by
  rw [resolve, ← follow_eq_ok_iff]
  by_cases empty : path = ""
  · simp [empty]
  · simp [empty]

theorem read_eq_ok_iff {tree : Node} {path : RawText} {content : Bytes} :
    tree.read path = .ok content ↔
      ∃ place, tree.resolve path = .ok place ∧ tree.entryAt? place = some (.file content) := by
  simp only [entryAt?_eq_file_iff, read, lookup]
  cases tree.resolve path with
  | error e => simp [bind, Except.bind]
  | ok place =>
    cases found : tree.find? place with
    | none => simp [bind, Except.bind, found]
    | some n => cases n <;> simp [bind, Except.bind, found]

theorem exists?_iff {tree : Node} {path : RawText} :
    tree.exists? path = true ↔
      ∃ place e, tree.resolve path = .ok place ∧ tree.entryAt? place = some e := by
  simp only [entryAt?, exists?, lookup]
  cases tree.resolve path with
  | error e => simp [bind, Except.bind, Except.toOption]
  | ok place =>
    cases found : tree.find? place with
    | none => simp [bind, Except.bind, Except.toOption, found]
    | some n => simp [bind, Except.bind, Except.toOption, found]

variable {tree : Node} {links : Nat} {here ps place : List RawText}

/-- Nothing is below what is no directory. -/
theorem Reaches.eq_here (h : tree.Reaches links here ps place)
    (notDir : tree.entryAt? here ≠ some .dir) : place = here := by
  cases h with
  | done => rfl
  | stay dir => exact absurd dir notDir
  | up dir => exact absurd dir notDir
  | down _ found => exact absurd (entryAt?_of_below found) notDir
  | link _ found => exact absurd (entryAt?_of_below found) notDir

/-- From a place, the names of real entries lead straight down. -/
theorem reaches_names {names : List RawText} (proper : ∀ name ∈ names, name.IsName) {e : Entry}
    (found : tree.entryAt? (place ++ names) = some e) (real : ∀ target, e ≠ .link target) :
    tree.Reaches links place names (place ++ names) := by
  induction names generalizing place with
  | nil =>
    rw [List.append_nil]
    exact .done
  | cons name rest ih =>
    rw [List.forall_mem_cons] at proper
    have shift : place ++ name :: rest = place ++ [name] ++ rest := by simp
    rw [shift] at found ⊢
    have isName : name ≠ "" ∧ name ≠ "." ∧ name ≠ ".." :=
      ⟨proper.1.1, proper.1.2.1, proper.1.2.2.1⟩
    cases rest with
    | nil =>
      rw [List.append_nil] at found ⊢
      exact .down isName found real .done
    | cons next rest =>
      -- The way goes on, so this entry is a directory.
      have dir : tree.entryAt? (place ++ [name]) = some .dir := entryAt?_of_below found
      exact .down isName dir (by simp) (ih proper.2 found)

/-- A path that goes on with the names of real entries leads further down. -/
theorem Reaches.append_names (h : tree.Reaches links here ps place) {names : List RawText}
    (proper : ∀ name ∈ names, name.IsName) {e : Entry}
    (found : tree.entryAt? (place ++ names) = some e) (real : ∀ target, e ≠ .link target) :
    tree.Reaches links here (ps ++ names) (place ++ names) := by
  induction h with
  | done => exact reaches_names proper found real
  | stay dir still _ ih => exact .stay dir still (ih found)
  | up dir _ ih => exact .up dir (ih found)
  | down name entry real' _ ih => exact .down name entry real' (ih found)
  | link name entry _ ih =>
    have ih := ih found
    rw [List.append_assoc] at ih
    exact .link name entry ih

/-- A slash at the end of a path asks for a directory and leads nowhere else. -/
theorem Reaches.of_trailing_slash {qs : List RawText} (h : tree.Reaches links here qs place) :
    ∀ ps, qs = ps ++ [RawText.ofText ""] → tree.Reaches links here ps place := by
  induction h with
  | done => simp
  | @stay links here rest place part dir still further ih =>
    intro ps eq
    cases ps with
    | nil =>
      cases eq
      exact further
    | cons p ps =>
      cases eq
      exact .stay dir still (ih ps rfl)
  | up dir further ih =>
    intro ps eq
    cases ps with
    | nil => simp at eq
    | cons p ps =>
      cases eq
      exact .up dir (ih ps rfl)
  | down proper found real further ih =>
    intro ps eq
    cases ps with
    | nil =>
      cases eq
      exact absurd rfl proper.1
    | cons p ps =>
      cases eq
      exact .down proper found real (ih ps rfl)
  | link proper found further ih =>
    intro ps eq
    cases ps with
    | nil =>
      cases eq
      exact absurd rfl proper.1
    | cons p ps =>
      cases eq
      exact .link proper found (ih _ (List.append_assoc ..).symm)

/-! ## Paths below a root -/

theorem append_ne_empty {root : RawText} (ne : root ≠ "") {path : RawText}
    (relative : path.isRooted = false) : root.append path ≠ "" := by
  have bytes : root.bytes ≠ [] := fun nil => ne (congrArg RawText.mk nil)
  have first := Path.head?_appendList bytes (beq_eq_false_iff_ne.1 relative)
  intro eq
  have nil : Path.appendList RawText.separator root.bytes path.bytes = [] :=
    congrArg RawText.bytes eq
  rw [nil, List.head?_nil, eq_comm, List.head?_eq_none_iff] at first
  exact bytes first

/-- Below the root, the names of real entries lead to them. -/
theorem resolve_append {root : RawText} (resolved : tree.resolve root = .ok place)
    {names : List RawText} (proper : ∀ name ∈ names, name.IsName) (below : names ≠ [])
    {e : Entry} (found : tree.entryAt? (place ++ names) = some e)
    (real : ∀ target, e ≠ .link target) :
    tree.resolve (root.append (.ofNames names)) = .ok (place ++ names) := by
  obtain ⟨ne, reaches⟩ := resolve_eq_ok_iff.1 resolved
  have relative := RawText.isRooted_ofNames proper
  have cut : (RawText.ofNames names).parts = names :=
    RawText.parts_ofNames below proper
  obtain ⟨front, root', appended⟩ := RawText.parts_append_root ne relative
  have reachesFront : tree.Reaches maxLinks [] front place := by
    rcases root' with eq | eq
    · rwa [eq] at reaches
    · exact reaches.of_trailing_slash front eq
  rw [resolve_eq_ok_iff, appended, cut]
  exact ⟨append_ne_empty ne relative, reachesFront.append_names proper found real⟩

/-- Nothing put behind the root leads to the root. -/
theorem resolve_append_empty {root : RawText} (resolved : tree.resolve root = .ok place)
    {q : List RawText} (h : tree.resolve (root.append "") = .ok q) : q = place := by
  obtain ⟨ne, reaches⟩ := resolve_eq_ok_iff.1 resolved
  have reachesQ := (resolve_eq_ok_iff.1 h).2
  have relative : (RawText.ofText "").isRooted = false := by decide
  obtain ⟨front, root', appended⟩ := RawText.parts_append_root ne relative
  have empty : (RawText.ofText "").parts = [RawText.ofText ""] := by decide
  rw [appended, empty] at reachesQ
  have same : ∀ {ps}, tree.Reaches maxLinks [] ps place → tree.Reaches maxLinks [] ps q →
      q = place := by
    intro ps first second
    have := first.follow_eq.symm.trans second.follow_eq
    cases this
    rfl
  rcases root' with eq | eq
  · rw [eq] at reaches
    exact same reaches (reachesQ.of_trailing_slash front rfl)
  · rw [eq] at reaches
    exact same reaches reachesQ

end Node

end PackageCoupling
