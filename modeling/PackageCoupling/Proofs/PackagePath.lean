import PackageCoupling.Extraction.Basic
import PackageCoupling.Proofs.ModuleScope
import PackageCoupling.Proofs.PathJoin

/-!
# The packages of a module

A file that belongs to a module gets its package in four steps: its directory, the search for the
module, a join with the identifier, and the name at the end unless it is there already. In terms of
segments this is one concatenation (`canonicalPackage_of_scoped`), from which follows what two files
of one module or of two modules can have in common:

* `package_of_scoped_file`: the segments of a package, and when packages are shared;
* `go_package_eq_iff`: two Go sources of a module share a package if they declare the same name in
  the same directory, or in a directory and in its subdirectory of that name.

Where directories name packages, the package is the path of the directory (`ofCaptures_directory`,
`package_of_directory_path`).
-/

namespace PackageCoupling

/-! ## Lists that end in an element -/

section EndingIn

variable {α β : Type} [DecidableEq α] [DecidableEq β]

/-- The list with `a` at its end, added unless it stands there. -/
def endingIn (l : List α) (a : α) : List α := if l.getLast? = some a then l else l ++ [a]

theorem prefix_endingIn (l : List α) (a : α) : l <+: endingIn l a := by
  unfold endingIn
  split
  · exact List.prefix_refl l
  · exact List.prefix_append l [a]

theorem getLast?_endingIn (l : List α) (a : α) : (endingIn l a).getLast? = some a := by
  unfold endingIn
  split
  · assumption
  · exact List.getLast?_concat

theorem mem_endingIn {l : List α} {a b : α} (h : b ∈ endingIn l a) : b ∈ l ∨ b = a := by
  unfold endingIn at h
  split at h
  · exact .inl h
  · rcases List.mem_append.1 h with h | h
    · exact .inl h
    · exact .inr (List.mem_singleton.1 h)

theorem map_endingIn {f : α → β} (injective : Function.Injective f) (l : List α) (a : α) :
    (endingIn l a).map f = endingIn (l.map f) (f a) := by
  have last : (l.map f).getLast? = some (f a) ↔ l.getLast? = some a := by
    rw [List.getLast?_map, ← Option.map_some, (Option.map_injective injective).eq_iff]
  unfold endingIn
  simp only [last]
  split
  · rfl
  · rw [List.map_append, List.map_singleton]

/-- Behind the same front part, two lists come to the same end if they are the same, or if one of
them already has it where the other gets it. -/
theorem endingIn_append_eq_iff (front l l' : List α) (a a' : α) :
    endingIn (front ++ l) a = endingIn (front ++ l') a' ↔
      a = a' ∧ (l = l' ∨ (l' = l ++ [a] ∧ (front ++ l).getLast? ≠ some a) ∨
        (l = l' ++ [a] ∧ (front ++ l').getLast? ≠ some a)) := by
  have added : ∀ {m m' : List α}, m' = m ++ [a] → (front ++ m').getLast? = some a := by
    rintro m _ rfl
    rw [← List.append_assoc, List.getLast?_concat]
  constructor
  · intro eq
    have last := congrArg List.getLast? eq
    rw [getLast?_endingIn, getLast?_endingIn, Option.some.injEq] at last
    subst last
    refine ⟨rfl, ?_⟩
    unfold endingIn at eq
    split at eq <;> split at eq <;> rename_i here there
    · exact .inl (List.append_cancel_left eq)
    · rw [List.append_assoc] at eq
      exact .inr (.inr ⟨List.append_cancel_left eq, there⟩)
    · rw [List.append_assoc] at eq
      exact .inr (.inl ⟨(List.append_cancel_left eq).symm, here⟩)
    · exact .inl (List.append_cancel_left (List.append_cancel_right eq))
  · rintro ⟨rfl, rfl | ⟨eq, absent⟩ | ⟨eq, absent⟩⟩
    · rfl
    · rw [endingIn, endingIn, if_neg absent, if_pos (added eq), eq, List.append_assoc]
    · rw [endingIn, endingIn, if_pos (added eq), if_neg absent, eq, List.append_assoc]

end EndingIn

/-! ## Directories as names -/

namespace Path

/-- The names on the way to the directory of a file. -/
def dirNames (file : String) : List String := (steps file).dropLast.map Step.text

/-- Names as a path; `.` for none. -/
def namesText (names : List String) : String := stepsText (names.map .down)

theorem namesText_of_ne_nil {names : List String} (ne : names ≠ []) :
    namesText names = "/".intercalate names := by
  rw [namesText, stepsText_of_ne_nil (by simpa using ne), map_text_map_down]

theorem namesText_dirNames (file : String) : namesText (dirNames file) = parent file := by
  by_cases nil : (steps file).dropLast = []
  · rw [dirNames, parent, nil]
    rfl
  · rw [namesText_of_ne_nil (by rw [dirNames]; exact mt List.map_eq_nil_iff.1 nil), parent,
      stepsText_of_ne_nil nil, dirNames]

theorem proper_dropLast_steps (file : String) : ∀ st ∈ (steps file).dropLast, st.Proper :=
  fun st hst => steps_proper file st (List.dropLast_subset _ hst)

theorem parts_parent {file : String} (ne : dirNames file ≠ []) :
    parts (parent file) = dirNames file :=
  parts_stepsText (mt List.map_eq_nil_iff.2 ne) (proper_dropLast_steps file)

theorem dirNames_eq_iff (file file' : String) :
    dirNames file = dirNames file' ↔ parent file = parent file' := by
  constructor
  · intro eq
    rw [← namesText_dirNames, ← namesText_dirNames, eq]
  · intro eq
    rw [dirNames, dirNames,
      stepsText_injective (proper_dropLast_steps file) (proper_dropLast_steps file') eq]

theorem isName_of_mem_dirNames {file name : String} (h : name ∈ dirNames file)
    (down : name ≠ "..") : IsName name := by
  obtain ⟨st, hst, rfl⟩ := List.mem_map.1 h
  cases st with
  | down name => exact proper_dropLast_steps file _ hst
  | up => exact absurd rfl down

theorem up_notMem_dirNames {file : String} (plain : .up ∉ steps file) : ".." ∉ dirNames file := by
  intro mem
  obtain ⟨st, hst, text⟩ := List.mem_map.1 mem
  cases st with
  | down name =>
    have proper : IsName name := proper_dropLast_steps file _ hst
    exact proper.2.2.1 text
  | up => exact plain (List.dropLast_subset _ hst)

/-- An identifier that is a relative path in normal form and names something. -/
structure Clean (id : String) : Prop where
  fixed : join id "." = id
  noUp : ".." ∉ parts id
  ne_dot : id ≠ "."

instance (id : String) : Decidable (Clean id) :=
  decidable_of_iff (join id "." = id ∧ ".." ∉ parts id ∧ id ≠ ".")
    ⟨fun ⟨fixed, noUp, ne_dot⟩ => ⟨fixed, noUp, ne_dot⟩, fun h => ⟨h.fixed, h.noUp, h.ne_dot⟩⟩

theorem Clean.reducedSteps_eq {id : String} (h : Clean id) :
    reducedSteps id = (parts id).map .down := by
  have text : stepsText (reducedSteps id) = id := (join_dot id).symm.trans h.fixed
  have ne : reducedSteps id ≠ [] := by
    intro nil
    rw [nil] at text
    exact h.ne_dot text.symm
  have texts : parts id = (reducedSteps id).map Step.text := by
    nth_rewrite 1 [← text]
    exact parts_stepsText ne (reducedSteps_proper id)
  have down : ∀ st ∈ reducedSteps id, Step.down st.text = st := by
    intro st hst
    cases st with
    | down name => rfl
    | up => exact absurd (texts ▸ List.mem_map_of_mem hst) h.noUp
  rw [texts, List.map_map]
  exact ((List.map_congr_left down).trans (List.map_id _)).symm

end Path

open PackageCoupling.Path

/-! ## The module of a file -/

namespace ModuleMap

/-- Whether the nearest module around a file is that of the directory `outer`, with `inner` the way
down from there to the directory of the file. No directory on that way holds a module. -/
structure ScopedBy (m : ModuleMap) (file : String) (outer inner : List String)
    (id : String) : Prop where
  split : dirNames file = outer ++ inner
  found : m.find? (namesText outer) = some id
  nearest : ∀ n, n < inner.length → m.find? (namesText (outer ++ inner.take (n + 1))) = none

instance (m : ModuleMap) (file : String) (outer inner : List String) (id : String) :
    Decidable (m.ScopedBy file outer inner id) :=
  decidable_of_iff (dirNames file = outer ++ inner ∧ m.find? (namesText outer) = some id ∧
      ∀ n, n < inner.length → m.find? (namesText (outer ++ inner.take (n + 1))) = none)
    ⟨fun ⟨split, found, nearest⟩ => ⟨split, found, nearest⟩,
      fun h => ⟨h.split, h.found, h.nearest⟩⟩

variable {m : ModuleMap} {file : String} {outer inner : List String} {id : String}

theorem front_eq_namesText {ps : List String} (ne : ps ≠ []) (n : Nat) :
    front ps n = namesText (ps.take n) := by
  cases n with
  | zero => rfl
  | succ n =>
    have some : ps.take (n + 1) ≠ [] := by simpa [List.take_eq_nil_iff] using ne
    rw [namesText_of_ne_nil some, front]

theorem behind_append (outer inner : List String) :
    behind (outer ++ inner) outer.length = namesText inner := by
  unfold behind
  split
  · rename_i lt
    have ne : inner ≠ [] := by
      rintro rfl
      simp at lt
    rw [List.drop_left, namesText_of_ne_nil ne]
  · rename_i le
    have nil : inner = [] := by
      rw [List.length_append] at le
      exact List.eq_nil_of_length_eq_zero (by omega)
    rw [nil]
    rfl

/-- A longer front part ends between the module and the file. -/
theorem ScopedBy.absent_beyond (h : m.ScopedBy file outer inner id)
    (ne : dirNames file ≠ []) {k : Nat}
    (beyond : outer.length < k) (le : k ≤ (dirNames file).length) :
    m.find? (front (dirNames file) k) = none := by
  obtain ⟨n, rfl⟩ : ∃ n, k = outer.length + (n + 1) := ⟨k - outer.length - 1, by omega⟩
  rw [h.split, List.length_append] at le
  rw [front_eq_namesText ne, h.split, List.take_length_add_append]
  exact h.nearest n (by omega)

/-- The path of a directory is that of the module and then the way down. -/
theorem directoryPath_of_scoped (h : m.ScopedBy file outer inner id) :
    m.directoryPath file = join id (namesText inner) := by
  by_cases ne : dirNames file = []
  · -- The file lies at the root of the tree, which is the module.
    obtain ⟨rfl, rfl⟩ : outer = [] ∧ inner = [] := by simpa [ne] using h.split
    have root : parent file = "." := by rw [← namesText_dirNames, ne]; rfl
    have found : m.find? "." = some id := h.found
    rw [directoryPath_of_none m (by rw [root, nearest?_dot]), found, root]
    rfl
  · have parts := parts_parent ne
    by_cases top : outer = []
    · subst top
      have none : m.nearest? (parent file) = none := by
        apply nearest?_parent_none m
        intro n pos le
        rw [parts] at le ⊢
        exact h.absent_beyond ne pos le
      have found : m.find? "." = some id := h.found
      have inner : parent file = namesText inner := by
        rw [← namesText_dirNames, h.split, List.nil_append]
      rw [directoryPath_of_none m none, found, inner]
    · have pos : 0 < outer.length := List.length_pos_iff.2 top
      have found : m.find? (front (dirNames file) outer.length) = some id := by
        rw [front_eq_namesText ne, h.split, List.take_left]
        exact h.found
      have path := @directoryPath_of_front m file outer.length id pos
      rw [parts] at path
      rw [path (by simp [h.split]) found fun k beyond le => h.absent_beyond ne beyond le, h.split,
        behind_append]

theorem ScopedBy.isName (h : m.ScopedBy file outer inner id) (down : ".." ∉ inner) :
    ∀ name ∈ inner, IsName name := by
  intro name hname
  have mem : name ∈ dirNames file := h.split ▸ List.mem_append_right outer hname
  exact isName_of_mem_dirNames mem fun up => down (up ▸ hname)

theorem ScopedBy.up_notMem (h : m.ScopedBy file outer inner id) (plain : .up ∉ steps file) :
    ".." ∉ inner := by
  intro mem
  exact up_notMem_dirNames plain (h.split ▸ List.mem_append_right outer mem)

end ModuleMap

/-! ## Packages as steps -/

/-- The steps to a directory of a module. -/
def moduleSteps (id : String) (inner : List String) : List Step :=
  reducedSteps id ++ inner.map .down

theorem moduleSteps_proper (id : String) {inner : List String} (h : ∀ name ∈ inner, IsName name) :
    ∀ st ∈ moduleSteps id inner, st.Proper := by
  intro st hst
  rcases List.mem_append.1 hst with hst | hst
  · exact reducedSteps_proper id st hst
  · exact proper_map_down h st hst

theorem moduleSteps_reduced (id : String) (inner : List String) :
    Reduced (moduleSteps id inner) := by
  have normal := reduceSteps_append_down (isRooted id) [] (steps id) inner
  have reduced := reduceSteps_reduced (isRooted id) [] (steps id ++ inner.map .down) .nil
  rw [normal] at reduced
  exact reduced

theorem moduleSteps_of_clean {id : String} (clean : Clean id) (inner : List String) :
    moduleSteps id inner = (parts id ++ inner).map .down := by
  rw [moduleSteps, clean.reducedSteps_eq, List.map_append]

theorem eq_baseName_stepsText_iff {l : List Step} (h : ∀ st ∈ l, st.Proper) {name : String}
    (isName : IsName name) : name = baseName (stepsText l) ↔ l.getLast? = some (.down name) := by
  rw [baseName_stepsText h]
  cases l.getLast? with
  | none => simp [isName.2.1]
  | some st =>
    cases st with
    | down n => simp [Step.text, eq_comm]
    | up => simp [Step.text, isName.2.2.1]

/-- The package is the path of the directory, with the name at its end. -/
theorem canonicalPackage_stepsText {l : List Step} (h : ∀ st ∈ l, st.Proper) (reduced : Reduced l)
    {name : String} (isName : IsName name) :
    canonicalPackage name (stepsText l) = stepsText (endingIn l (.down name)) := by
  have last := eq_baseName_stepsText_iff h isName
  unfold canonicalPackage endingIn
  simp only [beq_iff_eq, last]
  split
  · rename_i ends
    have whole : l = l.dropLast ++ [.down name] := by
      have ne : l ≠ [] := by
        rintro rfl
        cases ends
      rw [List.getLast?_eq_some_getLast ne, Option.some.injEq] at ends
      rw [← ends, List.dropLast_append_getLast]
    have proper : ∀ st ∈ l.dropLast, st.Proper := fun st hst => h st (List.dropLast_subset _ hst)
    have reduced' : Reduced l.dropLast := by
      rw [whole] at reduced
      exact reduced.of_append
    rw [parent_stepsText h, join_name _ isName, reducedSteps_stepsText proper reduced', ← whole]
  · rw [join_name _ isName, reducedSteps_stepsText h reduced]

variable {m : ModuleMap} {file : String} {outer inner : List String} {id : String}

theorem directoryPath_eq_stepsText (home : m.ScopedBy file outer inner id) (down : ".." ∉ inner) :
    m.directoryPath file = stepsText (moduleSteps id inner) := by
  rw [ModuleMap.directoryPath_of_scoped home, namesText, join_stepsText_down _ _ (home.isName down)]
  rfl

/-- The package of a file in a module: the module, the way down, and the name at the end. -/
theorem canonicalPackage_of_scoped (home : m.ScopedBy file outer inner id) (down : ".." ∉ inner)
    {name : String} (isName : IsName name) :
    canonicalPackage name (m.directoryPath file) =
      stepsText (endingIn (moduleSteps id inner) (.down name)) := by
  rw [directoryPath_eq_stepsText home down]
  exact canonicalPackage_stepsText (moduleSteps_proper id (home.isName down))
    (moduleSteps_reduced id inner) isName

theorem eq_baseName_directoryPath_iff (home : m.ScopedBy file outer inner id) (down : ".." ∉ inner)
    {name : String} (isName : IsName name) :
    name = baseName (m.directoryPath file) ↔ (moduleSteps id inner).getLast? =
      some (.down name) := by
  rw [directoryPath_eq_stepsText home down]
  exact eq_baseName_stepsText_iff (moduleSteps_proper id (home.isName down)) isName

theorem proper_endingIn {l : List Step} (h : ∀ st ∈ l, st.Proper) {name : String}
    (isName : IsName name) : ∀ st ∈ endingIn l (.down name), st.Proper := by
  intro st hst
  rcases mem_endingIn hst with hst | rfl
  · exact h st hst
  · exact isName

/-- The segments of a package in a module with a clean identifier. -/
theorem parts_canonicalPackage (home : m.ScopedBy file outer inner id) (down : ".." ∉ inner)
    (clean : Clean id) {name : String} (isName : IsName name) :
    parts (canonicalPackage name (m.directoryPath file)) = endingIn (parts id ++ inner) name := by
  have steps : endingIn (moduleSteps id inner) (.down name) =
      (endingIn (parts id ++ inner) name).map .down := by
    rw [moduleSteps_of_clean clean, map_endingIn fun _ _ => Step.down.inj]
  have proper := proper_endingIn (moduleSteps_proper id (home.isName down)) isName
  have ne : endingIn (moduleSteps id inner) (.down name) ≠ [] := by
    intro nil
    have last := getLast?_endingIn (moduleSteps id inner) (.down name)
    rw [nil] at last
    cases last
  rw [canonicalPackage_of_scoped home down isName, parts_stepsText ne proper, steps,
    map_text_map_down]

/-- Where the directory gives the name, the package is the path of the directory. -/
theorem canonicalPackage_baseName (home : m.ScopedBy file outer inner id) (down : ".." ∉ inner)
    (clean : Clean id) :
    canonicalPackage (baseName (m.directoryPath file)) (m.directoryPath file) =
      stepsText (moduleSteps id inner) := by
  have proper := moduleSteps_proper id (home.isName down)
  have steps := moduleSteps_of_clean clean inner
  obtain ⟨name, last⟩ : ∃ name, (parts id ++ inner).getLast? = some name := by
    cases last : (parts id ++ inner).getLast? with
    | some name => exact ⟨name, rfl⟩
    | none =>
      have nil := List.getLast?_eq_none_iff.1 last
      exact absurd (List.append_eq_nil_iff.1 nil).1 (parts_ne_nil id)
  have ends : (moduleSteps id inner).getLast? = some (.down name) := by
    rw [steps, List.getLast?_map, last]
    rfl
  have isName : IsName name := proper _ (List.mem_of_getLast? ends)
  have base : baseName (m.directoryPath file) = name :=
    ((eq_baseName_directoryPath_iff home down isName).2 ends).symm
  rw [base, canonicalPackage_of_scoped home down isName, endingIn, if_pos ends]

/-- When two files of a module have the same package: if they have the same name in the same
directory, or if one lies in the subdirectory of that name, which adds nothing to its path, and the
other outside. -/
theorem canonicalPackage_eq_iff (home : m.ScopedBy file outer inner id) {file' : String}
    {inner' : List String} (home' : m.ScopedBy file' outer inner' id) (down : ".." ∉ inner)
    (down' : ".." ∉ inner') {name name' : String} (isName : IsName name) (isName' : IsName name') :
    canonicalPackage name (m.directoryPath file) = canonicalPackage name' (m.directoryPath file') ↔
      name = name' ∧ (inner = inner' ∨
        (inner' = inner ++ [name] ∧ name ≠ baseName (m.directoryPath file)) ∨
        (inner = inner' ++ [name] ∧ name ≠ baseName (m.directoryPath file'))) := by
  have texts : stepsText (endingIn (moduleSteps id inner) (.down name)) =
      stepsText (endingIn (moduleSteps id inner') (.down name')) ↔
        endingIn (moduleSteps id inner) (.down name) =
          endingIn (moduleSteps id inner') (.down name') :=
    ⟨stepsText_injective (proper_endingIn (moduleSteps_proper id (home.isName down)) isName)
      (proper_endingIn (moduleSteps_proper id (home'.isName down')) isName'), congrArg _⟩
  have names : ∀ {l l' : List String}, l.map Step.down = l'.map Step.down ↔ l = l' :=
    (List.map_injective_iff.2 fun _ _ => Step.down.inj).eq_iff
  have added : ∀ l : List String, l.map Step.down ++ [.down name] = (l ++ [name]).map .down := by
    intro l
    rw [List.map_append, List.map_singleton]
  rw [canonicalPackage_of_scoped home down isName,
    canonicalPackage_of_scoped home' down' isName', texts,
    Ne, Ne, eq_baseName_directoryPath_iff home down isName,
    eq_baseName_directoryPath_iff home' down' isName]
  simp only [moduleSteps]
  rw [endingIn_append_eq_iff, Step.down.injEq, added, added, names, names, names]

/-- The segments of the package of a file in a module with a clean identifier: those of the
identifier, then those of the directory below the module, then the name unless the last one is that
name. So the package begins with the identifier; modules with identifiers of which none begins with
the other share no package; and where the directory gives the name, two files of a module share
their package just when they share their directory. -/
theorem package_of_scoped_file (m : ModuleMap) (file : String) (outer inner : List String)
    (id name : String) (plain : .up ∉ steps file)
    (home : m.ScopedBy file outer inner id) (clean : Clean id) (isName : IsName name) :
    let segments := parts id ++ inner
    let package := canonicalPackage name (m.directoryPath file)
    let directoryPackage :=
      canonicalPackage (baseName (m.directoryPath file)) (m.directoryPath file)
    parts package = (if segments.getLast? = some name then segments else segments ++ [name]) ∧
    parts id <+: parts package ∧
    (∀ (m' : ModuleMap) (file' : String) (outer' inner' : List String) (id' name' : String),
      .up ∉ steps file' → m'.ScopedBy file' outer' inner' id' →
      Clean id' → IsName name' → ¬parts id <+: parts id' → ¬parts id' <+: parts id →
      canonicalPackage name' (m'.directoryPath file') ≠ package) ∧
    (∀ (file' : String) (inner' : List String),
      .up ∉ steps file' → m.ScopedBy file' outer inner' id →
      (canonicalPackage (baseName (m.directoryPath file')) (m.directoryPath file') =
        directoryPackage ↔ parent file' = parent file)) := by
  intro segments package directoryPackage
  have down := home.up_notMem plain
  have written : parts package = endingIn segments name :=
    parts_canonicalPackage home down clean isName
  have begins : parts id <+: parts package := by
    rw [written]
    exact (List.prefix_append (parts id) inner).trans (prefix_endingIn segments name)
  refine ⟨written, begins, ?_, ?_⟩
  · intro m' file' outer' inner' id' name' plain' home' clean' isName' not not' eq
    have begins' : parts id' <+: parts package := by
      rw [← eq, parts_canonicalPackage home' (home'.up_notMem plain') clean' isName']
      exact (List.prefix_append (parts id') inner').trans (prefix_endingIn _ name')
    rcases List.prefix_or_prefix_of_prefix begins begins' with le | le
    · exact not le
    · exact not' le
  · intro file' inner' plain' home'
    have down' := home'.up_notMem plain'
    rw [canonicalPackage_baseName home' down' clean]
    simp only [directoryPackage]
    rw [canonicalPackage_baseName home down clean, ← dirNames_eq_iff, home.split, home'.split,
      List.append_cancel_left_eq]
    constructor
    · intro eq
      have same := stepsText_injective (moduleSteps_proper id (home'.isName down'))
        (moduleSteps_proper id (home.isName down)) eq
      exact List.map_injective_iff.2 (fun _ _ => Step.down.inj) (List.append_cancel_left same)
    · rintro rfl
      rfl

/-- A file of a module inside another one, and a file of the outer module in a directory that its
package is not named after. -/
theorem package_of_nested_module :
    let m : ModuleMap :=
      (Table.empty.insert "." "example.com/app").insert "src/go" "example.org/lib"
    m.ScopedBy "src/go/cmd/main.go" ["src", "go"] ["cmd"] "example.org/lib" ∧
      m.ScopedBy "src/tool.go" [] ["src"] "example.com/app" ∧
      parts (canonicalPackage "cmd" (m.directoryPath "src/go/cmd/main.go")) =
        ["example.org", "lib", "cmd"] ∧
      canonicalPackage "tool" (m.directoryPath "src/tool.go") ≠
        canonicalPackage "cmd" (m.directoryPath "src/go/cmd/main.go") ∧
      (canonicalPackage (baseName (m.directoryPath "src/go/cmd/doc.go"))
          (m.directoryPath "src/go/cmd/doc.go") =
        canonicalPackage (baseName (m.directoryPath "src/go/cmd/main.go"))
          (m.directoryPath "src/go/cmd/main.go")) := by
  intro m
  have inside : m.ScopedBy "src/go/cmd/main.go" ["src", "go"] ["cmd"] "example.org/lib" := by
    decide +kernel
  have beside : m.ScopedBy "src/go/cmd/doc.go" ["src", "go"] ["cmd"] "example.org/lib" := by
    decide +kernel
  have outside : m.ScopedBy "src/tool.go" [] ["src"] "example.com/app" := by decide +kernel
  have cmd := package_of_scoped_file m "src/go/cmd/main.go" ["src", "go"] ["cmd"] "example.org/lib"
    "cmd" (by decide +kernel) inside (by decide +kernel) (by decide)
  refine ⟨inside, outside, cmd.1, ?_, ?_⟩
  · exact cmd.2.2.1 m "src/tool.go" [] ["src"] "example.com/app" "tool" (by decide +kernel) outside
      (by decide +kernel) (by decide) (by decide +kernel) (by decide +kernel)
  · exact (cmd.2.2.2 "src/go/cmd/doc.go" ["cmd"] (by decide +kernel) beside).2 (by decide +kernel)

/-! ## Packages named after their directory -/

/-- The path of a directory is written from proper steps, which are reduced if the file's path never
goes up. -/
theorem directoryPath_steps (m : ModuleMap) (file : String) :
    ∃ l : List Step, (∀ st ∈ l, st.Proper) ∧ (.up ∉ steps file → Reduced l) ∧
      m.directoryPath file = stepsText l := by
  have joined : ∀ id rel, ∃ l : List Step, (∀ st ∈ l, st.Proper) ∧ (.up ∉ steps file → Reduced l) ∧
      join id rel = stepsText l := by
    intro id rel
    obtain ⟨l, proper, reduced, -, eq⟩ := join_steps id rel
    exact ⟨l, proper, fun _ => reduced, eq⟩
  unfold ModuleMap.directoryPath
  dsimp only
  split
  · exact joined _ _
  · split
    · exact joined _ _
    · refine ⟨_, proper_dropLast_steps file, fun plain => ?_, rfl⟩
      refine List.pairwise_iff_forall_sublist.2 fun sub up => absurd ?_ plain
      exact List.dropLast_subset _ (up ▸ sub.subset (by simp))

/-- The last step of a path added to those before it gives the path, reduced. -/
theorem canonicalPackage_baseName_stepsText {l : List Step} (h : ∀ st ∈ l, st.Proper) :
    canonicalPackage (baseName (stepsText l)) (stepsText l) = join (stepsText l) "." := by
  rw [canonicalPackage, if_pos (beq_self_eq_true _), parent_stepsText h, baseName_stepsText h,
    join_dot, reducedSteps, ofText_stepsText h]
  rcases List.eq_nil_or_concat l with rfl | ⟨init, st, rfl⟩
  · decide
  · rw [List.concat_eq_append] at h ⊢
    have before : ∀ st ∈ init, st.Proper := fun st hst => h st (List.mem_append_left _ hst)
    have last : Location.ofText st.text = ⟨false, [st]⟩ := by
      have proper : ∀ st' ∈ [st], st'.Proper := fun st' hst => h st' (List.mem_append_right _ hst)
      simpa [stepsText] using ofText_stepsText proper
    rw [List.dropLast_concat, List.getLast?_concat, Option.map_some, Option.getD_some, join,
      ofText_stepsText before, last]
    rfl

theorem join_directoryPath_dot (m : ModuleMap) {path : String} (plain : .up ∉ steps path) :
    join (m.directoryPath (slash path)) "." = m.directoryPath (slash path) := by
  obtain ⟨l, proper, reduced, eq⟩ := directoryPath_steps m (slash path)
  rw [slash, steps_stepsText (steps_proper path)] at reduced
  rw [eq, join_dot, reducedSteps_stepsText proper (reduced plain)]

/-- Where directories name packages, the package is the path of the directory in normal form. -/
theorem ofCaptures_directory {language : Language} (named : language.naming = .directory)
    (m : ModuleMap) (path : String) (captures : List Source.Capture) :
    Extraction.ofCaptures language m path captures =
      .ok ⟨slash path, join (m.directoryPath (slash path)) ".", Extraction.importsOf captures⟩ := by
  obtain ⟨l, proper, -, eq⟩ := directoryPath_steps m (slash path)
  simp only [Extraction.ofCaptures, Extraction.packageName?, named, eq,
    canonicalPackage_baseName_stepsText proper]

/-- Where directories name packages, the package of a file is the path of its directory, whatever
the modules around it are called. For a file whose own path never goes up, that path is in normal
form: its last segment put behind the rest gives it back, also if it is `.` or ends in `..`. -/
theorem package_of_directory_path (m : ModuleMap) (file : String) (plain : .up ∉ steps file) :
    let path := m.directoryPath file
    canonicalPackage (baseName path) path = path ∧
    ∀ (language : Language) (content : Bytes), language.naming = .directory →
      Extraction.ofSource language m file content =
        .ok ⟨slash file, path, Extraction.importsOf (Source.scan language content)⟩ := by
  intro path
  have normal : join path "." = path := by
    have fixed := join_directoryPath_dot m plain
    rwa [m.directoryPath_slash] at fixed
  constructor
  · obtain ⟨l, proper, -, eq⟩ := directoryPath_steps m file
    have split := canonicalPackage_baseName_stepsText proper
    rw [← eq] at split
    exact split.trans normal
  · intro language content named
    rw [Extraction.ofSource, ofCaptures_directory named, m.directoryPath_slash]
    exact congrArg (fun package => Except.ok (FileImports.mk (slash file) package _)) normal

/-- A module with an identifier that leads out of everything. -/
theorem package_of_outer_module :
    let m : ModuleMap := Table.empty.insert "lib" "./..//.."
    .up ∉ steps "lib/x.py" ∧ Language.python.naming = .directory ∧
      m.directoryPath "lib/x.py" = "../.." ∧ canonicalPackage (baseName "../..") "../.." = "../.." ∧
      Extraction.ofSource .python m "lib/x.py" (Utf8.encode "import os\n") =
        .ok ⟨"lib/x.py", "../..", ["os"]⟩ := by
  intro m
  have plain : .up ∉ steps "lib/x.py" := by decide
  have path : m.directoryPath "lib/x.py" = "../.." := by decide +kernel
  obtain ⟨fixed, extracted⟩ := package_of_directory_path m "lib/x.py" plain
  rw [path] at fixed extracted
  refine ⟨plain, rfl, path, fixed, (extracted .python _ rfl).trans ?_⟩
  decide +kernel

/-! ## Go packages -/

/-- Whether a text is spelled like a Go identifier: letters, digits and `_`, of which none is blank.
-/
def IsIdentifier (s : String) : Prop :=
  s ≠ "" ∧ ∀ c ∈ s.toList, Source.isWordPart c = true ∧ Text.isBlank c = false

instance (s : String) : Decidable (IsIdentifier s) :=
  decidable_of_iff (s ≠ "" ∧ s.toList.all (fun c => Source.isWordPart c && !Text.isBlank c) = true)
    (by simp [IsIdentifier])

theorem IsIdentifier.isName {s : String} (h : IsIdentifier s) : IsName s := by
  have notMem : ∀ c, Source.isWordPart c = false → c ∉ s.toList := by
    intro c other mem
    rw [(h.2 c mem).1] at other
    cases other
  refine ⟨h.1, ?_, ?_, notMem '/' (by decide)⟩
  · rintro rfl
    exact notMem '.' (by decide) (by decide)
  · rintro rfl
    exact notMem '.' (by decide) (by decide)

theorem IsIdentifier.trim_eq {s : String} (h : IsIdentifier s) : Text.trim s = s := by
  have kept : ∀ cs : List Char, (∀ c ∈ cs, c ∈ s.toList) → cs.dropWhile Text.isBlank = cs := by
    intro cs sub
    cases cs with
    | nil => rfl
    | cons c cs =>
      have := (h.2 c (sub c List.mem_cons_self)).2
      simp [this]
  rw [Text.trim, Text.trimList, Text.dropEndWhile, kept _ fun _ hc => hc,
    kept _ fun _ hc => List.mem_reverse.1 hc, List.reverse_reverse, String.ofList_toList]

theorem ofSource_go {m : ModuleMap} {path name : String} {content : Bytes}
    (clause : Source.declared (Source.scan .go content) = some name)
    (identifier : IsIdentifier name) :
    Extraction.ofSource .go m path content =
      .ok ⟨slash path, canonicalPackage name (m.directoryPath (slash path)),
        Extraction.importsOf (Source.scan .go content)⟩ := by
  have named : ∀ directory, Extraction.packageName? .go (Source.scan .go content) directory =
      some name := by
    intro directory
    simp only [Extraction.packageName?, Language.naming, clause, Option.map_some,
      identifier.trim_eq]
  simp only [Extraction.ofSource, Extraction.ofCaptures, named]

/-- Two Go sources of one module, in directories below it, belong to the same package just when they
declare the same name and lie in the same directory, or one of them lies in the subdirectory of that
name and the directory around it has another name. -/
theorem go_package_eq_iff (m : ModuleMap) (path path' : String) (content content' : Bytes)
    (outer inner inner' : List String) (id name name' : String)
    (home : m.ScopedBy (slash path) outer inner id)
    (home' : m.ScopedBy (slash path') outer inner' id)
    (down : ".." ∉ inner) (down' : ".." ∉ inner')
    (clause : Source.declared (Source.scan .go content) = some name)
    (clause' : Source.declared (Source.scan .go content') = some name')
    (identifier : IsIdentifier name) (identifier' : IsIdentifier name') :
    ∃ f f', Extraction.ofSource .go m path content = .ok f ∧
      Extraction.ofSource .go m path' content' = .ok f' ∧
      (f.package = f'.package ↔ name = name' ∧ (inner = inner' ∨
        (inner' = inner ++ [name] ∧ name ≠ baseName (m.directoryPath (slash path))) ∨
        (inner = inner' ++ [name] ∧ name ≠ baseName (m.directoryPath (slash path'))))) :=
  ⟨_, _, ofSource_go clause identifier, ofSource_go clause' identifier',
    canonicalPackage_eq_iff home home' down down' identifier.isName identifier'.isName⟩

/-- Sources in a directory and in its subdirectory `util` that both declare `util`. -/
theorem go_package_shared_with_subdirectory :
    let m : ModuleMap := Table.empty.insert "." "example.com/p"
    let a := Utf8.encode "package util\n\nimport \"fmt\"\n"
    let b := Utf8.encode "package util\n\nimport \"os\"\n"
    m.ScopedBy (slash "a.go") [] [] "example.com/p" ∧
      m.ScopedBy (slash "util/b.go") [] ["util"] "example.com/p" ∧
      ∃ f f', Extraction.ofSource .go m "a.go" a = .ok f ∧
        Extraction.ofSource .go m "util/b.go" b = .ok f' ∧ f.package = f'.package := by
  intro m a b
  have home : m.ScopedBy (slash "a.go") [] [] "example.com/p" := by decide +kernel
  have home' : m.ScopedBy (slash "util/b.go") [] ["util"] "example.com/p" := by decide +kernel
  obtain ⟨f, f', ok, ok', iff⟩ := go_package_eq_iff m "a.go" "util/b.go" a b [] [] ["util"]
    "example.com/p" "util" "util" home home' (by decide) (by decide) (by decide +kernel)
    (by decide +kernel) (by decide) (by decide)
  exact ⟨home, home', f, f', ok, ok', iff.2 ⟨rfl, .inr (.inl ⟨rfl, by decide +kernel⟩)⟩⟩

/-- Different Go packages of one module can become one. -/
theorem go_packages_can_merge :
    ¬∀ (m : ModuleMap) (path path' : String) (content content' : Bytes)
      (outer inner inner' : List String) (id name name' : String) (f f' : FileImports),
      m.ScopedBy (slash path) outer inner id → m.ScopedBy (slash path') outer inner' id →
      ".." ∉ inner → ".." ∉ inner' →
      Source.declared (Source.scan .go content) = some name →
      Source.declared (Source.scan .go content') = some name' →
      IsIdentifier name → IsIdentifier name' →
      Extraction.ofSource .go m path content = .ok f →
      Extraction.ofSource .go m path' content' = .ok f' →
      f.package = f'.package → inner = inner' ∧ name = name' := by
  intro separate
  have merged := separate (Table.empty.insert "." "example.com/p") "a.go" "util/b.go"
    (Utf8.encode "package util\n\nimport \"fmt\"\n")
    (Utf8.encode "package util\n\nimport \"os\"\n") [] [] ["util"] "example.com/p" "util" "util"
    ⟨"a.go", "example.com/p/util", ["fmt"]⟩ ⟨"util/b.go", "example.com/p/util", ["os"]⟩
    (by decide +kernel) (by decide +kernel) (by decide) (by decide) (by decide +kernel)
    (by decide +kernel) (by decide) (by decide) (by decide +kernel) (by decide +kernel) rfl
  cases merged.1

end PackageCoupling
