import Mathlib.Data.Nat.Find
import PackageCoupling.Proofs.PackagePath
import PackageCoupling.Proofs.ResolvedModules
import PackageCoupling.Proofs.Selection
import PackageCoupling.Proofs.TreeChange

/-!
# How far a descriptor reaches

Changing one descriptor changes the modules of one kind in one directory (`modules_find?_eq`). A
file asks for the modules of its own kind in the directories around it, from the innermost to the
first that holds one; the others may be anything (`directoryPath_eq_of_around`,
`directoryPath_eq_of_inner`). So a source notices the change only if it lies in or below that
directory, without another module in between (`extraction_of_descriptor_change`).
-/

namespace PackageCoupling

open PackageCoupling.Path

/-! ## The modules that matter to a file -/

namespace ModuleMap

variable {m m' : ModuleMap} {file : String}

/-- If any directory around a file holds a module, the file has a nearest one, no further out. -/
theorem exists_scopedBy {dir : List String} {id : String} (around : dir <+: dirNames file)
    (found : m.find? (namesText dir) = some id) :
    ∃ outer inner id', m.ScopedBy file outer inner id' ∧ dir <+: outer := by
  let holds : Nat → Prop := fun k => (m.find? (namesText ((dirNames file).take k))).isSome = true
  have here : holds dir.length := by
    have cut : (dirNames file).take dir.length = dir := (List.prefix_iff_eq_take.1 around).symm
    simp [holds, cut, found]
  obtain ⟨k, within, innermost, beyond⟩ : ∃ k, dir.length ≤ k ∧ holds k ∧
      ∀ j, k < j → j ≤ (dirNames file).length → ¬ holds j :=
    ⟨Nat.findGreatest holds (dirNames file).length, Nat.le_findGreatest around.length_le here,
      Nat.findGreatest_spec around.length_le here, fun _ => Nat.findGreatest_is_greatest⟩
  obtain ⟨id', found'⟩ := Option.isSome_iff_exists.1 innermost
  refine ⟨(dirNames file).take k, (dirNames file).drop k, id',
    ⟨(List.take_append_drop ..).symm, found', ?_⟩, List.prefix_take_iff.2 ⟨around, within⟩⟩
  intro n lt
  rw [List.length_drop] at lt
  rw [← List.take_add]
  simpa [holds] using beyond (k + (n + 1)) (by omega) (by omega)

/-- Only modules in the directories around a file matter to it. -/
theorem directoryPath_eq_of_around
    (agree : ∀ names, names <+: dirNames file →
      m'.find? (namesText names) = m.find? (namesText names)) :
    m'.directoryPath file = m.directoryPath file := by
  have root : m'.find? "." = m.find? "." := agree [] List.nil_prefix
  apply directoryPath_congr m m' root
  intro n pos le
  by_cases nil : dirNames file = []
  · have dot : parts (parent file) = ["."] := by
      rw [← namesText_dirNames, nil]
      decide
    rw [dot] at le ⊢
    obtain rfl : n = 1 := Nat.le_antisymm le pos
    exact root
  · rw [parts_parent nil, front_eq_namesText nil]
    exact agree _ (List.take_prefix ..)

/-- If one of these directories holds a module, those further out do not matter. -/
theorem directoryPath_eq_of_inner {dir : List String} {id : String} (around : dir <+: dirNames file)
    (found : m.find? (namesText dir) = some id)
    (agree : ∀ names, dir <+: names → names <+: dirNames file →
      m'.find? (namesText names) = m.find? (namesText names)) :
    m'.directoryPath file = m.directoryPath file := by
  obtain ⟨outer, inner, id', home, within⟩ := exists_scopedBy around found
  have home' : m'.ScopedBy file outer inner id' := by
    refine ⟨home.split, (agree outer within ⟨inner, home.split.symm⟩).trans home.found,
      fun n lt => ?_⟩
    have way : outer ++ inner.take (n + 1) <+: dirNames file := by
      rw [home.split, List.prefix_append_right_inj]
      exact List.take_prefix ..
    exact (agree _ (within.trans (List.prefix_append ..)) way).trans (home.nearest n lt)
  rw [directoryPath_of_scoped home, directoryPath_of_scoped home']

end ModuleMap

namespace Path

theorem namesText_injective {names names' : List String} (proper : ∀ name ∈ names, IsName name)
    (proper' : ∀ name ∈ names', IsName name) (eq : namesText names = namesText names') :
    names = names' := by
  have steps := stepsText_injective (proper_map_down proper) (proper_map_down proper') eq
  exact List.map_injective_iff.2 (fun _ _ => Step.down.inj) steps

end Path

/-! ## Descriptors and what they declare -/

/-- An element that gives nothing can be left out. -/
theorem filterMap_filter_ne {α β : Type} [DecidableEq α] {f : α → Option β} {a : α}
    (silent : f a = none) (l : List α) : (l.filter (· ≠ a)).filterMap f = l.filterMap f := by
  rw [List.filterMap_filter]
  refine List.filterMap_congr fun b _ => ?_
  by_cases eq : b = a
  · rw [eq, silent, ite_self]
  · simp [eq]

/-- The names on the way to the directory of a path, as they are shown. -/
def RawText.dirNames (r : RawText) : List String := Path.dirNames r.slash

theorem RawText.dirNames_ofNames {names : List RawText} (proper : ∀ name ∈ names, name.IsName) :
    (ofNames names).dirNames = names.dropLast.map text := by
  rw [dirNames, Path.dirNames, steps_slash_ofNames proper, ← List.map_dropLast, map_text_map_down,
    List.map_dropLast]

theorem RawText.namesText_dirNames (r : RawText) : namesText r.dirNames = r.directory :=
  Path.namesText_dirNames r.slash

theorem DescriptorKind.isName_fileName (kind : DescriptorKind) :
    (RawText.ofText kind.fileName).IsName := by
  cases kind <;> decide

/-- The path of the descriptor of a kind in a directory. -/
def descriptorPath (kind : DescriptorKind) (dir : List RawText) : RawText :=
  .ofNames (dir ++ [.ofText kind.fileName])

section DescriptorPath

variable {dir : List RawText} (proper : ∀ name ∈ dir, name.IsName) (kind : DescriptorKind)

include proper in
theorem isName_of_mem_descriptor : ∀ name ∈ dir ++ [.ofText kind.fileName], name.IsName := by
  intro name mem
  rcases List.mem_append.1 mem with mem | mem
  · exact proper name mem
  · exact List.mem_singleton.1 mem ▸ kind.isName_fileName

include proper in
theorem descriptorKind?_descriptorPath :
    Analysis.descriptorKind? (descriptorPath kind dir) = some kind := by
  have last : (descriptorPath kind dir).fileName? = some (.ofText kind.fileName) := by
    rw [descriptorPath, RawText.fileName?_ofNames (by simp) (isName_of_mem_descriptor proper kind),
      List.getLast?_concat]
  rw [Analysis.descriptorKind?, last, Option.bind_some, RawText.text?_ofText, Option.bind_some]
  cases kind <;> decide

include proper in
theorem directory_descriptorPath :
    (descriptorPath kind dir).directory = namesText (dir.map RawText.text) := by
  rw [← RawText.namesText_dirNames, descriptorPath,
    RawText.dirNames_ofNames (isName_of_mem_descriptor proper kind), List.dropLast_concat]

end DescriptorPath

theorem Descriptor.ofFile_eq_ok_iff {tree : Node} {root : RawText} {kind : DescriptorKind}
    {path : RawText} {id : String} : ofFile tree root kind path = .ok id ↔
      ∃ content text, tree.read (root.append path) = .ok content ∧ Utf8.text? content = some text ∧
        identifier kind path.text text = .ok id := by
  unfold ofFile Node.readText
  cases tree.read (root.append path) with
  | error e => simp [bind, Except.bind]
  | ok content =>
    cases text : Utf8.text? content with
    | none => simp [bind, Except.bind, text]
    | some s => simp [bind, Except.bind, text]

namespace Analysis

/-- The module that a listed file declares in a directory, if it is a descriptor of the kind. -/
def declares? (tree : Node) (root : RawText) (kind : DescriptorKind) (dir : String)
    (path : RawText) : Option String :=
  if descriptorKind? path = some kind ∧ path.directory = dir then
    (Descriptor.ofFile tree root kind path).toOption
  else none

section Declared

variable {tree : Node} {root : RawText} {kind : DescriptorKind} {dir : String} {path : RawText}

theorem declares?_eq_some_iff {id : String} : declares? tree root kind dir path = some id ↔
    descriptorKind? path = some kind ∧ path.directory = dir ∧
      Descriptor.ofFile tree root kind path = .ok id := by
  unfold declares?
  cases Descriptor.ofFile tree root kind path <;> simp [Except.toOption, and_assoc]

/-- The module of a directory is what the last of its descriptors declares. -/
theorem modulesOf_find? (files : List RawText) : (modulesOf tree root files kind).1.find? dir =
    (files.filterMap (declares? tree root kind dir)).getLast? := by
  have own : ∀ path, declares? tree root kind dir path =
      if (descriptorKind? path == some kind) = true then
        Descriptor.declaredIn? tree root kind dir path else none := by
    intro path
    by_cases isKind : descriptorKind? path = some kind <;>
      simp [declares?, Descriptor.declaredIn?, isKind]
  rw [modulesOf, Descriptor.find?_resolve, ofKind, List.filterMap_filter]
  simp only [own]

/-- A directory with a descriptor that declares a module holds one. -/
theorem exists_module {files : List RawText} {id : String} (mem : path ∈ files)
    (declared : declares? tree root kind dir path = some id) :
    ∃ id', (modulesOf tree root files kind).1.find? dir = some id' := by
  have ne : files.filterMap (declares? tree root kind dir) ≠ [] :=
    List.ne_nil_of_mem (List.mem_filterMap.2 ⟨path, mem, declared⟩)
  rw [modulesOf_find?]
  exact ⟨_, List.getLast?_eq_some_getLast ne⟩

end Declared

/-! ## Sources -/

theorem languageOf?_eq_some_iff {tree : Node} {root path : RawText} {l : Language} :
    languageOf? tree root path = some l ↔ descriptorKind? path = none ∧
      ∃ content, tree.read (root.append path) = .ok content ∧
        detect? path (content.take detectionBytes) = some (.supported l) := by
  unfold languageOf? Node.readHead
  rw [if_neg (by decide)]
  cases descriptorKind? path with
  | some kind => simp
  | none =>
    cases tree.read (root.append path) with
    | error e => simp [Except.map]
    | ok content =>
      simp only [Except.map]
      cases detected : detect? path (content.take detectionBytes) with
      | none => simp [detected]
      | some d => cases d <;> simp [detected]

theorem extraction_of_read {tree : Node} {root : RawText} {files : List RawText} {l : Language}
    {path : RawText} {content : Bytes} (read : tree.read (root.append path) = .ok content) :
    extraction tree root files l path =
      Extraction.ofSource l (modulesOf tree root files l.descriptor).1 path.text content := by
  rw [extraction, Extraction.ofFile_of_read _ _ _ _ read]
  rfl

/-- A source asks the modules for nothing but the path of its directory. -/
theorem ofSource_congr {l : Language} {m m' : ModuleMap} {path : String}
    (same : m'.directoryPath (slash path) = m.directoryPath (slash path)) (content : Bytes) :
    Extraction.ofSource l m' path content = Extraction.ofSource l m path content := by
  simp only [Extraction.ofSource, Extraction.ofCaptures, same]

/-! ## Changing a descriptor -/

/-- Whether a descriptor of a kind in the directory `dir` can concern a source: the language uses
the kind, the source lies in the directory or below, and no descriptor of the kind further down the
way declares a module. Directories are told apart by their slash paths, as modules are. -/
structure Concerned (tree : Node) (root : RawText) (files : List RawText) (kind : DescriptorKind)
    (dir : List String) (l : Language) (source : RawText) : Prop where
  sameKind : l.descriptor = kind
  below : dir <+: source.dirNames
  exposed : ∀ g ∈ files, descriptorKind? g = some kind → dir <+: g.dirNames → g.dirNames ≠ dir →
    g.dirNames <+: source.dirNames → ∀ id, Descriptor.ofFile tree root kind g ≠ .ok id

/-- Two trees that differ in the presence or the content of the descriptor of a kind in the
directory `dir` below the root, which leads to `place`. A listing reads no ignore rules from that
file. -/
structure DescriptorChange (options : ListOptions) (root : RawText) (place dir : List RawText)
    (kind : DescriptorKind) (tree tree' : Node) : Prop where
  wf : tree.WellFormed
  wf' : tree'.WellFormed
  resolved : tree.resolve root = .ok place
  proper : ∀ name ∈ dir, name.IsName
  differ : DifferOnlyAt (place ++ (dir ++ [.ofText kind.fileName])) tree tree'
  rules : RulesApart options.respectIgnoreFiles (place ++ (dir ++ [.ofText kind.fileName])) tree
  rules' : RulesApart options.respectIgnoreFiles (place ++ (dir ++ [.ofText kind.fileName])) tree'

namespace DescriptorChange

variable {options : ListOptions} {root : RawText} {place dir : List RawText} {kind : DescriptorKind}
  {tree tree' : Node}

theorem resolved' (c : DescriptorChange options root place dir kind tree tree') :
    tree'.resolve root = .ok place :=
  resolve_elsewhere c.differ c.resolved (by simp)

theorem symm (c : DescriptorChange options root place dir kind tree tree') :
    DescriptorChange options root place dir kind tree' tree :=
  ⟨c.wf', c.wf, c.resolved', c.proper, c.differ.symm, c.rules', c.rules⟩

/-- The listed paths other than that of the descriptor, told by their names. -/
theorem filter_listed (c : DescriptorChange options root place dir kind tree tree') :
    ((Lister.files ⟨tree, place, options⟩).map RawText.ofNames).filter
        (· ≠ descriptorPath kind dir) =
      ((Lister.files ⟨tree, place, options⟩).filter (· ≠ dir ++ [.ofText kind.fileName])).map
        RawText.ofNames := by
  rw [List.filter_map]
  refine congrArg (List.map _) (List.filter_congr fun names mem => ?_)
  have proper := Lister.files_names (l := ⟨tree, place, options⟩) c.wf names mem
  have same : RawText.ofNames names = descriptorPath kind dir ↔
      names = dir ++ [.ofText kind.fileName] := by
    refine ⟨fun eq => ?_, fun eq => congrArg _ eq⟩
    exact RawText.ofNames_injective proper (isName_of_mem_descriptor c.proper kind) eq
  simp [same]

/-- The same files are listed, but for the descriptor. -/
theorem listFiles_eq (c : DescriptorChange options root place dir kind tree tree')
    {files : List RawText} (listed : listFiles tree root options = .ok files) :
    ∃ files', listFiles tree' root options = .ok files' ∧
      files'.filter (· ≠ descriptorPath kind dir) = files.filter (· ≠ descriptorPath kind dir) := by
  obtain ⟨place', resolved, rfl⟩ := listFiles_eq_ok_iff.1 listed
  obtain rfl : place' = place := Except.ok.inj (resolved.symm.trans c.resolved)
  refine ⟨_, listFiles_eq_ok_iff.2 ⟨_, c.resolved', rfl⟩, ?_⟩
  rw [c.symm.filter_listed, c.filter_listed, Lister.files_eq c.wf c.wf' c.differ]
  exact ofDir_eq c.differ c.rules c.rules'

/-- No other listed path leads to the descriptor. -/
theorem apart_of_listed (c : DescriptorChange options root place dir kind tree tree')
    {files : List RawText} (listed : listFiles tree root options = .ok files) {f : RawText}
    (mem : f ∈ files) (ne : f ≠ descriptorPath kind dir) :
    tree.resolve (root.append f) ≠ .ok (place ++ (dir ++ [.ofText kind.fileName])) := by
  obtain ⟨place', resolved, rfl⟩ := listFiles_eq_ok_iff.1 listed
  obtain rfl : place' = place := Except.ok.inj (resolved.symm.trans c.resolved)
  obtain ⟨names, there, rfl⟩ := List.mem_map.1 mem
  intro leads
  by_cases nil : names = []
  · subst nil
    have here := Node.resolve_append_empty c.resolved leads
    simp at here
  · rw [resolve_listed c.wf c.resolved there nil] at leads
    have eq := List.append_cancel_left (Except.ok.inj leads)
    exact ne (congrArg _ eq)

/-! What is read and declared, for the files that are listed in both trees. -/

section Listed

variable (c : DescriptorChange options root place dir kind tree tree')
  {files files' : List RawText} (listed : listFiles tree root options = .ok files)
  (listed' : listFiles tree' root options = .ok files')
  (same : files'.filter (· ≠ descriptorPath kind dir) = files.filter (· ≠ descriptorPath kind dir))

include same in
theorem mem_iff {f : RawText} (ne : f ≠ descriptorPath kind dir) : f ∈ files' ↔ f ∈ files := by
  have mem : f ∈ files'.filter (· ≠ descriptorPath kind dir) ↔
      f ∈ files.filter (· ≠ descriptorPath kind dir) := by rw [same]
  simpa [ne] using mem

include c listed listed' same in
theorem read_listed {f : RawText} (mem : f ∈ files) (ne : f ≠ descriptorPath kind dir)
    (content : Bytes) :
    tree.read (root.append f) = .ok content ↔ tree'.read (root.append f) = .ok content :=
  read_ok_iff c.differ (c.apart_of_listed listed mem ne)
    (c.symm.apart_of_listed listed' ((mem_iff same ne).2 mem) ne) content

include c listed listed' same in
/-- Modules of other kinds and in other directories stay the same. -/
theorem modules_find?_eq {kind' : DescriptorKind} {names : List String}
    (proper : ∀ name ∈ names, IsName name)
    (other : kind' ≠ kind ∨ names ≠ dir.map RawText.text) :
    (modulesOf tree' root files' kind').1.find? (namesText names) =
      (modulesOf tree root files kind').1.find? (namesText names) := by
  have silent : ∀ t : Node,
      declares? t root kind' (namesText names) (descriptorPath kind dir) = none := by
    intro t
    rw [declares?, if_neg]
    rintro ⟨isKind, here⟩
    rw [descriptorKind?_descriptorPath c.proper, Option.some.injEq] at isKind
    rw [directory_descriptorPath c.proper] at here
    rcases other with other | other
    · exact other isKind.symm
    · exact other (namesText_injective (RawText.isName_map_text c.proper) proper here).symm
  rw [modulesOf_find?, modulesOf_find?, ← filterMap_filter_ne (silent tree') files',
    ← filterMap_filter_ne (silent tree) files, same]
  refine congrArg List.getLast? (List.filterMap_congr fun f mem => ?_)
  obtain ⟨mem, ne⟩ := List.mem_filter.1 mem
  refine Option.ext fun id => ?_
  simp only [declares?_eq_some_iff, Descriptor.ofFile_eq_ok_iff,
    c.read_listed listed listed' same mem (by simpa using ne)]

include c listed in
theorem isName_of_mem_dirNames_listed {f : RawText} (mem : f ∈ files) :
    ∀ name ∈ f.dirNames, IsName name := by
  obtain ⟨place', -, rfl⟩ := listFiles_eq_ok_iff.1 listed
  obtain ⟨names, there, rfl⟩ := List.mem_map.1 mem
  have proper := Lister.files_names (l := ⟨tree, place', options⟩) c.wf names there
  rw [RawText.dirNames_ofNames proper]
  exact RawText.isName_map_text fun name mem => proper name (List.dropLast_subset _ mem)

include c in
theorem ne_of_language {t : Node} {f : RawText} {l : Language} (h : languageOf? t root f = some l) :
    f ≠ descriptorPath kind dir := by
  rintro rfl
  have noKind := (languageOf?_eq_some_iff.1 h).1
  rw [descriptorKind?_descriptorPath c.proper] at noKind
  cases noKind

include c listed listed' same in
theorem language_of_listed {f : RawText} {l : Language} (mem : f ∈ files)
    (h : languageOf? tree root f = some l) : f ∈ files' ∧ languageOf? tree' root f = some l := by
  have ne := c.ne_of_language h
  have reads := c.read_listed listed listed' same mem ne
  obtain ⟨noKind, content, read, detected⟩ := languageOf?_eq_some_iff.1 h
  exact ⟨(mem_iff same ne).2 mem,
    languageOf?_eq_some_iff.2 ⟨noKind, content, (reads content).1 read, detected⟩⟩

include c listed listed' same in
/-- A source that is not concerned belongs to the same module as before. -/
theorem directoryPath_eq {f : RawText} (mem : f ∈ files) {l : Language}
    (h : ¬ Concerned tree root files kind (dir.map RawText.text) l f) :
    (modulesOf tree' root files' l.descriptor).1.directoryPath f.slash =
      (modulesOf tree root files l.descriptor).1.directoryPath f.slash := by
  have proper : ∀ {names}, names <+: f.dirNames → ∀ name ∈ names, IsName name :=
    fun way name there => c.isName_of_mem_dirNames_listed listed mem name (way.subset there)
  by_cases sameKind : l.descriptor = kind
  · by_cases below : dir.map RawText.text <+: f.dirNames
    · -- Another module stands between the directory and the source.
      obtain ⟨g, listedG, isKind, down, strict, way, id, declared⟩ :
          ∃ g ∈ files, descriptorKind? g = some kind ∧ dir.map RawText.text <+: g.dirNames ∧
            g.dirNames ≠ dir.map RawText.text ∧ g.dirNames <+: f.dirNames ∧
            ∃ id, Descriptor.ofFile tree root kind g = .ok id := by
        by_contra none
        exact h ⟨sameKind, below, fun g listedG isKind down strict way id declared =>
          none ⟨g, listedG, isKind, down, strict, way, id, declared⟩⟩
      have declares : declares? tree root kind (namesText g.dirNames) g = some id :=
        declares?_eq_some_iff.2 ⟨isKind, g.namesText_dirNames.symm, declared⟩
      obtain ⟨id', found⟩ := exists_module listedG declares
      rw [← sameKind] at found
      refine ModuleMap.directoryPath_eq_of_inner way found fun names inner outer => ?_
      have ne : names ≠ dir.map RawText.text := by
        rintro rfl
        exact strict (inner.eq_of_length_le down.length_le)
      exact c.modules_find?_eq listed listed' same (proper outer) (.inr ne)
    · refine ModuleMap.directoryPath_eq_of_around fun names way => ?_
      have ne : names ≠ dir.map RawText.text := by
        rintro rfl
        exact below way
      exact c.modules_find?_eq listed listed' same (proper way) (.inr ne)
  · refine ModuleMap.directoryPath_eq_of_around fun names way => ?_
    exact c.modules_find?_eq listed listed' same (proper way) (.inl sameKind)

end Listed

end DescriptorChange

/-- Changing one descriptor leaves the sources of a tree what they are. Those keep their packages,
imports and errors that the change cannot concern. -/
theorem extraction_of_descriptor_change {o : AnalyzeOptions} {root : RawText}
    {place dir : List RawText} {kind : DescriptorKind} {tree tree' : Node}
    (c : DescriptorChange (listOptions o) root place dir kind tree tree') (files : List RawText)
    (listed : listFiles tree root (listOptions o) = .ok files) :
    ∃ files', listFiles tree' root (listOptions o) = .ok files' ∧
      (∀ f l, f ∈ files' ∧ languageOf? tree' root f = some l ↔
        f ∈ files ∧ languageOf? tree root f = some l) ∧
      ∀ f ∈ files, ∀ l, languageOf? tree root f = some l →
        ¬ Concerned tree root files kind (dir.map RawText.text) l f →
          extraction tree' root files' l f = extraction tree root files l f ∧
          fate tree' root o.languages files' f = fate tree root o.languages files f := by
  obtain ⟨files', listed', same⟩ := c.listFiles_eq listed
  refine ⟨files', listed', fun f l => ⟨?_, ?_⟩, fun f mem l language unconcerned => ?_⟩
  · exact fun ⟨mem, language⟩ => c.symm.language_of_listed listed' listed same.symm mem language
  · exact fun ⟨mem, language⟩ => c.language_of_listed listed listed' same mem language
  · have language' := (c.language_of_listed listed listed' same mem language).2
    obtain ⟨-, content, read, -⟩ := languageOf?_eq_some_iff.1 language
    have read' := (c.read_listed listed listed' same mem (c.ne_of_language language) content).1 read
    have path := c.directoryPath_eq listed listed' same mem unconcerned
    have outcome : extraction tree' root files' l f = extraction tree root files l f := by
      rw [extraction_of_read read', extraction_of_read read]
      exact ofSource_congr path content
    refine ⟨outcome, ?_⟩
    rw [fate_of_language tree' root files' language', fate_of_language tree root files language,
      sourceFate, sourceFate, outcome]

/-- Sources in a module and in a module inside it, all below the directory `work`. -/
def nestedModules : Node :=
  [(["go.mod"], "module example.com/outer\n"), (["main.go"], "package main\n"),
    (["sub", "go.mod"], "module example.com/inner\n"), (["sub", "x", "x.go"], "package x\n")].foldl
    (fun tree (names, text) =>
      tree.put ("work" :: names.map .ofText) (.file (Utf8.encode text))) .empty

theorem wellFormed_nestedModules : nestedModules.WellFormed :=
  Node.wellFormed_put (Node.wellFormed_put (Node.wellFormed_put (Node.wellFormed_put
    Node.wellFormed_empty (.file _) (by decide)) (.file _) (by decide)) (.file _) (by decide))
    (.file _) (by decide)

theorem linkFree_nestedModules : nestedModules.LinkFree :=
  Node.linkFree_put (Node.linkFree_put (Node.linkFree_put (Node.linkFree_put
    (.dir (by simp)) (.file _) _) (.file _) _) (.file _) _) (.file _) _

/-- What the outer module is called does not matter inside the inner one. -/
theorem extraction_of_outer_change :
    let tree := nestedModules
    let tree' := tree.put ["work", "go.mod"] (.file (Utf8.encode "module example.com/renamed\n"))
    let files : List RawText := ["go.mod", "main.go", "sub/go.mod", "sub/x/x.go"]
    DescriptorChange (listOptions .default) "/work" ["work"] [] .goModule tree tree' ∧
      listFiles tree "/work" (listOptions .default) = .ok files ∧
      languageOf? tree "/work" "sub/x/x.go" = some .go ∧
      ¬ Concerned tree "/work" files .goModule [] .go "sub/x/x.go" ∧
      ∃ files', listFiles tree' "/work" (listOptions .default) = .ok files' ∧
        extraction tree' "/work" files' .go "sub/x/x.go" =
          extraction tree "/work" files .go "sub/x/x.go" := by
  intro tree tree' files
  have wf := wellFormed_nestedModules
  have free := linkFree_nestedModules
  let place : List RawText := ["work", "go.mod"]
  have other : ∀ name ∈ ruleFiles true, place.getLast? ≠ some (.ofText (baseName name)) := by
    decide
  have change :
      DescriptorChange (listOptions .default) "/work" ["work"] [] .goModule tree tree' := by
    refine ⟨wf, Node.wellFormed_put wf (.file _) (by decide), by decide +kernel, by simp, ?_,
      rulesApart_of_linkFree free _ other,
      rulesApart_of_linkFree (Node.linkFree_put free (.file _) _) _ other⟩
    refine differOnlyAt_put wf ["work"] "go.mod" (by decide +kernel) (fun e found => ?_) _
    exact ⟨Utf8.encode "module example.com/outer\n", (Option.some.inj found).symm⟩
  have listed : listFiles tree "/work" (listOptions .default) = .ok files := by decide +kernel
  have language : languageOf? tree "/work" "sub/x/x.go" = some .go := by decide +kernel
  have unconcerned : ¬ Concerned tree "/work" files .goModule [] .go "sub/x/x.go" := fun h =>
    h.exposed "sub/go.mod" (by decide) (by decide +kernel) List.nil_prefix (by decide +kernel)
      (by decide +kernel) "example.com/inner" (by decide +kernel)
  obtain ⟨files', listed', -, same⟩ := extraction_of_descriptor_change change files listed
  exact ⟨change, listed, language, unconcerned, files', listed',
    (same "sub/x/x.go" (by decide) .go language unconcerned).1⟩

/-- Two modules side by side, and ignore rules that are read from the descriptor of the first. -/
def linkedRules : Node :=
  [(["one", "go.mod"], "module example.com/one\n"), (["two", "go.mod"], "module example.com/two\n"),
    (["two", "x.go"], "package x\n")].foldl
    (fun tree (names, text) =>
      tree.put ("work" :: names.map .ofText) (.file (Utf8.encode text)))
    (Node.empty.put ["work", ".ignore"] (.link "one/go.mod"))

/-- A descriptor can hide another one, if ignore rules are read from it through a link. -/
theorem descriptor_read_as_rules :
    ¬ ∀ (tree tree' : Node) (root : RawText) (place dir : List RawText) (kind : DescriptorKind)
      (o : AnalyzeOptions) (files files' : List RawText), tree.WellFormed → tree'.WellFormed →
      tree.resolve root = .ok place → (∀ name ∈ dir, name.IsName) →
      DifferOnlyAt (place ++ (dir ++ [.ofText kind.fileName])) tree tree' →
      listFiles tree root (listOptions o) = .ok files →
      listFiles tree' root (listOptions o) = .ok files' →
      descriptorPath kind dir ∈ files → descriptorPath kind dir ∈ files' →
      ∀ f ∈ files, f ∈ files' → ∀ l, languageOf? tree root f = some l →
        languageOf? tree' root f = some l →
          ¬ Concerned tree root files kind (dir.map RawText.text) l f →
          extraction tree' root files' l f = extraction tree root files l f := by
  intro holds
  have wf : linkedRules.WellFormed :=
    Node.wellFormed_put (Node.wellFormed_put (Node.wellFormed_put (Node.wellFormed_put
      Node.wellFormed_empty (.link _) (by decide)) (.file _) (by decide)) (.file _) (by decide))
      (.file _) (by decide)
  let changed := linkedRules.put ["work", "one", "go.mod"]
    (.file (Utf8.encode "module example.com/one\ntwo/go.mod\n"))
  have differ : DifferOnlyAt ["work", "one", "go.mod"] linkedRules changed := by
    refine differOnlyAt_put wf ["work", "one"] "go.mod" (by decide +kernel) (fun e found => ?_) _
    exact ⟨Utf8.encode "module example.com/one\n", (Option.some.inj found).symm⟩
  have same := holds linkedRules changed "/work" ["work"] ["one"] .goModule .default
    ["one/go.mod", "two/go.mod", "two/x.go"] ["one/go.mod", "two/x.go"] wf
    (Node.wellFormed_put wf (.file _) (by decide)) (by decide +kernel) (by decide) differ
    (by decide +kernel) (by decide +kernel) (by decide) (by decide) "two/x.go"
      (by decide) (by decide)
    .go (by decide +kernel) (by decide +kernel)
    fun h => absurd h.below (by decide +kernel)
  have packages :
      (extraction changed "/work" ["one/go.mod", "two/x.go"] .go "two/x.go").toOption.map
      (·.package) ≠ (extraction linkedRules "/work" ["one/go.mod", "two/go.mod", "two/x.go"] .go
        "two/x.go").toOption.map (·.package) := by decide +kernel
  exact packages (by rw [same])

end Analysis

end PackageCoupling
