import PackageCoupling.Fault
import PackageCoupling.FileTree.IgnoreRules

/-!
The regular files below a directory, in the order of their names.
-/

namespace PackageCoupling

/-- A reason to leave out entries. It sees the names that lead to an entry from the root, and
whether the entry is a directory. -/
structure Filter where
  rejects : List RawText → Bool → Bool

namespace Filter

/-- Looks at the last name only. -/
def byName (rejects : RawText → Bool → Bool) : Filter := ⟨fun path => rejects (path.getLastD "")⟩

-- A name that is no text is told apart from every text, whatever it is shown as.

def isHidden (name : RawText) : Bool :=
  name.text?.any fun s => s.toList.head? == some '.' && s != "."

def hidden : Filter := byName fun name _ => isHidden name

/-- Leaves out the directories with one of these names. -/
def dirs (names : List String) : Filter :=
  byName fun name isDir => isDir && name.text?.any names.contains

/-- Leaves out the files with another extension than these. -/
def extensions (names : List String) : Filter :=
  byName fun name isDir => !isDir && !(name.extension?.bind (·.text?)).any names.contains

/-- Leaves out the files with another name than this. -/
def baseName (only : String) : Filter := byName fun name isDir => !isDir && name.text? != some only

end Filter

structure ListOptions where
  respectIgnoreFiles : Bool
  filters : List Filter

/-- A listing under way: the tree, the place of its root, and what to leave out. -/
structure Lister where
  tree : Node
  root : List RawText
  options : ListOptions

namespace Lister

/-- Whether an entry below the root stays. -/
def keeps (l : Lister) (levels : List IgnoreLevel) (entry : List RawText) (isDir : Bool) : Bool :=
  !(l.options.filters.any (·.rejects entry isDir)) &&
    IgnoreLevel.verdict? levels (l.root ++ entry) isDir != some .ignore

/-- The levels inside a directory. -/
def enter (l : Lister) (levels : List IgnoreLevel) (dir : List RawText) : List IgnoreLevel :=
  IgnoreLevel.ofDir l.tree l.options.respectIgnoreFiles (l.root ++ dir) :: levels

mutual

def node (l : Lister) (levels : List IgnoreLevel) (entry : List RawText) :
    Node → List (List RawText)
  | .file _ => if l.keeps levels entry false then [entry] else []
  | .dir entries =>
    if l.keeps levels entry true then l.entries (l.enter levels entry) entry entries else []
  | .link _ => []

/-- The files in and below a directory. -/
def entries (l : Lister) (levels : List IgnoreLevel) (dir : List RawText) :
    List (RawText × Node) → List (List RawText)
  | [] => []
  | (name, n) :: rest => l.node levels (dir ++ [name]) n ++ l.entries levels dir rest

end

/-- The levels of the directories above a place, the innermost first. -/
def levelsAbove (tree : Node) (place : List RawText) : List IgnoreLevel :=
  ((List.range place.length).map fun n => IgnoreLevel.ofDir tree true (place.take n)).reverse

/-- The files below the root, each as the names that lead to it. A root that is a file is its only
entry. -/
def files (l : Lister) : List (List RawText) :=
  match l.tree.find? l.root with
  | some (.dir es) =>
    let above := if l.options.respectIgnoreFiles then levelsAbove l.tree l.root else []
    l.entries (l.enter above []) [] es
  | some (.file _) => [[]]
  | _ => []

end Lister

/-- The paths of the files below `root`, relative to it. -/
def listFiles (tree : Node) (root : RawText) (options : ListOptions) :
    Except Fault (List RawText) :=
  match tree.resolve root with
  | .ok place => .ok ((Lister.files ⟨tree, place, options⟩).map RawText.ofNames)
  | .error e =>
    .error (.discovery root.text
      (root.text ++ ": IO error for operation on " ++ root.text ++ ": " ++ e.message))

end PackageCoupling
