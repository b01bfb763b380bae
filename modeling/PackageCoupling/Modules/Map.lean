import PackageCoupling.Path.Basic
import PackageCoupling.Table

/-!
Which module a directory belongs to, and the package path of a file that follows from it.
-/

namespace PackageCoupling

/-- The identifiers of modules by their directories. -/
abbrev ModuleMap := Table String

namespace ModuleMap

/-- The directory around `dir`: what stands before its last slash, or the root of the tree. -/
def around (dir : String) : String :=
  match dir.toList.reverse.dropWhile (· != '/') with
  | [] => "."
  | _ :: front => String.ofList front.reverse

/-- How far it is at most from `dir` to the root of the tree, which is the end of the way out. -/
def depthBound (dir : String) : Nat := if dir = "." then 0 else dir.length + 1

theorem depthBound_around {dir : String} (h : dir ≠ ".") :
    depthBound (around dir) < depthBound dir := by
  have shorter : (dir.toList.reverse.dropWhile (· != '/')).length ≤ dir.length := by
    have := (List.dropWhile_suffix (· != '/') (l := dir.toList.reverse)).length_le
    rwa [List.length_reverse, String.length_toList] at this
  unfold around
  split
  · simp [depthBound, h]
  · rename_i front eq
    rw [eq, List.length_cons] at shorter
    simp only [depthBound, h, if_false]
    split
    · omega
    · simp only [String.length_ofList, List.length_reverse]
      omega

/-- The innermost directory that holds a module, from `dir` outwards, with its identifier. The root
of the tree does not count. -/
def nearest? (m : ModuleMap) (dir : String) : Option (String × String) :=
  if dir = "." then none
  else
    match m.find? dir with
    | some id => some (dir, id)
    | none => m.nearest? (around dir)
termination_by depthBound dir
decreasing_by exact depthBound_around ‹_›

/-- What remains of `dir` below the directory `outer` that encloses it. -/
def below (outer dir : String) : String :=
  if dir == outer then "."
  else if outer.toList.isPrefixOf dir.toList then
    String.ofList ((dir.toList.drop outer.length).dropWhile (· == '/'))
  else dir

/-- The path of a file's directory as the rest of the world names it: the identifier of the nearest
module, then the way down from there. Without a module it is the directory itself. -/
def directoryPath (m : ModuleMap) (file : String) : String :=
  let dir := Path.parent file
  match m.nearest? dir with
  | some (outer, id) => Path.join id (below outer dir)
  | none =>
    match m.find? "." with
    | some id => Path.join id dir
    | none => dir

end ModuleMap

/-- The package that files in the directory with path `directory` declare by `name`. A name that
repeats the last part of the path adds nothing to it. -/
def canonicalPackage (name directory : String) : String :=
  if name == Path.baseName directory then Path.join (Path.parent directory) name
  else Path.join directory name

end PackageCoupling
