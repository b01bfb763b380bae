import PackageCoupling.Checked.Basic
import PackageCoupling.Extraction.Basic

/-!
The contribution of one source file, with every slice of a text checked.
-/

namespace PackageCoupling.Checked

open Source

/-! ## Import texts -/

/-- Whether a text starts and ends with one quote, at different places. -/
def isQuoted (cs : List Char) (quote : Char) : Bool :=
  2 ≤ byteLength cs && cs.head? == some quote && cs.getLast? == some quote

def unquote (s : String) : Checked String :=
  let cs := Text.trimList s.toList
  if quoteMarks.any (isQuoted cs) then do
    .ok (String.ofList (← slice cs 1 (← sub (byteLength cs) 1)))
  else .ok (String.ofList cs)

def importsOf (captures : List Capture) : Checked (List String) := do
  let ids ← (imported captures).mapM unquote
  .ok (ids.filter (· != "")).eraseDups

/-! ## Directories -/

/-- The offset of the last slash. -/
def lastSlash? (cs : List Char) : Option Nat :=
  match cs.reverse.dropWhile (· != '/') with
  | [] => none
  | _ :: front => some (byteLength front)

/-- The directory around `dir`. -/
def around (dir : String) : Checked String :=
  match lastSlash? dir.toList with
  | some i => do .ok (String.ofList (← takeBytes i dir.toList))
  | none => .ok "."

theorem around_ok (dir : String) : around dir = .ok (ModuleMap.around dir) := by
  unfold around lastSlash? ModuleMap.around
  cases h : dir.toList.reverse.dropWhile (· != '/') with
  | nil => rfl
  | cons slash front =>
    have parts : dir.toList =
        front.reverse ++ slash :: (dir.toList.reverse.takeWhile (· != '/')).reverse := by
      have whole := List.takeWhile_append_dropWhile (p := (· != '/')) (l := dir.toList.reverse)
      rw [h] at whole
      have := congrArg List.reverse whole
      rw [List.reverse_reverse] at this
      simpa using this.symm
    have taken : takeBytes (byteLength front) dir.toList = .ok front.reverse := by
      rw [← byteLength_reverse, parts, takeBytes_append]
    dsimp only
    rw [taken]
    rfl

theorem depthBound_of_around {dir outer : String} (h : around dir = .ok outer)
    (inside : dir ≠ ".") : ModuleMap.depthBound outer < ModuleMap.depthBound dir := by
  rw [around_ok] at h
  cases h
  exact ModuleMap.depthBound_around inside

/-- The innermost directory that holds a module, from `dir` outwards. -/
def nearest? (m : ModuleMap) (dir : String) : Checked (Option (String × String)) :=
  if inside : dir = "." then .ok none
  else
    match m.find? dir with
    | some id => .ok (some (dir, id))
    | none =>
      match out : around dir with
      | .ok outer =>
        have := depthBound_of_around out inside
        nearest? m outer
      | .error p => .error p
termination_by ModuleMap.depthBound dir

def directoryPath (m : ModuleMap) (file : String) : Checked String := do
  let dir := Path.parent file
  match ← nearest? m dir with
  | some (outer, id) => .ok (Path.join id (ModuleMap.below outer dir))
  | none =>
    match m.find? "." with
    | some id => .ok (Path.join id dir)
    | none => .ok dir

/-! ## Files -/

def ofSource (language : Language) (modules : ModuleMap) (path : String) (content : Bytes) :
    Checked (Except Fault FileImports) := do
  let captures := scan language content
  let directory ← directoryPath modules (Path.slash path)
  match Extraction.packageName? language captures directory with
  | some name =>
    let imports ← importsOf captures
    .ok (.ok ⟨Path.slash path, canonicalPackage name directory, imports⟩)
  | none => .ok (.error (.missingPackage path language))

def ofFile (tree : Node) (root : RawText) (language : Language) (modules : ModuleMap)
    (cancelled : Bool) (registry : Registry) (path : RawText) :
    Checked (Except Fault FileImports × Registry) :=
  match tree.read (root.append path) with
  | .error e => .ok (.error (.readFailure path.text e.message), registry)
  | .ok content =>
    let registry := registry.acquire language
    if registry.isPoisoned language then .ok (.error (.poisonedParser language), registry)
    else if cancelled then .ok (.error .canceled, registry)
    else do .ok (← ofSource language modules path.text content, registry)

end PackageCoupling.Checked
