import PackageCoupling.Command.Run

/-!
The program: it takes the part of the file system that a command concerns into a value, runs the
command on it, and writes what comes out. The runtime gives names as texts, so a name that is none
is not found again, and what cannot be read counts as empty.
-/

namespace PackageCoupling.Program

open System (FilePath)

/-- Hidden directories are never analysed, so they need not be read. -/
def isConcerned (name : String) : Bool := !Filter.isHidden name

/-- The content of a file; nothing if it cannot be read. -/
def content (path : FilePath) : IO Bytes := do
  try
    return (← IO.FS.readBinFile path).toList
  catch _ => return []

/-- Reads a file, a link or a directory with all that is below it. -/
partial def load (path : FilePath) : IO Node := do
  match (← path.symlinkMetadata).type with
  | .dir =>
    let names := (← path.readDir).toList.map (·.fileName)
    let entries ← (names.filter isConcerned).mapM fun (name : String) => do
      return ((name : RawText), ← load (path / (name : FilePath)))
    return .dir (entries.mergeSort fun a b => a.1 ≤ b.1)
  | .symlink =>
    try
      return .link (← IO.FS.realPath path).toString
    catch _ => return .link path.toString
  | _ => return .file (← content path)

/-- The files that hold ignore rules in a directory. -/
def ruleFiles : List String := [".ignore", ".gitignore", ".git/info/exclude"]

/-- Adds the ignore rules of the directory at `place`. -/
def loadRules (tree : Node) (place : List RawText) : IO Node := do
  let dir : FilePath := (Node.placePath place).text
  let mut tree := tree
  if ← (dir / ".git").pathExists then
    tree := tree.makeDir (place ++ [(".git" : RawText)])
  for name in ruleFiles do
    if ← (dir / name).pathExists then
      tree := tree.put (place ++ RawText.parts name) (.file (← content (dir / name)))
  return tree

/-- The places of all directories in a tree. -/
partial def directories (place : List RawText) : Node → List (List RawText)
  | .dir entries => place :: entries.flatMap fun (name, n) => directories (place ++ [name]) n
  | _ => []

/-- The tree that holds a root, the rules above and below it, and the current directory. -/
def loadTree (root cwd : FilePath) : IO Node := do
  let parts (p : FilePath) : List RawText := (RawText.parts p.toString).filter (!·.bytes.isEmpty)
  let node ← load root
  let mut tree := (Node.empty.makeDir (parts cwd)).put (parts root) node
  for n in List.range (parts root).length do
    tree ← loadRules tree ((parts root).take n)
  for place in directories (parts root) node do
    tree ← loadRules tree place
  return tree

def usage : String :=
  "Usage: package-coupling [--threads N] <graph|metrics> [--root DIR] [--languages L,...] " ++
  "[--exclude NAME]... [--no-gitignore] [--format text|json] [--timeout SECONDS] " ++
  "[--max-instability RATIO]\n"

def run (task : Command.Task) (c : Command.Config) : IO UInt32 := do
  let start ← IO.monoMsNow
  let cwd ← IO.FS.realPath (← IO.currentDir)
  let colours ← (← IO.getStdout).isTty
  let (tree, c) ←
    try
      let root ← IO.FS.realPath c.root
      pure (← loadTree root cwd, { c with root := root.toString })
    catch _ => pure (Node.empty.makeDir (RawText.parts cwd.toString), c)
  match Command.runTask ⟨start * 1000000, tree, cwd.toString, colours, 1⟩ task c with
  | .error p =>
    IO.eprintln p.message
    return 101
  | .ok outcome =>
    let stop ← IO.monoMsNow
    IO.print (outcome.output (Text.coloured .cyan (Decimal.natText (stop - start))))
    if outcome.error != "" then IO.eprintln outcome.error
    return outcome.code.toUInt32

end PackageCoupling.Program

def main (args : List String) : IO UInt32 := do
  match PackageCoupling.Command.read args with
  | .ok (task, c) => PackageCoupling.Program.run task c
  | .error .helpWanted =>
    IO.print PackageCoupling.Program.usage
    return 0
  | .error _ =>
    IO.eprint PackageCoupling.Program.usage
    return 2
