import PackageCoupling.Path.Raw
import PackageCoupling.Table

/-!
File trees as values.

A directory holds its entries in the order of their names. A link holds the path that it stands for.
There is nothing else in a tree, and it has no permissions: what a path leads to can be read, unless
it is a directory.
-/

namespace PackageCoupling

inductive Node where
  | file (content : Bytes)
  | dir (entries : List (RawText × Node))
  | link (target : RawText)

namespace Node

instance : Inhabited Node := ⟨.dir []⟩

def empty : Node := .dir []

/-- The node reached by names, one directory after the other. Links are not followed. -/
def find? : List RawText → Node → Option Node
  | [], n => some n
  | name :: rest, .dir entries => (entries.lookup name).bind (find? rest)
  | _ :: _, _ => none

/-- Replaces what is at a place. Directories on the way are made where they are missing. -/
def alter (f : Option Node → Node) : List RawText → Option Node → Node
  | [], n => f n
  | name :: rest, some (.dir entries) => .dir (Table.alterEntries name (alter f rest) entries)
  | name :: rest, _ => .dir [(name, alter f rest none)]

/-- Puts a node at a place. -/
def put (tree : Node) (place : List RawText) (node : Node) : Node :=
  alter (fun _ => node) place (some tree)

/-- Makes a directory at a place unless there is one. -/
def makeDir (tree : Node) (place : List RawText) : Node :=
  alter (fun
    | some (.dir entries) => .dir entries
    | _ => empty) place (some tree)

def isDir : Node → Bool
  | .dir _ => true
  | _ => false

end Node

end PackageCoupling
