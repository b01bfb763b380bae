import PackageCoupling.FileTree.Basic

/-!
Paths in a file tree: following names, links and `..` from the root of the tree.
-/

namespace PackageCoupling

/-- Why an operation on a file fails. -/
inductive FileError where
  | notFound
  | notDirectory
  | isDirectory
  | tooManyLinks
  | notText
  deriving DecidableEq, Repr

def FileError.message : FileError → String
  | .notFound => "No such file or directory (os error 2)"
  | .notDirectory => "Not a directory (os error 20)"
  | .isDirectory => "Is a directory (os error 21)"
  | .tooManyLinks => "Too many levels of symbolic links (os error 40)"
  | .notText => "stream did not contain valid UTF-8"

namespace Node

/-- How many links may be followed on one path. -/
def maxLinks : Nat := 40

/-- Follows parts from the directory `here`; an empty part asks for a directory. A link hands the
remaining parts to `onLink`, with the directory from which they are to be followed. -/
def followParts (tree : Node)
    (onLink : List RawText → List RawText → Except FileError (List RawText)) :
    List RawText → List RawText → Except FileError (List RawText)
  | here, [] => .ok here
  | here, part :: rest =>
    match tree.find? here with
    | some (.dir entries) =>
      if part == "" || part == "." then followParts tree onLink here rest
      else if part == ".." then followParts tree onLink here.dropLast rest
      else
        match entries.lookup part with
        | none => .error .notFound
        | some (.link target) =>
          onLink (if target.isRooted then [] else here) (target.parts ++ rest)
        | some _ => followParts tree onLink (here ++ [part]) rest
    | _ => .error .notDirectory

/-- Follows parts through at most `links` links. The result is a place without any. -/
def follow (tree : Node) : Nat → List RawText → List RawText → Except FileError (List RawText)
  | 0 => followParts tree (fun _ _ => .error .tooManyLinks)
  | links + 1 => followParts tree (follow tree links)

/-- The place that an absolute path names. -/
def resolve (tree : Node) (path : RawText) : Except FileError (List RawText) :=
  if path == "" then .error .notFound else tree.follow maxLinks [] path.parts

/-- The node that an absolute path names. -/
def lookup (tree : Node) (path : RawText) : Except FileError Node := do
  let place ← tree.resolve path
  match tree.find? place with
  | some n => .ok n
  | none => .error .notFound

def exists? (tree : Node) (path : RawText) : Bool := (tree.lookup path).toOption.isSome

def isDirAt (tree : Node) (path : RawText) : Bool :=
  match tree.lookup path with
  | .ok n => n.isDir
  | .error _ => false

/-- The content of the file at a path. -/
def read (tree : Node) (path : RawText) : Except FileError Bytes := do
  match ← tree.lookup path with
  | .file content => .ok content
  | _ => .error .isDirectory

/-- The first bytes of the file at a path. A directory can be opened too, and fails only when a byte
is asked for. -/
def readHead (tree : Node) (path : RawText) (limit : Nat) : Except FileError Bytes :=
  if limit = 0 then (tree.lookup path).map fun _ => [] else (tree.read path).map (·.take limit)

/-- The text of the file at a path. -/
def readText (tree : Node) (path : RawText) : Except FileError String := do
  match Utf8.text? (← tree.read path) with
  | some s => .ok s
  | none => .error .notText

/-- The path of a place. -/
def placePath (place : List RawText) : RawText :=
  ⟨RawText.separator :: (RawText.ofNames place).bytes⟩

/-- The path without links and `..`, if there is something. -/
def canonical (tree : Node) (path : RawText) : Except FileError RawText :=
  (tree.resolve path).map placePath

end Node

end PackageCoupling
