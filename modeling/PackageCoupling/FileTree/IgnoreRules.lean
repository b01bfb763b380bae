import PackageCoupling.FileTree.Glob
import PackageCoupling.FileTree.Resolve
import PackageCoupling.Text.Blank

/-!
Ignore files: lists of patterns for paths to leave out, or to keep after all.

All rules are read from the tree. Patterns that a user sets for all repositories are not known here,
and a `.git` that is a file marks the top of a repository but leads to no rules elsewhere.
-/

namespace PackageCoupling

inductive Verdict where
  | ignore
  | keep
  deriving DecidableEq, Repr

structure IgnoreRule where
  glob : List Glob.Part
  verdict : Verdict
  onlyDirs : Bool

namespace IgnoreRule

/-- The line without white space at its end, unless that is escaped. -/
def trimLine (cs : List Char) : List Char :=
  if [' ', '\\'].isPrefixOf cs.reverse then cs else Text.dropEndWhile Text.isBlank cs

def endsWith (tail cs : List Char) : Bool := tail.reverse.isPrefixOf cs.reverse

/-- A pattern without a slash matches at any depth, and one that ends in `/**` only what is inside.
-/
def complete (anchored : Bool) (cs : List Char) : List Char :=
  let anywhere :=
    if anchored || cs.contains '/' || cs == ['*', '*'] then cs else '*' :: '*' :: '/' :: cs
  if endsWith ['/', '*', '*'] anywhere then anywhere ++ ['/', '*'] else anywhere

/-- The rule of one line; none for comments, blank lines and malformed patterns. -/
def ofLine? (line : List Char) : Option IgnoreRule :=
  let cs := trimLine line
  if cs.isEmpty || line.head? == some '#' then none
  else
    let escaped := ['\\', '!'].isPrefixOf cs || ['\\', '#'].isPrefixOf cs
    let verdict := if !escaped && cs.head? == some '!' then Verdict.keep else .ignore
    let cs := if escaped || verdict == .keep then cs.drop 1 else cs
    let anchored := !escaped && cs.head? == some '/'
    let cs := if anchored then cs.drop 1 else cs
    let onlyDirs := cs.getLast? == some '/'
    let cs := if onlyDirs then cs.dropLast else cs
    let cs := if onlyDirs && cs.getLast? == some '\\' then cs.dropLast else cs
    (Glob.read? (complete anchored cs)).map fun glob => ⟨glob, verdict, onlyDirs⟩

end IgnoreRule

abbrev IgnoreRules := List IgnoreRule

namespace IgnoreRules

/-- The lines of a file. The last one ends with the file. -/
def lines : Bytes → List Bytes
  | [] => []
  | b :: rest =>
    if b == 10 then [] :: lines rest
    else
      match lines rest with
      | [] => [[b]]
      | l :: more => (b :: l) :: more

/-- The leading lines that are text, without a carriage return at the end. -/
def textLines : List Bytes → List (List Char)
  | [] => []
  | l :: rest =>
    match Utf8.chars? (Utf8.decode l) with
    | some cs => (if cs.getLast? == some '\r' then cs.dropLast else cs) :: textLines rest
    | none => []

/-- A byte order mark in front of the first line is no part of it. -/
def dropMark : List (List Char) → List (List Char)
  | l :: rest => l.dropWhile (·.toNat == 0xFEFF) :: rest
  | [] => []

def ofContent (content : Bytes) : IgnoreRules :=
  (dropMark (textLines (lines content))).filterMap IgnoreRule.ofLine?

/-- What the rules say of a path below their directory: the last one that matches counts. -/
def verdict? (rules : IgnoreRules) (path : RawText) (isDir : Bool) : Option Verdict :=
  (rules.reverse.find? fun r =>
    (!r.onlyDirs || isDir) && Glob.isMatch r.glob path.bytes).map (·.verdict)

/-- The rules in the file at a path, if there is one. -/
def ofFile (tree : Node) (path : RawText) : IgnoreRules :=
  match tree.read path with
  | .ok content => ofContent content
  | .error _ => []

end IgnoreRules

/-- The ignore rules of one directory. -/
structure IgnoreLevel where
  /-- How many names lead from the root of the tree to the directory. -/
  depth : Nat
  /-- Whether the directory is the top of a repository. -/
  hasRepository : Bool
  ignore : IgnoreRules
  gitignore : IgnoreRules
  exclude : IgnoreRules

namespace IgnoreLevel

/-- The rules of the directory at `place`. The repository's own list of excluded files always
counts, the ignore files only where they are respected. -/
def ofDir (tree : Node) (respect : Bool) (place : List RawText) : IgnoreLevel :=
  let inside (name : RawText) : RawText := Node.placePath (place ++ [name])
  { depth := place.length
    hasRepository := tree.exists? (inside ".git")
    ignore := if respect then .ofFile tree (inside ".ignore") else []
    gitignore := if respect then .ofFile tree (inside ".gitignore") else []
    exclude := .ofFile tree (inside ".git/info/exclude") }

/-- What one kind of rules says of an entry, the innermost level first. -/
def firstVerdict? (rules : IgnoreLevel → IgnoreRules) (entry : List RawText) (isDir : Bool)
    (levels : List IgnoreLevel) : Option Verdict :=
  levels.findSome? fun l => (rules l).verdict? (.ofNames (entry.drop l.depth)) isDir

/-- The levels up to the first that is the top of a repository. -/
def withinRepository : List IgnoreLevel → List IgnoreLevel
  | [] => []
  | l :: rest => if l.hasRepository then [l] else l :: withinRepository rest

/-- What the levels around an entry say of it, the innermost first. Plain ignore files come before
those of a repository, which count only inside of one. -/
def verdict? (levels : List IgnoreLevel) (entry : List RawText) (isDir : Bool) : Option Verdict :=
  let repository := if levels.any (·.hasRepository) then withinRepository levels else []
  (firstVerdict? ignore entry isDir levels).or
    ((firstVerdict? gitignore entry isDir repository).or
      (firstVerdict? exclude entry isDir repository))

end IgnoreLevel

end PackageCoupling
