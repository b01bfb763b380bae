/-!
Slash-separated paths.

A path text is read as a *location*: whether it starts at the root, and the steps to take from
there. Repeated slashes and `.` are no steps. Locations compose (`Location.andThen`), can be
reduced to normal form (`Location.reduce`), and are written back as relative texts.
-/

namespace PackageCoupling.Path

inductive Step where
  | down (name : String)
  | up
  deriving DecidableEq, Repr

def Step.text : Step → String
  | .down name => name
  | .up => ".."

structure Location where
  rooted : Bool
  steps : List Step
  deriving DecidableEq, Repr

section Lists

-- A text is cut at its slashes in the same way whether it is given by characters or by bytes.
variable {α : Type} [DecidableEq α] (slash : α)

/-- The stretches between slashes; always at least one. -/
def segments : List α → List (List α)
  | [] => [[]]
  | c :: cs =>
    if c = slash then [] :: segments cs
    else
      match segments cs with
      | [] => [[c]]
      | s :: rest => (c :: s) :: rest

/-- What leads to `rel` from `base`, without reducing it. -/
def appendList (base rel : List α) : List α :=
  if rel.head? = some slash ∨ base = [] then rel
  else if base.getLast? = some slash then base ++ rel
  else base ++ slash :: rel

end Lists

/-- The texts between slashes, empty ones included. -/
def parts (s : String) : List String := (segments '/' s.toList).map String.ofList

def Step.ofSegment? (s : List Char) : Option Step :=
  if s == [] || s == ['.'] then none
  else if s == ['.', '.'] then some .up
  else some (.down (String.ofList s))

def isRooted (s : String) : Bool := s.toList.head? == some '/'

def steps (s : String) : List Step := (segments '/' s.toList).filterMap Step.ofSegment?

def Location.ofText (s : String) : Location := ⟨isRooted s, Path.steps s⟩

/-- First `a`, then `b` from where `a` ends; a rooted `b` starts anew. -/
def Location.andThen (a b : Location) : Location :=
  if b.rooted then b else ⟨a.rooted, a.steps ++ b.steps⟩

/-- Takes the steps one by one onto a stack, innermost first: going up undoes a step down, stays at
the root, and is kept where nothing is known above. -/
def reduceSteps (rooted : Bool) : List Step → List Step → List Step
  | stack, [] => stack.reverse
  | stack, .down n :: rest => reduceSteps rooted (.down n :: stack) rest
  | .down _ :: stack, .up :: rest => reduceSteps rooted stack rest
  | [], .up :: rest => reduceSteps rooted (if rooted then [] else [.up]) rest
  | .up :: stack, .up :: rest => reduceSteps rooted (.up :: .up :: stack) rest

def Location.reduce (l : Location) : Location := ⟨l.rooted, reduceSteps l.rooted [] l.steps⟩

/-- The steps with slashes between them; `.` for none. -/
def stepsText : List Step → String
  | [] => "."
  | steps => "/".intercalate (steps.map Step.text)

/-- The path in slash form, relative and without `.`. -/
def slash (s : String) : String := stepsText (steps s)

/-- The normal form of `rel` seen from `base`. -/
def join (base rel : String) : String :=
  stepsText ((Location.ofText base).andThen (Location.ofText rel)).reduce.steps

/-- The path without its last step. -/
def parent (s : String) : String := stepsText (steps s).dropLast

/-- The text behind the last slash. -/
def baseName (s : String) : String := String.ofList ((segments '/' s.toList).getLastD [])

/-- The text that leads to `rel` from `base`, without reducing it. -/
def append (base rel : String) : String := String.ofList (appendList '/' base.toList rel.toList)

end PackageCoupling.Path
