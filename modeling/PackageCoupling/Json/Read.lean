import PackageCoupling.Json.Token

/-!
Reading JSON text: a machine that takes one token at a time, with the containers that
are still open on a stack.
-/

namespace PackageCoupling.Json

/-- How many containers may be open at once. -/
def maxDepth : Nat := 127

/-- An open container with what it holds so far, the latest first. -/
inductive Frame where
  | arr (items : List Json)
  | obj (members : List (String × Json)) (name : String)
  deriving Repr

/-- What the next token has to be. -/
inductive Phase where
  /-- A value, or the end of an array that has just been opened. -/
  | value (mayClose : Bool)
  /-- The name of a member, or the end of an object that has just been opened. -/
  | name (mayClose : Bool)
  | colon
  /-- What follows a complete value. -/
  | after
  | finished (v : Json)
  deriving Repr

structure Reader where
  frames : List Frame
  phase : Phase
  deriving Repr

namespace Reader

def start : Reader := ⟨[], .value false⟩

/-- Puts a complete value into the innermost open container. -/
def complete (v : Json) : List Frame → Reader
  | [] => ⟨[], .finished v⟩
  | .arr items :: frames => ⟨.arr (v :: items) :: frames, .after⟩
  | .obj members name :: frames => ⟨.obj ((name, v) :: members) name :: frames, .after⟩

def step (r : Reader) (t : Token) : Option Reader :=
  match t, r.phase, r.frames with
  | .blank, _, _ => some r
  | .scalar v, .value _, frames => some (complete v frames)
  | .text s, .value _, frames => some (complete (.str s) frames)
  | .opening b, .value _, frames =>
    if frames.length < maxDepth then
      match b with
      | .square => some ⟨.arr [] :: frames, .value true⟩
      | .curly => some ⟨.obj [] "" :: frames, .name true⟩
    else none
  | .closing .square, .value true, .arr [] :: frames => some (complete (.arr []) frames)
  | .closing .curly, .name true, .obj [] _ :: frames => some (complete (.obj []) frames)
  | .text s, .name _, .obj members _ :: frames => some ⟨.obj members s :: frames, .colon⟩
  | .colon, .colon, frames => some ⟨frames, .value false⟩
  | .comma, .after, .arr items :: frames => some ⟨.arr items :: frames, .value false⟩
  | .comma, .after, .obj members name :: frames => some ⟨.obj members name :: frames, .name false⟩
  | .closing .square, .after, .arr items :: frames => some (complete (.arr items.reverse) frames)
  | .closing .curly, .after, .obj members _ :: frames =>
    some (complete (.obj members.reverse) frames)
  | _, _, _ => none

def run (r : Reader) : List Token → Option Reader
  | [] => some r
  | t :: rest => (r.step t).bind (run · rest)

end Reader

/-- The value that a text holds, if it is well-formed. -/
def read? (text : String) : Option Json :=
  match Reader.start.run (tokens text.toList) with
  | some ⟨_, .finished v⟩ => some v
  | _ => none

end PackageCoupling.Json
