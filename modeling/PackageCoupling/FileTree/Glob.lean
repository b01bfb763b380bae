import PackageCoupling.Cut
import PackageCoupling.Text.Utf8

/-!
Glob patterns for paths.

A pattern is matched against the bytes of a path with slashes. `?` and `*` stay inside one name,
`**` goes through directories, `[…]` is a class and `{…,…}` a choice.
-/

namespace PackageCoupling.Glob

inductive Part where
  | byte (b : UInt8)
  /-- One byte of a name. -/
  | any
  /-- Any bytes of a name. -/
  | star
  /-- `**` at the front: any directories, or none. -/
  | leading
  /-- `**` at the end: something inside. -/
  | trailing
  /-- `**` in the middle: a slash, with any directories. -/
  | middle
  | set (negated : Bool) (ranges : List (UInt8 × UInt8))
  | choice (alternatives : List (List Part))
  deriving Repr

/-! ## Matching -/

def slash : UInt8 := 47

/-- Whether `next` accepts what remains behind some number of bytes that satisfy `p`. -/
def after (p : UInt8 → Bool) (next : Bytes → Bool) : Bytes → Bool
  | [] => next []
  | b :: rest => next (b :: rest) || (p b && after p next rest)

/-- Whether `next` accepts what remains behind some slash. -/
def afterSlash (next : Bytes → Bool) : Bytes → Bool
  | [] => false
  | b :: rest => (b == slash && next rest) || afterSlash next rest

mutual

/-- Whether the parts match some bytes in front and `next` accepts the rest. -/
def accepts : List Part → (Bytes → Bool) → Bytes → Bool
  | [], next, bytes => next bytes
  | .byte b :: ps, next, bytes =>
    match bytes with
    | c :: rest => c == b && accepts ps next rest
    | [] => false
  | .any :: ps, next, bytes =>
    match bytes with
    | c :: rest => c != slash && accepts ps next rest
    | [] => false
  | .star :: ps, next, bytes => after (· != slash) (accepts ps next) bytes
  | .leading :: ps, next, bytes =>
    accepts ps next bytes || afterSlash (accepts ps next) bytes
  | .trailing :: ps, next, bytes =>
    match bytes with
    | c :: rest => c == slash && after (fun _ => true) (accepts ps next) rest
    | [] => false
  | .middle :: ps, next, bytes =>
    match bytes with
    | c :: rest =>
      c == slash && (accepts ps next rest || afterSlash (accepts ps next) rest)
    | [] => false
  | .set negated ranges :: ps, next, bytes =>
    match bytes with
    | c :: rest =>
      (ranges.any (fun (low, high) => low ≤ c && c ≤ high) != negated) && accepts ps next rest
    | [] => false
  | .choice alternatives :: ps, next, bytes =>
    if alternatives.isEmpty then accepts ps next bytes
    else acceptsAny alternatives (accepts ps next) bytes
termination_by ps => sizeOf ps
decreasing_by
  all_goals
    simp only [List.cons.sizeOf_spec, Part.choice.sizeOf_spec]
    omega

def acceptsAny : List (List Part) → (Bytes → Bool) → Bytes → Bool
  | [], _, _ => false
  | ps :: rest, next, bytes => accepts ps next bytes || acceptsAny rest next bytes
termination_by alternatives => sizeOf alternatives
decreasing_by
  all_goals
    simp only [List.cons.sizeOf_spec]
    omega

end

/-- Whether the whole of `bytes` matches. -/
def isMatch (ps : List Part) (bytes : Bytes) : Bool := accepts ps List.isEmpty bytes

/-! ## Reading -/

inductive Sign where
  | char (c : Char)
  | escaped (c : Char)
  | any
  | star
  | doubleStar
  | set (negated : Bool) (ranges : List (Char × Char))
  | opening
  | closing
  | comma
  | malformed
  deriving DecidableEq, Repr

/-- The members of a class, up to its closing bracket, as they are written. -/
def setMembers? (cs : List Char) : Option (List Char) :=
  match cs with
  | [] => none
  | first :: rest =>
    if rest.contains ']' then some (first :: rest.takeWhile (· != ']')) else none

/-- Takes a member into the ranges so far, the latest first. The flag says that a hyphen came
before, which makes the member the end of the latest range; nothing comes out if that runs
backwards. -/
def addMember (ranges : List (Char × Char)) (hyphen : Bool) (c : Char) :
    Option (List (Char × Char) × Bool) :=
  match ranges, hyphen with
  | [], _ => some ([(c, c)], false)
  | (low, _) :: rest, true => if low ≤ c then some ((low, c) :: rest, false) else none
  | ranges, false => if c == '-' then some (ranges, true) else some ((c, c) :: ranges, false)

/-- The ranges of members. A hyphen at either end is a member. -/
def setRanges? (members : List Char) : Option (List (Char × Char)) :=
  let start : List (Char × Char) × Bool := ([], false)
  (members.foldlM (fun s c => addMember s.1 s.2 c) start).map
    fun s => if s.2 then ('-', '-') :: s.1 else s.1

/-- The sign at the front. A class that is not closed makes this and all later brackets ordinary
characters; the state says that this has happened. -/
def front (literal : Bool) (c : Char) (rest : List Char) : Cut Sign Bool :=
  if c == '?' then ⟨.any, 0, literal⟩
  else if c == '*' then
    if rest.head? == some '*' then ⟨.doubleStar, 1, literal⟩ else ⟨.star, 0, literal⟩
  else if c == '{' then ⟨.opening, 0, literal⟩
  else if c == '}' then ⟨.closing, 0, literal⟩
  else if c == ',' then ⟨.comma, 0, literal⟩
  else if c == '\\' then
    match rest with
    | d :: _ => ⟨.escaped d, 1, literal⟩
    | [] => ⟨.malformed, 0, literal⟩
  else if c == '[' && !literal then
    let negated := rest.head? == some '!' || rest.head? == some '^'
    match setMembers? (if negated then rest.drop 1 else rest) with
    | some members =>
      ⟨match setRanges? members with
        | some ranges => .set negated ranges
        | none => .malformed,
        members.length + (if negated then 2 else 1), literal⟩
    | none => ⟨.char c, 0, true⟩
  else ⟨.char c, 0, literal⟩

def signs (pattern : List Char) : List Sign := cutAll front 0 false pattern

def bytesOf (c : Char) : Bytes := String.utf8EncodeChar c

/-- The bytes of a range of characters. A range between characters of several bytes is one between
the last byte of the first and the first byte of the last. -/
def byteRanges? (range : Char × Char) : Option (List (UInt8 × UInt8)) :=
  let first := bytesOf range.1
  let last := bytesOf range.2
  if range.1 == range.2 then some (first.map fun b => (b, b))
  else
    match first.getLast?, last with
    | some low, high :: tail =>
      if low ≤ high then
        some (first.dropLast.map (fun b => (b, b)) ++ (low, high) :: tail.map fun b => (b, b))
      else none
    | _, _ => none

/-- A group of alternatives that is being read: those that are complete, and the current one, each
with its latest part first. -/
structure Group where
  complete : List (List Part)
  current : List Part

def Group.add (g : Group) (p : Part) : Group := { g with current := p :: g.current }

def Group.next (g : Group) : Group := ⟨g.current.reverse :: g.complete, []⟩

/-- The choice between the alternatives; empty ones are left out. -/
def Group.close (g : Group) : Part :=
  .choice ((g.current.reverse :: g.complete).reverse.filter (!·.isEmpty))

def isSeparator : Option Sign → Bool
  | some (.char c) => c == '/'
  | some (.escaped c) => c == '/'
  | _ => false

/-- `**` behind a slash, in place of that slash. -/
def Group.through (g : Group) (last : Bool) : Group :=
  match g.current with
  | .leading :: _ => g
  | .trailing :: _ => g
  | _ :: before => { g with current := (if last then .trailing else .middle) :: before }
  | [] => g

/-- The parts of the signs that remain, with the groups that are open, the innermost first, and the
sign before. -/
def assemble : Group → List Group → Option Sign → List Sign → Option (List Part)
  | g, [], _, [] => some g.current.reverse
  | _, _ :: _, _, [] => none
  | g, outer, previous, .doubleStar :: rest =>
    let stars := (g.add .star).add .star
    if g.current.isEmpty then
      match rest with
      | [] => assemble (g.add .leading) outer (some .doubleStar) []
      | .char '/' :: rest => assemble (g.add .leading) outer (some (.char '/')) rest
      | rest => assemble stars outer (some .doubleStar) rest
    else if isSeparator previous then
      match rest with
      | [] => assemble (g.through true) outer (some .doubleStar) []
      | .char '/' :: rest => assemble (g.through false) outer (some (.char '/')) rest
      | s :: rest =>
        if !outer.isEmpty && (s == .comma || s == .closing) then
          assemble (g.through true) outer (some .doubleStar) (s :: rest)
        else assemble stars outer (some .doubleStar) (s :: rest)
    else assemble stars outer (some .doubleStar) rest
  | g, outer, _, .char c :: rest =>
    assemble ((bytesOf c).foldl (fun g b => g.add (.byte b)) g) outer (some (.char c)) rest
  | g, outer, _, .escaped c :: rest =>
    assemble ((bytesOf c).foldl (fun g b => g.add (.byte b)) g) outer (some (.escaped c)) rest
  | g, outer, _, .any :: rest => assemble (g.add .any) outer (some .any) rest
  | g, outer, _, .star :: rest => assemble (g.add .star) outer (some .star) rest
  | g, outer, _, .set negated ranges :: rest =>
    match ranges.mapM byteRanges? with
    | some bytes => assemble (g.add (.set negated bytes.flatten)) outer (some .any) rest
    | none => none
  | g, outer, _, .opening :: rest => assemble ⟨[], []⟩ (g :: outer) (some .opening) rest
  | g, outer, _, .comma :: rest =>
    if outer.isEmpty then assemble (g.add (.byte 44)) outer (some .comma) rest
    else assemble g.next outer (some .comma) rest
  | g, outer :: more, _, .closing :: rest =>
    assemble (outer.add g.close) more (some .closing) rest
  | _, [], _, .closing :: _ => none
  | _, _, _, .malformed :: _ => none

/-- The parts of a pattern, if it is well-formed. -/
def read? (pattern : List Char) : Option (List Part) := assemble ⟨[], []⟩ [] none (signs pattern)

end PackageCoupling.Glob
