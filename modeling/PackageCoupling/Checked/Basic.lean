/-!
Computations that can break off.

Numbers have 64 bits, texts are sliced at byte offsets, and lists are read at indices. Each of these
operations has a condition; where it fails the program breaks off in the middle, with neither a
report nor an error of its own.
-/

namespace PackageCoupling

/-- What breaks off a program. -/
inductive Panic where
  | instant
  | addition
  | subtraction
  | boundary
  | index
  | width
  deriving DecidableEq, Repr

def Panic.message : Panic → String
  | .instant => "overflow when adding duration to instant"
  | .addition => "attempt to add with overflow"
  | .subtraction => "attempt to subtract with overflow"
  | .boundary => "byte index is not a char boundary"
  | .index => "index out of bounds"
  | .width => "Formatting argument out of range"

abbrev Checked (α : Type) := Except Panic α

namespace Checked

variable {α β : Type}

/-! ## Numbers -/

def countLimit : Nat := Nat.pow 2 64

def add (a b : Nat) : Checked Nat := if a + b < countLimit then .ok (a + b) else .error .addition

def sub (a b : Nat) : Checked Nat := if b ≤ a then .ok (a - b) else .error .subtraction

def sum (ns : List Nat) : Checked Nat := ns.foldlM add 0

/-- A column can be this wide at most. -/
def widthLimit : Nat := 65535

def columnWidth (n : Nat) : Checked Nat := if n ≤ widthLimit then .ok n else .error .width

/-! ## Lists -/

def get (l : List α) (i : Nat) : Checked α :=
  match l[i]? with
  | some a => .ok a
  | none => .error .index

def drop (l : List α) (n : Nat) : Checked (List α) :=
  if n ≤ l.length then .ok (l.drop n) else .error .index

/-! ## Texts -/

def byteLength (cs : List Char) : Nat := cs.foldr (fun c n => c.utf8Size + n) 0

/-- The first `n` bytes. No character may extend beyond them. -/
def takeBytes : Nat → List Char → Checked (List Char)
  | 0, _ => .ok []
  | _ + 1, [] => .error .boundary
  | n + 1, c :: cs =>
    if c.utf8Size ≤ n + 1 then do .ok (c :: (← takeBytes (n + 1 - c.utf8Size) cs))
    else .error .boundary

/-- What stands behind the first `n` bytes. -/
def dropBytes : Nat → List Char → Checked (List Char)
  | 0, cs => .ok cs
  | _ + 1, [] => .error .boundary
  | n + 1, c :: cs =>
    if c.utf8Size ≤ n + 1 then dropBytes (n + 1 - c.utf8Size) cs else .error .boundary

/-- The bytes from offset `start` up to offset `stop`. -/
def slice (cs : List Char) (start stop : Nat) : Checked (List Char) :=
  if start ≤ stop then do dropBytes start (← takeBytes stop cs) else .error .boundary

/-! ## When they succeed -/

@[simp] theorem ok_bind (a : α) (f : α → Checked β) : (Except.ok a : Checked α) >>= f = f a := rfl

theorem add_ok {a b : Nat} (h : a + b < countLimit) : add a b = .ok (a + b) := if_pos h

theorem sub_ok {a b : Nat} (h : b ≤ a) : sub a b = .ok (a - b) := if_pos h

theorem drop_ok {l : List α} {n : Nat} (h : n ≤ l.length) : drop l n = .ok (l.drop n) := if_pos h

theorem mapM_ok {f : α → Checked β} {g : α → β} {l : List α} (h : ∀ a ∈ l, f a = .ok (g a)) :
    l.mapM f = .ok (l.map g) := by
  induction l with
  | nil => rfl
  | cons a rest ih =>
    have rest_ok := ih fun b hb => h b (List.mem_cons_of_mem _ hb)
    rw [List.mapM_cons, h a List.mem_cons_self, rest_ok]
    rfl

/-- A fold succeeds if an invariant of what has been folded and what remains lets each step succeed.
-/
theorem foldlM_ok {f : β → α → Checked β} {g : β → α → β} (inv : List α → β → Prop)
    (step : ∀ a rest b, inv (a :: rest) b → f b a = .ok (g b a) ∧ inv rest (g b a))
    {l : List α} {b : β} (start : inv l b) : l.foldlM f b = .ok (l.foldl g b) := by
  induction l generalizing b with
  | nil => rfl
  | cons a rest ih =>
    obtain ⟨eq, kept⟩ := step a rest b start
    rw [List.foldlM_cons, eq, ok_bind, ih kept, List.foldl_cons]

theorem byteLength_cons (c : Char) (cs : List Char) :
    byteLength (c :: cs) = byteLength cs + (c.utf8Size - 1) + 1 := by
  have positive := c.utf8Size_pos
  have step : byteLength (c :: cs) = c.utf8Size + byteLength cs := rfl
  omega

theorem byteLength_append (cs ds : List Char) :
    byteLength (cs ++ ds) = byteLength cs + byteLength ds := by
  induction cs with
  | nil => exact (Nat.zero_add _).symm
  | cons c cs ih =>
    rw [List.cons_append, byteLength_cons, byteLength_cons, ih]
    omega

theorem byteLength_reverse (cs : List Char) : byteLength cs.reverse = byteLength cs := by
  induction cs with
  | nil => rfl
  | cons c cs ih =>
    have nothing : byteLength [] = 0 := rfl
    rw [List.reverse_cons, byteLength_append, ih, byteLength_cons, byteLength_cons]
    omega

theorem takeBytes_append (front back : List Char) :
    takeBytes (byteLength front) (front ++ back) = .ok front := by
  induction front with
  | nil => exact takeBytes.eq_1 back
  | cons c rest ih =>
    have positive := c.utf8Size_pos
    have behind : byteLength rest + (c.utf8Size - 1) + 1 - c.utf8Size = byteLength rest := by omega
    rw [byteLength_cons, List.cons_append, takeBytes, if_pos (by omega), behind, ih]
    rfl

theorem dropBytes_append (front back : List Char) :
    dropBytes (byteLength front) (front ++ back) = .ok back := by
  induction front with
  | nil => exact dropBytes.eq_1 back
  | cons c rest ih =>
    have positive := c.utf8Size_pos
    have behind : byteLength rest + (c.utf8Size - 1) + 1 - c.utf8Size = byteLength rest := by omega
    rw [byteLength_cons, List.cons_append, dropBytes, if_pos (by omega), behind, ih]

/-- A slice whose ends lie between characters. -/
theorem slice_append (front middle back : List Char) :
    slice (front ++ middle ++ back) (byteLength front) (byteLength (front ++ middle)) =
      .ok middle := by
  have le : byteLength front ≤ byteLength (front ++ middle) := by
    rw [byteLength_append]
    exact Nat.le_add_right _ _
  rw [slice, if_pos le, takeBytes_append, ok_bind, dropBytes_append]

end Checked

end PackageCoupling
