import PackageCoupling.Path.Basic
import PackageCoupling.Text.Utf8

/-!
Names and paths as a file system has them.

A file system keeps names as bytes, and puts no meaning on any of them but the slash. Names are
compared, joined and looked up as bytes. Most of them encode a text, which stands for its bytes
here; any of them can be shown as a text, but not all of them as different ones.
-/

namespace PackageCoupling

/-- A name or a path in a file system. -/
structure RawText where
  bytes : Bytes
  deriving DecidableEq, Repr

namespace RawText

def ofText (s : String) : RawText := ⟨Utf8.encode s⟩

instance : Coe String RawText := ⟨ofText⟩

instance : Inhabited RawText := ⟨⟨[]⟩⟩

/-- Names are ordered by their bytes. -/
instance : LT RawText := ⟨fun a b => a.bytes < b.bytes⟩

instance : LE RawText := ⟨fun a b => a.bytes ≤ b.bytes⟩

instance (a b : RawText) : Decidable (a < b) := inferInstanceAs (Decidable (a.bytes < b.bytes))

instance (a b : RawText) : Decidable (a ≤ b) := inferInstanceAs (Decidable (a.bytes ≤ b.bytes))

instance : Std.LawfulOrderLT RawText := ⟨fun a b => Std.LawfulOrderLT.lt_iff a.bytes b.bytes⟩

instance : Std.IsLinearOrder RawText where
  le_refl a := Std.le_refl a.bytes
  le_trans _ _ _ := Std.le_trans (α := Bytes)
  le_antisymm a b h h' := by
    cases a
    cases b
    exact congrArg mk (Std.le_antisymm h h')
  le_total a b := Std.le_total (a := a.bytes) (b := b.bytes)

/-- The text that the bytes encode, if they do. -/
def text? (r : RawText) : Option String := Utf8.text? r.bytes

/-- The text as which the bytes are shown. What they do not encode is replaced. -/
def text (r : RawText) : String := Utf8.lossy r.bytes

/-! ## Paths -/

def separator : UInt8 := 47

/-- The names between slashes, empty ones included. -/
def parts (r : RawText) : List RawText := (Path.segments separator r.bytes).map mk

def isRooted (r : RawText) : Bool := r.bytes.head? == some separator

/-- Names with slashes between them. -/
def ofNames (names : List RawText) : RawText := ⟨[separator].intercalate (names.map bytes)⟩

/-- What leads to `rel` from `base`. -/
def append (base rel : RawText) : RawText := ⟨Path.appendList separator base.bytes rel.bytes⟩

/-- The path in slash form, as it is shown. -/
def slash (r : RawText) : String := Path.slash r.text

/-- The directory of what is at the path, in slash form. -/
def directory (r : RawText) : String := Path.parent r.slash

/-- The last name, if the path ends in one. -/
def fileName? (r : RawText) : Option RawText :=
  let names := r.parts.filter fun (part : RawText) => part ≠ "" ∧ part ≠ "."
  names.getLast?.filter fun (name : RawText) => name ≠ ".."

/-- What follows the last dot of a name that does not only start with a dot. -/
def extension? (name : RawText) : Option RawText :=
  let dot : UInt8 := 46
  let tail := name.bytes.reverse.takeWhile (· ≠ dot)
  match name.bytes.reverse.dropWhile (· ≠ dot) with
  | [] | [_] => none
  | _ => some ⟨tail.reverse⟩

end RawText

end PackageCoupling
