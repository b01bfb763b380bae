import PackageCoupling.Cut

/-!
Bytes and the characters they encode.

A file is a list of bytes. Decoding splits it into *glyphs*: a character, or a stretch of bytes
that is no part of any character. Nothing is lost, so a reader can accept a file with stray bytes
and still tell which of its parts are proper text.
-/

namespace PackageCoupling

/-- The contents of a file. -/
abbrev Bytes := List UInt8

inductive Glyph where
  | char (c : Char)
  | stray (bytes : Bytes)
  deriving DecidableEq, Repr

/-- The character as which a glyph is shown. -/
def Glyph.shown : Glyph → Char
  | .char c => c
  | .stray _ => Char.ofNat 0xFFFD

namespace Utf8

/-- For the first byte of a sequence of several bytes: how many follow it, and the least and the
greatest value of the second byte. -/
def follow? (b : UInt8) : Option (Nat × UInt8 × UInt8) :=
  if 0xC2 ≤ b && b ≤ 0xDF then some (1, 0x80, 0xBF)
  else if b == 0xE0 then some (2, 0xA0, 0xBF)
  else if b == 0xED then some (2, 0x80, 0x9F)
  else if 0xE1 ≤ b && b ≤ 0xEF then some (2, 0x80, 0xBF)
  else if b == 0xF0 then some (3, 0x90, 0xBF)
  else if 0xF1 ≤ b && b ≤ 0xF3 then some (3, 0x80, 0xBF)
  else if b == 0xF4 then some (3, 0x80, 0x8F)
  else none

/-- The bytes of `rest` that continue a sequence with `n` bytes to come, the next one between
`low` and `high`. -/
def tails : Nat → UInt8 → UInt8 → Bytes → Bytes
  | 0, _, _, _ => []
  | _, _, _, [] => []
  | n + 1, low, high, b :: rest =>
    if low ≤ b && b ≤ high then b :: tails n 0x80 0xBF rest else []

/-- The code point of a sequence: the first byte without its length mark, then six bits of each
byte that follows. -/
def codePoint (first : UInt8) (rest : Bytes) : Nat :=
  let mark := if rest.length == 1 then 0x1F else if rest.length == 2 then 0x0F else 0x07
  rest.foldl (fun n b => n * 64 + b.toNat % 64) (first.toNat % (mark + 1))

/-- The glyph at the front. A sequence that breaks off is one stray stretch as far as it goes. -/
def front (_ : Unit) (b : UInt8) (rest : Bytes) : Cut Glyph Unit :=
  if b < 0x80 then ⟨.char (Char.ofNat b.toNat), 0, ()⟩
  else
    match follow? b with
    | none => ⟨.stray [b], 0, ()⟩
    | some (n, low, high) =>
      let ts := tails n low high rest
      if ts.length == n then ⟨.char (Char.ofNat (codePoint b ts)), n, ()⟩
      else ⟨.stray (b :: ts), ts.length, ()⟩

def decode (bytes : Bytes) : List Glyph := cutAll front 0 () bytes

def encode (s : String) : Bytes := s.toList.flatMap String.utf8EncodeChar

/-- The characters of glyphs that hold no stray bytes. -/
def chars? : List Glyph → Option (List Char)
  | [] => some []
  | .char c :: rest => (chars? rest).map (c :: ·)
  | .stray _ :: _ => none

/-- The text that bytes encode, if all of them do. -/
def text? (bytes : Bytes) : Option String := (chars? (decode bytes)).map String.ofList

/-- The text with each stray stretch shown as one replacement character. -/
def lossy (bytes : Bytes) : String := String.ofList ((decode bytes).map Glyph.shown)

end Utf8

end PackageCoupling
