import PackageCoupling.Cut
import PackageCoupling.Decimal.Read
import PackageCoupling.Json.Basic

/-!
The tokens of JSON text.
-/

namespace PackageCoupling.Json

inductive Bracket where
  | square
  | curly
  deriving DecidableEq, Repr

inductive Token where
  | blank
  | opening (b : Bracket)
  | closing (b : Bracket)
  | comma
  | colon
  | text (s : String)
  /-- A number or one of the three words. -/
  | scalar (v : Json)
  | malformed
  deriving Repr

/-! ## Strings -/

/-- A character of a string, or a code unit given by its four hexadecimal digits. -/
inductive Piece where
  | char (c : Char)
  | unit (n : Nat)
  deriving DecidableEq, Repr

/-- What a backslash and one of these characters stand for. -/
def unescape? (c : Char) : Option Char :=
  if c == '"' || c == '\\' || c == '/' then some c
  else if c == 'b' then some (Char.ofNat 8)
  else if c == 'f' then some (Char.ofNat 12)
  else if c == 'n' then some '\n'
  else if c == 'r' then some '\r'
  else if c == 't' then some '\t'
  else none

/-- The pieces up to the closing quote, and how many characters they take, that quote included. -/
def pieces? : List Char → Option (List Piece × Nat)
  | [] => none
  | '"' :: _ => some ([], 1)
  | '\\' :: 'u' :: a :: b :: c :: d :: rest =>
    match Text.hexNumber? [a, b, c, d] with
    | some n => (pieces? rest).map fun (ps, used) => (.unit n :: ps, used + 6)
    | none => none
  | '\\' :: e :: rest =>
    match unescape? e with
    | some c => (pieces? rest).map fun (ps, used) => (.char c :: ps, used + 2)
    | none => none
  | c :: rest =>
    if c.toNat < 32 || c == '\\' then none
    else (pieces? rest).map fun (ps, used) => (.char c :: ps, used + 1)

def isHighSurrogate (n : Nat) : Bool := 0xD800 ≤ n && n ≤ 0xDBFF

def isLowSurrogate (n : Nat) : Bool := 0xDC00 ≤ n && n ≤ 0xDFFF

/-- The characters of the pieces. A high surrogate has to be followed by a low one. -/
def joinPieces? : List Piece → Option (List Char)
  | [] => some []
  | .char c :: rest => (joinPieces? rest).map (c :: ·)
  | .unit high :: .unit low :: rest =>
    if isHighSurrogate high then
      if isLowSurrogate low then
        let n := 0x10000 + (high - 0xD800) * 0x400 + (low - 0xDC00)
        (joinPieces? rest).map (Char.ofNat n :: ·)
      else none
    else if isLowSurrogate high then none
    else (joinPieces? (.unit low :: rest)).map (Char.ofNat high :: ·)
  | .unit n :: rest =>
    if isHighSurrogate n || isLowSurrogate n then none
    else (joinPieces? rest).map (Char.ofNat n :: ·)

/-! ## Numbers -/

def isNumberChar (c : Char) : Bool :=
  c.isDigit || c == '-' || c == '+' || c == '.' || c == 'e' || c == 'E'

/-- Whether a number is written as the format demands and is not too large for a double: no zero
in front of other digits, and digits on both sides of a point. -/
def isNumber (cs : List Char) : Bool :=
  let unsigned := if cs.head? == some '-' then cs.drop 1 else cs
  let whole := unsigned.takeWhile Char.isDigit
  let rest := unsigned.dropWhile Char.isDigit
  !whole.isEmpty && (whole.length == 1 || whole.head? != some '0') &&
    (rest.head? != some '.' || (rest.drop 1).head?.any Char.isDigit) &&
    (match Decimal.readUnsigned? unsigned with
     | some (mantissa, exponent) => !Decimal.Scientific.overflows ⟨false, mantissa, exponent⟩
     | none => false)

/-! ## The token at the front -/

def front (_ : Unit) (c : Char) (rest : List Char) : Cut Token Unit :=
  if c == ' ' || c == '\n' || c == '\t' || c == '\r' then ⟨.blank, 0, ()⟩
  else if c == '[' then ⟨.opening .square, 0, ()⟩
  else if c == ']' then ⟨.closing .square, 0, ()⟩
  else if c == '{' then ⟨.opening .curly, 0, ()⟩
  else if c == '}' then ⟨.closing .curly, 0, ()⟩
  else if c == ',' then ⟨.comma, 0, ()⟩
  else if c == ':' then ⟨.colon, 0, ()⟩
  else if c == '"' then
    match pieces? rest with
    | none => ⟨.malformed, 0, ()⟩
    | some (ps, used) =>
      match joinPieces? ps with
      | some cs => ⟨.text (String.ofList cs), used, ()⟩
      | none => ⟨.malformed, 0, ()⟩
  else if isNumberChar c && !c.isAlpha then
    let tail := rest.takeWhile isNumberChar
    let literal := c :: tail
    ⟨if isNumber literal then .scalar (.num (String.ofList literal)) else .malformed,
      tail.length, ()⟩
  else
    let tail := rest.takeWhile Char.isAlpha
    let word := c :: tail
    let value :=
      if word == "true".toList then Token.scalar (.bool true)
      else if word == "false".toList then .scalar (.bool false)
      else if word == "null".toList then .scalar .null
      else .malformed
    ⟨value, tail.length, ()⟩

def tokens (cs : List Char) : List Token := cutAll front 0 () cs

end PackageCoupling.Json
