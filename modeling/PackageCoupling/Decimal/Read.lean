import PackageCoupling.Decimal.Binary

/-!
Reading decimal numbers: the notation, the double it denotes, and whole numbers of 64 bits.
-/

namespace PackageCoupling.Decimal

/-- The number `mantissa · 10 ^ exponent`, with a sign. -/
structure Scientific where
  negative : Bool
  mantissa : Nat
  exponent : Int
  deriving DecidableEq, Repr

def isDigit (c : Char) : Bool := '0' ≤ c && c ≤ '9'

def digitsValue (ds : List Char) : Nat :=
  ds.foldl (fun n c => n * 10 + (c.toNat - '0'.toNat)) 0

/-- The power of ten of the first digit of a positive number. -/
def Scientific.lead (s : Scientific) : Int :=
  ((natDigits s.mantissa).length : Int) - 1 + s.exponent

/-- Whether the number is too large for a double: it rounds to infinity. -/
def Scientific.overflows (s : Scientific) : Bool :=
  if s.mantissa == 0 then false
  else if 400 < s.lead then true
  else if s.lead < 0 then false
  else
    Nat.pow 2 970 * (Nat.pow 2 54 - 1) * Nat.pow 10 (-s.exponent).toNat ≤
      s.mantissa * Nat.pow 10 s.exponent.toNat

/-- The nearest double. -/
def Scientific.toFloat (s : Scientific) : Float :=
  let magnitude :=
    if s.mantissa == 0 || s.lead < -400 then 0.0
    else if s.overflows then 1.0 / 0.0
    else Float.ofScientific s.mantissa (s.exponent < 0) s.exponent.natAbs
  if s.negative then -magnitude else magnitude

/-- A sign, and what follows it. -/
def takeSign : List Char → Bool × List Char
  | '-' :: rest => (true, rest)
  | '+' :: rest => (false, rest)
  | cs => (false, cs)

/-- The power of ten at the end of a number: nothing, or `e` with at least one digit. -/
def readPower? : List Char → Option Int
  | [] => some 0
  | c :: rest =>
    let (negative, ds) := takeSign rest
    if (c == 'e' || c == 'E') && !ds.isEmpty && ds.all isDigit then
      some (if negative then -(digitsValue ds : Int) else digitsValue ds)
    else none

/-- A decimal number without its sign: digits with at most one point among or around them and at
least one digit, then a power of ten. -/
def readUnsigned? (cs : List Char) : Option (Nat × Int) :=
  let whole := cs.takeWhile isDigit
  let rest := cs.dropWhile isDigit
  match rest with
  | '.' :: rest =>
    let fraction := rest.takeWhile isDigit
    if whole.isEmpty && fraction.isEmpty then none
    else
      (readPower? (rest.dropWhile isDigit)).map fun p =>
        (digitsValue (whole ++ fraction), p - fraction.length)
  | _ =>
    if whole.isEmpty then none
    else (readPower? rest).map fun p => (digitsValue whole, p)

/-- A double in decimal notation, or one of the words `inf`, `infinity` and `nan` in any case. -/
def readFloat? (s : String) : Option Float :=
  let (negative, rest) := takeSign s.toList
  let word := rest.map Char.toLower
  if word == "inf".toList || word == "infinity".toList then
    some (if negative then -1.0 / 0.0 else 1.0 / 0.0)
  else if word == "nan".toList then some (0.0 / 0.0)
  else (readUnsigned? rest).map fun (m, e) => Scientific.toFloat ⟨negative, m, e⟩

inductive CountError where
  | empty
  | invalidDigit
  | tooLarge
  deriving DecidableEq, Repr

def CountError.message : CountError → String
  | .empty => "cannot parse integer from empty string"
  | .invalidDigit => "invalid digit found in string"
  | .tooLarge => "number too large to fit in target type"

/-- A natural number below 2 ^ 64: digits, with an optional plus sign. -/
def readCount (s : String) : Except CountError Nat :=
  let digits :=
    match s.toList with
    | '+' :: rest => rest
    | cs => cs
  if s.toList.isEmpty then .error .empty
  else if digits.isEmpty || !digits.all isDigit then .error .invalidDigit
  else if digitsValue digits < Nat.pow 2 64 then .ok (digitsValue digits)
  else .error .tooLarge

end PackageCoupling.Decimal
