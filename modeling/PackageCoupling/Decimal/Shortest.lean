import PackageCoupling.Decimal.Binary

/-!
The shortest decimal that reads back as a given double.

Around a double lies the interval of reals that round to it; its ends belong to it exactly when the
mantissa is even. Of the decimals with one digit, two digits and so on, at most two neighbours of
the value can lie in that interval, and the first number of digits with a hit wins.
-/

namespace PackageCoupling.Decimal

/-- Digits without trailing zeros, and the power of ten of the first digit. -/
structure Digits where
  digits : List Char
  lead : Int
  deriving DecidableEq, Repr

/-- A grid of decimals: multiples of `10 ^ power`. With `v` and `d` counted in quarter units of the
last binary place and in grid steps, `v` lies below `d` exactly when `v * unit < d * step`. -/
structure Grid where
  power : Int
  unit : Nat
  step : Nat

def Grid.of (exponent power : Int) : Grid :=
  { power
    unit := Nat.pow 2 (exponent - 2).toNat * Nat.pow 10 (-power).toNat
    step := Nat.pow 2 (2 - exponent).toNat * Nat.pow 10 power.toNat }

/-- The power of ten of the first digit of `mantissa · 2 ^ exponent`. -/
def leadingPower (mantissa : Nat) (exponent : Int) : Int :=
  let guess := ((mantissa.log2 : Int) + exponent) * 30103 / 100000
  let reaches (k : Int) : Bool :=
    let g := Grid.of exponent k
    g.step ≤ 4 * mantissa * g.unit
  if reaches (guess + 1) then guess + 1 else if reaches guess then guess else guess - 1

/-- The hit on one grid: of the value's two neighbours those in the interval, the nearer of two,
the even one of two equally near. -/
def hit? (mantissa : Nat) (exponent : Int) (g : Grid) : Option Nat :=
  let value := 4 * mantissa * g.unit
  let below := if mantissa == Nat.pow 2 52 && exponent != -1074 then 1 else 2
  let low := (4 * mantissa - below) * g.unit
  let high := (4 * mantissa + 2) * g.unit
  let inside (d : Nat) : Bool :=
    if mantissa % 2 == 0 then low ≤ d * g.step && d * g.step ≤ high
    else low < d * g.step && d * g.step < high
  let d := value / g.step
  match inside d, inside (d + 1) with
  | true, true =>
    let down := value - d * g.step
    let up := (d + 1) * g.step - value
    some (if down < up then d else if up < down then d + 1 else if d % 2 == 0 then d else d + 1)
  | true, false => some d
  | false, true => some (d + 1)
  | false, false => none

def dropZeros (digits : List Char) : List Char :=
  (digits.reverse.dropWhile (· == '0')).reverse

/-- The shortest digits of a positive number `mantissa · 2 ^ exponent`. -/
def shortest (mantissa : Nat) (exponent : Int) : Digits :=
  let lead := leadingPower mantissa exponent
  let found := (List.range 17).findSome? fun (n : Nat) =>
    let g := Grid.of exponent (lead - n)
    (hit? mantissa exponent g).map fun d => (d, g.power)
  let (d, power) := found.getD (0, 0)
  let digits := natDigits d
  ⟨dropZeros digits, power + (digits.length : Int) - 1⟩

def zeros (n : Nat) : List Char := List.replicate n '0'

/-- The digits in positional notation. A whole number ends in `tail`. -/
def Digits.positional (d : Digits) (tail : List Char) : List Char :=
  if d.lead < 0 then '0' :: '.' :: zeros ((-d.lead).toNat - 1) ++ d.digits
  else
    let whole := d.lead.toNat + 1
    if d.digits.length ≤ whole then d.digits ++ zeros (whole - d.digits.length) ++ tail
    else d.digits.take whole ++ '.' :: d.digits.drop whole

/-- One digit, the others behind a point, and the power of ten. -/
def Digits.scientific (d : Digits) : List Char :=
  let power := (toString d.lead).toList
  match d.digits with
  | [] => []
  | [a] => a :: 'e' :: power
  | a :: rest => a :: '.' :: rest ++ 'e' :: power

def signed (negative : Bool) (text : List Char) : List Char :=
  if negative then '-' :: text else text

/-- Numbers of data files: a point or a power always shows, and the powers of ten from -5 to 15
are written positionally. A number that is not finite has no such text. -/
def dataText (x : Float) : String :=
  match Double.ofFloat x with
  | .finite ⟨negative, mantissa, exponent⟩ =>
    if mantissa == 0 then String.ofList (signed negative "0.0".toList)
    else
      let d := shortest mantissa exponent
      String.ofList <| signed negative <|
        if -5 ≤ d.lead && d.lead ≤ 15 then d.positional ".0".toList else d.scientific
  | _ => "null"

/-- Numbers in messages: always positional, whole numbers without a point. -/
def messageText (x : Float) : String :=
  match Double.ofFloat x with
  | .finite ⟨negative, mantissa, exponent⟩ =>
    if mantissa == 0 then String.ofList (signed negative ['0'])
    else String.ofList (signed negative ((shortest mantissa exponent).positional []))
  | .infinite negative => String.ofList (signed negative "inf".toList)
  | .nan => "NaN"

end PackageCoupling.Decimal
