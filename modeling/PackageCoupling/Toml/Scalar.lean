import PackageCoupling.Decimal.Read
import PackageCoupling.Text.Hex
import PackageCoupling.Toml.Basic

/-!
Numbers, dates and truth values of TOML, each read from the whole of its text.
-/

namespace PackageCoupling.Toml

/-! ## Numbers -/

/-- Digits with single underscores between them. -/
def isDigits (valid : Char → Bool) : List Char → Bool
  | [] => false
  | [c] => valid c
  | c :: '_' :: rest => valid c && isDigits valid rest
  | c :: rest => valid c && isDigits valid rest

def isDecimalDigits (cs : List Char) : Bool := isDigits Char.isDigit cs

/-- Decimal digits without a zero in front of others. -/
def isWhole (cs : List Char) : Bool :=
  isDecimalDigits cs && (cs.length == 1 || cs.head? != some '0')

def dropUnderscores (cs : List Char) : List Char := cs.filter (· != '_')

/-- The value of digits in a base. -/
def valueIn (base : Nat) (cs : List Char) : Nat :=
  (dropUnderscores cs).foldl (fun n c => n * base + (Text.hexValue? c).getD 0) 0

/-- Whole numbers have 64 bits and a sign. -/
def inRange (n : Int) : Bool := -(Int.pow 2 63) ≤ n && n < Int.pow 2 63

def isDigitIn (base : Nat) (c : Char) : Bool := (Text.hexValue? c).any (· < base)

def integer? (cs : List Char) : Option Int :=
  let value :=
    match cs with
    | '0' :: 'x' :: ds => if isDigits (isDigitIn 16) ds then some (valueIn 16 ds : Int) else none
    | '0' :: 'o' :: ds => if isDigits (isDigitIn 8) ds then some (valueIn 8 ds : Int) else none
    | '0' :: 'b' :: ds => if isDigits (isDigitIn 2) ds then some (valueIn 2 ds : Int) else none
    | cs =>
      let (negative, ds) := Decimal.takeSign cs
      if isWhole ds then some (if negative then -(valueIn 10 ds : Int) else valueIn 10 ds) else none
  value.bind fun n => if inRange n then some n else none

def isExponentMark (c : Char) : Bool := c == 'e' || c == 'E'

/-- An exponent from its mark on. -/
def isExponent : List Char → Bool
  | c :: cs => isExponentMark c && isDecimalDigits (Decimal.takeSign cs).2
  | [] => false

/-- Whether a number without its sign has a fraction or an exponent, or both. -/
def isFloat (cs : List Char) : Bool :=
  let whole := cs.takeWhile (fun c => c != '.' && !isExponentMark c)
  let rest := cs.dropWhile (fun c => c != '.' && !isExponentMark c)
  isWhole whole &&
    match rest with
    | '.' :: rest =>
      let fraction := rest.takeWhile (!isExponentMark ·)
      let rest := rest.dropWhile (!isExponentMark ·)
      isDecimalDigits fraction && (rest.isEmpty || isExponent rest)
    | rest => isExponent rest

/-- A float. One that is too large is refused if it is positive. -/
def float? (cs : List Char) : Option Float :=
  let (negative, ds) := Decimal.takeSign cs
  let digits := dropUnderscores ds
  if ds == "inf".toList || ds == "nan".toList then Decimal.readFloat? (String.ofList cs)
  else if isFloat ds then
    (Decimal.readUnsigned? digits).bind fun (mantissa, exponent) =>
      let s : Decimal.Scientific := ⟨negative, mantissa, exponent⟩
      if s.overflows && !negative then none else some s.toFloat
  else none

/-! ## Dates and times -/

/-- The number of two digits between two bounds. -/
def twoDigits? (low high : Nat) (a b : Char) : Option Nat :=
  if a.isDigit && b.isDigit then
    let n := Decimal.digitsValue [a, b]
    if low ≤ n && n ≤ high then some n else none
  else none

def isLeapYear (year : Nat) : Bool := year % 4 == 0 && (year % 100 != 0 || year % 400 == 0)

def daysIn (year month : Nat) : Nat :=
  if month == 2 then if isLeapYear year then 29 else 28
  else if [4, 6, 9, 11].contains month then 30
  else 31

def isDate : List Char → Bool
  | [y1, y2, y3, y4, '-', m1, m2, '-', d1, d2] =>
    [y1, y2, y3, y4].all Char.isDigit &&
      match twoDigits? 1 12 m1 m2, twoDigits? 1 31 d1 d2 with
      | some month, some day => day ≤ daysIn (Decimal.digitsValue [y1, y2, y3, y4]) month
      | _, _ => false
  | _ => false

/-- What follows a time of day. -/
def afterTime? : List Char → Option (List Char)
  | h1 :: h2 :: ':' :: m1 :: m2 :: ':' :: s1 :: s2 :: rest =>
    if (twoDigits? 0 23 h1 h2).isSome && (twoDigits? 0 59 m1 m2).isSome &&
        (twoDigits? 0 60 s1 s2).isSome then
      match rest with
      | '.' :: c :: rest => if c.isDigit then some (rest.dropWhile Char.isDigit) else none
      | rest => some rest
    else none
  | _ => none

def isOffset : List Char → Bool
  | ['Z'] => true
  | ['z'] => true
  | [sign, h1, h2, ':', m1, m2] =>
    (sign == '+' || sign == '-') && (twoDigits? 0 23 h1 h2).isSome &&
      (twoDigits? 0 59 m1 m2).isSome
  | _ => false

def isMoment (cs : List Char) : Bool :=
  isDate cs || afterTime? cs == some [] ||
    (isDate (cs.take 10) &&
      match cs.drop 10 with
      | c :: rest =>
        (c == 'T' || c == 't' || c == ' ') &&
          (match afterTime? rest with
           | some tail => tail.isEmpty || isOffset tail
           | none => false)
      | [] => false)

/-! ## Texts of scalars -/

def isScalarChar (c : Char) : Bool :=
  c.isAlphanum || c == '+' || c == '-' || c == '_' || c == '.' || c == ':'

/-- Splits off the text of a scalar. A space may stand between a date and a time. -/
def splitScalar (cs : List Char) : List Char × List Char :=
  let first := cs.takeWhile isScalarChar
  let rest := cs.dropWhile isScalarChar
  match rest with
  | ' ' :: c :: tail =>
    if isDate first && c.isDigit then
      (first ++ ' ' :: (c :: tail).takeWhile isScalarChar, (c :: tail).dropWhile isScalarChar)
    else (first, rest)
  | _ => (first, rest)

def scalar? (cs : List Char) : Option Toml :=
  if cs == "true".toList then some (.bool true)
  else if cs == "false".toList then some (.bool false)
  else if isMoment cs then some (.moment (String.ofList cs))
  else
    match float? cs with
    | some x => some (.float x)
    | none => (integer? cs).map .int

end PackageCoupling.Toml
