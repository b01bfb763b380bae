import PackageCoupling.Decimal.Binary

/-!
Numbers with a fixed number of places. The exact value is rounded to the nearest, a half to the
even neighbour.
-/

namespace PackageCoupling.Decimal

/-- The quotient rounded to nearest, a half to even. -/
def roundDiv (n d : Nat) : Nat :=
  let q := n / d
  let r := n % d
  if 2 * r < d then q
  else if d < 2 * r then q + 1
  else if q % 2 == 0 then q else q + 1

/-- `digits` with zeros in front up to `width`. -/
def padZeros (width : Nat) (digits : List Char) : List Char :=
  List.replicate (width - digits.length) '0' ++ digits

def fixedDigits (places : Nat) (mantissa : Nat) (exponent : Int) : List Char :=
  let unit := Nat.pow 10 places
  let scaled :=
    roundDiv (mantissa * unit * Nat.pow 2 exponent.toNat) (Nat.pow 2 (-exponent).toNat)
  let whole := scaled / unit
  let fraction := scaled % unit
  natDigits whole ++
    (if places == 0 then [] else '.' :: padZeros places (natDigits fraction))

/-- A number with the given number of places behind the point. -/
def fixedText (places : Nat) (x : Float) : String :=
  match Double.ofFloat x with
  | .finite ⟨negative, mantissa, exponent⟩ =>
    let text := fixedDigits places mantissa exponent
    String.ofList (if negative then '-' :: text else text)
  | .infinite negative => if negative then "-inf" else "inf"
  | .nan => "NaN"

end PackageCoupling.Decimal
