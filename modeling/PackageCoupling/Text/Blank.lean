/-!
White space and letter case of texts.
-/

namespace PackageCoupling.Text

/-- The characters with the Unicode property `White_Space`. -/
def isBlank (c : Char) : Bool :=
  let n := c.toNat
  (9 ≤ n && n ≤ 13) || n == 32 || n == 0x85 || n == 0xA0 || n == 0x1680 ||
    (0x2000 ≤ n && n ≤ 0x200A) || n == 0x2028 || n == 0x2029 || n == 0x202F || n == 0x205F ||
    n == 0x3000

/-- Drops the characters at the end that satisfy `p`. -/
def dropEndWhile (p : Char → Bool) (cs : List Char) : List Char :=
  (cs.reverse.dropWhile p).reverse

def trimList (cs : List Char) : List Char := dropEndWhile isBlank (cs.dropWhile isBlank)

/-- Without white space at either end. -/
def trim (s : String) : String := String.ofList (trimList s.toList)

/-- With the letters `A` to `Z` in lower case; other letters keep their case. -/
def lower (s : String) : String := String.ofList (s.toList.map Char.toLower)

/-- Whether `word` occurs in `cs`. -/
def occursIn (word : List Char) : List Char → Bool
  | [] => word.isEmpty
  | c :: cs => word.isPrefixOf (c :: cs) || occursIn word cs

end PackageCoupling.Text
