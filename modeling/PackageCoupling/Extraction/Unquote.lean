import PackageCoupling.Text.Blank

/-!
Import texts without the quotes around them.
-/

namespace PackageCoupling

def quoteMarks : List Char := ['"', '\'', '\x60']

/-- The text between two quotes of the same kind, if `cs` starts and ends with one. -/
def between? (quote : Char) (cs : List Char) : Option (List Char) :=
  match cs with
  | c :: d :: rest =>
    if c == quote && (d :: rest).getLast? == some quote then some (d :: rest).dropLast else none
  | _ => none

theorem eq_of_between? {quote : Char} {cs inner : List Char} (h : between? quote cs = some inner) :
    cs = quote :: inner ++ [quote] := by
  unfold between? at h
  split at h
  · rename_i c d rest
    split at h
    · rename_i quoted
      simp only [Bool.and_eq_true, beq_iff_eq] at quoted
      obtain ⟨rfl, last⟩ := quoted
      obtain ⟨front, eq⟩ := List.getLast?_eq_some_iff.1 last
      rw [eq, List.dropLast_concat] at h
      cases h
      rw [eq, List.cons_append]
    · cases h
  · cases h

/-- The text without white space at its ends and then without one pair of quotes. -/
def unquote (s : String) : String :=
  let cs := Text.trimList s.toList
  String.ofList ((quoteMarks.findSome? (between? · cs)).getD cs)

end PackageCoupling
