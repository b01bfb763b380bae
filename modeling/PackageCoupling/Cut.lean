/-!
Cutting a list into consecutive pieces, front to back.

A *cutter* looks at the front of what remains and says how many elements the next piece covers.
`cutAll` runs it to the end. It recurses on the list itself, counting down the elements that the
current piece still covers, so it needs neither fuel nor a termination proof, and
`cutAll_eq_drop` gives back the reading "take a piece, go on behind it".
-/

namespace PackageCoupling

/-- A piece at the front of a list: what it is, how many elements beyond the first it covers, and
the state in which the search goes on behind it. -/
structure Cut (β σ : Type) where
  value : β
  more : Nat
  next : σ

variable {α β σ : Type}

/-- The values of all pieces. The number counts the leading elements that belong to a piece
already found. -/
def cutAll (cut : σ → α → List α → Cut β σ) : Nat → σ → List α → List β
  | _, _, [] => []
  | 0, s, a :: rest =>
    let piece := cut s a rest
    piece.value :: cutAll cut piece.more piece.next rest
  | n + 1, s, _ :: rest => cutAll cut n s rest

theorem cutAll_eq_drop (cut : σ → α → List α → Cut β σ) (n : Nat) (s : σ) (l : List α) :
    cutAll cut n s l = cutAll cut 0 s (l.drop n) := by
  induction n generalizing l with
  | zero => rfl
  | succ n ih =>
    cases l with
    | nil => rfl
    | cons a rest => simp [cutAll, ih]

theorem cutAll_cons (cut : σ → α → List α → Cut β σ) (s : σ) (a : α) (rest : List α) :
    cutAll cut 0 s (a :: rest) =
      (cut s a rest).value ::
        cutAll cut 0 (cut s a rest).next (rest.drop (cut s a rest).more) := by
  rw [cutAll, cutAll_eq_drop]

end PackageCoupling
