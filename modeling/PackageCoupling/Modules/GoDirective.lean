import PackageCoupling.Cut
import PackageCoupling.Text.Blank

/-!
Module directives of `go.mod` files.
-/

namespace PackageCoupling.GoDirective

def isGap (c : Char) : Bool := c == ' ' || c == '\t'

/-- The text between quotes at the front, not empty, and how many characters it takes with them. -/
def quoted? (cs : List Char) : Option (List Char × Nat) :=
  match cs with
  | '"' :: rest =>
    let inner := rest.takeWhile (· != '"')
    if inner.isEmpty || inner.length == rest.length then none
    else some (inner, inner.length + 2)
  | _ => none

/-- The word at the front, which does not start with a slash. -/
def word? (cs : List Char) : Option (List Char × Nat) :=
  let word := cs.takeWhile (!Text.isBlank ·)
  if word.isEmpty || word.head? == some '/' then none else some (word, word.length)

/-- The identifier of a directive at the front of a line, and how many characters the directive
takes. A quoted identifier may go over line ends. -/
def directive? (cs : List Char) : Option (String × Nat) :=
  let indent := (cs.takeWhile isGap).length
  let body := cs.drop indent
  let keyword := "module".toList
  if keyword.isPrefixOf body then
    let rest := body.drop keyword.length
    let gap := (rest.takeWhile isGap).length
    if gap == 0 then none
    else
      let operand := rest.drop gap
      ((quoted? operand).or (word? operand)).map fun (id, n) =>
        (String.ofList id, indent + keyword.length + gap + n)
  else none

/-- A directive, or a character that belongs to none. The state says that a line starts here. -/
def front (lineStart : Bool) (c : Char) (rest : List Char) : Cut (Option String) Bool :=
  match if lineStart then directive? (c :: rest) else none with
  | some (id, n) => ⟨some id, n - 1, false⟩
  | none => ⟨none, 0, c == '\n'⟩

/-- The identifiers of all directives. -/
def identifiers (text : String) : List String := (cutAll front 0 true text.toList).filterMap id

end PackageCoupling.GoDirective
