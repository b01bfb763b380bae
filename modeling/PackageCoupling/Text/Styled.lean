/-!
Texts with terminal styles.

A styled text is a list of spans. Written with colours on, a span with a style stands between an
opening escape sequence and a reset; with colours off only its text is written.
-/

namespace PackageCoupling.Text

inductive Colour where
  | red | green | yellow | blue | cyan | brightBlue | brightWhite
  deriving DecidableEq, Repr

def Colour.code : Colour → String
  | .red => "31"
  | .green => "32"
  | .yellow => "33"
  | .blue => "34"
  | .cyan => "36"
  | .brightBlue => "94"
  | .brightWhite => "97"

structure Style where
  bold : Bool := false
  dimmed : Bool := false
  colour : Option Colour := none
  deriving DecidableEq, Repr

/-- The codes of a style: weight first, then the colour. -/
def Style.codes (s : Style) : List String :=
  (if s.bold then ["1"] else []) ++ (if s.dimmed then ["2"] else []) ++
    (s.colour.map Colour.code).toList

def Style.opening (s : Style) : List Char :=
  ("\x1b[" ++ ";".intercalate s.codes ++ "m").toList

def reset : List Char := "\x1b[0m".toList

structure Span where
  style : Style
  text : String
  deriving DecidableEq, Repr

abbrev Styled := List Span

def plain (text : String) : Span := ⟨⟨false, false, none⟩, text⟩
def bold (text : String) : Span := ⟨⟨true, false, none⟩, text⟩
def dimmed (text : String) : Span := ⟨⟨false, true, none⟩, text⟩
def coloured (c : Colour) (text : String) : Span := ⟨⟨false, false, some c⟩, text⟩
def boldColoured (c : Colour) (text : String) : Span := ⟨⟨true, false, some c⟩, text⟩

/-- Opens `style` again behind every reset inside a text. The number counts the characters of a
reset already found that are still to be copied. -/
def reopen (style : List Char) : Nat → List Char → List Char
  | _, [] => []
  | 0, c :: cs =>
    if reset.isPrefixOf (c :: cs) then c :: reopen style (reset.length - 1) cs
    else c :: reopen style 0 cs
  | 1, c :: cs => c :: style ++ reopen style 0 cs
  | n + 2, c :: cs => c :: reopen style (n + 1) cs

def Span.render (colours : Bool) (s : Span) : List Char :=
  if colours && !s.style.codes.isEmpty then
    s.style.opening ++ reopen s.style.opening 0 s.text.toList ++ reset
  else s.text.toList

/-- What is written for a styled text. -/
def render (colours : Bool) (t : Styled) : String :=
  String.ofList (t.flatMap (Span.render colours))

end PackageCoupling.Text
