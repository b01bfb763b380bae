import PackageCoupling.Text.Hex

/-!
The four kinds of TOML strings. Each reader starts behind the opening quotes and gives the text and
what follows the closing quotes.
-/

namespace PackageCoupling.Toml

/-- Characters that may stand for themselves: no control character other than the tab. -/
def isPlain (c : Char) : Bool := c == '\t' || (32 ≤ c.toNat && c.toNat != 127)

def isSpace (c : Char) : Bool := c == ' ' || c == '\t'

/-- What a backslash and one of these characters stand for. -/
def unescape? (c : Char) : Option Char :=
  if c == '"' || c == '\\' then some c
  else if c == 'b' then some (Char.ofNat 8)
  else if c == 't' then some '\t'
  else if c == 'n' then some '\n'
  else if c == 'f' then some (Char.ofNat 12)
  else if c == 'r' then some '\r'
  else none

/-- The character with a code point given in hexadecimal digits. -/
def codePoint? (digits : List Char) : Option Char :=
  (Text.hexNumber? digits).bind fun n =>
    if n < 0xD800 || (0xE000 ≤ n && n < 0x110000) then some (Char.ofNat n) else none

/-- The character of an escape behind its backslash, and how many characters that takes. -/
def escape? : List Char → Option (Char × Nat)
  | 'u' :: rest =>
    if 4 ≤ rest.length then (codePoint? (rest.take 4)).map (·, 5) else none
  | 'U' :: rest =>
    if 8 ≤ rest.length then (codePoint? (rest.take 8)).map (·, 9) else none
  | c :: _ => (unescape? c).map (·, 1)
  | [] => none

/-- The text of a string on one line. The number counts characters of an escape already read. -/
def basic? : Nat → List Char → Option (List Char × List Char)
  | _, [] => none
  | skip + 1, _ :: rest => basic? skip rest
  | 0, c :: rest =>
    if c == '"' then some ([], rest)
    else if c == '\\' then
      match escape? rest with
      | some (d, n) => (basic? n rest).map fun (cs, tail) => (d :: cs, tail)
      | none => none
    else if isPlain c then (basic? 0 rest).map fun (cs, tail) => (c :: cs, tail)
    else none

/-- The text of a string on one line without escapes. -/
def literal? : List Char → Option (List Char × List Char)
  | [] => none
  | c :: rest =>
    if c == '\'' then some ([], rest)
    else if isPlain c then (literal? rest).map fun (cs, tail) => (c :: cs, tail)
    else none

/-- A line end in front of the text of a string of several lines is no part of it. -/
def dropFirstNewline : List Char → List Char
  | '\n' :: rest => rest
  | '\r' :: '\n' :: rest => rest
  | cs => cs

/-- Three to five quotes end a string of several lines; those before the last three belong to it. -/
def closing? (quote : Char) (cs : List Char) : Option (List Char × List Char) :=
  let n := (cs.takeWhile (· == quote)).length
  if 3 ≤ n && n ≤ 5 then some (List.replicate (n - 3) quote, cs.drop n) else none

def startsTriple (quote : Char) (cs : List Char) : Bool := [quote, quote, quote].isPrefixOf cs

/-- Whether white space and then a line end follow. -/
def lineEnds (cs : List Char) : Bool :=
  match cs.dropWhile isSpace with
  | '\n' :: _ => true
  | '\r' :: '\n' :: _ => true
  | _ => false

/-- The text of a string of several lines. A backslash at the end of a line removes all white space
that follows, which the flag says; the number counts characters of an escape already read. -/
def longBasic? : Nat → Bool → List Char → Option (List Char × List Char)
  | _, _, [] => none
  | skip + 1, joining, _ :: rest => longBasic? skip joining rest
  | 0, joining, c :: rest =>
    if joining && (isSpace c || c == '\n') then longBasic? 0 true rest
    else if c == '\r' then
      if rest.head? == some '\n' then longBasic? 0 joining rest else none
    else if c == '"' && startsTriple '"' (c :: rest) then closing? '"' (c :: rest)
    else if c == '\\' then
      if lineEnds rest then longBasic? 0 true rest
      else
        match escape? rest with
        | some (d, n) => (longBasic? n false rest).map fun (cs, tail) => (d :: cs, tail)
        | none => none
    else if isPlain c || c == '\n' then
      (longBasic? 0 false rest).map fun (cs, tail) => (c :: cs, tail)
    else none

/-- The text of a string of several lines without escapes. -/
def longLiteral? : List Char → Option (List Char × List Char)
  | [] => none
  | c :: rest =>
    if c == '\r' then
      if rest.head? == some '\n' then longLiteral? rest else none
    else if c == '\'' && startsTriple '\'' (c :: rest) then closing? '\'' (c :: rest)
    else if isPlain c || c == '\n' then
      (longLiteral? rest).map fun (cs, tail) => (c :: cs, tail)
    else none

/-- A string of any kind at the front. -/
def string? (cs : List Char) : Option (List Char × List Char) :=
  match cs with
  | c :: rest =>
    if c == '"' then
      if startsTriple '"' cs then longBasic? 0 false (dropFirstNewline (cs.drop 3))
      else basic? 0 rest
    else if c == '\'' then
      if startsTriple '\'' cs then longLiteral? (dropFirstNewline (cs.drop 3)) else literal? rest
    else none
  | [] => none

end PackageCoupling.Toml
