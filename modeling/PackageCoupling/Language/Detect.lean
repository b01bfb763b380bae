import PackageCoupling.Language.Basic
import PackageCoupling.Path.Raw

/-!
Telling the language of a file: by its extension, else by the interpreter its first line names.
-/

namespace PackageCoupling

/-- The language of a file: one whose imports are understood, or the name of another one. -/
inductive Detected where
  | supported (language : Language)
  | other (name : String)
  deriving DecidableEq, Repr

def Detected.name : Detected → String
  | .supported l => l.name
  | .other name => name

namespace Detect

/-- Languages that are recognised and not analysed. -/
def others : List (String × List String) :=
  [("Java", ["java"]),
   ("C", ["c", "h"]),
   ("C++", ["cpp", "cc", "cxx", "hpp", "hxx", "hh"]),
   ("C#", ["cs"]),
   ("Ruby", ["rb", "rake"]),
   ("PHP", ["php"]),
   ("Kotlin", ["kt", "kts"]),
   ("Swift", ["swift"]),
   ("Scala", ["scala"]),
   ("Shell", ["sh", "bash", "zsh"])]

def byExtension? (ext : String) : Option Detected :=
  match Language.ofExtension? ext with
  | some l => some (.supported l)
  | none => (others.find? (·.2.contains ext)).map (.other ·.1)

/-- The words of an interpreter line, in the order in which they are looked for. -/
def interpreters : List (String × Detected) :=
  [("python", .supported .python),
   ("node", .supported .javaScript),
   ("deno", .supported .javaScript),
   ("bun", .supported .javaScript),
   ("sh", .other "Shell")]

def byInterpreter? (line : List Char) : Option Detected :=
  if ['#', '!'].isPrefixOf line then
    (interpreters.find? (fun (word, _) => Text.occursIn word.toList line)).map (·.2)
  else none

/-- The first line, if it is text. -/
def firstLine? (content : Bytes) : Option (List Char) :=
  Utf8.chars? (Utf8.decode (content.takeWhile (· != 10)))

end Detect

/-- How much of a file is read in order to tell its language. -/
def detectionBytes : Nat := 8192

/-- The language of the file at `path` that begins with `content`. -/
def detect? (path : RawText) (content : Bytes) : Option Detected :=
  let extension := (path.fileName?.bind RawText.extension?).bind RawText.text?
  match extension.bind fun ext => Detect.byExtension? (Text.lower ext) with
  | some d => some d
  | none => (Detect.firstLine? content).bind Detect.byInterpreter?

end PackageCoupling
