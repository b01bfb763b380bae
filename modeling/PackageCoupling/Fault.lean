import PackageCoupling.Language.Basic
import PackageCoupling.Decimal.Binary

/-!
What can go wrong in an analysis, and the diagnostics that report it.
-/

namespace PackageCoupling

/-- Why a file or a whole run fails. -/
inductive Fault where
  /-- The tree below `root` cannot be walked. -/
  | discovery (root cause : String)
  | noLanguage (path : String)
  | unsupportedLanguage (path language : String)
  | readFailure (path cause : String)
  /-- The grammar of a language cannot be loaded. -/
  | grammarFailure (language : Language) (cause : String)
  | parseFailure (path : String) (language : Language)
  /-- The pattern that finds a language's imports is malformed. -/
  | queryFailure (language : Language) (cause : String)
  | missingPackage (path : String) (language : Language)
  /-- A descriptor declares another number of identifiers than one. -/
  | ambiguousModule (path : String) (found : Nat)
  | descriptorParse (path : String) (detail : Option String)
  /-- An earlier use of the language's parser broke off in the middle. -/
  | poisonedParser (language : Language)
  | canceled
  deriving DecidableEq, Repr

/-- The class of a fault in a diagnostic. -/
inductive SkipKind where
  | unsupportedLanguage
  | readFailure
  | parseFailure
  | queryFailure
  | missingPackage
  | ambiguousModule
  | fatal
  deriving DecidableEq, Repr

def SkipKind.tag : SkipKind → String
  | .unsupportedLanguage => "unsupported_language"
  | .readFailure => "read_failure"
  | .parseFailure => "parse_failure"
  | .queryFailure => "query_failure"
  | .missingPackage => "missing_package"
  | .ambiguousModule => "module_resolution_ambiguous"
  | .fatal => "fatal"

namespace Fault

/-- Whether the fault ends the whole run. -/
def isFatal : Fault → Bool
  | .discovery .. | .canceled => true
  | _ => false

def kind : Fault → SkipKind
  | .discovery .. | .canceled => .fatal
  | .noLanguage .. | .unsupportedLanguage .. => .unsupportedLanguage
  | .readFailure .. => .readFailure
  | .grammarFailure .. | .parseFailure .. | .descriptorParse .. | .poisonedParser .. =>
    .parseFailure
  | .queryFailure .. => .queryFailure
  | .missingPackage .. => .missingPackage
  | .ambiguousModule .. => .ambiguousModule

def message : Fault → String
  | .discovery root cause => "failed to walk " ++ root ++ ": " ++ cause
  | .noLanguage path => "no language detected for " ++ path
  | .unsupportedLanguage path language =>
    Language.unknownMessage language ++ " (" ++ path ++ ")"
  | .readFailure path cause => "failed to read " ++ path ++ ": " ++ cause
  | .grammarFailure language cause =>
    "failed to load the " ++ language.name ++ " grammar: " ++ cause
  | .parseFailure path language => "failed to parse " ++ path ++ " as " ++ language.name
  | .queryFailure language cause => "invalid " ++ language.name ++ " query: " ++ cause
  | .missingPackage path language =>
    "no package declaration found in " ++ path ++ " (" ++ language.name ++ ")"
  | .ambiguousModule path found =>
    path ++ " declares " ++ Decimal.natText found ++ " module identifiers, expected exactly one"
  | .descriptorParse path detail =>
    "failed to parse module descriptor " ++ path ++
      (match detail with
       | some text => ": " ++ text
       | none => "")
  | .poisonedParser language => language.name ++ " parser handle is poisoned"
  | .canceled => "analysis canceled"

end Fault

/-- The report of one file that was left out. -/
structure Diagnostic where
  path : String
  language : Option String
  kind : SkipKind
  message : String
  deriving DecidableEq, Repr

def Diagnostic.of (path : String) (language : Option String) (fault : Fault) : Diagnostic :=
  ⟨path, language, fault.kind, fault.message⟩

end PackageCoupling
