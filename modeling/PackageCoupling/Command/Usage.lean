import PackageCoupling.Analysis.Run
import PackageCoupling.Cancellation
import PackageCoupling.Decimal.Read
import PackageCoupling.Decimal.Shortest

/-!
The command line: the settings it can hold and how they are read.

Arguments are taken from left to right. The value of an option is checked when the next option
is met, or at the end, so an unknown argument behind it is reported first.
-/

namespace PackageCoupling.Command

inductive Format where
  | text
  | json
  deriving DecidableEq, Repr

/-- What a command line asks for. -/
structure Config where
  root : String
  languages : List Language
  exclude : List String
  noIgnoreFiles : Bool
  format : Format
  timeout : Option Nat
  maxInstability : Option Float
  threads : Option Nat

def Config.default : Config := ⟨".", [], [], false, .text, none, none, none⟩

/-- Without a choice of languages all of them are analysed. -/
def Config.analyzeOptions (c : Config) : AnalyzeOptions :=
  ⟨if c.languages.isEmpty then Language.all else c.languages, c.exclude, !c.noIgnoreFiles⟩

def Config.deadline (c : Config) : Deadline :=
  match c.timeout with
  | some seconds => .afterSeconds seconds
  | none => .never

/-- Why a command line is refused. -/
inductive UsageError where
  | unknownArgument
  | missingValue
  | emptyValue
  | badChoice
  | repeated
  | unneededValue
  | rejected (message : String)
  | helpWanted
  | missingCommand
  deriving DecidableEq, Repr

inductive Setting where
  | root
  | languages
  | exclude
  | noGitignore
  | format
  | timeout
  | maxInstability
  | threads
  | help
  deriving DecidableEq, Repr

namespace Setting

def name : Setting → String
  | .root => "root"
  | .languages => "languages"
  | .exclude => "exclude"
  | .noGitignore => "no-gitignore"
  | .format => "format"
  | .timeout => "timeout"
  | .maxInstability => "max-instability"
  | .threads => "threads"
  | .help => "help"

def takesValue : Setting → Bool
  | .noGitignore | .help => false
  | _ => true

def isRepeatable : Setting → Bool
  | .languages | .exclude => true
  | _ => false

end Setting

def graphSettings : List Setting :=
  [.root, .languages, .exclude, .noGitignore, .format, .timeout, .help]

def metricsSettings : List Setting := graphSettings ++ [.maxInstability]

/-! ## Values -/

def readCount (s : String) : Except UsageError Nat :=
  match Decimal.readCount s with
  | .ok n => .ok n
  | .error e => .error (.rejected e.message)

/-- The parts between commas. -/
def splitCommas : List Char → List (List Char)
  | [] => [[]]
  | c :: cs =>
    if c == ',' then [] :: splitCommas cs
    else
      match splitCommas cs with
      | [] => [[c]]
      | s :: rest => (c :: s) :: rest

def readLanguage (s : String) : Except UsageError Language :=
  match Language.parse s with
  | .ok l => .ok l
  | .error word => .error (.rejected (Language.unknownMessage word))

def readFormat (s : String) : Except UsageError Format :=
  if s == "text" then .ok .text else if s == "json" then .ok .json else .error .badChoice

/-- A number from 0 to 1. -/
def readRatio (s : String) : Except UsageError Float :=
  match Decimal.readFloat? s with
  | none =>
    let cause :=
      if s == "" then "cannot parse float from empty string" else "invalid float literal"
    .error (.rejected ("invalid ratio '" ++ s ++ "': " ++ cause))
  | some x =>
    if 0.0 ≤ x && x ≤ 1.0 then .ok x
    else .error (.rejected ("ratio must be between 0 and 1, got " ++ Decimal.messageText x))

/-- Takes a setting with its value into account. -/
def Config.set (c : Config) (s : Setting) (value : String) : Except UsageError Config :=
  match s with
  | .root => if value == "" then .error .emptyValue else .ok { c with root := value }
  | .languages => do
    let ls ← ((splitCommas value.toList).map String.ofList).mapM readLanguage
    .ok { c with languages := c.languages ++ ls }
  | .exclude => .ok { c with exclude := c.exclude ++ [value] }
  | .noGitignore => .ok { c with noIgnoreFiles := true }
  | .format => do .ok { c with format := ← readFormat value }
  | .timeout => do .ok { c with timeout := some (← readCount value) }
  | .maxInstability => do .ok { c with maxInstability := some (← readRatio value) }
  | .threads => do .ok { c with threads := some (← readCount value) }
  | .help => .error .helpWanted

/-! ## Arguments -/

/-- A command line that has been read in part. -/
structure Reading where
  config : Config
  seen : List Setting
  /-- An option whose value has not been checked, or not been met. -/
  pending : Option (Setting × Option String)
  /-- Whether the mark that ends the options has been met. -/
  closed : Bool

namespace Reading

def start (c : Config) : Reading := ⟨c, [], none, false⟩

/-- Takes a setting into account. One that may be given once must not have been seen. -/
def accept (r : Reading) (s : Setting) (value : Option String) : Except UsageError Reading :=
  if s.takesValue && value.isNone then .error .missingValue
  else if r.seen.contains s && !s.isRepeatable then .error .repeated
  else do
    let config ← r.config.set s (value.getD "")
    .ok { r with config := config, seen := s :: r.seen }

/-- Checks the option that is pending. -/
def settle (r : Reading) : Except UsageError Reading :=
  match r.pending with
  | some (s, value) => accept { r with pending := none } s value
  | none => .ok r

/-- A long option, with the value behind its equals sign. -/
def long (r : Reading) (known : List Setting) (name : String) (value : Option String) :
    Except UsageError Reading :=
  match known.find? (·.name == name) with
  | none => .error .unknownArgument
  | some s =>
    if s.takesValue then do
      let r ← r.settle
      match value with
      | some v => r.accept s (some v)
      | none => .ok { r with pending := some (s, none) }
    else if value.isSome then .error .unneededValue
    else do (← r.settle).accept s none

/-- Whether the next plain argument is the value of an option. -/
def awaitsValue (r : Reading) : Bool :=
  match r.pending with
  | some (_, none) => true
  | _ => false

/-- What is behind the first equals sign, if there is one. -/
def valueOf (cs : List Char) : Option String :=
  match cs.dropWhile (· != '=') with
  | _ :: value => some (String.ofList value)
  | [] => none

def step (known : List Setting) (r : Reading) (arg : String) : Except UsageError Reading :=
  match arg.toList with
  | '-' :: '-' :: rest =>
    if r.closed then .error .unknownArgument
    else if rest.isEmpty then .ok { r with closed := true }
    else r.long known (String.ofList (rest.takeWhile (· != '='))) (valueOf rest)
  | '-' :: c :: _ =>
    if r.closed || c != 'h' then .error .unknownArgument
    else do (← r.settle).accept .help none
  | _ =>
    match r.pending with
    | some (s, none) =>
      if r.closed then .error .unknownArgument else .ok { r with pending := some (s, some arg) }
    | _ => .error .unknownArgument

end Reading

/-- Reads the arguments of one command, from what is known before. -/
def readArguments (known : List Setting) (config : Config) (args : List String) :
    Except UsageError Config := do
  let r ← args.foldlM (Reading.step known) (Reading.start config)
  .ok (← r.settle).config

def graphConfig (args : List String) : Except UsageError Config :=
  readArguments graphSettings .default args

def metricsConfig (args : List String) : Except UsageError Config :=
  readArguments metricsSettings .default args

/-! ## Commands -/

inductive Task where
  | graph
  | metrics
  deriving DecidableEq, Repr

def Task.ofName? (s : String) : Option Task :=
  if s == "graph" then some .graph else if s == "metrics" then some .metrics else none

def Task.settings : Task → List Setting
  | .graph => graphSettings ++ [.threads]
  | .metrics => metricsSettings ++ [.threads]

/-- Reads a whole command line: settings for all commands, the name of one, and its arguments. -/
def readLine (r : Reading) : List String → Except UsageError (Task × Config)
  | [] => do
    let _ ← r.settle
    .error .missingCommand
  | arg :: rest =>
    match if r.awaitsValue || r.closed then none else Task.ofName? arg with
    | some task => do
      let r ← r.settle
      .ok (task, ← readArguments task.settings r.config rest)
    | none => do readLine (← r.step [.threads, .help] arg) rest

def read (args : List String) : Except UsageError (Task × Config) := readLine (.start .default) args

end PackageCoupling.Command
