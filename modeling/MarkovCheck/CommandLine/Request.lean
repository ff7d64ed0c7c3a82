import MarkovCheck.Bisim.Reduce
import MarkovCheck.CommandLine.Verbosity
import MarkovCheck.Decimal.Literal
import MarkovCheck.Program.Options

/-!
# MarkovCheck.CommandLine.Request

The requests of the command line.

* `Request`    — information on a model, minimisation, comparison, checking, building a program.
* `Query`      — what to compute of a model.
* `Invocation` — a request with the options that all commands share.
* `Invocation.read` — the invocation that arguments ask for.
-/

namespace MarkovCheck
namespace CommandLine

structure ModelFiles where
  transitions : String
  labels : String
deriving DecidableEq, Repr

/-- What to compute of a model; nothing without a target. -/
structure Query where
  /-- The label of the states to reach. -/
  target : Option String
  /-- The label of the states that paths may go through. -/
  through : Option String
  /-- The greatest number of steps. -/
  bound : Option Nat
  /-- The reward model whose expected reward is asked for instead of a probability. -/
  reward : Option String
  /-- Whether the model is minimised first. -/
  minimise : Bool
deriving DecidableEq, Repr

inductive CaseStudy where
  | crowds
  | die
deriving DecidableEq, Repr

/-- How a program is built and what is asked of it. -/
structure BuildRequest where
  study : CaseStudy
  parametric : Bool
  runs : Int
  crowdSize : Int
  constants : List (String × Scalar)
  query : Query
  output : Option String
deriving DecidableEq, Repr

inductive Request where
  | info (model : ModelFiles)
  | reduce (model : ModelFiles) (labels : Option (List String)) (algorithm : Bisim.Algorithm)
      (output : Option String)
  | compare (left right : ModelFiles) (labels : List String)
  | check (model : ModelFiles) (query : Query)
  | build (request : BuildRequest)
deriving DecidableEq, Repr

/-- What the arguments ask for. Without a request there is nothing to do. -/
structure Invocation where
  version : Bool
  timings : Bool
  verbosity : Verbosity
  request : Option Request
deriving DecidableEq, Repr

/-! ## Values of options -/

/-- A step bound. -/
def bound? (text : String) : Option Nat := (Text.readNat Text.greatestIndex text.toList).toOption

def integer? (text : String) : Option Int := (Text.readInt64 text.toList).toOption

def algorithm? : String → Option Bisim.Algorithm
  | "sigref" => some .worklist
  | "sigref-naive" => some .rounds
  | _ => none

def caseStudy? : String → Option CaseStudy
  | "crowds" => some .crowds
  | "die" => some .die
  | _ => none

/-- A truth value, an integer of 64 bits, or a decimal number. -/
def scalar? (text : String) : Option Scalar :=
  match text with
  | "true" => some (.bool true)
  | "false" => some (.bool false)
  | _ =>
    match integer? text with
    | some n => some (.int n)
    | none => (Decimal.parse? text).map .rational

/-- A constant with its value, written `name=value`; blanks around the two do not count. -/
def constant? (text : String) : Option (String × Scalar) :=
  match splitValue text.toList with
  | (name, some value) =>
    (scalar? (String.ofList (Text.trim value.toList))).map fun s =>
      (String.ofList (Text.trim name), s)
  | (_, none) => none

def names (text : String) : List String := text.splitOn ","

/-! ## Commands -/

def isPath (text : String) : Bool := !text.isEmpty

def sharedOptions : List OptionSpec :=
  { name := "version" } :: { name := "timings" } :: verbosityOptions

def labelOption : OptionSpec :=
  { name := "preserve", letter := 'p', takesValue := true, repeatable := true }

def outputOption : OptionSpec :=
  { name := "output", letter := 'o', takesValue := true, accepts := isPath }

def queryOptions : List OptionSpec :=
  [{ name := "target", takesValue := true }, { name := "until", takesValue := true },
    { name := "bound", takesValue := true, accepts := fun v => (bound? v).isSome },
    { name := "reward", takesValue := true }, { name := "minimise" }]

def algorithmOption : OptionSpec :=
  { name := "algorithm", takesValue := true, accepts := fun v => (algorithm? v).isSome }

/-- An option whose value is an integer. -/
def integerOption (name : String) : OptionSpec :=
  { name := name, takesValue := true, accepts := fun v => (integer? v).isSome }

def constantOption : OptionSpec :=
  { name := "constant", letter := 'c', takesValue := true, repeatable := true,
    accepts := fun v => (constant? v).isSome }

/-- What the command with a given name accepts. -/
def commandSpec? : String → Option CommandSpec
  | "info" => some ⟨sharedOptions, [isPath, isPath]⟩
  | "reduce" =>
    some ⟨labelOption :: algorithmOption :: outputOption :: sharedOptions, [isPath, isPath]⟩
  | "compare" => some ⟨labelOption :: sharedOptions, [isPath, isPath, isPath, isPath]⟩
  | "check" => some ⟨queryOptions ++ sharedOptions, [isPath, isPath]⟩
  | "build" =>
    some ⟨{ name := "parametric" } :: integerOption "runs" :: integerOption "crowd-size" ::
        constantOption :: outputOption :: queryOptions ++ sharedOptions,
      [fun v => (caseStudy? v).isSome]⟩
  | _ => none

namespace Matches

/-- The files of a model, from the positional argument with a given position on. -/
def modelFiles (m : Matches) (i : Nat) : ModelFiles := ⟨m.positional i, m.positional (i + 1)⟩

def labels (m : Matches) : List String := (m.values labelOption.name).flatMap names

def query (m : Matches) : Query where
  target := m.value? "target"
  through := m.value? "until"
  bound := (m.value? "bound").bind bound?
  reward := m.value? "reward"
  minimise := m.hasFlag "minimise"

/-- The integer that an option has as its value, or the given one. -/
def integer (m : Matches) (name : String) (otherwise : Int) : Int :=
  ((m.value? name).bind integer?).getD otherwise

def buildRequest (m : Matches) : BuildRequest where
  study := (caseStudy? (m.positional 0)).getD .die
  parametric := m.hasFlag "parametric"
  runs := m.integer "runs" 3
  crowdSize := m.integer "crowd-size" 5
  constants := (m.values constantOption.name).filterMap constant?
  query := m.query
  output := m.value? outputOption.name

def request? (m : Matches) : String → Option Request
  | "info" => some (.info (m.modelFiles 0))
  | "reduce" =>
    some (.reduce (m.modelFiles 0) (if m.has labelOption.name then some m.labels else none)
      (((m.value? algorithmOption.name).bind algorithm?).getD .worklist)
      (m.value? outputOption.name))
  | "compare" => some (.compare (m.modelFiles 0) (m.modelFiles 2) m.labels)
  | "check" => some (.check (m.modelFiles 0) m.query)
  | "build" => some (.build m.buildRequest)
  | _ => none

end Matches

/-! ## Invocations -/

namespace Invocation

/-- The invocation of a request with what was given before and after the name of its command. A
shared option may stand in either place. -/
def ofMatches (before after : Matches) (request : Option Request) : Invocation :=
  let shared : Matches := { flags := before.flags ++ after.flags }
  ⟨shared.hasFlag "version", shared.hasFlag "timings", .ofMatches shared, request⟩

/-- Help on a command, or on all of them. -/
def readHelp : List String → Rejection
  | [] => .help
  | ["help"] => .help
  | [name] => if (commandSpec? name).isSome then .help else .usage
  | _ => .usage

/-- Reads the name of a command and its arguments, where `before` was given before the name. -/
def readCommand (before : Matches) : List String → Except Rejection Invocation
  | [] | ["--"] => if before.isEmpty then .error .usage else .ok (ofMatches before {} none)
  | "help" :: topics => .error (readHelp topics)
  | name :: arguments =>
    match commandSpec? name with
    | none => .error .usage
    | some spec =>
      match spec.read arguments with
      | .error reason => .error reason
      | .ok m => .ok (ofMatches before m (m.request? name))

/-- Whether an argument may stand before the name of a command. -/
def isLeading (argument : String) : Bool := isOption argument && argument != "--"

def read (arguments : List String) : Except Rejection Invocation :=
  match (CommandSpec.mk sharedOptions []).read (arguments.takeWhile isLeading) with
  | .error reason => .error reason
  | .ok before => readCommand before (arguments.dropWhile isLeading)

end Invocation
end CommandLine
end MarkovCheck
