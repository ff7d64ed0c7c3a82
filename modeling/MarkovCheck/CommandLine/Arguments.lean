/-!
# MarkovCheck.CommandLine.Arguments

Reading the arguments of a command.

Options have a name after two dashes, and some of them a letter after one dash. The value of an
option is the next argument, or follows `=`, or follows the letter; letters of options without a
value can share one dash. Two dashes alone end the options.

* `OptionSpec`, `CommandSpec` — what a command accepts.
* `tokens`   — the options and positional arguments, in order.
* `Matches`  — what was given, once all of it is known to be accepted.
* `CommandSpec.read` — the matches of a list of arguments, or why there are none.
-/

namespace MarkovCheck
namespace CommandLine

/-- An option that a command accepts. -/
structure OptionSpec where
  /-- The name after two dashes. -/
  name : String
  /-- The letter after one dash. -/
  letter : Option Char := none
  takesValue : Bool := false
  /-- Whether it may be given more than once. -/
  repeatable : Bool := false
  /-- The admissible values. -/
  accepts : String → Bool := fun _ => true

/-- What a command accepts: options, and positional arguments that are all required. -/
structure CommandSpec where
  options : List OptionSpec
  /-- The admissible texts of each positional argument. -/
  positionals : List (String → Bool) := []

/-- Why arguments are not acted upon. -/
inductive Rejection where
  /-- Help is asked for. -/
  | help
  /-- The arguments do not fit the command. -/
  | usage
deriving DecidableEq, Repr

inductive Token where
  | flag (name : String)
  | option (name value : String)
  | positional (text : String)
  | rejected (reason : Rejection)
deriving DecidableEq, Repr

/-- Whether an argument stands for options: a dash and something after it. -/
def isOption (argument : String) : Bool :=
  match argument.toList with
  | '-' :: _ :: _ => true
  | _ => false

/-- Splits a text at its first equals sign. -/
def splitValue : List Char → List Char × Option String
  | [] => ([], none)
  | '=' :: value => ([], some (String.ofList value))
  | c :: rest =>
    let (name, value) := splitValue rest
    (c :: name, value)

/-- The value that follows the letter of an option, with or without an equals sign. -/
def attachedValue : List Char → Option String
  | [] => none
  | '=' :: value => some (String.ofList value)
  | value => some (String.ofList value)

/-- The tokens of letters after one dash, and the option whose value is still to come. -/
def letterTokens (specs : List OptionSpec) : List Char → List Token × Option OptionSpec
  | [] => ([], none)
  | 'h' :: _ => ([.rejected .help], none)
  | c :: rest =>
    match specs.find? fun o => o.letter == some c with
    | none => ([.rejected .usage], none)
    | some o =>
      if o.takesValue then
        match attachedValue rest with
        | none => ([], some o)
        | some value => ([.option o.name value], none)
      else
        let (ts, awaiting) := letterTokens specs rest
        (.flag o.name :: ts, awaiting)

/-- The tokens of a text after two dashes, and the option whose value is still to come. -/
def nameTokens (specs : List OptionSpec) (text : List Char) : List Token × Option OptionSpec :=
  let (name, value) := splitValue text
  let name := String.ofList name
  match specs.find? fun o => o.name == name, value with
  | some o, none => if o.takesValue then ([], some o) else ([.flag name], none)
  | some o, some value =>
    if o.takesValue then ([.option name value], none) else ([.rejected .usage], none)
  | none, none => ([.rejected (if name = "help" then .help else .usage)], none)
  | none, some _ => ([.rejected .usage], none)

/-- The tokens of an argument that stands for options. -/
def optionTokens (specs : List OptionSpec) (argument : String) : List Token × Option OptionSpec :=
  match argument.toList with
  | '-' :: '-' :: text => nameTokens specs text
  | text => letterTokens specs (text.drop 1)

/-- The tokens of arguments, where `awaiting` is an option whose value is still to come. No other
option can stand at the place of a value. -/
def tokens (specs : List OptionSpec) : Option OptionSpec → List String → List Token
  | none, [] => []
  | some _, [] => [.rejected .usage]
  | some o, a :: rest =>
    if isOption a then [.rejected .usage] else .option o.name a :: tokens specs none rest
  | none, a :: rest =>
    if a = "--" then rest.map .positional
    else if isOption a then
      let (ts, awaiting) := optionTokens specs a
      ts ++ tokens specs awaiting rest
    else .positional a :: tokens specs none rest

/-- What was given to a command. -/
structure Matches where
  flags : List String := []
  options : List (String × String) := []
  positionals : List String := []
deriving DecidableEq, Repr, Inhabited

namespace Matches

def hasFlag (m : Matches) (name : String) : Bool := m.flags.contains name

def value? (m : Matches) (name : String) : Option String := m.options.lookup name

def values (m : Matches) (name : String) : List String :=
  (m.options.filter fun e => e.1 == name).map (·.2)

def positional (m : Matches) (i : Nat) : String := m.positionals[i]?.getD ""

/-- Whether an option of either form was given. -/
def has (m : Matches) (name : String) : Bool := m.hasFlag name || (m.value? name).isSome

def isEmpty (m : Matches) : Bool := m.flags.isEmpty && m.options.isEmpty && m.positionals.isEmpty

end Matches

namespace CommandSpec

/-- Whether an option may be given, where `m` was given before. -/
def admits (spec : CommandSpec) (m : Matches) (name : String) (value : Option String) : Bool :=
  match spec.options.find? fun o => o.name == name with
  | none => false
  | some o => (o.repeatable || !m.has name) && value.all o.accepts

/-- Adds a token to what was given before it. -/
def add (spec : CommandSpec) (m : Matches) : Token → Except Rejection Matches
  | .flag name =>
    if spec.admits m name none then .ok { m with flags := m.flags ++ [name] } else .error .usage
  | .option name value =>
    if spec.admits m name (some value) then .ok { m with options := m.options ++ [(name, value)] }
    else .error .usage
  | .positional text =>
    match spec.positionals[m.positionals.length]? with
    | none => .error .usage
    | some accepts =>
      if accepts text then .ok { m with positionals := m.positionals ++ [text] } else .error .usage
  | .rejected reason => .error reason

def addAll (spec : CommandSpec) (m : Matches) : List Token → Except Rejection Matches
  | [] => .ok m
  | t :: rest =>
    match spec.add m t with
    | .error reason => .error reason
    | .ok m => spec.addAll m rest

/-- What a list of arguments gives to the command; the first offending argument decides. -/
def read (spec : CommandSpec) (arguments : List String) : Except Rejection Matches :=
  match spec.addAll {} (tokens spec.options none arguments) with
  | .error reason => .error reason
  | .ok m => if m.positionals.length < spec.positionals.length then .error .usage else .ok m

end CommandSpec
end CommandLine
end MarkovCheck
