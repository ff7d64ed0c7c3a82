import MarkovCheck.Chain.Text
import MarkovCheck.CommandLine.Directory
import MarkovCheck.CommandLine.Request
import MarkovCheck.Explicit.Reader
import MarkovCheck.Explicit.Writer
import MarkovCheck.Program.Build
import MarkovCheck.Program.CaseStudies
import MarkovCheck.Reach.Check

/-!
# MarkovCheck.CommandLine.Run

What a request does.

* `Report`       — the printed lines and the written files of a run, in order, and its failure.
* `Request.run`  — the report of a request, given the contents of files.
* `Outcome`      — exit code, output, and directory after a run.
* `run`          — the outcome of arguments in a directory.
-/

namespace MarkovCheck
namespace CommandLine

/-- What a run does to the world: it prints a line, makes an empty file, or gives a file a text. -/
inductive Action where
  | print (line : String)
  | create (path : String)
  | write (path text : String)
deriving DecidableEq, Repr

/-- What a run does, and why it fails if it does. -/
structure Report where
  actions : List Action := []
  failure : Option String := none
deriving DecidableEq, Repr

namespace Report

def failed (message : String) : Report := ⟨[], some message⟩

def lines (ls : List String) : Report := ⟨ls.map .print, none⟩

/-- A report after the actions of another one. -/
def after (actions : List Action) (r : Report) : Report := { r with actions := actions ++ r.actions }

end Report

/-- Runs on with a result, or fails with a message. -/
def proceed {ε α : Type} (message : ε → String) (next : α → Report) : Except ε α → Report
  | .error e => .failed (message e)
  | .ok a => next a

/-- The contents of files by path. -/
abbrev Files := String → Option ByteArray

def withModel (files : Files) (m : ModelFiles) (next : Model Double → Report) : Report :=
  match files m.transitions, files m.labels with
  | some transitions, some labels =>
    proceed Explicit.ReadError.message next (Explicit.read transitions labels)
  | none, _ => .failed ("cannot read " ++ m.transitions)
  | _, none => .failed ("cannot read " ++ m.labels)

/-- Writes a model to two files, whose names differ from the given one in their extensions. Both are
made before the first one is filled. -/
def writeModel (m : Model Double) : Option String → List Action
  | none => []
  | some path =>
    let transitions := withExtension path "tra"
    let labels := withExtension path "lab"
    [.create transitions, .create labels, .write transitions (Explicit.transitionText m),
      .write labels (Explicit.labelText m)]

namespace Query

def property? (q : Query) : Option Property :=
  q.target.map fun target =>
    match q.reward with
    | some name => .reward (some name) (.label target)
    | none =>
      .probability <|
        match q.through, q.bound with
        | none, none => .eventually (.label target)
        | some through, none => .until (.label through) (.label target)
        | none, some k => .boundedUntil .true (.label target) k
        | some through, some k => .boundedUntil (.label through) (.label target) k

end Query

section Check

variable {V : Type} [Value V]

/-- The values of the initial states, where `place` tells which state of a result to look up. -/
def valueLines (m : Model V) (values : Array V) (place : Nat → Nat) : Report :=
  .lines (m.initial.map fun s =>
    toString s ++ ": " ++ Value.toText (values[place s]?.getD Value.zero))

/-- Prints the value of a property in the initial states. -/
def checkProperty (m : Model V) (p : Property) (minimise : Bool) : Report :=
  if minimise then
    proceed ReductionError.message
      (fun q => proceed CheckError.message
        (fun values => valueLines m values fun s => q.stateMap[s]?.getD 0)
        (Reach.check q.model p))
      (Bisim.minimise m [p] .strong)
  else proceed CheckError.message (fun values => valueLines m values id) (Reach.check m p)

/-- Prints the answer to a query, or the measures of the model if there is none. -/
def answer (m : Model V) (q : Query) : Report :=
  match q.property? with
  | some p => checkProperty m p q.minimise
  | none => .lines [m.metrics]

end Check

namespace BuildRequest

def program (b : BuildRequest) : Program :=
  match b.study with
  | .crowds => CaseStudies.crowds b.runs b.crowdSize b.parametric
  | .die => CaseStudies.knuthYaoDie b.parametric

/-- Only what a query refers to is built. -/
def options (b : BuildRequest) : BuildOptions :=
  b.constants.foldl (fun o (name, value) => o.setConstant name value)
    (match b.query.property? with
      | some p => .ofProperties [p]
      | none => {})

/-- Builds a program, writes its model, and answers the query. A parametric model has no explicit
format. -/
def run (b : BuildRequest) : Report :=
  if b.parametric then
    proceed BuildError.message
      (fun (m : Model RationalFunction) =>
        if b.output.isSome then .failed "The explicit format cannot store parametric models."
        else answer m b.query)
      (b.program.build b.options)
  else
    proceed BuildError.message (fun (m : Model Double) => (answer m b.query).after (writeModel m b.output))
      (b.program.build b.options)

end BuildRequest

/-- The line that tells the size of a minimised model. -/
def quotientLine (m : Model Double) : String :=
  "Quotient has " ++ Text.groupedNat m.numStates ++ " states and " ++
    Text.groupedNat m.numTransitions ++ " transitions."

def Request.run (files : Files) : Request → Report
  | .info model => withModel files model fun m => .lines [m.metrics]
  | .reduce model labels algorithm output =>
    withModel files model fun m =>
      let preserved : Preserved :=
        match labels with
        | some names => ⟨sortNames names, []⟩
        | none => .all m
      proceed ReductionError.message
        (fun q => ⟨.print (quotientLine q.model) :: writeModel q.model output, none⟩)
        (Bisim.reduce m preserved .strong algorithm)
  | .compare left right labels =>
    withModel files left fun l =>
      withModel files right fun r =>
        proceed ReductionError.message (fun b => .lines [toString b])
          (Bisim.compare l r ⟨sortNames labels, []⟩)
  | .check model query =>
    withModel files model fun m =>
      match query.property? with
      | none => .failed "A target label must be given."
      | some p => checkProperty m p query.minimise
  | .build b => b.run

def Request.inputs : Request → List String
  | .info model | .reduce model _ _ _ | .check model _ => [model.transitions, model.labels]
  | .compare left right _ =>
    [left.transitions, left.labels, right.transitions, right.labels]
  | .build _ => []

def Invocation.run (files : Files) (i : Invocation) : Report :=
  match i.version, i.request with
  | false, some r => r.run files
  | _, _ => {}

/-- What a run leaves behind. -/
structure Outcome where
  code : Nat
  output : String
  directory : Directory

/-- Performs one action on the output and the directory, if it can be performed. -/
def Action.perform? (output : String) (d : Directory) : Action → Option (String × Directory)
  | .print line => some (output ++ line ++ "\n", d)
  | .create path => (d.write? path .empty).map fun d => (output, d)
  | .write path text => (d.write? path text.toUTF8).map fun d => (output, d)

/-- Performs the actions of a report, up to the first one that cannot be performed. -/
def perform (failed : Bool) (output : String) (d : Directory) : List Action → Outcome
  | [] => ⟨if failed then 1 else 0, output, d⟩
  | action :: rest =>
    match action.perform? output d with
    | none => ⟨1, output, d⟩
    | some (output, d) => perform failed output d rest

/-- The exit code of arguments that are not acted upon. -/
def Rejection.code : Rejection → Nat
  | .help => 0
  | .usage => 2

def run (arguments : List String) (d : Directory) : Outcome :=
  match Invocation.read arguments with
  | .error reason => ⟨reason.code, "", d⟩
  | .ok i =>
    let report := i.run d.read?
    perform report.failure.isSome "" d report.actions

end CommandLine
end MarkovCheck
