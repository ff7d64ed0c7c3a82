import MarkovCheck.Chain.Builder
import MarkovCheck.Explicit.Error
import MarkovCheck.Text.Blank
import MarkovCheck.Text.Line

/-!
# MarkovCheck.Explicit.Reader

Reading a model in the explicit format, which consists of two files.

The transition file starts with a line `<states> <transitions>`, followed by one line
`<source> <target> <probability>` for every transition. The label file starts with a line
`0="init" 1="goal" ...` that declares labels, followed by lines `<state>: <label> <label> ...`.
The states labelled `init` are the initial ones; when that label is not declared, state 0 is.
Blank lines after the headers do not count.

* `readTransitions`, `readLabels` — one file each.
* `read` — both files.
-/

namespace MarkovCheck
namespace Explicit

/-- The label that marks the initial states. -/
def initialLabel : String := "init"

/-- Lines with their numbers, which start at `n`. -/
def numbered (n : Nat) : List String → List (Nat × List Char)
  | [] => []
  | s :: rest => (n, s.toList) :: numbered (n + 1) rest

/-- Whether a line holds anything else than blanks. -/
def isContent (line : Nat × List Char) : Bool := !(Text.trim line.2).isEmpty

def readIndex? (s : List Char) : Option Nat :=
  match Text.readNat Text.greatestIndex s with
  | .ok n => some n
  | .error _ => none

/-- The two numbers of the first line of a transition file. -/
def readTransitionHeader (header : List Char) : Except ReadError (Nat × Nat) :=
  match Text.fields header with
  | [states, transitions] =>
    match Text.readNat Text.greatestIndex states with
    | .error e => .error (.invalidNumber e)
    | .ok n =>
      match Text.readNat Text.greatestIndex transitions with
      | .error e => .error (.invalidNumber e)
      | .ok k => .ok (n, k)
  | _ => .error .invalidTransitionHeader

/-- A transition line: source, target and probability. -/
def readTransition? (line : List Char) : Option (Transition Double) :=
  match Text.fields line with
  | [source, target, probability] =>
    match readIndex? source, readIndex? target, Double.ofText? probability with
    | some s, some t, some d => some ⟨s, t, d⟩
    | _, _, _ => none
  | _ => none

/-- The transitions of the given lines; the first line that is none is reported. -/
def readTransitionLines : List (Nat × List Char) → Except ReadError (List (Transition Double))
  | [] => .ok []
  | (n, line) :: rest =>
    match readTransition? line with
    | none => .error (.invalidTransition n (String.ofList line))
    | some t =>
      match readTransitionLines rest with
      | .error e => .error e
      | .ok ts => .ok (t :: ts)

def readTransitions (lines : List String) : Except ReadError (Nat × List (Transition Double)) :=
  match numbered 1 lines with
  | [] => .error .missingTransitionHeader
  | (_, header) :: rest =>
    match readTransitionHeader header with
    | .error e => .error e
    | .ok (states, expected) =>
      match readTransitionLines (rest.filter isContent) with
      | .error e => .error e
      | .ok ts =>
        if ts.length = expected then .ok (states, ts)
        else .error (.transitionCount expected ts.length)

/-- The names of labels by ascending index. -/
abbrev LabelNames := List (Nat × String)

/-- Gives an index its name, replacing an earlier one. -/
def setName (i : Nat) (name : String) : LabelNames → LabelNames
  | [] => [(i, name)]
  | (j, other) :: rest =>
    if i < j then (i, name) :: (j, other) :: rest
    else if i = j then (i, name) :: rest
    else (j, other) :: setName i name rest

/-- A declaration `<index>="<name>"` with blanks around its parts, and the text after it. -/
def readDeclaration? (s : List Char) : Option (List Char × String × List Char) :=
  let s := s.dropWhile Text.isBlank
  let index := s.takeWhile Char.isDigit
  match (s.dropWhile Char.isDigit).dropWhile Text.isBlank with
  | '=' :: s =>
    match s.dropWhile Text.isBlank with
    | '"' :: s =>
      match s.dropWhile (· ≠ '"') with
      | '"' :: rest =>
        if index.isEmpty then none
        else some (index, String.ofList (s.takeWhile (· ≠ '"')), rest.dropWhile Text.isBlank)
      | _ => none
    | _ => none
  | _ => none

/-- The declarations of a label header, at most `fuel` of them. -/
def readDeclarations (header : List Char) : Nat → List Char → LabelNames →
    Except ReadError LabelNames
  | 0, _, names => .ok names
  | fuel + 1, s, names =>
    if (Text.trim s).isEmpty then .ok names
    else
      match readDeclaration? s with
      | none => .error (.invalidLabelHeader (String.ofList header))
      | some (index, name, rest) =>
        match Text.readDigits Text.greatestIndex index with
        | .error e => .error (.invalidNumber e)
        | .ok i => readDeclarations header fuel rest (setName i name names)

/-- The labels that a header declares. Every declaration takes several characters. -/
def readLabelHeader (header : List Char) : Except ReadError LabelNames :=
  readDeclarations header (header.length + 1) header []

/-- The label names for a list of label indices. -/
def namesOf? (names : LabelNames) (indices : List (List Char)) : Option (List String) :=
  indices.mapM fun s => (readIndex? s).bind fun i => names.lookup i

/-- A line `<state>: <label> <label> ...`. -/
def readStateLabels? (names : LabelNames) (line : List Char) : Option (Nat × List String) :=
  match Decimal.splitAtFirst (· == ':') line with
  | (_, none) => none
  | (state, some labels) =>
    match readIndex? (Text.trim state), namesOf? names (Text.fields labels) with
    | some s, some ls => some (s, ls)
    | _, _ => none

/-- The states and their labels of the given lines; the first malformed line is reported. -/
def readStateLabelLines (names : LabelNames) :
    List (Nat × List Char) → Except ReadError (List (Nat × List String))
  | [] => .ok []
  | (n, line) :: rest =>
    match readStateLabels? names line with
    | none => .error (.invalidStateLabels n (String.ofList line))
    | some l =>
      match readStateLabelLines names rest with
      | .error e => .error e
      | .ok ls => .ok (l :: ls)

/-- What a label file says. -/
structure LabelFile where
  names : List String
  states : List (Nat × List String)
deriving DecidableEq

/-- The declared names and the labels of the states of a label file; an empty file declares none. -/
def readLabels (lines : List String) : Except ReadError LabelFile :=
  match numbered 1 lines with
  | [] => .ok ⟨[], []⟩
  | (_, header) :: rest =>
    match readLabelHeader header with
    | .error e => .error e
    | .ok names =>
      match readStateLabelLines names (rest.filter isContent) with
      | .error e => .error e
      | .ok states => .ok ⟨names.map (·.2), states⟩

/-- Adds a label to a state; the initial label makes it an initial state. -/
def addLabel (b : Builder Double) (s : Nat) (name : String) : Builder Double :=
  if name = initialLabel then b.addInitial s else b.addStateLabel s name

/-- The parts of a model that the two files describe. -/
def build (states : Nat) (transitions : List (Transition Double)) (labels : LabelFile) :
    Builder Double :=
  let b := Builder.empty.requireStates states
  let b := transitions.foldl (fun b t => b.addTransition t.source t.target t.value) b
  let b := (labels.names.filter (· ≠ initialLabel)).foldl Builder.addLabel b
  let b := labels.states.foldl (fun b (s, ls) => ls.foldl (fun b name => addLabel b s name) b) b
  if labels.names.contains initialLabel then b else b.addInitial 0

/-- Reads a model from its transition file and its label file. -/
def read (transitionFile labelFile : ByteArray) : Except ReadError (Model Double) :=
  match readTransitions (Text.lines transitionFile) with
  | .error e => .error e
  | .ok (states, transitions) =>
    match readLabels (Text.lines labelFile) with
    | .error e => .error e
    | .ok labels =>
      match (build states transitions labels).finish .dtmc with
      | .error e => .error (.model e)
      | .ok m => .ok m

end Explicit
end MarkovCheck
