import MarkovCheck.Chain.Builder
import MarkovCheck.Text.Grouped

/-!
# MarkovCheck.Chain.Text

The texts that show a model: its transitions, and its metrics.
-/

namespace MarkovCheck

def ModelKind.toText : ModelKind → String
  | .dtmc => "DTMC"
  | .ctmc => "CTMC"
  | .mdp => "MDP"

/-- A list of numbers in square brackets. -/
def bracketed (l : List Nat) : String := "[" ++ ", ".intercalate (l.map toString) ++ "]"

def transitionLine {V : Type} [Value V] (source target : Nat) (value : V) : String :=
  "    " ++ toString source ++ " --[" ++ Value.toText value ++ "]-> " ++ toString target ++ "\n"

/-- One line for every label, with the number of states that carry it. -/
def Labeling.toText (l : Labeling) : String :=
  String.join (l.labels.map fun (name, states) =>
    name ++ ": " ++ toString states.count ++ " states\n")

/-- The transitions that a builder received, in their order. -/
def Builder.toText {V : Type} [Value V] (b : Builder V) : String :=
  "Transitions:\n" ++
    String.join (b.transitions.toList.map fun t => transitionLine t.source t.target t.value)

namespace Model

variable {V : Type} [Value V]

def toText (m : Model V) : String :=
  m.kind.toText ++ " with initial states " ++ bracketed m.initial ++ "\n" ++
    String.join ((List.range m.numStates).map fun s =>
      String.join ((m.row s).map fun e => transitionLine s e.1 e.2))

/-- The sizes of a model, its labels and the names of its reward models. -/
def metrics (m : Model V) : String :=
  "Model type: " ++ m.kind.toText ++ "\n" ++
  "Number of states: " ++ Text.groupedNat m.numStates ++ "\n" ++
  "Number of transitions: " ++ Text.groupedNat m.numTransitions ++ "\n" ++
  "Number of initial states: " ++ Text.groupedNat m.initial.length ++ "\n" ++
  "Parametric: " ++ (if m.hasParameters then "yes" else "no") ++ "\n" ++
  "Labels:\n" ++
  String.join (m.labeling.labels.map fun (name, states) =>
    "    " ++ name ++ ": " ++ Text.groupedNat states.count ++ " states\n") ++
  "Reward models: " ++ ", ".intercalate (m.rewards.map (·.name))

end Model
end MarkovCheck
