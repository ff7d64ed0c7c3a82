import MarkovCheck.Explicit.Reader

/-!
# MarkovCheck.Explicit.Writer

Writing a model in the explicit format.

* `transitionText` — the transition file.
* `labelText`      — the label file. Label 0 is the initial label; an ordinary label of that name is
  left out.
-/

namespace MarkovCheck
namespace Explicit

def transitionLine (s : Nat) (e : Nat × Double) : String :=
  toString s ++ " " ++ toString e.1 ++ " " ++ e.2.toText ++ "\n"

def transitionText (m : Model Double) : String :=
  toString m.numStates ++ " " ++ toString m.numTransitions ++ "\n" ++
    String.join ((List.range m.numStates).map fun s =>
      String.join ((m.row s).map (transitionLine s)))

/-- The labels that are written, in the order of their indices: the initial label first. -/
def writtenNames (m : Model Double) : List String :=
  initialLabel :: m.labeling.names.filter (· ≠ initialLabel)

/-- Whether the label file gives a state a label. -/
def marks (m : Model Double) (s : Nat) (name : String) : Bool :=
  if name = initialLabel then m.initial.contains s else m.labeling.has name s

def declaration (entry : String × Nat) : String :=
  toString entry.2 ++ "=\"" ++ entry.1 ++ "\""

/-- The line of a state with the indices of its labels; empty for a state without labels. -/
def labelLine (m : Model Double) (s : Nat) : String :=
  match (writtenNames m).zipIdx.filter fun entry => marks m s entry.1 with
  | [] => ""
  | entries => toString s ++ ": " ++ " ".intercalate (entries.map fun e => toString e.2) ++ "\n"

def labelText (m : Model Double) : String :=
  " ".intercalate ((writtenNames m).zipIdx.map declaration) ++ "\n" ++
    String.join ((List.range m.numStates).map (labelLine m))

end Explicit
end MarkovCheck
