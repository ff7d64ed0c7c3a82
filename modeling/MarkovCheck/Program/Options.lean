import MarkovCheck.Logic.Formula
import MarkovCheck.Program.Expression
import MarkovCheck.Text.Names

/-!
# MarkovCheck.Program.Options

Which parts of a program are built, and the values of its constants.

* `BuildOptions.ofProperties` — only the labels and rewards that properties refer to.
* `BuildOptions.setConstant`  — one more constant with a value.
-/

namespace MarkovCheck

/-- What is built of a program. -/
structure BuildOptions where
  /-- Values of constants by ascending name; they take precedence over definitions. -/
  constants : List (String × Scalar) := []
  /-- The labels to build in ascending order, all labels when absent. -/
  labels : Option (List String) := none
  /-- The reward structures to build in ascending order, all of them when absent. -/
  rewards : Option (List String) := none
  /-- Whether a state without enabled commands gets a self-loop; otherwise it is an error. -/
  fixDeadlocks : Bool := true
deriving DecidableEq, Repr

namespace BuildOptions

/-- Gives a name its value in a list by ascending name. -/
def insertConstant (name : String) (value : Scalar) :
    List (String × Scalar) → List (String × Scalar)
  | [] => [(name, value)]
  | (other, v) :: rest =>
    match compare name other with
    | .lt => (name, value) :: (other, v) :: rest
    | .eq => (name, value) :: rest
    | .gt => (other, v) :: insertConstant name value rest

def setConstant (o : BuildOptions) (name : String) (value : Scalar) : BuildOptions :=
  { o with constants := insertConstant name value o.constants }

/-- Whether a property asks for the only reward structure. -/
def isUnnamedReward : Property → Bool
  | .reward none _ => true
  | _ => false

/-- Only the labels and reward structures that the properties refer to; a reward property without a
name requires all reward structures. -/
def ofProperties (ps : List Property) : BuildOptions where
  labels := some (sortNames (ps.flatMap Property.labels))
  rewards :=
    if ps.any isUnnamedReward then none else some (sortNames (ps.flatMap Property.rewardNames))

end BuildOptions
end MarkovCheck
