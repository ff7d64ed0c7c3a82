import MarkovCheck.Chain.Model
import MarkovCheck.Text.Integer

/-!
# MarkovCheck.Explicit.Error

What can be wrong with a model in the explicit format.
-/

namespace MarkovCheck
namespace Explicit

/-- Why the two files of a model cannot be read. Line numbers start at one. -/
inductive ReadError where
  /-- The transition file has no line. -/
  | missingTransitionHeader
  /-- The first line of the transition file does not hold two fields. -/
  | invalidTransitionHeader
  /-- A number in one of the two headers is not valid. -/
  | invalidNumber (cause : Text.IntegerError)
  | invalidTransition (line : Nat) (text : String)
  | transitionCount (expected found : Nat)
  | invalidLabelHeader (text : String)
  | invalidStateLabels (line : Nat) (text : String)
  /-- What was read is no model. -/
  | model (cause : ModelError)
deriving DecidableEq, Repr

def ReadError.message : ReadError → String
  | .missingTransitionHeader => "Invalid .tra header The first line should be the header"
  | .invalidTransitionHeader =>
    "Invalid .tra header does not match <num_of_states> <num_of_transitions>"
  | .invalidNumber cause => cause.message
  | .invalidTransition line text =>
    "Invalid transition on line " ++ toString line ++ ": " ++ text
  | .transitionCount expected found =>
    "The .tra file declares " ++ toString expected ++ " transitions, but contains " ++ toString found
  | .invalidLabelHeader text => "Invalid .lab header " ++ text
  | .invalidStateLabels line text =>
    "Invalid state labels on line " ++ toString line ++ ": " ++ text
  | .model cause => cause.message

end Explicit
end MarkovCheck
