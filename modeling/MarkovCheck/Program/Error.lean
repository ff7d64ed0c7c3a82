import MarkovCheck.Chain.Text
import MarkovCheck.Program.Syntax

/-!
# MarkovCheck.Program.Error

Why a program has no model.
-/

namespace MarkovCheck

/-- What is wrong with a program. -/
inductive BuildError where
  | malformedModel (reason : String)
  | undefinedConstant (name : String)
  | unsupportedKind (kind : ModelKind)
  | invalidExpression (expression reason : String)
  | variableOutOfBounds (variableName : String) (value lower upper : Int)
  | unknownLabel (name : String)
  | unknownReward (name : String)
  | model (cause : ModelError)
deriving DecidableEq, Repr

def BuildError.message : BuildError → String
  | .malformedModel reason => "Malformed model: " ++ reason
  | .undefinedConstant name => "The constant " ++ name ++ " is undefined"
  | .unsupportedKind kind => "Cannot build a " ++ kind.toText ++ ", only DTMCs are supported"
  | .invalidExpression expression reason => "Invalid expression " ++ expression ++ ": " ++ reason
  | .variableOutOfBounds name value lower upper =>
    "The value " ++ toString value ++ " of variable " ++ name ++ " is outside of its range [" ++
      toString lower ++ ".." ++ toString upper ++ "]"
  | .unknownLabel name => "Unknown label \"" ++ name ++ "\""
  | .unknownReward name => "Unknown reward structure \"" ++ name ++ "\""
  | .model cause => cause.message

def Expression.invalid (e : Expression) (reason : String) : BuildError :=
  .invalidExpression e.toText reason

end MarkovCheck
