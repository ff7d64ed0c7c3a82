import MarkovCheck.Chain.Model

/-!
# MarkovCheck.Bisim.Error

Why a model is not minimised.
-/

namespace MarkovCheck

/-- The kinds of bisimulation. Only the strong one is implemented. -/
inductive BisimKind where
  | strong
  | weak
deriving DecidableEq, Repr

def BisimKind.toText : BisimKind → String
  | .strong => "Strong"
  | .weak => "Weak"

inductive ReductionError where
  | unsupportedKind (kind : BisimKind)
  /-- A state of a block disagrees with the smallest state of the block. -/
  | inconsistentBlock (block state representative : Nat) (reason : String)
  | unknownLabel (name : String)
  | unknownRewardModel (name : String)
  | model (cause : ModelError)
deriving DecidableEq, Repr

def ReductionError.message : ReductionError → String
  | .unsupportedKind kind =>
    kind.toText ++ " bisimulation is not supported, only strong bisimulation is implemented"
  | .inconsistentBlock block state representative reason =>
    "Inconsistent block: state " ++ toString state ++ " and state " ++ toString representative ++
      " of quotient state " ++ toString block ++ " differ on " ++ reason
  | .unknownLabel name => "Cannot preserve unknown label \"" ++ name ++ "\""
  | .unknownRewardModel name => "Cannot preserve unknown reward model \"" ++ name ++ "\""
  | .model cause => cause.message

end MarkovCheck
