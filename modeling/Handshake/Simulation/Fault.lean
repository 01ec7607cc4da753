import Handshake.Error

/-!
# Why a simulation stops

Simulation is for the modules that generators write. On any other module it may
meet something that has no meaning here; it then stops with a fault.
-/

namespace Handshake

/-- A cause for which simulation stops. -/
inductive Fault where
  /-- A name is used as a signal and not declared as one. -/
  | undeclared (name : String)
  /-- A literal is not well formed. -/
  | badLiteral (text : String)
  /-- A value is to be moved by the length of a word or more. -/
  | shiftTooFar (distance : Nat)
  /-- Something is assigned to that is no signal; its text is given. -/
  | unsupportedTarget (text : String)
  /-- Continuous assigns chase each other for ever. -/
  | unsettled (moduleName : String)
  /-- An instance connects a port that its module does not have. -/
  | noPort (moduleName port : String)
  /-- There is no module to simulate. -/
  | noTop
  /-- A module contains an instance of itself. -/
  | selfInstance (moduleName : String)
deriving DecidableEq

namespace Fault

/-- A cause in words. -/
def message : Fault → String
  | .undeclared name => "signal " ++ Error.mark name ++ " is not declared"
  | .badLiteral text => "malformed literal " ++ text
  | .shiftTooFar distance => "shift by " ++ distance.repr ++ " bits"
  | .unsupportedTarget text => "unsupported lvalue " ++ text
  | .unsettled moduleName => "continuous assigns of " ++ Error.mark moduleName ++ " do not settle"
  | .noPort moduleName port => Error.mark moduleName ++ " has no port " ++ Error.mark port
  | .noTop => "artifact without top module"
  | .selfInstance moduleName => Error.mark moduleName ++ " contains an instance of itself"

end Fault

end Handshake
