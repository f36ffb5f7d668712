import Foundry.Base.Words

/-!
# Inputs of calls and creates

What the hooks of the cheatcode inspector see of a call or a create.
-/

namespace Foundry.Cheatcodes

def cheatcodeAddress : Address := 0x7109709ECfa91a80626fF3989D68f67F5b1DD12D

def hardhatConsoleAddress : Address := 0x000000000000000000636F6e736F6c652e6c6f67

inductive CallScheme where
  | call
  | callCode
  | delegateCall
  | staticCall
deriving DecidableEq

/-- A value that is transferred, or one that is only shown to the callee. -/
inductive CallValue where
  | transfer (value : U256)
  | apparent (value : U256)
deriving DecidableEq

structure CallInputs where
  input : Bytes
  gasLimit : U64
  bytecodeAddress : Address
  targetAddress : Address
  caller : Address
  value : CallValue
  scheme : CallScheme
  isStatic : Bool
deriving DecidableEq

namespace CallInputs

def transferValue (call : CallInputs) : Option U256 :=
  match call.value with
  | .transfer value => some value
  | .apparent _ => none

def callValue (call : CallInputs) : U256 :=
  match call.value with
  | .transfer value | .apparent value => value

/-- A call that the inspector answers, or leaves to the console. -/
def cheatcodeCall (call : CallInputs) : Bool :=
  call.targetAddress = cheatcodeAddress || call.targetAddress = hardhatConsoleAddress

end CallInputs

structure CreateInputs where
  caller : Address
  value : U256
  initCode : Bytes
  gasLimit : U64
deriving DecidableEq

end Foundry.Cheatcodes
