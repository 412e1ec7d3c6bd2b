import MethodGraph.Operation
/-!
  Errors of evaluation.

  An error ends a run and is reported to the caller; the memory stays as the run left it.
-/

namespace MethodGraph

/-- Why a run ended without a result. -/
inductive EvalError where
  /-- The graph has no layout. -/
  | notConnected (method : String)
  | argumentCount (expected got : Nat)
  | undefinedValue (value : ValueId)
  | outOfBounds (address : Int64) (size : Nat)
  | divisionByZero
  | unknownCallee (name : String)
  | stepLimit (limit : Nat)
  | unhandledOverflow (block : BlockId)
  | endOutsideTransaction
  | abortOutsideTransaction
  | fellOff (block : BlockId)
  deriving DecidableEq, Repr, Inhabited

/-- A 64-bit number in hexadecimal, read as unsigned. -/
def hexText (v : Int64) : String := "0x" ++ String.ofList (Nat.toDigits 16 v.toUInt64.toNat)

/-- The words in which an error is reported. -/
def EvalError.message : EvalError → String
  | notConnected m => "function " ++ m ++ " has not been connected"
  | argumentCount e g => s!"expected {e} arguments, got {g}"
  | undefinedValue v => s!"value v{v} read before it was computed"
  | outOfBounds a n => s!"memory access of {n} bytes out of bounds at " ++ hexText a
  | divisionByZero => "integer division by zero"
  | unknownCallee name => "no host implementation registered for " ++ name
  | stepLimit n => s!"step limit of {n} blocks exceeded"
  | unhandledOverflow b => s!"overflow in B{b} with no handler"
  | endOutsideTransaction => "transaction end outside of a transaction"
  | abortOutsideTransaction => "transaction abort outside of a transaction"
  | fellOff b => s!"B{b} falls off the end of the layout"

end MethodGraph
