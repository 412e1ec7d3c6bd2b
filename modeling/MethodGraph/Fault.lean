import MethodGraph.Operator
import MethodGraph.Ty
/-!
  Faults: misuse that ends a computation.

  A fault is a defect of the caller (an identifier that names nothing, a builder used twice, states
  of different shapes merged) and nothing is done about it: whatever was being computed is given
  up.  Failures that a caller is expected to handle are `BuildError` and `EvalError` instead, and
  leave the state they happened in intact.
-/

namespace MethodGraph

/-- What was misused. -/
inductive Fault where
  /-- An identifier or position that names nothing. -/
  | indexOutOfBounds
  /-- Arithmetic whose result does not fit its width. -/
  | arithmeticOverflow
  /-- A memory access wider than a scalar. -/
  | sliceOutOfRange
  /-- A bitwise operator applied to floating-point scalars. -/
  | bitwiseOnFloating (op : Arith)
  | typeDefined (name : String)
  | typeClosed (name : String)
  | builderConnected (builder : Nat)
  | builderInItself (builder : Nat)
  | bodyAppended (builder : Nat)
  | builderPlaced (builder : Nat)
  | shiftAmount (ty : Ty)
  | operandMismatch (op : Arith) (lhs rhs : Ty)
  | needsIntegers (op : Arith) (ty : Ty)
  | overflowOperands (op : Arith) (lhs rhs : Ty)
  | storeOverMismatch (dest value : Ty)
  | argumentCount (name : String) (expected got : Nat)
  | returnTypeMismatch
  | noPath
  | noConjunct
  | noDisjunct
  | blockCountMismatch
  | negativeIndex (index : Int)
  | notBytecode (builder : Nat)
  | noVmState (builder : Nat)
  | noOperandStack (builder : Nat)
  | cannotFallThrough (builder : Nat)
  | popEmpty
  | pickBeyond (count depth : Nat)
  | dropBeyond (count depth : Nat)
  | mergeKinds (source target : String)
  | mergeRegisters
  | mergeStacks (source target : Nat)
  | mergeArrays (source target : Nat)
  | mergeComposites (source target : Nat)
  | mergeShared (target first second : Nat)
  deriving DecidableEq, Repr, Inhabited

namespace Fault

/-- The words in which a fault is reported. -/
def message : Fault → String
  | indexOutOfBounds => "index out of bounds"
  | arithmeticOverflow => "arithmetic overflow"
  | sliceOutOfRange => "slice out of range"
  | bitwiseOnFloating op =>
    "internal error: entered unreachable code: " ++ op.longName ++ " on floating-point operands"
  | typeDefined name => "type " ++ name ++ " is already defined"
  | typeClosed name => "type " ++ name ++ " is already closed"
  | builderConnected b => s!"builder {b} is already connected"
  | builderInItself b => s!"builder {b} appended to itself"
  | bodyAppended b => s!"the method body cannot be appended to builder {b}"
  | builderPlaced b => s!"builder {b} is already part of a sequence"
  | shiftAmount ty => "shift amount must be an integer, got " ++ ty.name
  | operandMismatch op l r => "cannot " ++ op.mnemonic ++ " " ++ l.name ++ " and " ++ r.name
  | needsIntegers op ty => op.mnemonic ++ " needs integer operands, got " ++ ty.name
  | overflowOperands op l r =>
    op.mnemonic ++ " with overflow needs matching integer operands, got " ++ l.name ++ " and "
      ++ r.name
  | storeOverMismatch d v => "store over a " ++ d.name ++ " value with a " ++ v.name ++ " value"
  | argumentCount name expected got =>
    "`" ++ name ++ s!"` takes {expected} arguments, got {got}"
  | returnTypeMismatch => "return value type does not match the method"
  | noPath => "if_then_else needs at least one path"
  | noConjunct => "if_and needs at least one term"
  | noDisjunct => "if_or needs at least one term"
  | blockCountMismatch => "block count mismatch"
  | negativeIndex i => s!"bytecode index {i} is negative"
  | notBytecode b => s!"builder {b} is not a bytecode builder"
  | noVmState b => s!"bytecode builder {b} has no VM state"
  | noOperandStack b => s!"builder {b} has no operand stack"
  | cannotFallThrough b =>
    s!"builder {b} cannot fall through: control never reaches its end"
  | popEmpty => "pop from an empty operand stack"
  | pickBeyond n depth => s!"pick {n} from an operand stack of depth {depth}"
  | dropBeyond n depth => s!"drop {n} from an operand stack of depth {depth}"
  | mergeKinds source target => "cannot merge " ++ source ++ " state into " ++ target ++ " state"
  | mergeRegisters => "merging registers mirrored in different locals"
  | mergeStacks s t => s!"merging operand stacks of depth {s} and {t}"
  | mergeArrays s t => s!"merging operand arrays of {s} and {t} elements"
  | mergeComposites s t => s!"merging composite states of {s} and {t} components"
  | mergeShared into first second =>
    s!"merge target {into} is shared by slots receiving {first} and {second}"

end Fault
end MethodGraph
