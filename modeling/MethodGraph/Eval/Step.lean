import MethodGraph.Eval.Machine
/-!
  The meaning of each operation.

  An operation reads its operands in order, does its work and gives its result, if it has both, to
  the value that names it.  Then control goes on behind it (`Flow.next`), to another block, or out
  of the method.  Arithmetic, comparisons and conversions are those of `Scalar`, at the type of the
  result for arithmetic and of the first operand for comparisons.
-/

namespace MethodGraph

/-- Where control goes after an operation. -/
inductive Flow where
  | next
  | jump (block : BlockId)
  | ret (value : Option Scalar)
  deriving DecidableEq, Repr, Inhabited

namespace Operation

/-- The operand at a position, whose absence is a fault. -/
def operand (op : Operation) (i : Nat) : Except Fault ValueId :=
  match op.operands[i]? with
  | some v => .ok v
  | none => .error .indexOutOfBounds

/-- The target at a position, whose absence is a fault. -/
def target (op : Operation) (i : Nat) : Except Fault BlockId :=
  match op.targets[i]? with
  | some b => .ok b
  | none => .error .indexOutOfBounds

/-- The type of the result; an operation without one computes nothing. -/
def resultType (g : Graph) (op : Operation) : Except Fault Ty :=
  match op.result with
  | some v => g.typeOf v
  | none => .ok .void

end Operation

namespace Exec

/-- The scalar of the operand at a position. -/
def readOperand (op : Operation) (i : Nat) : Exec Scalar := do
  read (← op.operand i)

/-- Give the result to the value that names it and go on. -/
def finish (op : Operation) (s : Scalar) : Exec Flow := do
  match op.result with
  | some v => write v s
  | none => pure ()
  return .next

/-- Arithmetic at a type. -/
def arith (a : Arith) (op : Operation) (ty : Ty) : Exec Scalar := do
  let lhs ← readOperand op 0
  if a.isUnary then return Arith.negate ty lhs
  let rhs ← readOperand op 1
  match ← a.apply ty lhs rhs with
  | some s => return s
  | none => throw .divisionByZero

/-- Whether a comparison of the two operands holds. -/
def compare (g : Graph) (c : Cmp) (op : Operation) : Exec Bool := do
  let lhs ← readOperand op 0
  let rhs ← readOperand op 1
  let ty ← g.typeOf (← op.operand 0)
  return c.holds ty lhs rhs

/-- Add to the scalar in memory and give what was there before. -/
def atomicAdd (g : Graph) (op : Operation) : Exec Scalar := do
  let address ← readOperand op 0
  let delta ← readOperand op 1
  let ty ← g.typeOf (← op.operand 1)
  let old ← loadAt address.toInt ty
  let new := match old with
    | .float x => .float (x.add delta.toFloat)
    | .int v => .int (ty.wrapInt (v + delta.toInt))
  storeAt address.toInt ty new
  return old

/-- Call a function supplied from outside. -/
def call (hosts : Bindings String HostFn) (name : String) (op : Operation) : Exec Scalar := do
  let args ← op.operands.mapM read
  match hosts.get? name with
  | none => throw (.unknownCallee name)
  | some f =>
    modifyGet fun m =>
      let (memory, s) := f m.memory args
      (s, { m with memory })

/-- The target of a dispatch on a selector. -/
def dispatch (cases : List Int64) (op : Operation) (selector : Int64) : Except Fault BlockId := do
  let default ← op.target 0
  match cases.findIdx? (· == selector) with
  | some i => op.target (i + 1)
  | none => return default

/-- One operation, at a place named by block and position. -/
def step (g : Graph) (hosts : Bindings String HostFn) (place : BlockId × Nat) (op : Operation) :
    Exec Flow := do
  let ty ← op.resultType g
  match op.opcode with
  | .constInt v => finish op (.int (ty.wrapInt v))
  | .constFloat x => finish op (.float (ty.roundFloat x))
  | .load s => finish op (← readLocal s)
  | .store s =>
    writeLocal s (← readOperand op 0)
    return .next
  | .storeOver =>
    let s ← readOperand op 1
    overwrite (← op.operand 0) s
    return .next
  | .arith a => finish op (← arith a op ty)
  | .compare c => finish op (.int (if ← compare g c op then 1 else 0))
  | .convert unsigned =>
    let source ← g.typeOf (← op.operand 0)
    let s ← readOperand op 0
    finish op (s.convert source ty unsigned)
  | .checked a =>
    let lhs ← readOperand op 0
    let rhs ← readOperand op 1
    match a.checked? ty lhs.toInt rhs.toInt with
    | some v => finish op (.int v)
    | none =>
      match (← g.block place.1).handlers.head? with
      | some h => return .jump h
      | none => throw (.unhandledOverflow place.1)
  | .loadAt =>
    let address ← readOperand op 0
    finish op (← loadAt address.toInt ty)
  | .storeAt =>
    let address ← readOperand op 0
    let s ← readOperand op 1
    storeAt address.toInt (← g.typeOf (← op.operand 1)) s
    return .next
  | .indexAt size =>
    let base ← readOperand op 0
    let index ← readOperand op 1
    finish op (.int (base.toInt + index.toInt * Int64.ofNat size))
  | .offsetAt offset =>
    let base ← readOperand op 0
    finish op (.int (base.toInt + Int64.ofNat offset))
  | .localAlloc size => finish op (.int (← storageOf place size))
  | .atomicAdd => finish op (← atomicAdd g op)
  | .call name => finish op (← call hosts name op)
  | .goto => return .jump (← op.target 0)
  | .branch c => if ← compare g c op then return .jump (← op.target 0) else return .next
  | .ret =>
    match op.operands.head? with
    | some v => return .ret (some (← read v))
    | none => return .ret none
  | .switch cases => return .jump (← dispatch cases op (← readOperand op 0).toInt)
  | .transactionBegin =>
    let failure ← op.target 0
    modify fun m => { m with transactions := ⟨m.memory, failure⟩ :: m.transactions }
    return .next
  | .transactionEnd =>
    match (← get).transactions with
    | [] => throw .endOutsideTransaction
    | _ :: rest =>
      modify fun m => { m with transactions := rest }
      return .next
  | .transactionAbort =>
    match (← get).transactions with
    | [] => throw .abortOutsideTransaction
    | t :: rest =>
      modify fun m => { m with memory := t.snapshot, transactions := rest }
      return .jump t.failure

end Exec
end MethodGraph
