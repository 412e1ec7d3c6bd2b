import MethodGraph.Method.Branch
/-!
  Exception handlers, arithmetic that checks for overflow, and transactions.

  A handler is a builder that control reaches by an exceptional edge from the block that can throw.
  A transaction runs a body, whose effects on memory are undone if it aborts; on a target without
  transactions its failure path is taken instead.
-/

namespace MethodGraph
namespace Emit

/-! ## Handlers -/

/-- Give a block a handler.  Control that does not throw goes on behind the handler, and so does
    control that comes back from it. -/
def appendHandler (b : BuilderId) (risky : BlockId) (handler : Option BuilderId) :
    Emit BuilderId := do
  let handler ← prepare handler
  let after ← orphan
  closeBlock b true
  gotoBuilder b after
  markHandler handler
  let entry ← entryOf handler
  onGraph (·.addHandlerEdge risky entry)
  append b handler
  append b after
  return handler

/-- Arithmetic with a handler for a result that does not fit. -/
def checked (b : BuilderId) (op : Arith) (handler : Option BuilderId) (l r : ValueId) :
    Emit (ValueId × BuilderId) := do
  let lt ← typeOf l
  let rt ← typeOf r
  if !(lt.isInteger && lt = rt) then throw (.overflowOperands op lt rt)
  let v ← emitValue b (.checked op) [l, r] lt
  let risky ← openBlock b
  let handler ← appendHandler b risky handler
  return (v, handler)

/-! ## Transactions -/

/-- The builders of a transaction: the path of a failure that will recur, that of a failure that
    may not, and the body. -/
structure TransactionBuilders where
  persistent : BuilderId
  transient : BuilderId
  body : BuilderId
  deriving DecidableEq, Repr, Inhabited

/-- Begin a transaction and run its body to the end. -/
def runTransaction (b : BuilderId) (t : TransactionBuilders) : Emit Unit := do
  markCold t.persistent
  transfer b .transactionBegin [] [← entryOf t.persistent, ← entryOf t.transient]
  append b t.body
  emit b { opcode := .transactionEnd }

/-- Fail at once, where there are no transactions. -/
def failTransaction (b : BuilderId) (t : TransactionBuilders) : Emit Unit := do
  gotoBuilder b t.persistent
  append b t.body

/-- Run a body as a transaction. -/
def transaction (b : BuilderId) (persistent transient body : Option BuilderId) :
    Emit TransactionBuilders := do
  let persistent ← prepare persistent
  let transient ← prepare transient
  let body ← prepare body
  let t : TransactionBuilders := { persistent, transient, body }
  let merge ← newBlock
  if (← get).config.capabilities.transactionalMemory then runTransaction b t else failTransaction b t
  gotoBlock b merge
  append b transient
  gotoBlock b merge
  append b persistent
  appendBlock b merge
  return t

/-- Abort the innermost transaction. -/
def abort (b : BuilderId) : Emit Unit := transfer b .transactionAbort [] []

end Emit
end MethodGraph
