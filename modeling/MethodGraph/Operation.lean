import MethodGraph.Binary64.Text
import MethodGraph.Operator
import MethodGraph.Scalar
/-!
  Operations.

  An operation is an opcode with its operands, the value it computes if it computes one, and the
  blocks it can transfer control to.  Values, symbols and blocks are named by the order of their
  creation.  Targets belong to the operation and not to the opcode, and so does the result, whose
  type is that of the value.
-/

namespace MethodGraph

/-- The name of a block. -/
abbrev BlockId := Nat

/-- The name of a value. -/
abbrev ValueId := Nat

/-- The name of a symbol. -/
abbrev SymbolId := Nat

/-- What an operation does. -/
inductive Opcode where
  | constInt (v : Int64)
  | constFloat (x : Binary64)
  /-- Read a symbol. -/
  | load (symbol : SymbolId)
  /-- Write the operand to a symbol. -/
  | store (symbol : SymbolId)
  /-- Overwrite the first operand with the second. -/
  | storeOver
  | arith (op : Arith)
  | compare (cmp : Cmp)
  | convert (unsigned : Bool)
  /-- Arithmetic that leaves through the block's handler instead of overflowing. -/
  | checked (op : Arith)
  | loadAt
  | storeAt
  /-- The address of an element: base plus index times the size of an element. -/
  | indexAt (elementSize : Nat)
  /-- The address at a distance from a base. -/
  | offsetAt (offset : Nat)
  /-- Storage that lasts as long as the run. -/
  | localAlloc (size : Nat)
  | atomicAdd
  | call (name : String)
  | goto
  /-- Go to the target if the comparison holds, else fall through. -/
  | branch (cmp : Cmp)
  | ret
  /-- Go to the target after that of the first case equal to the operand, else to the first. -/
  | switch (cases : List Int64)
  | transactionBegin
  | transactionEnd
  | transactionAbort
  deriving DecidableEq, Repr, Inhabited

namespace Opcode

/-- Control never continues behind these. -/
def isUnconditional : Opcode → Bool
  | goto | ret | switch _ | transactionAbort => true
  | _ => false

/-- These end a block. -/
def isTerminator : Opcode → Bool
  | branch _ | transactionBegin => true
  | o => o.isUnconditional

/-- These can leave through a handler. -/
def canThrow : Opcode → Bool
  | checked _ => true
  | _ => false

def text : Opcode → String
  | constInt v => "const " ++ toString v.toInt
  | constFloat x => "const " ++ x.text
  | load s => s!"load %{s}"
  | store s => s!"store %{s}"
  | storeOver => "storeover"
  | arith op => op.mnemonic
  | compare c => "cmp." ++ c.mnemonic
  | convert unsigned => if unsigned then "convert.u" else "convert"
  | checked op => op.mnemonic ++ ".ovf"
  | loadAt => "loadat"
  | storeAt => "storeat"
  | indexAt n => s!"indexat x{n}"
  | offsetAt n => s!"offsetat +{n}"
  | localAlloc n => s!"localalloc {n}"
  | atomicAdd => "atomicadd"
  | call name => "call " ++ name
  | goto => "goto"
  | branch c => "if." ++ c.mnemonic
  | ret => "return"
  | switch cases => "switch [" ++ ", ".intercalate (cases.map fun c => toString c.toInt) ++ "]"
  | transactionBegin => "tbegin"
  | transactionEnd => "tend"
  | transactionAbort => "tabort"

/-- Whether two opcodes say the same, where constants are compared as numbers: a NaN is not the
    same as itself, and the two zeros are the same. -/
def same : Opcode → Opcode → Bool
  | constFloat x, constFloat y => x.eq y
  | a, b => a == b

end Opcode

/-- One step of a block. -/
structure Operation where
  opcode : Opcode
  operands : List ValueId := []
  result : Option ValueId := none
  targets : List BlockId := []
  deriving DecidableEq, Repr, Inhabited

namespace Operation

def isTerminator (op : Operation) : Bool := op.opcode.isTerminator

def isUnconditional (op : Operation) : Bool := op.opcode.isUnconditional

def text (op : Operation) : String :=
  let result := match op.result with
    | some v => s!"v{v} = "
    | none => ""
  let operands := match op.operands with
    | [] => ""
    | vs => " " ++ ", ".intercalate (vs.map fun v => s!"v{v}")
  let targets := match op.targets with
    | [] => ""
    | bs => " ->" ++ String.join (bs.map fun b => s!" B{b}")
  result ++ op.opcode.text ++ operands ++ targets

/-- Whether two operations say the same. -/
def same (a b : Operation) : Bool :=
  a.opcode.same b.opcode && a.operands == b.operands && a.result == b.result
    && a.targets == b.targets

end Operation
end MethodGraph
