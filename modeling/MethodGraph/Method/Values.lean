import MethodGraph.Method.Emit
/-!
  Constants, locals, arithmetic, comparisons and conversions.

  Each of these appends one operation to a builder.  Operands are checked by their types, and a
  mismatch is a fault; a local that is not defined is an error.
-/

namespace MethodGraph
namespace Emit

/-! ## Constants -/

/-- An integer constant of any type. -/
def constInt (b : BuilderId) (ty : Ty) (v : Int64) : Emit ValueId :=
  emitValue b (.constInt v) [] ty

/-- A single-precision constant. -/
def constFloat (b : BuilderId) (x : Binary64) : Emit ValueId :=
  emitValue b (.constFloat x) [] .float

def constDouble (b : BuilderId) (x : Binary64) : Emit ValueId :=
  emitValue b (.constFloat x) [] .double

/-- The zero of a type. -/
def zero (b : BuilderId) (ty : Ty) : Emit ValueId :=
  if ty.isFloating then emitValue b (.constFloat .zero) [] ty else constInt b ty 0

/-! ## Symbols -/

def symbol (s : SymbolId) : Emit Symbol := do
  (← get).graph.symbols.fetch s

def loadSymbol (b : BuilderId) (s : SymbolId) : Emit ValueId := do
  let ty := (← symbol s).ty
  emitValue b (.load s) [] ty

def storeSymbol (b : BuilderId) (s : SymbolId) (v : ValueId) : Emit Unit :=
  emit b { opcode := .store s, operands := [v] }

/-- Overwrite a value with another of the same type. -/
def storeOver (b : BuilderId) (dest v : ValueId) : Emit Unit := do
  let dt ← typeOf dest
  let vt ← typeOf v
  if dt ≠ vt then throw (.storeOverMismatch dt vt)
  emit b { opcode := .storeOver, operands := [dest, v] }

/-! ## Arithmetic -/

/-- The type of an arithmetic result; operands that do not go together are a fault. -/
def resultType (op : Arith) (lt rt : Ty) : Except Fault Ty := do
  let ty ←
    if op.isShift then
      if rt.isInteger then pure lt else throw (.shiftAmount rt)
    else
      match lt.join? rt with
      | some ty => pure ty
      | none => throw (.operandMismatch op lt rt)
  if op.isIntegerOnly && ty.element.isFloating then throw (.needsIntegers op ty)
  return ty

/-- An operator applied to two values. -/
def binary (b : BuilderId) (op : Arith) (l r : ValueId) : Emit ValueId := do
  let lt ← typeOf l
  let rt ← typeOf r
  let ty ← resultType op lt rt
  emitValue b (.arith op) [l, r] ty

def negate (b : BuilderId) (v : ValueId) : Emit ValueId := do
  let ty ← typeOf v
  emitValue b (.arith .neg) [v] ty

/-- One if the comparison holds, else zero. -/
def compare (b : BuilderId) (c : Cmp) (l r : ValueId) : Emit ValueId :=
  emitValue b (.compare c) [l, r] .int32

/-! ## Conversions -/

def convertTo (b : BuilderId) (ty : Ty) (v : ValueId) : Emit ValueId :=
  emitValue b (.convert false) [v] ty

/-- Convert a value whose source counts as unsigned. -/
def unsignedConvertTo (b : BuilderId) (ty : Ty) (v : ValueId) : Emit ValueId :=
  emitValue b (.convert true) [v] ty

/-- A copy of a value. -/
def copy (b : BuilderId) (v : ValueId) : Emit ValueId := do
  let ty ← typeOf v
  convertTo b ty v

end Emit

namespace Build

/-- The symbol of a local, defined with the given type if there is none and locals need not be
    defined beforehand. -/
def localSymbol (name : String) (ty : Ty) : Build SymbolId := do
  let m ← get
  match m.graph.lookup name with
  | some s => return s
  | none =>
    if m.localsDefined then throw (.undefinedLocal name)
    let (s, graph) := m.graph.define name ty .localVar
    set { m with graph }
    return s

/-- The symbol of a name that has to be defined. -/
def definedSymbol (name : String) : Build SymbolId := do
  match (← get).graph.lookup name with
  | some s => return s
  | none => throw (.undefinedLocal name)

/-- Read a local. -/
def load (b : BuilderId) (name : String) : Build ValueId := do
  let s ← definedSymbol name
  Emit.loadSymbol b s

/-- Write a local. -/
def store (b : BuilderId) (name : String) (v : ValueId) : Build Unit := do
  let ty ← Emit.typeOf v
  let s ← localSymbol name ty
  Emit.storeSymbol b s v

end Build
end MethodGraph
