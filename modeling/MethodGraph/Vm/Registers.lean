import MethodGraph.Method.Storage
/-!
  Registers of the simulated machine.

  A register is held in a symbol; `commit` writes the symbol to the register's storage and `reload`
  reads it from there.
-/

namespace MethodGraph

/-- Add a constant to a symbol; an address moves by a 64-bit distance. -/
def Emit.adjustSymbol (b : BuilderId) (s : SymbolId) (ty : Ty) (amount : Int64) : Emit Unit := do
  let current ← loadSymbol b s
  let delta ← constInt b (if ty = .address then .int64 else ty) amount
  let next ← binary b .add current delta
  storeSymbol b s next

namespace Register

def load (b : BuilderId) (r : Register) : Emit ValueId := Emit.loadSymbol b r.symbol

def store (b : BuilderId) (r : Register) (v : ValueId) : Emit Unit :=
  Emit.storeSymbol b r.symbol v

/-- Move the register by so many steps. -/
def adjust (b : BuilderId) (r : Register) (amount : Int64) : Emit Unit := do
  let distance ← Checked.mulWord amount r.step
  Emit.adjustSymbol b r.symbol r.ty distance

def commit (b : BuilderId) (r : Register) : Emit Unit := do
  let v ← r.load b
  Emit.storeAt b r.address v

def reload (b : BuilderId) (r : Register) : Emit Unit := do
  let v ← Emit.loadAt b r.ty r.address
  r.store b v

/-- A register with storage at an address, whose present content is read. -/
def create (b : BuilderId) (name : String) (ty : Ty) (step : Int64) (address : ValueId) :
    Build Register := do
  let symbol ← Build.localSymbol name ty
  let r : Register := { symbol, address, ty, step }
  r.reload b
  return r

end Register

namespace FieldRegister

def load (b : BuilderId) (r : FieldRegister) : Emit ValueId := Emit.loadSymbol b r.symbol

def store (b : BuilderId) (r : FieldRegister) (v : ValueId) : Emit Unit :=
  Emit.storeSymbol b r.symbol v

/-- Move the register by an amount. -/
def adjust (b : BuilderId) (r : FieldRegister) (amount : Int64) : Emit Unit :=
  Emit.adjustSymbol b r.symbol r.field.valueType amount

/-- The address of the register's storage. -/
def address (b : BuilderId) (r : FieldRegister) : Emit ValueId := do
  let object ← Emit.loadSymbol b r.object
  Emit.offsetAt b object r.field.offset

def commit (b : BuilderId) (r : FieldRegister) : Emit Unit := do
  let v ← r.load b
  let address ← r.address b
  Emit.storeAt b address v

def reload (b : BuilderId) (r : FieldRegister) : Emit Unit := do
  let address ← r.address b
  let v ← Emit.loadAt b r.field.valueType address
  r.store b v

/-- A register that is a field of a structure, whose present content is read. -/
def create (b : BuilderId) (aggregate object field name : String) : Build FieldRegister := do
  let object ← Build.definedSymbol object
  let field ← Build.field aggregate field
  let symbol ← Build.localSymbol name field.valueType
  let r : FieldRegister := { symbol, object, field }
  r.reload b
  return r

end FieldRegister

/-! ## States that are a register of either kind -/

namespace VmState

/-- Read the register; a state of another kind has none. -/
def loadRegister (b : BuilderId) : VmState → Emit (Option ValueId)
  | register r => some <$> r.load b
  | fieldRegister r => some <$> r.load b
  | _ => pure none

/-- Write the register; the answer is whether there is one. -/
def storeRegister (b : BuilderId) (s : VmState) (v : ValueId) : Emit Bool :=
  match s with
  | register r => do
    r.store b v
    return true
  | fieldRegister r => do
    r.store b v
    return true
  | _ => return false

/-- Move the register; the answer is whether there is one. -/
def adjustRegister (b : BuilderId) (s : VmState) (amount : Int64) : Emit Bool :=
  match s with
  | register r => do
    r.adjust b amount
    return true
  | fieldRegister r => do
    r.adjust b amount
    return true
  | _ => return false

end VmState
end MethodGraph
