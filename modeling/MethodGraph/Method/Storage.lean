import MethodGraph.Checked
import MethodGraph.Method.Values
/-!
  Access to memory.

  Addresses are values; fields of structures are found in the method's type table.  Storage of the
  frame is sized when it is asked for.
-/

namespace MethodGraph
namespace Emit

def loadAt (b : BuilderId) (ty : Ty) (address : ValueId) : Emit ValueId :=
  emitValue b .loadAt [address] ty

def storeAt (b : BuilderId) (address v : ValueId) : Emit Unit :=
  emit b { opcode := .storeAt, operands := [address, v] }

/-- The address of an element. -/
def indexAt (b : BuilderId) (element : Ty) (base index : ValueId) : Emit ValueId :=
  emitValue b (.indexAt element.size) [base, index] .address

/-- The address at a distance from a base. -/
def offsetAt (b : BuilderId) (base : ValueId) (offset : Nat) : Emit ValueId :=
  emitValue b (.offsetAt offset) [base] .address

/-- Storage for so many elements. -/
def localArray (b : BuilderId) (count : Nat) (element : Ty) : Emit ValueId := do
  let size ← Checked.size (count * element.size)
  emitValue b (.localAlloc size) [] .address

/-- Storage for a value of a type of the type table. -/
def localStruct (b : BuilderId) (ty : TypeId) : Emit ValueId := do
  let size ← (← get).types.sizeOf ty
  emitValue b (.localAlloc size) [] .address

end Emit

namespace Build

/-- A field of an aggregate. -/
def field (aggregate field : String) : Build FieldRef := do
  let types := (← get).types
  if (types.lookup aggregate).isNone then throw (.unknownType aggregate)
  match types.field? aggregate field with
  | some f => return f
  | none => throw (.unknownField aggregate field)

/-- The address of a field of an object. -/
def fieldAddress (b : BuilderId) (aggregate field : String) (object : ValueId) :
    Build ValueId := do
  let f ← Build.field aggregate field
  Emit.offsetAt b object f.offset

/-- Read a field of an object. -/
def loadIndirect (b : BuilderId) (aggregate field : String) (object : ValueId) :
    Build ValueId := do
  let f ← Build.field aggregate field
  let address ← Emit.offsetAt b object f.offset
  Emit.loadAt b f.valueType address

/-- Write a field of an object. -/
def storeIndirect (b : BuilderId) (aggregate field : String) (object v : ValueId) :
    Build Unit := do
  let f ← Build.field aggregate field
  let address ← Emit.offsetAt b object f.offset
  Emit.storeAt b address v

/-- Add to a place in memory in one step, where the target can. -/
def atomicAdd (b : BuilderId) (address v : ValueId) : Build ValueId := do
  if !(← get).config.capabilities.atomicAdd then throw (.unsupported "atomic add")
  let ty ← Emit.typeOf v
  Emit.emitValue b .atomicAdd [address, v] ty

end Build
end MethodGraph
