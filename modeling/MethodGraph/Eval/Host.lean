import MethodGraph.Eval.Machine
/-!
  Host functions with fixed names.

  A small stock of functions for calls out of a method: sums, the first argument, the number of
  arguments, and access to the memory.  A missing argument counts as the integer zero.
-/

namespace MethodGraph.HostFn

/-- The argument at a position, as an integer. -/
def intArg (args : List Scalar) (i : Nat) : Int64 :=
  match args[i]? with
  | some s => s.toInt
  | none => 0

/-- The sum of all arguments as integers. -/
def sum : HostFn := fun m args => (m, .int (args.foldl (fun acc s => acc + s.toInt) 0))

/-- The sum of all arguments as doubles. -/
def floatSum : HostFn := fun m args =>
  (m, .float (args.foldl (fun acc s => acc.add s.toFloat) .zero))

def first : HostFn := fun m args => (m, args.head?.getD (.int 0))

def count : HostFn := fun m args => (m, .int (Int64.ofNat args.length))

/-- Reserve as many bytes as the low byte of the argument says. -/
def allocate : HostFn := fun m args =>
  let (address, m) := m.alloc (intArg args 0 &&& 255).toUInt64.toNat
  (m, .int address)

/-- Read a 64-bit integer, or give -1. -/
def peek : HostFn := fun m args =>
  match m.load (intArg args 0) .int64 with
  | .ok (.ok s) => (m, s)
  | _ => (m, .int (-1))

/-- Write a 64-bit integer and give it, or give -1. -/
def poke : HostFn := fun m args =>
  match m.store (intArg args 0) .int64 (.int (intArg args 1)) with
  | .ok (.ok m) => (m, .int (intArg args 1))
  | _ => (m, .int (-1))

/-- The function with a given name; every other name is the constant forty-two. -/
def named : String → HostFn
  | "sum" => sum
  | "fsum" => floatSum
  | "first" => first
  | "count" => count
  | "alloc" => allocate
  | "peek" => peek
  | "poke" => poke
  | _ => fun m _ => (m, .int 42)

end MethodGraph.HostFn
