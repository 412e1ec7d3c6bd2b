import MethodGraph.Bindings
import MethodGraph.Graph.Basic
import MethodGraph.Method.Config
import MethodGraph.Method.Error
import MethodGraph.Method.Signature
import MethodGraph.Vm.State
/-!
  Methods under construction.

  A method is built by builders.  A builder is a sequence of blocks and of further builders, with
  an entry block that opens it and an exit block that control reaches behind its end.  Builders of
  one method are named by the order of their creation; the first is the body of the method, and its
  entry and exit are those of the graph.

  At the end of a builder's sequence there is a block that takes operations, or a block that is
  full and from which control falls into whatever comes next, or nothing that control gets to.

  A builder that stands for a place in some bytecode has a record of it, with the state of the
  simulated machine at its start and at its end.
-/

namespace MethodGraph

/-- The name of a builder. -/
abbrev BuilderId := Nat

/-- One element of a builder's sequence. -/
inductive Entry where
  | block (b : BlockId)
  | builder (b : BuilderId)
  deriving DecidableEq, Repr, Inhabited

/-- The end of a builder's sequence. -/
inductive Tail where
  /-- This block takes operations. -/
  | current (b : BlockId)
  /-- Control falls from this block into whatever comes next. -/
  | owed (b : BlockId)
  /-- Control does not get here. -/
  | closed
  deriving DecidableEq, Repr, Inhabited

namespace Tail

/-- The block from which control falls into whatever comes next. -/
def block? : Tail → Option BlockId
  | current b => some b
  | owed b => some b
  | closed => none

/-- Control gets to the end. -/
def isLive (t : Tail) : Bool := t.block?.isSome

/-- Close the block that takes operations; control falls from it or not.  A block closed before is
    forgotten. -/
def close (falls : Bool) : Tail → Tail
  | current b => if falls then owed b else closed
  | _ => closed

end Tail

/-- What is known of a place in the bytecode. -/
structure BytecodeRecord where
  index : Nat
  name : Option String := none
  /-- Where control goes behind the end. -/
  fallThrough : Option BuilderId := none
  /-- The builders that control can go to, in the order in which they were registered. -/
  successors : List BuilderId := []
  /-- The state of the machine on arrival. -/
  initial : Option VmState := none
  /-- The state of the machine at the end of what has been built. -/
  state : Option VmState := none
  deriving Inhabited

/-- A sequence of blocks and builders. -/
structure Builder where
  entry : BlockId
  exit : BlockId
  sequence : List Entry
  tail : Tail
  /-- It is part of a sequence. -/
  placed : Bool := false
  /-- It is reached by exceptional edges. -/
  isHandler : Bool := false
  /-- Its blocks have their place in the layout. -/
  connected : Bool := false
  /-- The number of blocks it contributes to the layout, once counted. -/
  count : Option Nat := none
  /-- The blocks it contributes to the layout, once it is connected. -/
  blocks : List BlockId := []
  /-- Whether control reaches its exit, found when it is connected. -/
  derived : Option Bool := none
  bytecode : Option BytecodeRecord := none
  deriving Inhabited

namespace Builder

/-- A builder with nothing but an open entry block. -/
def new (entry exit : BlockId) : Builder :=
  { entry, exit, sequence := [.block entry], tail := .current entry }

/-- Control can leave through the end of the sequence. -/
def fallsOut (d : Builder) : Bool := d.tail.isLive

/-- Whether control reaches the exit.  Until the builder is connected this only says that its end
    is left open. -/
def comesBack (d : Builder) : Bool := d.derived.getD d.fallsOut

end Builder

/-- A method under construction. -/
structure Method where
  config : Config
  graph : Graph
  builders : Arena Builder
  types : TypeTable := .initial
  /-- The functions that can be called. -/
  functions : Bindings String Signature := .empty
  /-- What is asked for a function that is not known. -/
  resolver : Option (String → Option Signature) := none
  /-- The names of functions that were wanted and not known. -/
  requested : List String := []
  /-- The names that a resolver was asked for, in order. -/
  asked : List String := []
  /-- The bytecode indices that wait to be built. -/
  worklist : BitSet := .empty
  /-- The bytecode indices that have ever waited to be built. -/
  queued : BitSet := .empty
  mayLoop : Bool := false
  /-- The state of the machine at the start of the bytecode. -/
  vmState : Option VmState := none
  file : Option String := none
  line : Option String := none
  /-- Locals have to be defined before they are stored to. -/
  localsDefined : Bool := false
  connected : Bool := false
  /-- The listings written so far: the name of the file and the text. -/
  written : List (String × String) := []
  deriving Inhabited

namespace Method

/-- The builder of the method's body. -/
abbrev root : BuilderId := 0

/-- A method with an empty body. -/
def new (name : String) (config : Config) : Method :=
  { config, graph := .new name, builders := .ofList [.new Graph.entry Graph.exit] }

/-! ## Definitions -/

def defineName (m : Method) (name : String) : Method :=
  { m with graph := { m.graph with name } }

def defineFile (m : Method) (file : String) : Method := { m with file := some file }

def defineLine (m : Method) (line : String) : Method := { m with line := some line }

/-- Define a symbol; one of that name that is there already stays as it is. -/
def defineSymbol (m : Method) (name : String) (ty : Ty) (kind : SymbolKind) : Method :=
  { m with graph := (m.graph.define name ty kind).2 }

/-- Define the next parameter. -/
def defineParameter (m : Method) (name : String) (ty : Ty) : Method :=
  m.defineSymbol name ty (.parameter m.graph.parameters.length)

def defineLocal (m : Method) (name : String) (ty : Ty) : Method :=
  m.defineSymbol name ty .localVar

def defineReturnType (m : Method) (ty : Ty) : Method :=
  { m with graph := { m.graph with returnType := ty } }

/-- Define a function, in place of any of that name. -/
def defineFunction (m : Method) (s : Signature) : Method :=
  { m with functions := m.functions.insert s.name s }

/-- From now on storing to a local that is not defined is an error. -/
def allLocalsDefined (m : Method) : Method := { m with localsDefined := true }

def setResolver (m : Method) (resolver : String → Option Signature) : Method :=
  { m with resolver := some resolver }

def setVmState (m : Method) (s : VmState) : Method := { m with vmState := some s }

/-! ## What is there -/

/-- The record of a builder that stands for bytecode. -/
def record? (m : Method) (b : BuilderId) : Option BytecodeRecord :=
  (m.builders.get? b).bind (·.bytecode)

/-- The builders that stand for bytecode, in the order of their creation. -/
def bytecodeBuilders (m : Method) : List BuilderId :=
  m.builders.ids.filter fun b => (m.record? b).isSome

/-- The first builder created for a bytecode index. -/
def bytecodeBuilder? (m : Method) (index : Int) : Option BuilderId :=
  m.builders.ids.find? fun b => (m.record? b).any fun r => (r.index : Int) = index

end Method
end MethodGraph
