/-!
  Settings of one compilation.

  Settings start from defaults, or are taken from variables of the environment: a variable switches
  its setting on unless it is empty or `0`, and one that is not set leaves the default.
-/

namespace MethodGraph

/-- What the target machine can do. -/
structure Capabilities where
  /-- Without it a transaction always takes its path for persistent failure. -/
  transactionalMemory : Bool := false
  atomicAdd : Bool := false
  deriving DecidableEq, Repr, Inhabited

def Capabilities.all : Capabilities := ⟨true, true⟩

/-- Where listings are written. -/
structure ListingDir where
  path : String
  /-- Whether it can be made and written to. -/
  writable : Bool := true
  deriving DecidableEq, Repr, Inhabited

/-- Settings of one compilation. -/
structure Config where
  traceGraph : Bool := false
  traceState : Bool := false
  /-- Verify the graph when it is connected. -/
  verify : Bool := true
  /-- Write the listing of every connected graph here. -/
  listingDir : Option ListingDir := none
  capabilities : Capabilities := {}
  deriving DecidableEq, Repr, Inhabited

namespace Config

/-- Everything on and every capability there. -/
def testing : Config :=
  { traceGraph := true, traceState := true, capabilities := .all }

/-- The setting that a variable asks for. -/
def flag (lookup : String → Option String) (name : String) (default : Bool) : Bool :=
  match lookup name with
  | some v => v ≠ "" && v ≠ "0"
  | none => default

/-- The settings that the environment asks for. -/
def ofEnvironment (lookup : String → Option String) : Config where
  traceGraph := flag lookup "CINDER_TRACE_IL" false
  traceState := flag lookup "CINDER_TRACE_VM_STATE" false
  verify := flag lookup "CINDER_VERIFY" true
  listingDir :=
    match lookup "CINDER_DUMP_IL" with
    | some v => if v = "" then none else some { path := v }
    | none => none
  capabilities :=
    { transactionalMemory := flag lookup "CINDER_TM" false
      atomicAdd := flag lookup "CINDER_ATOMIC_ADD" false }

end Config
end MethodGraph
