import MethodGraph.Graph.Listing
import MethodGraph.Graph.Verify
import MethodGraph.Method.Branch
import MethodGraph.Total
/-!
  Connecting a method.

  The layout of a connected method is its builders written out: the blocks of a sequence in order,
  with each builder in it written out in its place and followed by its exit.  The body comes first;
  builders that are part of no sequence come after it in the order of their creation, and nothing
  falls into them; the exit of the method comes last.

  Blocks are counted first, so that a disagreement between the count and the layout would show.
  Builders are then connected from the inside out.  Whether control reaches the end of a builder is
  found at that time, and only then is there an edge from its last block to its exit.

  Builders contain each other no deeper than there are builders, which bounds the recursion.
-/

namespace MethodGraph
namespace Emit

/-! ## Counting -/

/-- The number of blocks that a builder contributes to the layout.  The exit of the body is that of
    the method and does not count. -/
def countBlocks : Nat → BuilderId → Emit Nat
  | 0, _ => pure 0
  | fuel + 1, b => do
    match (← builder b) with
    | { count := some n, .. } => return n
    | { sequence, .. } =>
      let counts ← sequence.mapM fun
        | .block _ => pure 1
        | .builder c => countBlocks fuel c
      let n := total counts + (if b = Method.root then 0 else 1)
      updateBuilder b fun d => { d with count := some n }
      return n

/-! ## Connecting builders -/

/-- The blocks of an entry of a sequence, whose builders are connected. -/
def entryBlocks : Entry → Emit (List BlockId)
  | .block b => pure [b]
  | .builder c => do
    return (← builder c).blocks

/-- Connect a builder whose parts are connected. -/
def connectBuilder (b : BuilderId) : Emit Unit := do
  let d ← builder b
  let members := (← d.sequence.mapM entryBlocks).flatten
  let back := d.fallsOut && (← get).graph.reachesLast d.entry members
  match members.getLast? with
  | some last => if back then addEdge last d.exit
  | none => pure ()
  let blocks := if b = Method.root then members else members ++ [d.exit]
  updateBuilder b fun d => { d with blocks, derived := some back, connected := true }

/-- Connect a builder and all that is part of it. -/
def connectTree : Nat → BuilderId → Emit Unit
  | 0, _ => pure ()
  | fuel + 1, b => do
    let d ← builder b
    d.sequence.forM fun
      | .block _ => pure ()
      | .builder c => connectTree fuel c
    connectBuilder b

/-- Connect a builder that is part of no sequence; from its end control goes to the exit of the
    method. -/
def connectDetached (fuel : Nat) (b : BuilderId) : Emit Unit := do
  connectTree fuel b
  let d ← builder b
  if d.derived = some true then
    onGraph (·.push d.exit { opcode := .goto, targets := [Graph.exit] })
    addEdge d.exit Graph.exit

end Emit

/-- The builders besides the body that are part of no sequence. -/
def Method.detached (m : Method) : List BuilderId :=
  (m.builders.entries.filter fun (b, d) => b ≠ Method.root && !d.placed).map (·.1)

namespace Emit

/-- Connect all builders; the answer is the layout. -/
def connectBuilders : Emit (List BlockId) := do
  let m ← get
  let detached := m.detached
  let fuel := m.builders.size
  if !detached.isEmpty && (← builder Method.root).fallsOut then
    gotoBlock Method.root Graph.exit
  detached.forM fun b => updateBuilder b fun d => { d with placed := true }
  let roots := Method.root :: detached
  let count := total (← roots.mapM (countBlocks fuel))
  connectTree fuel Method.root
  detached.forM (connectDetached fuel)
  let layout := (← roots.mapM fun b => return (← builder b).blocks).flatten ++ [Graph.exit]
  if layout.length ≠ count + 1 then throw .blockCountMismatch
  return layout

end Emit

/-! ## Listings -/

namespace Method

/-- The name of the file for a method's listing: characters that are special in file names become
    underscores. -/
def listingFile (name : String) : String :=
  name.map (fun c => if c.isAlphanum || c = '_' || c = '-' || c = '.' then c else '_') ++ ".il"

/-- The longest name that a file can have. -/
def fileNameLimit : Nat := 255

end Method

namespace Build

/-- Write the listing, if listings are to be written. -/
def writeListing : Build Unit := do
  let m ← get
  match m.config.listingDir with
  | none => pure ()
  | some dir =>
    let file := Method.listingFile m.graph.name
    if dir.writable && file.length ≤ Method.fileNameLimit then
      set { m with written := m.written ++ [(file, m.graph.listing)] }
    else throw .listingNotWritten

/-- Fix the layout of the method, verify the graph and write its listing.  A method that is
    connected stays as it is. -/
def connect : Build Unit := do
  if (← get).connected then return
  let layout ← Emit.connectBuilders
  Emit.onGraph (·.setLayout layout)
  modify fun m => { m with connected := true }
  let m ← get
  if m.config.verify then
    match m.graph.verify with
    | .ok () => pure ()
    | .error flaw => throw (.malformed flaw)
  writeListing

end Build
end MethodGraph
