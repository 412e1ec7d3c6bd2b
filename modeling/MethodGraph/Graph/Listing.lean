import MethodGraph.Graph.Basic
/-!
  The listing of a graph.

  A line for the method with its parameters, one for each variable, and then the blocks in layout
  order (in order of creation while there is no layout): a line with the marks and the edges of the
  block, followed by its operations.
-/

namespace MethodGraph.Graph

def parameterText (g : Graph) (s : SymbolId) : String :=
  match g.symbols.get? s with
  | some sym => s!"%{s} " ++ sym.name ++ ": " ++ sym.ty.name
  | none => ""

def headLine (g : Graph) : String :=
  "method " ++ g.name ++ "(" ++ ", ".intercalate (g.parameters.map g.parameterText) ++ ") -> "
    ++ g.returnType.name ++ "\n"

def variableLine (entry : SymbolId × Symbol) : String :=
  s!"  local %{entry.1} " ++ entry.2.name ++ ": " ++ entry.2.ty.name ++ "\n"

def edgesText (label : String) : List BlockId → String
  | [] => ""
  | bs => "  " ++ label ++ ":" ++ String.join (bs.map fun b => s!" B{b}")

def blockText (g : Graph) (b : BlockId) : String :=
  match g.block? b with
  | none => ""
  | some blk =>
    s!"B{b}"
      ++ (if b = entry then " (entry)" else "")
      ++ (if b = exit then " (exit)" else "")
      ++ (if blk.isHandler then " (handler)" else "")
      ++ (if blk.isCold then " (cold)" else "")
      ++ ":" ++ edgesText "succs" blk.succs ++ edgesText "catch" blk.handlers ++ "\n"
      ++ String.join (blk.operations.map fun op => "    " ++ op.text ++ "\n")

/-- The blocks a listing shows, in order. -/
def listed (g : Graph) : List BlockId := if g.layout.isEmpty then g.blocks.ids else g.layout

/-- The text of a graph. -/
def listing (g : Graph) : String :=
  g.headLine
    ++ String.join ((g.symbols.entries.filter (!·.2.isParameter)).map variableLine)
    ++ String.join (g.listed.map g.blockText)

end MethodGraph.Graph
