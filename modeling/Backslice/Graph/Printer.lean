import Backslice.Graph.Basic

/-! # Text of a flow graph -/

namespace Backslice

set_option autoImplicit false

def Edge.text (e : Edge) : String :=
  let tag := match e.cond with
    | none => ""
    | some true => " [true]"
    | some false => " [false]"
  s!"    -> {e.target}{tag}"

namespace Graph

/-- The name of the function, or its number if it has none. -/
def title (g : Graph) : String := if g.name = "" then toString g.index else g.name

/-- One line for the function, then one for each block with a line for each edge out of it. -/
def text (g : Graph) : String :=
  let head := s!"CFG {g.title} entry={g.entry} exit={g.exit}"
  let blocks := g.sortedBlocks.flatMap fun e =>
    ("  " ++ e.2.text e.1) :: (g.edges.leaving e.1).map Edge.text
  "\n".intercalate (head :: blocks)

/-- The name in quotes, and the numbers of blocks and edges. -/
def summary (g : Graph) : String :=
  let name := Text.quoted g.name
  let edges := g.edges.count
  s!"CFG(name={name}, blocks={g.blocks.size}, edges={edges})"

end Graph
end Backslice
