import Dataflow.Graph.Build
set_option autoImplicit false

/-! Selections of nodes and wires, in the order in which they were selected. -/

namespace Dataflow

structure Selection where
  nodes : List NodeId
  edges : List Edge
  deriving DecidableEq, Repr

namespace Selection

def empty : Selection := ⟨[], []⟩

/-- Says whether the node is new to the selection. -/
def addNode (s : Selection) (n : NodeId) : Bool × Selection :=
  if n ∈ s.nodes then (false, s) else (true, { s with nodes := s.nodes ++ [n] })

def addEdge (s : Selection) (e : Edge) : Bool × Selection :=
  if e ∈ s.edges then (false, s) else (true, { s with edges := s.edges ++ [e] })

/-- Says of each node whether it was new. -/
def addNodes (s : Selection) : List NodeId → List Bool × Selection
  | [] => ([], s)
  | n :: ns =>
    let (isNew, s) := s.addNode n
    let (rest, s) := s.addNodes ns
    (isNew :: rest, s)

def addEdges (s : Selection) : List Edge → List Bool × Selection
  | [] => ([], s)
  | e :: es =>
    let (isNew, s) := s.addEdge e
    let (rest, s) := s.addEdges es
    (isNew :: rest, s)

def size (s : Selection) : Nat := s.nodes.length + s.edges.length

end Selection

namespace Graph

/-- The nodes with every wire between two of them. -/
def select (g : Graph) (nodes : List NodeId) : Except Error Selection := do
  let _ ← nodes.mapM g.node
  let chosen := nodes.eraseDups
  let networks := (chosen.filterMap g.around?).eraseDups
  let wires := (← networks.mapM g.network).flatMap Network.wires
  let within := wires.filter fun e =>
    chosen.contains e.output.node && chosen.contains e.input.node
  .ok ⟨chosen, within.eraseDups⟩

/-- Removes the selected wires and then the selected nodes. What is gone already is passed over. -/
def removeSelected (s : Selection) : Edit Unit := do
  Edit.change fun g => s.edges.foldl cut g
  s.nodes.forM fun n => Edit.step fun g => if (g.node? n).isSome then g.removeNode n else .ok g

end Graph
end Dataflow
