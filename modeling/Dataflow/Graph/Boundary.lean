import Dataflow.Graph.Flow
set_option autoImplicit false

/-!
The boundary of a network. A network has one port for each of its input and output nodes that has a
wire, named after that node. The two ports are peers. The port comes with the first wire, goes with
the last one, and keeps the name of its node.
-/

namespace Dataflow.Graph

/-- The side of its network that a port of an input node or an output node stands for. -/
def terminal? (g : Graph) (p : Port) : Option Direction := do
  let m ← g.node? p.node
  let d ← g.direction? p
  match d with
  | .output => if m.typeName = NodeType.networkInput.name then some .input else none
  | .input => if m.typeName = NodeType.networkOutput.name then some .output else none

/-- Whether wiring `p` makes the boundary of its network grow on that side. -/
def grows (g : Graph) (side : Direction) (p : Port) : Bool :=
  g.terminal? p == some side && (g.peer? p).isNone

/-- The network port that would be named after the node of `p` must have that name to itself. -/
def checkGrowth (g : Graph) (side : Direction) (p : Port) : Except Error Unit :=
  if g.grows side p then do
    let m ← g.node p.node
    match m.parent with
    | some n =>
      if ((← g.node n).type.indexOf? m.name).isSome then .error (.duplicateName m.name) else .ok ()
    | none => .ok ()
  else .ok ()

def checkBoundary (g : Graph) (e : Edge) : Except Error Unit := do
  g.checkGrowth .input e.output
  g.checkGrowth .output e.input

/-- What a new network port starts with: what its terminal holds, else what the other end of the
wire holds, else the default there. -/
def firstValue (g : Graph) (terminal other : Port) : Value :=
  if !(g.held terminal).isNull then g.held terminal
  else if !(g.held other).isNull then g.held other
  else (g.slot? other).elim .null fun s => s.attr.default

/-- Adds the network port whose peer is `terminal`. -/
def grow (g : Graph) (side : Direction) (terminal other : Port) : Graph :=
  match g.node? terminal.node with
  | some t => match t.parent with
    | some n => match g.node? n with
      | some m =>
        let (v, g) := g.stamp (g.firstValue terminal other)
        let slot := { newSlot (.ofValue t.name side v) v with peer := some terminal }
        let g := g.modifyNode n fun m => { m with ports := m.ports.declare slot }
        (g.emit (.metadataChanged n)).setPeer terminal (some ⟨n, m.ports.length⟩)
      | none => g
    | none => g
  | none => g

/-- Adds the network ports that a new wire calls for. -/
def growBoundary (g : Graph) (e : Edge) : Graph :=
  let g := if g.grows .input e.output then g.grow .input e.output e.input else g
  if g.grows .output e.input then g.grow .output e.input e.output else g

/-- Tells the peers of the ports of a network, from place `start` on, where their peers are now. -/
def readdress (g : Graph) (n : NodeId) (start : Nat) : Graph :=
  match g.node? n with
  | some m =>
    (m.ports.entries.zipIdx.drop start).foldl (fun g s =>
      match s.1.peer with
      | some q => g.setPeer q (some ⟨n, s.2⟩)
      | none => g) g
  | none => g

/-- Takes a port from a network: first its wires, which `cut` removes, then the port itself. Later
ports move down by one place. -/
def dropBoundary (cut : Graph → Edge → Graph) (g : Graph) (b : Port) : Graph :=
  let g := ((g.wiresAround b.node).filter (Edge.endsAt b)).foldl cut g
  let g := match g.peer? b with
    | some q => g.setPeer q none
    | none => g
  let g := g.modifyNode b.node fun m => { m with ports := m.ports.remove b.index }
  let g := g.readdress b.node b.index
  let g := g.modifyWiresAround b.node fun w => w.shift b.node b.index
  g.emit (.metadataChanged b.node)

/-- Takes away the network ports whose terminals lost their last wire with `e`. -/
def shrinkBoundary (cut : Graph → Edge → Graph) (g : Graph) (e : Edge) : Graph :=
  let g :=
    if g.terminal? e.output = some .input ∧ g.sinks e.output = [] then
      match g.peer? e.output with
      | some b => dropBoundary cut g b
      | none => g
    else g
  if g.terminal? e.input = some .output then
    match g.peer? e.input with
    | some b => dropBoundary cut g b
    | none => g
  else g

/-- The network port that the first port of a node has for a peer, if the node stands for one. -/
def exposedPort? (g : Graph) (n : NodeId) : Option Port :=
  if (g.terminal? ⟨n, 0⟩).isSome then g.peer? ⟨n, 0⟩ else none

/-- The places in their new order: first those that `names` leaves out, then those that it names. -/
def boundaryOrder (attributes names : List String) : List Nat :=
  let unnamed := (List.range attributes.length).filter fun i =>
    !(attributes[i]?).any fun a => names.contains a
  let named := names.filterMap fun n => attributes.idxOf? n
  unnamed ++ named.eraseDups

/-- Brings the ports of a network into the order of `names`. -/
def arrangeBoundary (g : Graph) (n : NodeId) (names : List String) : Except Error Graph := do
  let m ← g.node n
  let order := boundaryOrder (m.ports.entries.map fun s => s.attr.name) names
  if order = List.range order.length then .ok g
  else
    let g := g.modifyNode n fun m => { m with ports := m.ports.reorder order }
    let g := g.readdress n 0
    let g := g.modifyWiresAround n fun w => w.remap n order.idxOf
    .ok (g.emit (.metadataChanged n))

end Dataflow.Graph
