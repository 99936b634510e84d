import Dataflow.Config
import Dataflow.Event
import Dataflow.Registry
import Dataflow.Wiring
set_option autoImplicit false

/-!
Graphs of nodes. Nodes stand in networks, which are nodes themselves, down from one root. A graph
also keeps what it has told about its changes. This module holds the types, the look-ups with their
errors, and the smallest changes, each of which touches one thing.
-/

namespace Dataflow

/-- One port of a node. -/
structure Slot where
  attr : Attribute
  held : Value
  /-- The held value is out of date. -/
  stale : Bool
  /-- The port at the other side of the boundary of a network. An input hands its value on to its
  peer, an output has its value from there. -/
  peer : Option Port
  deriving Repr

structure Network where
  /-- In the order in which they came. -/
  children : List NodeId
  wires : Wiring
  deriving DecidableEq, Repr

def Network.empty : Network := ⟨[], []⟩

structure Node where
  name : String
  /-- The network around the node, which the root has not. -/
  parent : Option NodeId
  typeName : String
  ports : Layout Slot
  compute : Option Computation
  status : Status
  /-- What a client has left with the node. -/
  attachment : Value
  /-- The contents, for a network. -/
  inner : Option Network

/-- The type of a node as it now is. -/
def Node.type (n : Node) : NodeType := ⟨n.typeName, n.ports.map Slot.attr, n.compute⟩

def Node.values (n : Node) : Datablock := n.ports.entries.map Slot.held

structure Graph where
  nodes : Table NodeId Node
  root : NodeId
  config : Config
  ids : IdSupply
  /-- The next mark for a new piece of data. -/
  marks : Nat
  /-- How often each computation has run. -/
  calls : Table Nat Nat
  /-- What happened, the latest first. -/
  journal : List Entry

/-- A change that may stop with an error on its way. The graph is then left as far as it got. -/
abbrev Edit (α : Type) := ExceptT Error (StateM Graph) α

namespace Graph

/-- A new port. Outputs start out of date. -/
def newSlot (a : Attribute) (v : Value) : Slot := ⟨a, v, a.direction == .output, none⟩

/-- A root without contents, under the next free number. -/
def create (config : Config) (ids : IdSupply) (marks : Nat) (calls : Table Nat Nat) : Graph :=
  let (root, ids) := ids.take
  let type := NodeType.network
  let node : Node := ⟨"", none, type.name, .empty, type.compute, .empty, .null, some .empty⟩
  ⟨[(root, node)], root, config, ids, marks, calls, []⟩

/-! ### Looking things up -/

def node? (g : Graph) (n : NodeId) : Option Node := g.nodes.get? n

def node (g : Graph) (n : NodeId) : Except Error Node :=
  match g.node? n with
  | some m => .ok m
  | none => .error (.nodeNotFound n)

def network (g : Graph) (n : NodeId) : Except Error Network := do
  match (← g.node n).inner with
  | some w => .ok w
  | none => .error (.notANetwork n)

def slot? (g : Graph) (p : Port) : Option Slot := do (← g.node? p.node).ports.get? p.index

def slot (g : Graph) (p : Port) : Except Error Slot := do
  match (← g.node p.node).ports.get? p.index with
  | some s => .ok s
  | none => .error (.noPort p)

/-- The port of that name. -/
def port (g : Graph) (n : NodeId) (name : String) : Except Error Port := do
  match (← g.node n).type.indexOf? name with
  | some i => .ok ⟨n, i⟩
  | none => .error (.portNotFound n name)

def held (g : Graph) (p : Port) : Value := (g.slot? p).elim .null Slot.held

def isStale (g : Graph) (p : Port) : Bool := (g.slot? p).elim false Slot.stale

def direction? (g : Graph) (p : Port) : Option Direction :=
  (g.slot? p).map fun s => s.attr.direction

def peer? (g : Graph) (p : Port) : Option Port := (g.slot? p).bind Slot.peer

/-- The network around a node. -/
def around? (g : Graph) (n : NodeId) : Option NodeId := (g.node? n).bind Node.parent

/-- The wires among which those of the node are. -/
def wiresAround (g : Graph) (n : NodeId) : Wiring :=
  match (g.around? n).bind fun p => (g.node? p).bind Node.inner with
  | some w => w.wires
  | none => []

def source? (g : Graph) (input : Port) : Option Port := (g.wiresAround input.node).source? input

def sinks (g : Graph) (output : Port) : List Port := (g.wiresAround output.node).sinks output

/-- The first child of that name. -/
def find? (g : Graph) (network : NodeId) (name : String) : Option NodeId :=
  match (g.node? network).bind Node.inner with
  | some w => w.children.find? fun c => (g.node? c).any fun m => m.name == name
  | none => none

/-- The ports of one node whose slots are as `keep` says. -/
def portsOf (keep : Slot → Bool) (n : NodeId) (m : Node) : List Port :=
  m.ports.entries.zipIdx.filterMap fun s => if keep s.1 then some ⟨n, s.2⟩ else none

def portsWhere (g : Graph) (keep : Slot → Bool) : List Port :=
  g.nodes.flatMap fun p => portsOf keep p.1 p.2

def ports (g : Graph) : List Port := g.portsWhere fun _ => true

/-- A node and what is nested in it, down to `levels` levels, each network before its contents. -/
def within (g : Graph) : Nat → NodeId → List NodeId
  | 0, _ => []
  | levels + 1, n =>
    n :: (((g.node? n).bind Node.inner).elim [] Network.children).flatMap (g.within levels)

/-- All nodes, from the root on. Networks stand in one another no deeper than there are nodes. -/
def tree (g : Graph) : List NodeId := g.within g.nodes.length g.root

/-! ### Changing one thing -/

def emit (g : Graph) (e : Event) : Graph := { g with journal := .event e :: g.journal }

def modifyNode (g : Graph) (n : NodeId) (f : Node → Node) : Graph :=
  { g with nodes := g.nodes.modify n f }

def modifySlot (g : Graph) (p : Port) (f : Slot → Slot) : Graph :=
  g.modifyNode p.node fun m => { m with ports := m.ports.modify p.index f }

def modifyNetwork (g : Graph) (n : NodeId) (f : Network → Network) : Graph :=
  g.modifyNode n fun m => { m with inner := m.inner.map f }

/-- Changes the wires among which those of the node are. -/
def modifyWiresAround (g : Graph) (n : NodeId) (f : Wiring → Wiring) : Graph :=
  match g.around? n with
  | some p => g.modifyNetwork p fun w => { w with wires := f w.wires }
  | none => g

/-- Gives data without a mark the next one. -/
def stamp (g : Graph) (v : Value) : Value × Graph :=
  let (v, next) := v.stamp g.marks
  (v, { g with marks := next })

/-- Replaces the held value without a word. -/
def put (g : Graph) (p : Port) (v : Value) : Graph :=
  let (v, g) := g.stamp v
  g.modifySlot p fun s => { s with held := v }

/-- Replaces the held value and tells of it. -/
def hold (g : Graph) (p : Port) (v : Value) : Graph := (g.put p v).emit (.valueChanged p)

def setPeer (g : Graph) (p : Port) (q : Option Port) : Graph :=
  g.modifySlot p fun s => { s with peer := q }

/-- The held value counts as up to date from now on. -/
def setCurrent (g : Graph) (p : Port) : Graph :=
  (g.modifySlot p fun s => { s with stale := false }).emit (.flagsChanged p)

/-- The held value counts as out of date from now on. -/
def setStale (g : Graph) (p : Port) : Graph :=
  ((g.modifySlot p fun s => { s with stale := true }).emit (.flagsChanged p)).emit .graphDirtied

/-- A node that says something new is told of. -/
def setStatus (g : Graph) (n : NodeId) (s : Status) : Graph :=
  match g.node? n with
  | some m =>
    if m.status = s then g
    else (g.modifyNode n fun m => { m with status := s }).emit (.stateChanged n)
  | none => g

/-- New nodes get larger numbers from now on, as far as there are any. -/
def passOver (g : Graph) (n : UInt64) : Graph := { g with ids := g.ids.passOver n }

end Graph

namespace Edit
variable {α : Type}

def look (f : Graph → Except Error α) : Edit α := do
  match f (← get) with
  | .ok a => pure a
  | .error e => throw e

def change (f : Graph → Graph) : Edit Unit := modify f

/-- A change that is either made as a whole or not at all. -/
def step (f : Graph → Except Error Graph) : Edit Unit := do set (← look f)

/-- How a change went, as something to look at. -/
def outcome (x : Edit α) : Edit (Except Error α) :=
  ExceptT.mk do
    let r ← x.run
    pure (.ok r)

/-- The result and the graph, which is there also after an error. -/
def apply (x : Edit α) (g : Graph) : Except Error α × Graph := x.run g

end Edit
end Dataflow
