import Dataflow.Graph.Connect
set_option autoImplicit false

/-! Adding, removing and renaming nodes. -/

namespace Dataflow

/-- What may be said about a new node besides its type and name. -/
structure NodeExtras where
  id : Option NodeId
  attachment : Option Value
  /-- One value for each attribute, instead of the defaults. -/
  values : Option Datablock

def NodeExtras.standard : NodeExtras := ⟨none, none, none⟩

namespace Graph

def numbered (name : String) (k : Nat) : String := name ++ "_" ++ String.ofList (digitChars k)

/-- A name for a new child: the name itself if it is free, else, where that is allowed, the first
free one among the numbered ones. Of more numbers than there are children one is free. -/
def freeName (g : Graph) (network : NodeId) (name : String) : Except Error String := do
  if (g.find? network name).isNone then return name
  if g.config.uniqueNames then throw (.duplicateName name)
  let children := (← g.network network).children
  let candidates := (List.range (children.length + 1)).map fun k => numbered name (k + 1)
  match candidates.find? fun c => (g.find? network c).isNone with
  | some c => return c
  | none => throw (.duplicateName name)

/-- Puts a new node into a network. -/
def insert (g : Graph) (id parent : NodeId) (t : NodeType) (name : String) (values : Datablock)
    (attachment : Value) : Graph :=
  let (values, marks) := Value.stampAll g.marks values
  let slots := (t.ports.entries.zip values).map fun p => newSlot p.1 p.2
  let inner := if t.name = NodeType.network.name then some Network.empty else none
  let node : Node :=
    ⟨name, some parent, t.name, ⟨slots, t.ports.influences⟩, t.compute, .empty, attachment, inner⟩
  let g := { g with nodes := g.nodes.put id node, marks := marks }
  (g.modifyNetwork parent fun w => { w with children := w.children ++ [id] }).emit (.nodeAdded id)

def takeId : Edit NodeId := do
  let g ← get
  let (id, ids) := g.ids.take
  set { g with ids := ids }
  pure id

/-- The number of a new node is spent even if the node is then refused. -/
def addNode (parent : NodeId) (t : NodeType) (name : String) (options : NodeExtras) :
    Edit NodeId := do
  let _ ← Edit.look (·.network parent)
  let name ← Edit.look (·.freeName parent name)
  let id ← match options.id with
    | some id => pure id
    | none => takeId
  if (← get).nodes.has id then throw (.duplicateId id)
  let values := options.values.getD (Datablock.ofType t)
  if values.length ≠ t.ports.length then
    throw (.datablockMismatch t.ports.length values.length)
  Edit.change fun g => g.insert id parent t name values (options.attachment.getD .null)
  pure id

def addNetwork (parent : NodeId) (name : String) : Edit NodeId :=
  addNode parent .network name .standard

/-- The nodes of a network and those nested in them, down to `levels` levels, contents before their
network and later children before earlier ones. -/
def below (g : Graph) : Nat → NodeId → List NodeId
  | 0, _ => []
  | levels + 1, n =>
    let children := match (g.node? n).bind Node.inner with
      | some w => w.children.reverse
      | none => []
    children.flatMap (g.below levels) ++ [n]

/-- Removes a node without contents. Its wires go first, each with what it alone keeps. -/
def removeLeaf (g : Graph) (n : NodeId) : Graph :=
  match g.around? n with
  | some parent =>
    let g := ((g.wiresAround n).filter (Edge.touches n)).foldl cut g
    let g := g.emit (.nodeRemoved n)
    let g := g.modifyNetwork parent fun w => { w with children := w.children.erase n }
    { g with nodes := g.nodes.erase n }
  | none => g

/-- Removes a node with all that it contains. -/
def removeTree (g : Graph) (n : NodeId) : Graph := (g.below g.nodes.length n).foldl removeLeaf g

def removeNode (g : Graph) (n : NodeId) : Except Error Graph := do
  if n = g.root then throw .rootRemoval
  if (← g.node n).parent.isNone then throw .rootRemoval
  .ok (g.removeTree n)

/-- Removes every node but the root. -/
def clear (g : Graph) : Graph :=
  let children := match (g.node? g.root).bind Node.inner with
    | some w => w.children.reverse
    | none => []
  (children.foldl removeTree g).emit .cleared

def renamePort (g : Graph) (p : Port) (name : String) : Graph :=
  (g.modifySlot p fun s => { s with attr := { s.attr with name := name } }).emit
    (.metadataChanged p.node)

/-- A network port takes over the new name of its node. -/
def renameBoundary (g : Graph) (n : NodeId) (name : String) : Except Error Graph :=
  match g.exposedPort? n with
  | some b => do
    if ((← g.node b.node).type.indexOf? name).isSome then throw (.duplicateName name)
    .ok (g.renamePort b name)
  | none => .ok g

def rename (g : Graph) (n : NodeId) (name : String) : Except Error Graph := do
  let m ← g.node n
  match m.parent with
  | none => .error .rootRemoval
  | some parent =>
    if m.name = name then .ok g
    else
      let name ← g.freeName parent name
      let g ← g.renameBoundary n name
      .ok (g.modifyNode n fun m => { m with name := name })

/-- Leaves something with a node, in place of what was left there. -/
def setAttachment (g : Graph) (n : NodeId) (v : Value) : Except Error Graph := do
  let _ ← g.node n
  .ok (g.modifyNode n fun m => { m with attachment := v })

end Graph
end Dataflow
