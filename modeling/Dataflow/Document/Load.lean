import Dataflow.Document.Basic
import Dataflow.Graph.Assign
import Dataflow.Graph.Build
import Dataflow.Value.Encoding
set_option autoImplicit false

/-!
Building a network from a document. All nodes come first, each with its contents, so that every
boundary is there before a wire leads to it. Then come the wires, the order of the boundary, and the
values.
-/

namespace Dataflow

/-- Reads data of a type, which must not be open. -/
def PortType.decode (t : PortType) (v : Json) : Except Error Value :=
  match t with
  | none => .error (.undecodable none)
  | some t => match t.decode? v with
    | some p => .ok (.fresh p)
    | none => .error .malformed

namespace Graph

def passOverIds (d : NetworkDocument) : Edit Unit :=
  match d.largestId with
  | some n => Edit.change (·.passOver n)
  | none => pure ()

def readAttachment (r : Registry) : Option AttachmentDocument → Except Error (Option Value)
  | none => .ok none
  | some b => do
    let t ← r.getData b.typeName
    let v ← PortType.decode (some t) b.value
    .ok (some v)

/-- A node is kept under its own number, which then is never handed out again. -/
def keptId : Option UInt64 → Edit (Option NodeId)
  | none => pure none
  | some n => do
    Edit.change (·.passOver n)
    pure (some ⟨n⟩)

def childNamed (g : Graph) (network : NodeId) (name : String) : Except Error NodeId :=
  match g.find? network name with
  | some c => .ok c
  | none => .error (.portNotFound network name)

def loadConnection (network : NodeId) (c : ConnectionDocument) : Edit Unit :=
  Edit.step fun g => do
    let o ← g.childNamed network c.outNode
    let i ← g.childNamed network c.inNode
    let output ← g.port o c.outPort
    let input ← g.port i c.inPort
    g.connect output input

def loadValue (n : NodeId) (name : String) (v : Json) : Edit Unit :=
  Edit.step fun g => do
    let p ← g.port n name
    let t ← g.resolved p
    g.assign p (← PortType.decode (some t) v)

mutual
/-- The node with its contents. -/
def loadNode (r : Registry) (network : NodeId) (name : String) : NodeDocument → Edit NodeId
  | ⟨typeName, id, _, attachment, inner⟩ => do
    let t ← Edit.look fun _ => r.get typeName
    let attachment ← Edit.look fun _ => readAttachment r attachment
    let id ← addNode network t name ⟨← keptId id, attachment, none⟩
    loadContents r t id inner
    pure id

def loadContents (r : Registry) (t : NodeType) (id : NodeId) :
    Option (NetworkOf NodeDocument) → Edit Unit
  | none => pure ()
  | some d => if t.name = NodeType.network.name then loadInto r id d else throw (.notANetwork id)

def loadNodes (r : Registry) (network : NodeId) :
    List (String × NodeDocument) → Edit (List (NodeId × NodeDocument))
  | [] => pure []
  | (name, d) :: rest => do
    let id ← loadNode r network name d
    let ids ← loadNodes r network rest
    pure ((id, d) :: ids)

/-- Adds what a document has to a network, beside what is there. -/
def loadInto (r : Registry) (network : NodeId) : NetworkOf NodeDocument → Edit Unit
  | ⟨nodes, connections, boundary⟩ => do
    let loaded ← loadNodes r network nodes
    connections.forM (loadConnection network)
    Edit.step (·.arrangeBoundary network boundary)
    loaded.forM fun n => n.2.ports.forM fun p => loadValue n.1 p.1 p.2
end

/-- Builds a new graph from a document. On an error the old graph stays as it was, and only the
numbers that were handed out meanwhile are spent. -/
def rebuild (config : Config) (r : Registry) (d : NetworkDocument) : Edit Graph := do
  passOverIds d
  let old ← get
  let fresh := create config old.ids old.marks old.calls
  match (loadInto r fresh.root d).apply fresh with
  | (.ok (), new) => pure new
  | (.error e, new) => do
    set { old with ids := new.ids }
    throw e

/-- Replaces all contents by those of a document. -/
def restore (r : Registry) (d : NetworkDocument) : Edit Unit := do
  let new ← rebuild (← get).config r d
  let journal := (← get).journal
  set ({ new with journal := journal }.emit .cleared)

/-- A new graph with the contents of a document. -/
def ofDocument (r : Registry) (d : NetworkDocument) : Edit Unit := do
  let new ← rebuild .standard r d
  set { new with journal := [] }

end Graph
end Dataflow
