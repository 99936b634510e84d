import Dataflow.Document.Basic
import Dataflow.Graph.Flow
import Dataflow.Value.Encoding
set_option autoImplicit false

/-!
What a document keeps of a network. Values that can be made again are left out: a document has those
of serializable inputs without a wire only.
-/

namespace Dataflow.Graph

/-- Whether a document keeps the value of a port. -/
def isKept (g : Graph) (p : Port) (s : Slot) : Bool :=
  s.attr.direction == .input && s.attr.serializable && (g.effectiveType p).isSome &&
    (g.source? p).isNone && !s.held.isNull

def keptPorts (g : Graph) (n : NodeId) (m : Node) : Table String Json :=
  m.ports.entries.zipIdx.filterMap fun s =>
    if g.isKept ⟨n, s.2⟩ s.1 then some (s.1.attr.name, s.1.held.toJson) else none

def keptAttachment (m : Node) : Option AttachmentDocument :=
  m.attachment.payload?.map fun p => ⟨p.dataType.name, p.toJson⟩

def portName (g : Graph) (p : Port) : Except Error String := do
  pure (← g.slot p).attr.name

def connectionDocument (g : Graph) (e : Edge) : Except Error ConnectionDocument := do
  pure ⟨(← g.node e.output.node).name, ← g.portName e.output,
    (← g.node e.input.node).name, ← g.portName e.input⟩

/-- A network and what is nested in it, down to `levels` levels. -/
def saveWithin (g : Graph) : Nat → NodeId → Except Error NetworkDocument
  | 0, n => .error (.notANetwork n)
  | levels + 1, n => do
    let w ← g.network n
    let nodes ← w.children.mapM fun c => do
      let m ← g.node c
      let inner ← match m.inner with
        | some _ => (g.saveWithin levels c).map some
        | none => pure none
      let kept : NodeDocument := ⟨m.typeName, some c.raw, g.keptPorts c m, keptAttachment m, inner⟩
      pure (m.name, kept)
    let connections ← w.wires.mapM g.connectionDocument
    let boundary := (← g.node n).ports.entries.map fun s => s.attr.name
    pure ⟨nodes, connections, boundary⟩

/-- Networks stand in one another no deeper than there are nodes. -/
def documentOfNetwork (g : Graph) (n : NodeId) : Except Error NetworkDocument :=
  g.saveWithin (g.nodes.length + 1) n

def document (g : Graph) : Except Error NetworkDocument := g.documentOfNetwork g.root

end Dataflow.Graph
