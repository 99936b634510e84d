import Dataflow.Document.Basic
import Dataflow.Wire.MessagePack
set_option autoImplicit false

/-!
The written forms of documents. Both go through one tree. What is empty or absent is left out of it
where reading puts it back. Reading counts the containers that stand in one another.
-/

namespace Dataflow

def ConnectionDocument.fieldNames : List String := ["out_node", "out_port", "in_node", "in_port"]

def ConnectionDocument.toWire (c : ConnectionDocument) : Wire :=
  .record [
    (.text "out_node", .text c.outNode), (.text "out_port", .text c.outPort),
    (.text "in_node", .text c.inNode), (.text "in_port", .text c.inPort)]

def ConnectionDocument.ofWire? (w : Wire) : Option ConnectionDocument := do
  match ← w.fields fieldNames with
  | [some a, some b, some c, some d] => pure ⟨← a.asText?, ← b.asText?, ← c.asText?, ← d.asText?⟩
  | _ => none

def AttachmentDocument.fieldNames : List String := ["type", "value"]

def AttachmentDocument.toWire (b : AttachmentDocument) : Wire :=
  .record [(.text "type", .text b.typeName), (.text "value", b.value.toWire)]

def AttachmentDocument.ofWire? (room : Nat) (w : Wire) : Option AttachmentDocument := do
  match ← w.fields fieldNames with
  | [some type, some value] => pure ⟨← type.asText?, ← Json.ofWire? room value⟩
  | _ => none

namespace NodeDocument

def fieldNames : List String := ["type", "id", "ports", "blind_data", "network"]

def networkFieldNames : List String := ["nodes", "connections", "boundary"]

/-- A field that is there only for something. -/
def ifSome {α : Type} (name : String) (f : α → Wire) : Option α → List (Wire × Wire)
  | some a => [(.text name, f a)]
  | none => []

/-- A field that is there only for a list with something in it. -/
def ifAny {α : Type} (name : String) (f : List α → Wire) : List α → List (Wire × Wire)
  | [] => []
  | as => [(.text name, f as)]

def wirePorts (ports : Table String Json) : Wire :=
  .record (ports.map fun p => (.text p.1, p.2.toWire))

def wireConnections (cs : List ConnectionDocument) : Wire :=
  .list (cs.map ConnectionDocument.toWire)

def wireNames (names : List String) : Wire := .list (names.map .text)

mutual
def toWire : NodeDocument → Wire
  | ⟨type, id, ports, attachment, network⟩ =>
    .record (
      (.text "type", .text type) :: ifSome "id" (fun n => .int n.toNat) id ++
        ifAny "ports" wirePorts ports ++ ifSome "blind_data" AttachmentDocument.toWire attachment ++
        wireInner network)

def wireInner : Option (NetworkOf NodeDocument) → List (Wire × Wire)
  | some d => [(.text "network", wireNetwork d)]
  | none => []

def wireNetwork : NetworkOf NodeDocument → Wire
  | ⟨nodes, connections, boundary⟩ =>
    .record (
      (.text "nodes", .record (wireNodes nodes)) ::
        (.text "connections", wireConnections connections) :: ifAny "boundary" wireNames boundary)

def wireNodes : List (String × NodeDocument) → List (Wire × Wire)
  | [] => []
  | (name, d) :: rest => (.text name, d.toWire) :: wireNodes rest
end

/-- Reads the items of a list, which takes one level itself. -/
def listOf {α : Type} (room : Nat) (read : Nat → Wire → Option α) (w : Wire) : Option (List α) :=
  match room with
  | 0 => none
  | room + 1 => w.asList?.bind fun items => items.mapM (read room)

/-- Reads the members of a record, which takes one level itself. A name that comes again replaces
what came under it. -/
def tableOf {α : Type} (room : Nat) (read : Nat → Wire → Option α) (w : Wire) :
    Option (Table String α) :=
  match room, w with
  | room + 1, .record members => do
    let pairs ← members.mapM fun p => do pure (← p.1.asText?, ← read room p.2)
    pure (Table.ofPairs pairs)
  | _, _ => none

/-- A field that may be missing. -/
def orDefault {α : Type} (default : α) (read : Wire → Option α) : Option Wire → Option α
  | some w => read w
  | none => some default

/-- Reads a record or what stands for one, which takes one level itself. -/
def inside {α : Type} (room : Nat) (read : Nat → Wire → Option α) (w : Wire) : Option α :=
  match room with
  | 0 => none
  | room + 1 => read room w

mutual
def readNetwork : Nat → Wire → Option NetworkDocument
  | 0, _ => none
  | room + 1, w => do
    match ← w.fields networkFieldNames with
    | [some nodes, connections, boundary] =>
      let nodes ← readNodes room nodes
      let connections ← orDefault []
        (listOf room fun room => inside room fun _ => ConnectionDocument.ofWire?) connections
      let boundary ← orDefault [] (listOf room fun _ => Wire.asText?) boundary
      pure ⟨nodes, connections, boundary⟩
    | _ => none

def readNodes : Nat → Wire → Option (Table String NodeDocument)
  | room + 1, .record members => do
    let pairs ← members.mapM fun p => do pure (← p.1.asText?, ← readNode room p.2)
    pure (Table.ofPairs pairs)
  | _, _ => none

def readNode : Nat → Wire → Option NodeDocument
  | 0, _ => none
  | room + 1, w => do
    match ← w.fields fieldNames with
    | [some type, id, ports, attachment, network] =>
      let type ← type.asText?
      let id ← orDefault none (Wire.optional Wire.asWord?) id
      let ports ← orDefault [] (tableOf room Json.ofWire?) ports
      let attachment ←
        orDefault none (Wire.optional (inside room AttachmentDocument.ofWire?)) attachment
      let network ← orDefault none (Wire.optional fun w => readNetwork room w) network
      pure ⟨type, id, ports, attachment, network⟩
    | _ => none
end

end NodeDocument

namespace NetworkOf

def toWire (d : NetworkDocument) : Wire := NodeDocument.wireNetwork d

/-- Two documents agree if they are written alike. -/
def agrees (d e : NetworkDocument) : Bool := d.toWire == e.toWire

def toJsonText (d : NetworkDocument) : String := d.toWire.toPrettyText

def ofJsonText? (s : String) : Option NetworkDocument :=
  (Wire.ofJsonText s).bind (NodeDocument.readNetwork Json.textRoom)

def toBytes (d : NetworkDocument) : List UInt8 := d.toWire.pack

/-- The reader of the bytes has counted the containers already. -/
def ofBytes? (b : List UInt8) : Option NetworkDocument :=
  (Wire.unpack b).bind (NodeDocument.readNetwork Wire.packRoom)

end NetworkOf
end Dataflow
