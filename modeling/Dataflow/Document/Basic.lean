import Dataflow.Json
import Dataflow.Table
set_option autoImplicit false

/-!
Documents are what is kept of a network: its nodes by name, its wires by the names of nodes and
ports, and the names on its boundary. A node that is a network has a document of its own in it.
-/

namespace Dataflow

structure ConnectionDocument where
  outNode : String
  outPort : String
  inNode : String
  inPort : String
  deriving DecidableEq, Repr

/-- What a client has left with a node, and its type. -/
structure AttachmentDocument where
  typeName : String
  value : Json
  deriving Repr

/-- A network whose nodes are kept as `Entry`. -/
structure NetworkOf (Entry : Type) where
  nodes : List (String × Entry)
  connections : List ConnectionDocument
  boundary : List String
  deriving Repr

structure NodeDocument where
  typeName : String
  id : Option UInt64
  ports : Table String Json
  attachment : Option AttachmentDocument
  network : Option (NetworkOf NodeDocument)
  deriving Repr

abbrev NetworkDocument := NetworkOf NodeDocument

def largest : Option UInt64 → Option UInt64 → Option UInt64
  | some a, some b => some (if a < b then b else a)
  | some a, none => some a
  | none, b => b

mutual
def NodeDocument.largestId : NodeDocument → Option UInt64
  | ⟨_, id, _, _, none⟩ => id
  | ⟨_, id, _, _, some ⟨nodes, _, _⟩⟩ => largest id (largestIdOf nodes)

def largestIdOf : List (String × NodeDocument) → Option UInt64
  | [] => none
  | (_, d) :: rest => largest d.largestId (largestIdOf rest)
end

/-- The largest number of a node anywhere in the document. -/
def NetworkOf.largestId (d : NetworkDocument) : Option UInt64 := largestIdOf d.nodes

end Dataflow
