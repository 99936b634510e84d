import Dataflow.NodeType
import Dataflow.Table
set_option autoImplicit false

/-!
The node types and data types that documents may name. A document can be loaded only where all the
types that it names are known.
-/

namespace Dataflow

structure Registry where
  nodeTypes : Table String NodeType
  dataTypes : List DataType

namespace Registry

def empty : Registry := ⟨[], []⟩

/-- Knows the parts of networks and the common data types. -/
def standard : Registry :=
  ⟨[("input", .networkInput), ("output", .networkOutput), ("network", .network)], DataType.common⟩

/-- A name is taken once. -/
def add (r : Registry) (t : NodeType) : Except Error Registry :=
  if r.nodeTypes.has t.name then .error (.duplicateName t.name)
  else .ok { r with nodeTypes := r.nodeTypes.put t.name t }

/-- Nodes of the type stay as they are. -/
def remove (r : Registry) (name : String) : Option NodeType × Registry :=
  (r.nodeTypes.get? name, { r with nodeTypes := r.nodeTypes.erase name })

def find? (r : Registry) (name : String) : Option NodeType := r.nodeTypes.get? name

def get (r : Registry) (name : String) : Except Error NodeType :=
  match r.find? name with
  | some t => .ok t
  | none => .error (.unknownNodeType name)

def names (r : Registry) : List String := r.nodeTypes.keys

def addData (r : Registry) (t : DataType) : Registry :=
  if t ∈ r.dataTypes then r else { r with dataTypes := r.dataTypes ++ [t] }

def data? (r : Registry) (name : String) : Option DataType :=
  r.dataTypes.find? fun t => t.name = name

def getData (r : Registry) (name : String) : Except Error DataType :=
  match r.data? name with
  | some t => .ok t
  | none => .error (.unknownDataType name)

end Registry
end Dataflow
