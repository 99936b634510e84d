import Dataflow.Port
import Dataflow.Value.Basic
set_option autoImplicit false

/-! Why an operation on a graph fails, and the message that says so. -/

namespace Dataflow

inductive Error where
  | alreadyConnected (input : Port)
  | cyclicDependency (output input : Port)
  | typeMismatch (expected found : String)
  | crossNetworkConnection (output input : Port)
  | invalidDirection (port : Port)
  | notConnected (output input : Port)
  | unconnectedUntypedRead (port : Port)
  | computeFailure (node : NodeId) (message : String)
  | nodeNotFound (node : NodeId)
  | portNotFound (node : NodeId) (port : String)
  | notANetwork (node : NodeId)
  | unknownNodeType (name : String)
  | unknownDataType (name : String)
  | duplicateName (name : String)
  | duplicateId (node : NodeId)
  | datablockMismatch (expected found : Nat)
  | rootRemoval
  | evaluationTooDeep (limit : Nat)
  | serialization (detail : String)
  deriving DecidableEq, Repr

namespace Error

def number (n : Nat) : String := String.ofList (digitChars n)

def message : Error → String
  | .alreadyConnected i => "input port " ++ i.text ++ " is already connected"
  | .cyclicDependency o i =>
    "connecting " ++ o.text ++ " to " ++ i.text ++ " would create a cyclic dependency"
  | .typeMismatch e f => "type mismatch: expected " ++ e ++ ", found " ++ f
  | .crossNetworkConnection o i =>
    "cannot connect " ++ o.text ++ " to " ++ i.text ++ ": ports belong to different networks"
  | .invalidDirection p => "port " ++ p.text ++ " has the wrong direction for this operation"
  | .notConnected o i => o.text ++ " is not connected to " ++ i.text
  | .unconnectedUntypedRead p => "port " ++ p.text ++ " is untyped and unconnected"
  | .computeFailure n m => "compute of node " ++ n.text ++ " failed: " ++ m
  | .nodeNotFound n => "node " ++ n.text ++ " not found"
  | .portNotFound n p => "node " ++ n.text ++ " has no port " ++ p
  | .notANetwork n => "node " ++ n.text ++ " is not a network"
  | .unknownNodeType s => "unknown node type '" ++ s ++ "'"
  | .unknownDataType s => "unknown data type '" ++ s ++ "'"
  | .duplicateName s => "name '" ++ s ++ "' is already taken"
  | .duplicateId n => "node id " ++ n.text ++ " is already in use"
  | .datablockMismatch e f =>
    "datablock has " ++ number f ++ " slots, metadata declares " ++ number e
  | .rootRemoval => "the root network cannot be removed"
  | .evaluationTooDeep d => "evaluation exceeded the maximum depth of " ++ number d
  | .serialization d => "serialization error: " ++ d

/-- A port or a value of another type than the one it has to have. -/
def mismatch (expected found : PortType) : Error :=
  .typeMismatch (typeName expected) (typeName found)

/-- Written data that stands for no value, or for no document. -/
def malformed : Error := .serialization "malformed data"

/-- No data is of the open type. -/
def undecodable (t : PortType) : Error :=
  .serialization ("cannot decode a value of type '" ++ typeName t ++ "'")

/-- The port of a node that has no attribute in that place. -/
def noPort (p : Port) : Error := .portNotFound p.node (number p.index)

end Error
end Dataflow
