import Dataflow.Layout
import Dataflow.Task
import Dataflow.Text.Quoted
set_option autoImplicit false

/-!
Node types. A type declares the attributes of its nodes, which inputs influence which outputs, and
the computation that fills the outputs. The type of a network grows and shrinks with its boundary.
-/

namespace Dataflow

inductive Direction where
  | input | output
  deriving DecidableEq, Repr

namespace Direction

def label : Direction → String
  | .input => "input"
  | .output => "output"

def debugText : Direction → String
  | .input => "Input"
  | .output => "Output"

end Direction

structure Attribute where
  name : String
  direction : Direction
  type : PortType
  /-- With a mark it is one piece of data for all that take it, without one a new piece each
  time. -/
  default : Value
  /-- Documents leave out what is not serializable, and losing its wire resets it. -/
  serializable : Bool
  deriving Repr

namespace Attribute

/-- An attribute of the type that its default has. -/
def ofValue (name : String) (direction : Direction) (value : Value) : Attribute :=
  ⟨name, direction, value.portType, value, true⟩

/-- An attribute that takes its type from the wiring. -/
def untyped (name : String) (direction : Direction) : Attribute :=
  ⟨name, direction, none, .null, true⟩

def debugText (a : Attribute) : String :=
  "Attr \x7b name: " ++ Text.quoted a.name ++ ", category: " ++ a.direction.debugText ++
    ", value_type: TypeTag(" ++ typeName a.type ++ "), flags: AttrFlags \x7b serializable: " ++
    (if a.serializable then "true" else "false") ++ " \x7d \x7d"

end Attribute

structure NodeType where
  name : String
  ports : Layout Attribute
  compute : Option Computation

namespace NodeType

def plain (name : String) : NodeType := ⟨name, .empty, none⟩

def declare (t : NodeType) (a : Attribute) : NodeType := { t with ports := t.ports.declare a }

/-- The first attribute of that name. -/
def indexOf? (t : NodeType) (name : String) : Option Nat :=
  t.ports.entries.findIdx? fun a => a.name = name

/-- The outputs that the input at `i` influences. -/
def outputsOf (t : NodeType) (i : Nat) : List Nat :=
  match t.ports.get? i with
  | some a => if a.direction = .input then t.ports.outputsOf i else []
  | none => []

/-- The inputs that influence the output at `i`. -/
def inputsOf (t : NodeType) (i : Nat) : List Nat :=
  match t.ports.get? i with
  | some a => if a.direction = .output then t.ports.inputsOf i else []
  | none => []

def debugText (t : NodeType) : String :=
  "Metadata \x7b type_name: " ++ Text.quoted t.name ++ ", attrs: [" ++
    ", ".intercalate (t.ports.entries.map Attribute.debugText) ++ "], has_compute: " ++
    (if t.compute.isSome then "true" else "false") ++ " \x7d"

/-- Brings the outside of its network to the inside: one output without a type. -/
def networkInput : NodeType := (plain "input").declare (.untyped "data" .output)

/-- Brings the inside of its network to the outside: one input without a type. -/
def networkOutput : NodeType := (plain "output").declare (.untyped "data" .input)

/-- Every network starts from this type and gets attributes as its boundary grows. -/
def network : NodeType := plain "network"

end NodeType

/-- The values of the attributes of one node, in order. -/
abbrev Datablock := List Value

namespace Datablock

def ofType (t : NodeType) : Datablock := t.ports.entries.map Attribute.default

def getAs? (b : Datablock) (i : Nat) (t : DataType) : Option Payload := b[i]?.bind (Value.as? t)

/-- Says whether there was such a place. -/
def put (b : Datablock) (i : Nat) (v : Value) : Bool × Datablock := (i < b.length, b.set i v)

/-- Puts back the default. -/
def reset (b : Datablock) (t : NodeType) (i : Nat) : Datablock :=
  match t.ports.get? i with
  | some a => b.set i a.default
  | none => b

def agrees : Datablock → Datablock → Bool
  | [], [] => true
  | a :: as, b :: bs => a.agrees b && agrees as bs
  | _, _ => false

theorem length_ofType (t : NodeType) : (ofType t).length = t.ports.length := by
  simp [ofType, Layout.length]

end Datablock
end Dataflow
