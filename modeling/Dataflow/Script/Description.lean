import Dataflow.NodeType
import Dataflow.Script.Basic
import Dataflow.Value.Encoding
set_option autoImplicit false

/-!
Descriptions of node types: the attributes with their defaults, the influences and a script. They
are read from JSON, where a value is written as its type and its data.
-/

namespace Dataflow

/-- Why something cannot be read from JSON: it has not the form of what it should be, or its data is
not of the type that it names. -/
inductive Illegible where
  | form
  | data
  deriving DecidableEq, Repr

abbrev Reader (α : Type) := Except Illegible α

namespace Reader

def need {α : Type} : Option α → Reader α
  | some a => .ok a
  | none => .error .form

def text : Json → Reader String
  | .text s => .ok s
  | _ => .error .form

def nat : Json → Reader Nat
  | .int i => if 0 ≤ i then .ok i.toNat else .error .form
  | _ => .error .form

def list : Json → Reader (List Json)
  | .list items => .ok items
  | _ => .error .form

def field? (name : String) : Json → Option Json
  | .object members => DataType.member name members
  | _ => none

/-- A field that is missing reads as null. -/
def field (name : String) (v : Json) : Json := (field? name v).getD .null

/-- The items of a list, of which there are none if it is missing. -/
def items (v : Json) : Reader (List Json) :=
  match v with
  | .null => .ok []
  | v => list v

def dataType (v : Json) : Reader DataType := do need (DataType.ofName? (← text v))

def infinity : Float := 1.0 / 0.0

/-- The floats that JSON has no numbers for. -/
def special? : String → Option Float
  | "NaN" => some (0.0 / 0.0)
  | "inf" => some infinity
  | "-inf" => some (-infinity)
  | _ => none

def payload (t : DataType) (v : Json) : Reader Payload :=
  let plain := match t.decode? v with
    | some p => .ok p
    | none => .error .data
  match t, v with
  | .float, .text s => match special? s with
    | some x => .ok (.float (narrow x))
    | none => plain
  | .double, .text s => match special? s with
    | some x => .ok (.double x)
    | none => plain
  | _, _ => plain

def value : Json → Reader Value
  | .null => .ok .null
  | .list [t, v] => do pure (.fresh (← payload (← dataType t) v))
  | _ => .error .form

end Reader

structure Description where
  name : String
  attributes : List Attribute
  influences : List (Nat × Nat)
  script : Option Script

namespace Description
open Reader

/-- The node type of a description. Its computation is known by `serial`. -/
def nodeType (d : Description) (serial : Nat) : NodeType :=
  let ports := d.influences.foldl (fun l p => l.influence p.1 p.2) ⟨d.attributes, []⟩
  ⟨d.name, ports, d.script.map fun s => ⟨serial, s.body⟩⟩

mutual
def readExpr (v : Json) : Reader Expr :=
  match v with
  | .list (.text "in" :: i :: t :: _) => do pure (.input (← nat i) (← dataType t))
  | .list (.text "val" :: i :: _) => do pure (.value (← nat i))
  | .list (.text "const" :: v :: _) => do pure (.const (← value v))
  | .list (.text "null" :: _) => .ok (.const .null)
  | .list (.text "blind" :: t :: _) => do pure (.attachment (← dataType t))
  | .list (.text "calls" :: _) => .ok .calls
  | .list (.text "node" :: _) => .ok .node
  | .list (.text "output" :: _) => .ok .output
  | .list (.text "type" :: i :: _) => do pure (.typeOf (← nat i))
  | .list (.text name :: operands) =>
    match Operation.ofName? name with
    | some o => do
      match ← readExprs operands with
      | a :: b :: _ => pure (.apply o a b)
      | _ => .error .form
    | none => .ok (.unknown name)
  | _ => .error .form

def readExprs : List Json → Reader (List Expr)
  | [] => .ok []
  | v :: vs => do
    let e ← readExpr v
    let es ← readExprs vs
    pure (e :: es)
end

mutual
def readStatement (v : Json) : Reader Statement :=
  match v with
  | .list (.text "set" :: i :: e :: _) => do pure (.set (← nat i) (← readExpr e))
  | .list (.text "set_value" :: i :: e :: _) => do pure (.pass (← nat i) (← readExpr e))
  | .list (.text "if_computing" :: i :: .list body :: _) => do
    pure (.ifComputing (← nat i) (← readStatements body))
  | .list (.text "if_eq" :: a :: b :: .list body :: _) => do
    pure (.ifEqual (← readExpr a) (← readExpr b) (← readStatements body))
  | .list (.text "try" :: .list body :: _) => do pure (.attempt (← readStatements body))
  | .list (.text "info" :: s :: _) => do pure (.report .info (← text s))
  | .list (.text "warning" :: s :: _) => do pure (.report .warning (← text s))
  | .list (.text "error" :: s :: _) => do pure (.report .error (← text s))
  | .list (.text "fail" :: s :: _) => do pure (.fail (← text s))
  | .list (.text name :: _) => .ok (.unknown name)
  | _ => .ok (.unknown "")

def readStatements : List Json → Reader (List Statement)
  | [] => .ok []
  | v :: vs => do
    let s ← readStatement v
    let rest ← readStatements vs
    pure (s :: rest)
end

def readDirection : Json → Reader Direction
  | .text "in" => .ok .input
  | .text "out" => .ok .output
  | _ => .error .form

/-- Outputs are always serializable, and inputs if nothing else is said. -/
def readAttribute (v : Json) : Reader Attribute := do
  match ← list v with
  | name :: direction :: type :: rest =>
    let name ← text name
    let direction ← readDirection direction
    match ← text type with
    | "void" => pure (.untyped name direction)
    | _ =>
      let t ← dataType type
      let default ← payload t ((rest[0]?).getD .null)
      let serializable := match direction, rest with
        | .input, _ :: .bool b :: _ => b
        | _, _ => true
      pure ⟨name, direction, some t, .fresh default, serializable⟩
  | _ => .error .form

/-- An input may influence an output. -/
def readInfluence (attributes : List Attribute) (v : Json) : Reader (Nat × Nat) := do
  match ← list v with
  | [i, o] =>
    let i ← nat i
    let o ← nat o
    match attributes[i]?.map Attribute.direction, attributes[o]?.map Attribute.direction with
    | some .input, some .output => pure (i, o)
    | _, _ => .error .form
  | _ => .error .form

def read (v : Json) : Reader Description := do
  let name ← text (field "name" v)
  let attributes ← (← items (field "attrs" v)).mapM readAttribute
  let influences ← (← items (field "influence" v)).mapM (readInfluence attributes)
  let script ← match field "compute" v with
    | .null => pure none
    | s => do pure (some (← readStatements (← list s)))
  pure ⟨name, attributes, influences, script⟩

end Description
end Dataflow
