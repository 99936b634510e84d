import Dataflow.Json
import Dataflow.Text.Quoted
import Dataflow.Value.Basic
import Dataflow.Value.Width
set_option autoImplicit false

/-!
Values as JSON. Each type reads the forms it knows and refuses all others: whole numbers do not read
numbers with a point, floats read both. A float that is not finite is written as null, which no
type reads.
-/

namespace Dataflow

namespace DataType

/-- A whole number is rounded once, straight to the narrow width. -/
def readFloat : Json → Option Float32
  | .int i => some (if i < 0 then (Int64.ofInt i).toFloat32 else (UInt64.ofNat i.toNat).toFloat32)
  | .float x => some (narrow x)
  | _ => none

def readDouble : Json → Option Float
  | .int i => some (if i < 0 then (Int64.ofInt i).toFloat else (UInt64.ofNat i.toNat).toFloat)
  | .float x => some x
  | _ => none

/-- A whole number from `low` up to but without `high`. -/
def readWhole (low high : Int) : Json → Option Int
  | .int i => if low ≤ i ∧ i < high then some i else none
  | _ => none

def readFloats : List Json → Option (List Float32)
  | [] => some []
  | v :: vs => do
    let x ← readFloat v
    let xs ← readFloats vs
    pure (x :: xs)

def member (name : String) (members : List (String × Json)) : Option Json :=
  (members.find? fun p => p.1 = name).map Prod.snd

/-- The data of type `t` that a JSON value stands for. -/
def decode? (t : DataType) (v : Json) : Option Payload :=
  match t with
  | .float => (readFloat v).map .float
  | .double => (readDouble v).map .double
  | .int => (readWhole (-(UInt32.size / 2)) (UInt32.size / 2) v).map fun i => .int (Int32.ofInt i)
  | .long => (readWhole (-(UInt64.size / 2)) (UInt64.size / 2) v).map fun i => .long (Int64.ofInt i)
  | .uint => (readWhole 0 UInt32.size v).map fun i => .uint (UInt32.ofNat i.toNat)
  | .ulong => (readWhole 0 UInt64.size v).map fun i => .ulong (UInt64.ofNat i.toNat)
  | .bool => match v with
    | .bool b => some (.bool b)
    | _ => none
  | .string => match v with
    | .text s => some (.string s)
    | _ => none
  | .floatArray => match v with
    | .list items => (readFloats items).map .floatArray
    | _ => none
  | .point => match v with
    | .object members => do
      let x ← (member "x" members).bind readFloat
      let y ← (member "y" members).bind readFloat
      pure (.point x y)
    | .list [a, b] => do
      let x ← readFloat a
      let y ← readFloat b
      pure (.point x y)
    | _ => none

end DataType

namespace Payload

def floatJson (x : Float32) : Json := Json.ofFloat (widen x)

def toJson : Payload → Json
  | .float x => floatJson x
  | .double x => Json.ofFloat x
  | .int i => .int i.toInt
  | .long i => .int i.toInt
  | .uint n => .int n.toNat
  | .ulong n => .int n.toNat
  | .bool b => .bool b
  | .string s => .text s
  | .floatArray xs => .list (xs.map floatJson)
  | .point x y => .object [("x", floatJson x), ("y", floatJson y)]

end Payload

namespace Value

def toJson : Value → Json
  | .null => .null
  | .data p _ => p.toJson

/-- The text of a value in diagnostics, for the types whose text is fixed. -/
def debugText? : Value → Option String
  | .null => some "null"
  | .data (.int i) _ => some (String.ofList (intChars i.toInt))
  | .data (.long i) _ => some (String.ofList (intChars i.toInt))
  | .data (.uint n) _ => some (String.ofList (digitChars n.toNat))
  | .data (.ulong n) _ => some (String.ofList (digitChars n.toNat))
  | .data (.bool b) _ => some (if b then "true" else "false")
  | .data (.string s) _ => some (Text.quoted s)
  | .data _ _ => none

end Value
end Dataflow
