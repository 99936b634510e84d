import Dataflow.Wire.JsonText
set_option autoImplicit false

/-!
JSON values, which a document carries without knowing their types. An object lists its names in
ascending order and each name once.
-/

namespace Dataflow

inductive Json where
  | null
  | bool (b : Bool)
  | int (i : Int)
  | float (x : Float)
  | text (s : String)
  | list (items : List Json)
  | object (members : List (String × Json))
  deriving Repr

namespace Json

/-- A name that stands already takes the new value. -/
def insert (k : String) (v : Json) : List (String × Json) → List (String × Json)
  | [] => [(k, v)]
  | (l, w) :: r =>
    if k = l then (k, v) :: r
    else if k < l then (k, v) :: (l, w) :: r
    else (l, w) :: insert k v r

def ofMembers (members : List (String × Json)) : Json :=
  .object (members.foldl (fun o p => insert p.1 p.2 o) [])

/-- A number that is not finite is null. -/
def ofFloat (x : Float) : Json := if x.isFinite then .float x else .null

/-- The first name of an object must be a text, while later ones may come as the bytes of one. -/
def opensWithBytes : List (Wire × Wire) → Bool
  | (.bytes _, _) :: _ => true
  | _ => false

mutual
/-- Reads a tree that leaves no more room than it needs: each container takes one level. -/
def ofWire? (room : Nat) : Wire → Option Json
  | .null => some .null
  | .bool b => some (.bool b)
  | .int i => some (.int i)
  | .float x => some (ofFloat x)
  | .text s => some (.text s)
  | .list items => if room = 0 then none else (ofItems? (room - 1) items).map .list
  | .record members =>
    if room = 0 || opensWithBytes members then none
    else (ofMembers? (room - 1) members).map ofMembers
  | .bytes _ | .broken => none

def ofItems? (room : Nat) : List Wire → Option (List Json)
  | [] => some []
  | w :: ws => do
    let v ← ofWire? room w
    let vs ← ofItems? room ws
    pure (v :: vs)

def ofMembers? (room : Nat) : List (Wire × Wire) → Option (List (String × Json))
  | [] => some []
  | (k, w) :: ws => do
    let k ← k.asText?
    let v ← ofWire? room w
    let vs ← ofMembers? room ws
    pure ((k, v) :: vs)
end

mutual
def toWire : Json → Wire
  | .null => .null
  | .bool b => .bool b
  | .int i => .int i
  | .float x => .float x
  | .text s => .text s
  | .list items => .list (wireItems items)
  | .object members => .record (wireMembers members)

def wireItems : List Json → List Wire
  | [] => []
  | v :: vs => toWire v :: wireItems vs

def wireMembers : List (String × Json) → List (Wire × Wire)
  | [] => []
  | (k, v) :: vs => (.text k, toWire v) :: wireMembers vs
end

/-- Containers may stand in one another a hundred and twenty-seven deep. -/
def textRoom : Nat := 127

def parse (s : String) : Option Json := (Wire.ofJsonText s).bind (ofWire? textRoom)

def render (v : Json) : String := v.toWire.toJsonText

end Json
end Dataflow
