set_option autoImplicit false

/-!
The values that ports hold. A value is null or carries data of one of ten types. The data may carry
a mark: two values with one mark are the same piece of data and so agree, even where the data does
not equal itself, as a float that is no number does not.
-/

namespace Dataflow

inductive DataType where
  | float | double | int | long | uint | ulong | bool | string | floatArray | point
  deriving DecidableEq, Repr

/-- The declared type of an attribute: `none` leaves it to the wiring. -/
abbrev PortType := Option DataType

namespace DataType

def name : DataType → String
  | .float => "float"
  | .double => "double"
  | .int => "int"
  | .long => "long"
  | .uint => "uint"
  | .ulong => "ulong"
  | .bool => "bool"
  | .string => "string"
  | .floatArray => "float_array"
  | .point => "point"

/-- The types that every document may name. -/
def common : List DataType :=
  [.float, .double, .int, .long, .uint, .ulong, .bool, .string, .floatArray]

/-- A point is known to those who register it. -/
def all : List DataType := common ++ [.point]

def ofName? (s : String) : Option DataType := all.find? fun t => t.name = s

theorem mem_all (t : DataType) : t ∈ all := by cases t <;> decide

end DataType

/-- The name of a port type. An open one is void. -/
def typeName : PortType → String
  | none => "void"
  | some t => t.name

inductive Payload where
  | float (x : Float32)
  | double (x : Float)
  | int (i : Int32)
  | long (i : Int64)
  | uint (n : UInt32)
  | ulong (n : UInt64)
  | bool (b : Bool)
  | string (s : String)
  | floatArray (xs : List Float32)
  | point (x y : Float32)
  deriving Repr

namespace Payload

def dataType : Payload → DataType
  | .float _ => .float
  | .double _ => .double
  | .int _ => .int
  | .long _ => .long
  | .uint _ => .uint
  | .ulong _ => .ulong
  | .bool _ => .bool
  | .string _ => .string
  | .floatArray _ => .floatArray
  | .point _ _ => .point

/-- Floats are compared as numbers: the two zeros agree, and what is no number agrees with
nothing. -/
def agrees : Payload → Payload → Bool
  | .float a, .float b => a == b
  | .double a, .double b => a == b
  | .int a, .int b => a == b
  | .long a, .long b => a == b
  | .uint a, .uint b => a == b
  | .ulong a, .ulong b => a == b
  | .bool a, .bool b => a == b
  | .string a, .string b => a == b
  | .floatArray a, .floatArray b => a == b
  | .point a b, .point c d => a == c && b == d
  | _, _ => false

theorem dataType_eq_of_agrees (p q : Payload) (h : p.agrees q = true) :
    p.dataType = q.dataType := by
  cases p <;> cases q <;> simp_all [agrees, dataType]

end Payload

inductive Value where
  | null
  | data (payload : Payload) (mark : Option Nat)
  deriving Repr

namespace Value

/-- A value of its own, with no mark yet. -/
def fresh (p : Payload) : Value := .data p none

def isNull : Value → Bool
  | .null => true
  | .data _ _ => false

def portType : Value → PortType
  | .null => none
  | .data p _ => some p.dataType

def payload? : Value → Option Payload
  | .null => none
  | .data p _ => some p

/-- The data of a value, if it is of type `t`. -/
def as? (t : DataType) : Value → Option Payload
  | .null => none
  | .data p _ => if p.dataType = t then some p else none

/-- Both null, of one mark, or with data that agrees. -/
def agrees : Value → Value → Bool
  | .null, .null => true
  | .data p m, .data q n => (m.isSome && m == n) || p.agrees q
  | _, _ => false

/-- Marks data that has no mark yet. Says which mark is the next free one. -/
def stamp (next : Nat) : Value → Value × Nat
  | .data p none => (.data p (some next), next + 1)
  | v => (v, next)

/-- Marks each value of a list on its own. -/
def stampAll (next : Nat) : List Value → List Value × Nat
  | [] => ([], next)
  | v :: vs =>
    let (v, next) := v.stamp next
    let (vs, next) := stampAll next vs
    (v :: vs, next)

theorem payload_stamp (next : Nat) (v : Value) : (v.stamp next).1.payload? = v.payload? := by
  rcases v with _ | ⟨p, _ | m⟩ <;> rfl

theorem payload_of_as? {t : DataType} {v : Value} {p : Payload} (h : v.as? t = some p) :
    v.payload? = some p := by
  cases v with
  | null => cases h
  | data q m =>
    simp only [as?] at h
    split at h
    · exact h
    · cases h

/-- A marked value agrees with itself, whatever it carries. -/
theorem agrees_stamp (next : Nat) (v : Value) :
    (v.stamp next).1.agrees (v.stamp next).1 = true := by
  rcases v with _ | ⟨p, _ | m⟩ <;> simp [stamp, agrees]

theorem length_stampAll (next : Nat) (vs : List Value) :
    (stampAll next vs).1.length = vs.length := by
  induction vs generalizing next with
  | nil => rfl
  | cons v vs ih => simp [stampAll, ih]

theorem map_payload_stampAll (next : Nat) (vs : List Value) :
    (stampAll next vs).1.map payload? = vs.map payload? := by
  induction vs generalizing next with
  | nil => rfl
  | cons v vs ih => simp [stampAll, ih, payload_stamp]

theorem portType_eq (v : Value) : v.portType = v.payload?.map Payload.dataType := by
  cases v <;> rfl

end Value
end Dataflow
