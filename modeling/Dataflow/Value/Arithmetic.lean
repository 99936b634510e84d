import Dataflow.Value.Basic
set_option autoImplicit false

/-!
Arithmetic on two values of one type. Whole numbers wrap around and divide toward zero, floats
follow their width, texts and arrays only add, by standing one after the other.
-/

namespace Dataflow

inductive Operation where
  | add | sub | mul | div
  deriving DecidableEq, Repr

def Operation.name : Operation → String
  | .add => "add"
  | .sub => "sub"
  | .mul => "mul"
  | .div => "div"

def Operation.ofName? (s : String) : Option Operation :=
  [Operation.add, .sub, .mul, .div].find? fun o => o.name = s

/-- Why two values have no result. -/
inductive ArithmeticFault where
  | typesDiffer (left right : PortType)
  | divisionByZero
  | undefinedOn (operation : Operation) (type : PortType)
  deriving DecidableEq, Repr

def ArithmeticFault.message : ArithmeticFault → String
  | .typesDiffer a b => "operand types differ: " ++ typeName a ++ " and " ++ typeName b
  | .divisionByZero => "division by zero"
  | .undefinedOn o t => "cannot " ++ o.name ++ " " ++ typeName t

namespace Operation

def onFloat : Operation → Float32 → Float32 → Float32
  | .add, a, b => a + b
  | .sub, a, b => a - b
  | .mul, a, b => a * b
  | .div, a, b => a / b

def onDouble : Operation → Float → Float → Float
  | .add, a, b => a + b
  | .sub, a, b => a - b
  | .mul, a, b => a * b
  | .div, a, b => a / b

/-- Wraps the exact result. A quotient is cut toward zero and needs a divisor. -/
def onWhole (o : Operation) (a b : Int) : Except ArithmeticFault Int :=
  match o with
  | .add => .ok (a + b)
  | .sub => .ok (a - b)
  | .mul => .ok (a * b)
  | .div => if b = 0 then .error .divisionByZero else .ok (a.tdiv b)

def onPayload (o : Operation) (a b : Payload) : Except ArithmeticFault Payload :=
  match a, b with
  | .float a, .float b => .ok (.float (o.onFloat a b))
  | .double a, .double b => .ok (.double (o.onDouble a b))
  | .int a, .int b => (o.onWhole a.toInt b.toInt).map fun i => .int (Int32.ofInt i)
  | .long a, .long b => (o.onWhole a.toInt b.toInt).map fun i => .long (Int64.ofInt i)
  | .uint a, .uint b => (o.onWhole a.toNat b.toNat).map fun i => .uint (UInt32.ofInt i)
  | .ulong a, .ulong b => (o.onWhole a.toNat b.toNat).map fun i => .ulong (UInt64.ofInt i)
  | .string a, .string b =>
    if o = .add then .ok (.string (a ++ b)) else .error (.undefinedOn o (some .string))
  | .floatArray a, .floatArray b =>
    if o = .add then .ok (.floatArray (a ++ b)) else .error (.undefinedOn o (some .floatArray))
  | .bool _, .bool _ => .error (.undefinedOn o (some .bool))
  | .point _ _, .point _ _ => .error (.undefinedOn o (some .point))
  | a, b => .error (.typesDiffer (some a.dataType) (some b.dataType))

def onValue (o : Operation) (a b : Value) : Except ArithmeticFault Payload :=
  match a, b with
  | .data p _, .data q _ => o.onPayload p q
  | .null, .null => .error (.undefinedOn o none)
  | a, b => .error (.typesDiffer a.portType b.portType)

end Operation
end Dataflow
