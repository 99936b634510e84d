import Dataflow.Script.Description
set_option autoImplicit false

/-! Descriptions of common node types, by name. -/

namespace Dataflow.Stock

def inputOf (name : String) (p : Payload) : Attribute :=
  ⟨name, .input, some p.dataType, .fresh p, true⟩

def outputOf (name : String) (p : Payload) : Attribute :=
  ⟨name, .output, some p.dataType, .fresh p, true⟩

def number (x : Float32) : Payload := .float x
def whole (i : Int32) : Payload := .int i
def ofText (s : String) : Payload := .string s
def array (xs : List Float32) : Payload := .floatArray xs
def constant (p : Payload) : Expr := .const (.fresh p)

/-- Two inputs `a` and `b` of one type, and what an operation makes of them. -/
def binary (name : String) (o : Operation) (a b out : Payload) : Description :=
  ⟨name, [inputOf "a" a, inputOf "b" b, outputOf "out" out], [(0, 2), (1, 2)],
    some [.set 2 (.apply o (.input 0 a.dataType) (.input 1 b.dataType))]⟩

/-- One output that nothing computes. -/
def source (name : String) (out : Payload) : Description :=
  ⟨name, [outputOf "out" out], [], none⟩

def passthrough : Description :=
  ⟨"passthrough", [.untyped "in" .input, .untyped "out" .output], [(0, 1)],
    some [.pass 1 (.value 0)]⟩

/-- Fails for zero. -/
def reciprocal : Description :=
  ⟨"reciprocal", [inputOf "x" (number 1.0), outputOf "out" (number (-1.0))], [(0, 1)],
    some [
      .ifEqual (.input 0 .float) (constant (number 0.0)) [.fail "division by zero"],
      .set 1 (.apply .div (constant (number 1.0)) (.input 0 .float))]⟩

/-- Always fails. -/
def brokenVoid : Description :=
  ⟨"broken_void", [inputOf "in" (number 0.0), .untyped "out" .output], [(0, 1)],
    some [.fail "broken"]⟩

/-- Two separate outputs, each computed only on its own demand, and a count of all computations. -/
def pair : Description :=
  let next (i : Nat) : Expr := .apply .add (.input i .int) (constant (whole 1))
  ⟨"pair",
    [inputOf "x" (whole 0), inputOf "y" (whole 0), outputOf "fx" (whole 0), outputOf "fy" (whole 0),
      outputOf "count" (.ulong 0)],
    [(0, 2), (1, 3), (0, 4), (1, 4)],
    some [.ifComputing 2 [.set 2 (next 0)], .ifComputing 3 [.set 3 (next 1)], .set 4 .calls]⟩

/-- The factor stays out of documents. -/
def scaled : Description :=
  ⟨"scaled", [{ inputOf "factor" (number 1.0) with serializable := false },
      outputOf "out" (number 0.0)], [(0, 1)],
    some [.set 1 (.apply .mul (.input 0 .float) (constant (number 10.0)))]⟩

/-- Says something of each kind, and fails for three. -/
def chatty : Description :=
  let case (i : Int32) (s : Statement) : Statement :=
    .ifEqual (.input 0 .int) (constant (whole i)) [s]
  ⟨"chatty", [inputOf "x" (whole 0), outputOf "out" (whole 0)], [(0, 1)],
    some [
      .report .info "start", case 1 (.report .warning "one"), case 2 (.report .error "two"),
      case 3 (.fail "three"), .set 1 (.input 0 .int)]⟩

def all : List Description := [
  binary "add" .add (number 0.0) (number 0.0) (number 0.0),
  binary "mul" .mul (number 0.0) (number 0.0) (number 0.0),
  binary "iadd" .add (whole 0) (whole 0) (whole 0),
  binary "idiv" .div (whole 1) (whole 1) (whole (-7)),
  binary "concat" .add (ofText "") (ofText "!") (ofText "?"),
  binary "join" .add (array []) (array [1.5]) (array []),
  passthrough, reciprocal, brokenVoid, pair, scaled, chatty,
  source "isrc" (whole 42), source "fsrc" (number 2.5), source "ssrc" (ofText "src")]

def find? (name : String) : Option Description := all.find? fun d => d.name = name

end Dataflow.Stock
