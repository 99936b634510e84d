import Dataflow.Task
import Dataflow.Value.Arithmetic
set_option autoImplicit false

/-!
A small language for what nodes compute. A script is a list of statements. It reads and writes the
attributes of its node by their places, and adds to the status with which the computation ends.
-/

namespace Dataflow

inductive Expr where
  /-- The data of an attribute, which must be of the type. -/
  | input (index : Nat) (type : DataType)
  | value (index : Nat)
  | const (v : Value)
  /-- What a client has left with the node, or null if that is of another type. -/
  | attachment (type : DataType)
  | calls
  | node
  | output
  | typeOf (index : Nat)
  | apply (operation : Operation) (left right : Expr)
  | unknown (name : String)
  deriving Repr

inductive Statement where
  /-- Stores a piece of data of its own. -/
  | set (index : Nat) (e : Expr)
  /-- Stores the very value. -/
  | pass (index : Nat) (e : Expr)
  | ifComputing (index : Nat) (body : List Statement)
  | ifEqual (left right : Expr) (body : List Statement)
  /-- Goes on after an error, which is noted. -/
  | attempt (body : List Statement)
  | report (severity : Severity) (text : String)
  | fail (text : String)
  | unknown (name : String)
  deriving Repr

abbrev Script := List Statement

namespace Script

/-- A run may fail with a message, and what it has added to the status stays. -/
abbrev Run (α : Type) := ExceptT String (StateT Status Task) α

def ask {α : Type} (request : (Except Error α → Task (Except Error α)) → Task (Except Error α)) :
    Run α := do
  match ← (request .done : Task (Except Error α)) with
  | .ok a => pure a
  | .error e => throw e.message

def read (index : Nat) : Run Value := ask (.read index)

def write (index : Nat) (v : Value) : Run Unit := ask (.write index v)

def typeAt (index : Nat) : Run PortType := ask (.typeOf index)

def attachmentValue : Run Value := (Task.attachment .done : Task Value)

/-- The same data as a new piece. -/
def renew : Value → Value
  | .null => .null
  | .data p _ => .fresh p

def eval (inv : Invocation) : Expr → Run Value
  | .input i t => do
    let v ← read i
    match v.as? t with
    | some p => pure (.fresh p)
    | none => throw (Error.mismatch (some t) v.portType).message
  | .value i => read i
  | .const v => pure v
  | .attachment t => do
    match (← attachmentValue).as? t with
    | some p => pure (.fresh p)
    | none => pure .null
  | .calls => pure (.fresh (.ulong (UInt64.ofNat inv.count)))
  | .node => pure (.fresh (.ulong inv.node.raw))
  | .output => pure (.fresh (.ulong (UInt64.ofNat inv.output)))
  | .typeOf i => do
    pure (.fresh (.string (typeName (← typeAt i))))
  | .apply o a b => do
    let a ← eval inv a
    let b ← eval inv b
    match o.onValue a b with
    | .ok p => pure (.fresh p)
    | .error f => throw f.message
  | .unknown name => throw ("bad expression " ++ name)

mutual
def exec (inv : Invocation) : Statement → Run Unit
  | .set i e => do
    let v ← eval inv e
    write i (renew v)
  | .pass i e => do
    let v ← eval inv e
    write i v
  | .ifComputing i body => if inv.output = i then execAll inv body else pure ()
  | .ifEqual a b body => do
    let a ← eval inv a
    let b ← eval inv b
    if a.agrees b then execAll inv body else pure ()
  | .attempt body => tryCatch (execAll inv body) fun m => modify (·.add .info ("caught: " ++ m))
  | .report severity text => modify (·.add severity text)
  | .fail text => throw text
  | .unknown name => throw ("bad statement " ++ name)

def execAll (inv : Invocation) : List Statement → Run Unit
  | [] => pure ()
  | s :: rest => do
    exec inv s
    execAll inv rest
end

/-- The task that a script stands for. -/
def body (s : Script) (inv : Invocation) : Task (Except String Status) := do
  match ← (execAll inv s).run.run .empty with
  | (.ok (), status) => pure (.ok status)
  | (.error m, _) => pure (.error m)

end Script
end Dataflow
