import Dataflow.Error
import Dataflow.Status
set_option autoImplicit false

/-!
What a node does when one of its outputs is computed. A task asks for what it needs one thing at a
time and goes on with the answer, so it sees nothing of the graph but those answers. Requests name
the attributes of the node itself by their places.
-/

namespace Dataflow

inductive Task (α : Type) where
  | done (a : α)
  /-- The value of an attribute, brought up to date if it is an input. -/
  | read (index : Nat) (next : Except Error Value → Task α)
  /-- Stores a value in an output. -/
  | write (index : Nat) (value : Value) (next : Except Error Unit → Task α)
  /-- The type that the wiring gives to an attribute. -/
  | typeOf (index : Nat) (next : Except Error PortType → Task α)
  /-- The data that a client has left with the node. -/
  | attachment (next : Value → Task α)

namespace Task
variable {α β : Type}

def bind : Task α → (α → Task β) → Task β
  | .done a, k => k a
  | .read i next, k => .read i fun r => (next r).bind k
  | .write i v next, k => .write i v fun r => (next r).bind k
  | .typeOf i next, k => .typeOf i fun r => (next r).bind k
  | .attachment next, k => .attachment fun v => (next v).bind k

instance : Monad Task where
  pure := .done
  bind := bind

theorem bind_done (t : Task α) : t.bind .done = t := by
  induction t with
  | done a => rfl
  | read i next ih => simp [bind, ih]
  | write i v next ih => simp [bind, ih]
  | typeOf i next ih => simp [bind, ih]
  | attachment next ih => simp [bind, ih]

end Task

/-- Which output of which node is computed, and for the how-manieth time the computation runs. -/
structure Invocation where
  node : NodeId
  output : Nat
  count : Nat
  deriving DecidableEq, Repr

/-- Computations are told apart by the number under which they were registered. A computation ends
with a status or fails with a message. -/
structure Computation where
  serial : Nat
  body : Invocation → Task (Except String Status)

end Dataflow
