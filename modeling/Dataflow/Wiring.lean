import Dataflow.Port
set_option autoImplicit false

/-!
The wires between the nodes of one network, in the order in which they were drawn. A wire runs from
an output to an input. An input has at most one wire, an output any number.
-/

namespace Dataflow

structure Edge where
  output : Port
  input : Port
  deriving DecidableEq, Repr

def Edge.mapPorts (f : Port → Port) (e : Edge) : Edge := ⟨f e.output, f e.input⟩

/-- Whether one of the ends is the port. -/
def Edge.endsAt (p : Port) (e : Edge) : Bool := e.output == p || e.input == p

/-- Whether one of the ends is on the node. -/
def Edge.touches (n : NodeId) (e : Edge) : Bool := e.output.node == n || e.input.node == n

abbrev Wiring := List Edge

namespace Wiring

def source? (w : Wiring) (input : Port) : Option Port :=
  (w.find? fun e => e.input == input).map Edge.output

/-- The inputs that an output feeds, in the order of their wires. -/
def sinks (w : Wiring) (output : Port) : List Port :=
  (w.filter fun e => e.output == output).map Edge.input

def has (w : Wiring) (e : Edge) : Bool := w.contains e

def isConnected (w : Wiring) (p : Port) : Bool := w.any (Edge.endsAt p)

def add (w : Wiring) (e : Edge) : Wiring := w ++ [e]

def remove (w : Wiring) (e : Edge) : Wiring := w.erase e

/-- Renames the ports of a node that lost the attribute at `gone`. -/
def shift (w : Wiring) (node : NodeId) (gone : Nat) : Wiring :=
  w.map (Edge.mapPorts (Port.shifted node gone))

/-- Renames the ports of a node whose attributes changed places. -/
def remap (w : Wiring) (node : NodeId) (move : Nat → Nat) : Wiring :=
  w.map (Edge.mapPorts (Port.moved node move))

theorem mem_sinks (w : Wiring) (o i : Port) : i ∈ w.sinks o ↔ (⟨o, i⟩ : Edge) ∈ w := by
  simp only [sinks, List.mem_map, List.mem_filter]
  constructor
  · rintro ⟨e, ⟨he, ho⟩, rfl⟩
    simp only [beq_iff_eq] at ho
    subst ho
    exact he
  · intro h
    exact ⟨⟨o, i⟩, ⟨h, by simp⟩, rfl⟩

theorem sinks_add (w : Wiring) (e : Edge) (o : Port) :
    (w.add e).sinks o = if e.output = o then w.sinks o ++ [e.input] else w.sinks o := by
  by_cases h : e.output = o <;> simp [add, sinks, h]

theorem mem_of_source? (w : Wiring) (o i : Port) (h : w.source? i = some o) :
    (⟨o, i⟩ : Edge) ∈ w := by
  simp only [source?, Option.map_eq_some_iff] at h
  obtain ⟨e, he, rfl⟩ := h
  have hi := List.find?_some he
  simp only [beq_iff_eq] at hi
  subst hi
  exact List.mem_of_find?_eq_some he

end Wiring
end Dataflow
