import Dataflow.Port
set_option autoImplicit false

/-!
What a graph tells about its changes. Its journal lists the events and the computations in the order
in which they came, and listeners write down each event as it comes.
-/

namespace Dataflow

inductive Event where
  | nodeAdded (node : NodeId)
  | nodeRemoved (node : NodeId)
  | connected (output input : Port)
  | disconnected (output input : Port)
  | flagsChanged (port : Port)
  | valueChanged (port : Port)
  | stateChanged (node : NodeId)
  | graphDirtied
  | metadataChanged (node : NodeId)
  | cleared
  deriving DecidableEq, Repr

def Event.text : Event → String
  | .nodeAdded n => "NodeAdded " ++ n.text
  | .nodeRemoved n => "NodeRemoved " ++ n.text
  | .connected o i => "Connected " ++ o.text ++ " " ++ i.text
  | .disconnected o i => "Disconnected " ++ o.text ++ " " ++ i.text
  | .flagsChanged p => "FlagsChanged " ++ p.text
  | .valueChanged p => "ValueChanged " ++ p.text
  | .stateChanged n => "StateChanged " ++ n.text
  | .graphDirtied => "GraphDirtied"
  | .metadataChanged n => "MetadataChanged " ++ n.text
  | .cleared => "Cleared"

inductive Entry where
  | event (e : Event)
  | computing (port : Port)
  deriving DecidableEq, Repr

/-- A listener is known by its number and writes its label before every line. -/
structure Listener where
  number : Nat
  label : String
  deriving DecidableEq, Repr

structure Listeners where
  active : List Listener
  next : Nat
  deriving DecidableEq, Repr

namespace Listeners

/-- One listener that writes no label. -/
def plain : Listeners := ⟨[⟨0, ""⟩], 1⟩

def subscribe (ls : Listeners) (label : String) : Nat × Listeners :=
  (ls.next, ⟨ls.active ++ [⟨ls.next, label⟩], ls.next + 1⟩)

/-- Says whether there was such a listener. -/
def unsubscribe (ls : Listeners) (number : Nat) : Bool × Listeners :=
  (ls.active.any (·.number == number), ⟨ls.active.filter (·.number != number), ls.next⟩)

/-- Every listener writes an event, the first one first. A computation is written once. -/
def write (ls : Listeners) : Entry → List String
  | .event e => ls.active.map fun l => l.label ++ e.text
  | .computing p => ["compute " ++ p.text]

def transcript (ls : Listeners) (journal : List Entry) : List String :=
  journal.flatMap ls.write

end Listeners
end Dataflow
