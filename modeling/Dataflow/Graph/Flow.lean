import Dataflow.Graph.Basic
import Dataflow.Walk
set_option autoImplicit false

/-!
How values flow between ports. A port depends on others in three ways: an input on the output wired
to it, an output on its peer, and any other output on the inputs that influence it. Being out of
date spreads the other way.
-/

namespace Dataflow.Graph

/-- The ports whose values are made from the value of `p`. -/
def successors (g : Graph) (p : Port) : List Port :=
  match g.node? p.node with
  | some m => match m.ports.get? p.index with
    | some s => match s.attr.direction with
      | .input => (m.ports.outputsOf p.index).map (Port.mk p.node) ++ s.peer.toList
      | .output => g.sinks p
    | none => []
  | none => []

/-- The ports from whose values the value of `p` is made. -/
def predecessors (g : Graph) (p : Port) : List Port :=
  match g.node? p.node with
  | some m => match m.ports.get? p.index with
    | some s => match s.attr.direction with
      | .input => (g.source? p).toList
      | .output => match s.peer with
        | some q => [q]
        | none => (m.ports.inputsOf p.index).map (Port.mk p.node)
    | none => []
  | none => []

/-- Whether `target` is `p` or made from it. -/
def leadsTo (g : Graph) (p target : Port) : Bool :=
  (walk g.successors g.ports [p]).contains target

def declaredType (g : Graph) (p : Port) : PortType :=
  (g.slot? p).bind fun s => s.attr.type

/-- Where a port without a type of its own looks for one. -/
def typeSources (g : Graph) (p : Port) : List Port :=
  match g.slot? p with
  | some s => match s.attr.type, s.attr.direction with
    | some _, _ => []
    | none, .input => (g.source? p).toList
    | none, .output => s.peer.toList ++ g.sinks p
  | none => []

/-- The first type on the way from `p` to whatever gives it one. -/
def effectiveType (g : Graph) (p : Port) : PortType :=
  (walk g.typeSources g.ports [p]).findSome? g.declaredType

/-- A port whose value is needed has a type by now. -/
def resolved (g : Graph) (p : Port) : Except Error DataType :=
  match g.effectiveType p with
  | some t => .ok t
  | none => .error (.unconnectedUntypedRead p)

def currentPorts (g : Graph) : List Port := g.portsWhere fun s => !s.stale

/-- Marks what lies on the way from `starts` as out of date. A port that is marked already ends the
way, for so is everything made from it. -/
def spread (g : Graph) (starts : List Port) : Graph :=
  (walk g.successors g.currentPorts starts).foldl setStale g

def spreadFrom (g : Graph) (p : Port) : Graph := g.spread [p]

end Dataflow.Graph
