import Dataflow.Graph.Flow
set_option autoImplicit false

/-!
Reading ports. A port that is up to date gives what it holds. Any other port is first made from the
ports that it depends on, which are read in the same way, so only what is out of date is computed.
A computation that fails is noted in the status of its node, and the output takes a default.
-/

namespace Dataflow

/-- Answers the requests of a task on behalf of `node`. Inputs are read by `below`. -/
def Task.perform {α : Type} (below : Port → Edit Value) (node : NodeId) : Task α → Edit α
  | .done a => pure a
  | .read i next => do
    let r ← Edit.outcome do
      let p : Port := ⟨node, i⟩
      let s ← Edit.look (·.slot p)
      let _ ← Edit.look (·.resolved p)
      match s.attr.direction with
      | .input => below p
      | .output => pure s.held
    (next r).perform below node
  | .write i v next => do
    let r ← Edit.outcome do
      let p : Port := ⟨node, i⟩
      let s ← Edit.look (·.slot p)
      if s.attr.direction = .input then throw (.invalidDirection p)
      let t := (← get).effectiveType p
      if t.isSome ∧ v.portType ≠ t then throw (.mismatch t v.portType)
      Edit.change (·.hold p v)
    (next r).perform below node
  | .typeOf i next => do
    let r ← Edit.outcome do
      let p : Port := ⟨node, i⟩
      let _ ← Edit.look (·.slot p)
      return (← get).effectiveType p
    (next r).perform below node
  | .attachment next => do
    let v := ((← get).node? node).elim .null Node.attachment
    (next v).perform below node

namespace Graph

/-- Brings `p` up to date with a copy of the value of `q`. -/
def copyFrom (below : Port → Edit Value) (p q : Port) : Edit Value := do
  let v ← below q
  Edit.change fun g => (g.hold p v).setCurrent p
  pure v

/-- Reads ports until one fails. A failure by depth is the reader's own, any other is told. -/
def readAll (below : Port → Edit Value) : List Port → Edit (Except String Unit)
  | [] => pure (.ok ())
  | p :: ps => do
    match ← Edit.outcome (below p) with
    | .ok _ => readAll below ps
    | .error (.evaluationTooDeep d) => throw (.evaluationTooDeep d)
    | .error e => pure (.error e.message)

/-- Runs a computation for an output, and counts and notes that. -/
def invoke (below : Port → Edit Value) (c : Computation) (p : Port) :
    Edit (Except String Status) := do
  let g ← get
  let count := (g.calls.get? c.serial).getD 0 + 1
  set { g with calls := g.calls.put c.serial count, journal := .computing p :: g.journal }
  (c.body ⟨p.node, p.index, count⟩).perform below p.node

/-- The default of an output, or where it has no type, of the first input with a type that it
feeds. -/
def fallback? (g : Graph) (p : Port) : Option Value :=
  match g.slot? p with
  | some s =>
    if s.attr.type.isSome then some s.attr.default
    else ((g.sinks p).filterMap g.slot?).findSome? fun t =>
      if t.attr.type.isSome then some t.attr.default else none
  | none => none

/-- What becomes of an output whose computation failed. -/
def settleFailure (p : Port) (message : String) : Edit Unit := do
  match (← get).fallback? p with
  | some v => Edit.change fun g => (g.put p v).setStatus p.node (.failed message)
  | none =>
    Edit.change (·.setStatus p.node (.failed message))
    throw (.computeFailure p.node message)

/-- Brings an output up to date by the computation of its node. -/
def compute (below : Port → Edit Value) (p : Port) : Edit Value := do
  let m ← Edit.look (·.node p.node)
  let inputs ← readAll below ((m.ports.inputsOf p.index).map (Port.mk p.node))
  let result ← match inputs, m.compute with
    | .error message, _ => pure (.error message)
    | .ok _, some c => invoke below c p
    | .ok _, none => pure (.ok .empty)
  match result with
  | .ok s => Edit.change (·.setStatus p.node s)
  | .error message => settleFailure p message
  Edit.change fun g => (g.setCurrent p).emit (.valueChanged p)
  return (← get).held p

/-- Brings a port up to date, reading what it depends on by `below`. -/
def freshen (below : Port → Edit Value) (p : Port) : Edit Value := do
  let g ← get
  match g.slot? p with
  | none => throw (.noPort p)
  | some s =>
    if !s.stale then pure s.held
    else match s.attr.direction, g.source? p, s.peer with
      | .input, some q, _ => copyFrom below p q
      | .input, none, _ => do
        Edit.change (·.setCurrent p)
        return (← get).held p
      | .output, _, some q => copyFrom below p q
      | .output, _, none => compute below p

/-- Reads a port, with `levels` reads at most in one another. -/
def readWithin : Nat → Port → Edit Value
  | 0, _ => do throw (.evaluationTooDeep (← get).config.maxDepth)
  | levels + 1, p => freshen (readWithin levels) p

def read (p : Port) : Edit Value := do
  let _ ← Edit.look (·.slot p)
  readWithin ((← get).config.maxDepth + 1) p

/-- Reads a port that must be of type `t`. -/
def readAs (t : DataType) (p : Port) : Edit Payload := do
  let _ ← Edit.look (·.slot p)
  let u ← Edit.look (·.resolved p)
  if u ≠ t then throw (.mismatch (some u) (some t))
  let v ← read p
  match v.as? t with
  | some payload => pure payload
  | none => throw (.mismatch (some t) v.portType)

end Graph
end Dataflow
