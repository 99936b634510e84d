import Dataflow.Graph.Flow
set_option autoImplicit false

/-! Giving a value to an input that has no wire. -/

namespace Dataflow.Graph

def checkAssign (g : Graph) (p : Port) (v : Value) : Except Error Slot := do
  let s ← g.slot p
  if s.attr.direction = .output then throw (.invalidDirection p)
  if (g.source? p).isSome then throw (.alreadyConnected p)
  let t ← g.resolved p
  if v.portType ≠ some t then throw (.mismatch (some t) v.portType)
  .ok s

/-- Stores the value and marks all that is made from it as out of date. -/
def replace (g : Graph) (p : Port) (s : Slot) (v : Value) : Graph :=
  let g := g.hold p v
  let g := if s.stale then g.setCurrent p else g
  g.spread (g.successors p)

/-- A value that agrees with what the input holds changes nothing. -/
def assign (g : Graph) (p : Port) (v : Value) : Except Error Graph := do
  let s ← g.checkAssign p v
  if !s.stale && s.held.agrees v then .ok g else .ok (g.replace p s v)

end Dataflow.Graph
