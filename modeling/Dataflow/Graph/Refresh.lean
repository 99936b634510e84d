import Dataflow.Graph.Evaluate
import Dataflow.Schedule
set_option autoImplicit false

/-!
Bringing a whole graph up to date. The ports that are out of date are read in an order in which each
comes after the ones it is made from, so no read needs another.
-/

namespace Dataflow.Graph

def stalePorts (g : Graph) : List Port := (g.portsWhere Slot.stale).mergeSort Port.before

/-- Reads those ports that are still out of date, and keeps the first error. -/
def readEach : List Port → Option Error → Edit (Option Error)
  | [], first => pure first
  | p :: ps, first => do
    if (← get).isStale p then
      match ← Edit.outcome (readWithin ((← get).config.maxDepth + 1) p) with
      | .ok _ => readEach ps first
      | .error e => readEach ps (first.or (some e))
    else readEach ps first

def refresh : Edit Unit := do
  let g ← get
  match ← readEach (schedule g.predecessors g.stalePorts) none with
  | some e => throw e
  | none => pure ()

end Dataflow.Graph
