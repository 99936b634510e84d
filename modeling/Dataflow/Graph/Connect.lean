import Dataflow.Graph.Boundary
set_option autoImplicit false

/-!
Drawing and removing wires. A wire is drawn only where both ends fit together and no value would
come to depend on itself, and all of that is checked before anything is changed.
-/

namespace Dataflow.Graph

/-- The port must have that direction. -/
def expect (g : Graph) (d : Direction) (p : Port) : Except Error Unit := do
  if (← g.slot p).attr.direction = d then .ok () else .error (.invalidDirection p)

/-- Two types are the same, or one of them is still open. -/
def checkTypes (output input : PortType) : Except Error Unit :=
  match output, input with
  | none, none => .error (.typeMismatch "a typed port" (typeName none))
  | some t, some u => if t = u then .ok () else .error (.mismatch (some u) (some t))
  | _, _ => .ok ()

def checkConnect (g : Graph) (e : Edge) : Except Error Unit := do
  g.expect .output e.output
  g.expect .input e.input
  if (g.source? e.input).isSome then throw (.alreadyConnected e.input)
  if g.leadsTo e.input e.output then throw (.cyclicDependency e.output e.input)
  checkTypes (g.effectiveType e.output) (g.effectiveType e.input)
  let around := g.around? e.output.node
  if around.isNone || around != g.around? e.input.node then
    throw (.crossNetworkConnection e.output e.input)
  g.checkBoundary e

/-- Ports without a type of their own take over a value with the wire. -/
def seedEnds (g : Graph) (e : Edge) : Graph :=
  let isOpen (p : Port) := (g.declaredType p).isNone
  let g := if isOpen e.input then g.hold e.input (g.held e.output) else g
  if isOpen e.output && (g.held e.output).isNull then g.hold e.output (g.held e.input) else g

/-- Draws a wire that has been checked. -/
def drawWire (g : Graph) (e : Edge) : Graph :=
  let g := g.modifyWiresAround e.input.node fun w => w.add e
  let g := (g.seedEnds e).growBoundary e
  ((g.spreadFrom e.input).spreadFrom e.output).emit (.connected e.output e.input)

def connect (g : Graph) (output input : Port) : Except Error Graph := do
  let e : Edge := ⟨output, input⟩
  g.checkConnect e
  .ok (g.drawWire e)

/-- An input that has no type of its own, or that documents leave out, goes back to its default. So
does an output without a type once its last wire is gone. -/
def resetEnds (g : Graph) (e : Edge) : Graph :=
  let g := match g.slot? e.input with
    | some s => if s.attr.type.isNone || !s.attr.serializable then
        g.hold e.input s.attr.default else g
    | none => g
  match g.slot? e.output with
  | some s => if s.attr.type.isNone && (g.sinks e.output).isEmpty then
      g.hold e.output s.attr.default else g
  | none => g

/-- Removes a wire, and with it the network ports that only it kept, the wires of those, and so on
through at most `levels` networks. -/
def cutWithin : Nat → Graph → Edge → Graph
  | 0, g, _ => g
  | levels + 1, g, e =>
    if (g.wiresAround e.input.node).has e then
      let g := g.modifyWiresAround e.input.node fun w => w.remove e
      let g := (g.resetEnds e).spreadFrom e.input
      (shrinkBoundary (cutWithin levels) g e).emit (.disconnected e.output e.input)
    else g

/-- Networks stand in one another no deeper than there are nodes. -/
def cut (g : Graph) (e : Edge) : Graph := cutWithin g.nodes.length g e

def disconnect (g : Graph) (output input : Port) : Except Error Graph := do
  let _ ← g.slot output
  let _ ← g.slot input
  let e : Edge := ⟨output, input⟩
  if (g.wiresAround input.node).has e then .ok (g.cut e) else .error (.notConnected output input)

end Dataflow.Graph
