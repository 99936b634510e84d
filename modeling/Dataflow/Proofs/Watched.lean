import Dataflow.Proofs.Reading
set_option autoImplicit false

/-!
Evaluation change by change. A watched edit runs as an edit does and lists what it does to the graph,
each write and each event by itself, in the order in which they come. Main statement: reads, passes
over the graph and assignments that are watched come to what those come to that are not, and what they
list leads from the graph before to the graph after.
-/

namespace Dataflow

/-- One write to a graph, which by itself tells nothing, or one event. -/
inductive Change where
  | value (p : Port) (v : Value)
  | flag (p : Port) (stale : Bool)
  | status (n : NodeId) (s : Status)
  | count (c : Computation) (p : Port)
  | tell (e : Event)

namespace Graph

def after (g : Graph) : Change → Graph
  | .value p v => g.put p v
  | .flag p b => g.modifySlot p fun s => { s with stale := b }
  | .status n s => g.modifyNode n fun m => { m with status := s }
  | .count c p => g.noted c p
  | .tell e => g.emit e

/-- The graph after the changes, one after the other. -/
def play (g : Graph) (l : List Change) : Graph := l.foldl after g

@[simp] theorem play_nil (g : Graph) : g.play [] = g := rfl

@[simp] theorem play_cons (g : Graph) (c : Change) (l : List Change) :
    g.play (c :: l) = (g.after c).play l := rfl

@[simp] theorem play_append (g : Graph) (l l' : List Change) :
    g.play (l ++ l') = (g.play l).play l' := List.foldl_append ..

/-! ### The smallest edits -/

def holding (p : Port) (v : Value) : List Change := [.value p v, .tell (.valueChanged p)]

def clearing (p : Port) : List Change := [.flag p false, .tell (.flagsChanged p)]

def marking (p : Port) : List Change := [.flag p true, .tell (.flagsChanged p), .tell .graphDirtied]

/-- A value from outside makes its port up to date. -/
def storing (p : Port) (s : Slot) (v : Value) : List Change :=
  holding p v ++ if s.stale then clearing p else []

/-- A status that is the same is not written. -/
def stating (g : Graph) (n : NodeId) (s : Status) : List Change :=
  match g.node? n with
  | some m => if m.status = s then [] else [.status n s, .tell (.stateChanged n)]
  | none => []

def spreading (g : Graph) (starts : List Port) : List Change :=
  (walk g.successors g.currentPorts starts).flatMap marking

section Play
variable (g : Graph) (p : Port)

@[simp] theorem play_holding (v : Value) : g.play (holding p v) = g.hold p v := rfl

@[simp] theorem play_clearing : g.play (clearing p) = g.setCurrent p := rfl

@[simp] theorem play_storing (s : Slot) (v : Value) : g.play (storing p s v) =
    if s.stale then (g.hold p v).setCurrent p else g.hold p v := by
  rw [storing, play_append]
  split <;> rfl

@[simp] theorem play_stating (n : NodeId) (s : Status) : g.play (g.stating n s) = g.setStatus n s := by
  rw [stating, setStatus]
  cases g.node? n with
  | none => rfl
  | some m =>
    simp only
    split <;> rfl

theorem play_flatMap_marking (l : List Port) : g.play (l.flatMap marking) = l.foldl setStale g := by
  induction l generalizing g with
  | nil => rfl
  | cons q l ih =>
    rw [List.flatMap_cons, play_append, ih]
    rfl

@[simp] theorem play_spreading (starts : List Port) : g.play (g.spreading starts) = g.spread starts :=
  g.play_flatMap_marking _

end Play
end Graph

/-- What an edit comes to, and the changes that it makes on its way. -/
structure Watched (α : Type) where
  run : Graph → Except Error α × List Change

namespace Watched
variable {α β : Type}

/-- The second edit starts from the graph that the changes of the first one lead to. -/
def chain (x : Watched α) (f : α → Watched β) : Watched β where
  run g := match x.run g with
    | (.error e, l) => (.error e, l)
    | (.ok a, l) => (((f a).run (g.play l)).1, l ++ ((f a).run (g.play l)).2)

instance : Monad Watched where
  pure a := ⟨fun _ => (.ok a, [])⟩
  bind := chain

def stop (e : Error) : Watched α := ⟨fun _ => (.error e, [])⟩

def look (f : Graph → Except Error α) : Watched α := ⟨fun g => (f g, [])⟩

def ask (f : Graph → α) : Watched α := look fun g => .ok (f g)

def make (f : Graph → List Change) : Watched Unit := ⟨fun g => (.ok (), f g)⟩

def outcome (x : Watched α) : Watched (Except Error α) :=
  ⟨fun g => (.ok (x.run g).1, (x.run g).2)⟩

/-! ### What is watched -/

def readFor (below : Port → Watched Value) (p : Port) : Watched Value := do
  let s ← look (·.slot p)
  let _ ← look (·.resolved p)
  match s.attr.direction with
  | .input => below p
  | .output => pure s.held

def writeFor (p : Port) (v : Value) : Watched Unit := do
  let s ← look (·.slot p)
  if s.attr.direction = .input then stop (.invalidDirection p)
  else
    let t ← ask (·.effectiveType p)
    if t.isSome ∧ v.portType ≠ t then stop (.mismatch t v.portType)
    else make fun _ => Graph.holding p v

def typeFor (p : Port) : Watched PortType := do
  let _ ← look (·.slot p)
  ask (·.effectiveType p)

def perform (below : Port → Watched Value) (node : NodeId) : Task α → Watched α
  | .done a => pure a
  | .read i next => do
    let r ← outcome (readFor below ⟨node, i⟩)
    perform below node (next r)
  | .write i v next => do
    let r ← outcome (writeFor ⟨node, i⟩ v)
    perform below node (next r)
  | .typeOf i next => do
    let r ← outcome (typeFor ⟨node, i⟩)
    perform below node (next r)
  | .attachment next => do
    let v ← ask fun g => (g.node? node).elim .null Node.attachment
    perform below node (next v)

def copyFrom (below : Port → Watched Value) (p q : Port) : Watched Value := do
  let v ← below q
  make fun _ => Graph.holding p v ++ Graph.clearing p
  pure v

def readAll (below : Port → Watched Value) : List Port → Watched (Except String Unit)
  | [] => pure (.ok ())
  | p :: ps => do
    match ← outcome (below p) with
    | .ok _ => readAll below ps
    | .error (.evaluationTooDeep d) => stop (.evaluationTooDeep d)
    | .error e => pure (.error e.message)

def invoke (below : Port → Watched Value) (c : Computation) (p : Port) :
    Watched (Except String Status) := do
  let count ← ask (·.runs c)
  make fun _ => [.count c p]
  perform below p.node (c.body ⟨p.node, p.index, count⟩)

def attempt (below : Port → Watched Value) (p : Port) (c : Option Computation) :
    Except String Unit → Watched (Except String Status)
  | .error message => pure (.error message)
  | .ok _ => match c with
    | some c => invoke below c p
    | none => pure (.ok .empty)

def settleFailure (p : Port) (message : String) : Watched Unit := do
  match ← ask (·.fallback? p) with
  | some v => make fun g => .value p v :: (g.put p v).stating p.node (.failed message)
  | none =>
    make fun g => g.stating p.node (.failed message)
    stop (.computeFailure p.node message)

def settle (p : Port) (result : Except String Status) : Watched Value := do
  match result with
  | .ok s => make fun g => g.stating p.node s
  | .error message => settleFailure p message
  make fun _ => Graph.clearing p ++ [.tell (.valueChanged p)]
  ask (·.held p)

def compute (below : Port → Watched Value) (p : Port) : Watched Value := do
  let m ← look (·.node p.node)
  let inputs ← readAll below ((m.ports.inputsOf p.index).map (Port.mk p.node))
  let result ← attempt below p m.compute inputs
  settle p result

def freshen (below : Port → Watched Value) (p : Port) : Watched Value := do
  let g ← ask id
  match g.slot? p with
  | none => stop (.noPort p)
  | some s =>
    if !s.stale then pure s.held
    else match s.attr.direction, g.source? p, s.peer with
      | .input, some q, _ => copyFrom below p q
      | .input, none, _ => do
        make fun _ => Graph.clearing p
        ask (·.held p)
      | .output, _, some q => copyFrom below p q
      | .output, _, none => compute below p

def readWithin : Nat → Port → Watched Value
  | 0, _ => do stop (.evaluationTooDeep (← ask (·.config.maxDepth)))
  | levels + 1, p => freshen (readWithin levels) p

def read (p : Port) : Watched Value := do
  let _ ← look (·.slot p)
  readWithin ((← ask (·.config.maxDepth)) + 1) p

def readEach : List Port → Option Error → Watched (Option Error)
  | [], first => pure first
  | p :: ps, first => do
    if ← ask (·.isStale p) then
      match ← outcome (readWithin ((← ask (·.config.maxDepth)) + 1) p) with
      | .ok _ => readEach ps first
      | .error e => readEach ps (first.or (some e))
    else readEach ps first

def refresh : Watched Unit := do
  let ps ← ask fun g => schedule g.predecessors g.stalePorts
  match ← readEach ps none with
  | some e => stop e
  | none => pure ()

def replacing (p : Port) (s : Slot) (v : Value) : Watched Unit := do
  make fun _ => Graph.storing p s v
  make fun g => g.spreading (g.successors p)

def assign (p : Port) (v : Value) : Watched Unit := do
  let s ← look (·.checkAssign p v)
  if !s.stale && s.held.agrees v then pure () else replacing p s v

/-! ### What it comes to -/

/-- The watched edit comes to what the edit comes to, and its changes lead to the graph that is left. -/
def Plays (x : Watched α) (y : Edit α) : Prop := ∀ g, y.apply g = ((x.run g).1, g.play (x.run g).2)

section Plays
variable {x : Watched α} {y : Edit α} {p : Port}

@[simp] theorem run_look (f : Graph → Except Error α) (g : Graph) : (look f).run g = (f g, []) := rfl

@[simp] theorem run_make (f : Graph → List Change) (g : Graph) :
    (make f).run g = (.ok (), f g) := rfl

theorem run_bind (x : Watched α) (f : α → Watched β) (g : Graph) : (x >>= f).run g =
    match x.run g with
    | (.error e, l) => (.error e, l)
    | (.ok a, l) => (((f a).run (g.play l)).1, l ++ ((f a).run (g.play l)).2) := rfl

theorem bind_ok {f : α → Watched β} {g : Graph} {a : α} {l : List Change}
    (hx : x.run g = (.ok a, l)) :
    (x >>= f).run g = (((f a).run (g.play l)).1, l ++ ((f a).run (g.play l)).2) := by
  rw [run_bind, hx]

theorem bind_error {f : α → Watched β} {g : Graph} {e : Error} {l : List Change}
    (hx : x.run g = (.error e, l)) : (x >>= f).run g = (.error e, l) := by
  rw [run_bind, hx]

theorem plays_pure (a : α) : Plays (pure a) (pure a) := fun _ => rfl

theorem plays_stop (e : Error) : Plays (stop e : Watched α) (throw e) := fun _ => rfl

theorem plays_look (f : Graph → Except Error α) : Plays (look f) (Edit.look f) :=
  fun g => Edit.apply_look f g

theorem plays_make {f : Graph → List Change} {f' : Graph → Graph} (same : ∀ g, g.play (f g) = f' g) :
    Plays (make f) (Edit.change f') := fun g => by
  rw [Edit.apply_change, ← same]
  rfl

theorem Plays.bind {f : α → Watched β} {f' : α → Edit β} (first : Plays x y)
    (rest : ∀ a, Plays (f a) (f' a)) : Plays (x >>= f) (y >>= f') := by
  intro g
  rw [Edit.apply_bind, first g]
  rcases hx : x.run g with ⟨e | a, l⟩
  · rw [bind_error hx]
  · rw [bind_ok hx, Graph.play_append]
    exact rest a (g.play l)

/-- What is asked of the graph as it is. -/
theorem plays_ask_bind {f : Graph → α} {k : α → Watched β} {k' : Graph → Edit β}
    (rest : ∀ g, Plays (k (f g)) (k' g)) : Plays (ask f >>= k) (get >>= k') :=
  fun g => rest g g

theorem plays_ask (f : Graph → α) : Plays (ask f) (do return f (← get)) := fun _ => rfl

theorem Plays.outcome (same : Plays x y) : Plays (outcome x) (Edit.outcome y) := by
  intro g
  rw [Edit.apply_outcome, same g]
  rfl

theorem plays_ite {c : Prop} [Decidable c] {x' : Watched α} {y' : Edit α} (yes : Plays x y)
    (no : Plays x' y') : Plays (if c then x else x') (if c then y else y') := by
  by_cases h : c
  · rw [if_pos h, if_pos h]
    exact yes
  · rw [if_neg h, if_neg h]
    exact no

/-- A check after which all goes on. -/
theorem plays_check {c : Prop} [Decidable c] (e : Error) (same : Plays x y) :
    Plays (if c then stop e else x)
      (do
        if c then throw e
        y) :=
  plays_ite (fun _ => rfl) same

end Plays

section Reads
variable {below : Port → Watched Value} {below' : Port → Edit Value} {p q : Port}

theorem plays_writeFor (v : Value) : Plays (writeFor p v) (Graph.writeFor p v) := by
  refine (plays_look _).bind fun s => plays_check _ ?_
  exact plays_ask_bind fun g => plays_check _ (plays_make fun g => g.play_holding p v)

variable (same : ∀ p, Plays (below p) (below' p))
include same

theorem plays_readFor : Plays (readFor below p) (Graph.readFor below' p) := by
  refine (plays_look _).bind fun s => (plays_look _).bind fun _ => ?_
  cases s.attr.direction with
  | input => exact same p
  | output => exact plays_pure _

theorem plays_perform (node : NodeId) (t : Task α) :
    Plays (perform below node t) (t.perform below' node) := by
  induction t with
  | done a => exact plays_pure a
  | read i next ih => exact (plays_readFor same).outcome.bind ih
  | write i v next ih => exact (plays_writeFor v).outcome.bind ih
  | typeOf i next ih =>
    exact ((plays_look _).bind fun _ => plays_ask _).outcome.bind ih
  | attachment next ih => exact plays_ask_bind fun _ => ih _

theorem plays_copyFrom : Plays (copyFrom below p q) (Graph.copyFrom below' p q) :=
  (same q).bind fun _ => (plays_make fun _ => rfl).bind fun _ => plays_pure _

theorem plays_readAll (ps : List Port) : Plays (readAll below ps) (Graph.readAll below' ps) := by
  induction ps with
  | nil => exact plays_pure _
  | cons p ps ih =>
    refine (same p).outcome.bind fun r => ?_
    cases r with
    | ok v => exact ih
    | error e =>
      cases e with
      | evaluationTooDeep d => exact plays_stop _
      | _ => exact plays_pure _

theorem plays_attempt (c : Option Computation) (inputs : Except String Unit) :
    Plays (attempt below p c inputs) (Graph.attempt below' p c inputs) := by
  cases inputs with
  | error message => exact plays_pure _
  | ok u =>
    cases c with
    | none => exact plays_pure _
    | some c =>
      intro g
      rw [Graph.attempt, Graph.invoke_apply]
      exact plays_perform same p.node _ (g.noted c p)

omit same in
theorem plays_settle (result : Except String Status) :
    Plays (settle p result) (Graph.settle p result) := by
  have last : Plays (do make fun _ => Graph.clearing p ++ [.tell (.valueChanged p)]; ask (·.held p))
      (do Edit.change fun g => (g.setCurrent p).emit (.valueChanged p); return (← get).held p) :=
    (plays_make fun _ => rfl).bind fun _ => plays_ask _
  cases result with
  | ok s => exact (plays_make fun g => g.play_stating p.node s).bind fun _ => last
  | error message =>
    refine Plays.bind (plays_ask_bind fun g => ?_) fun _ => last
    cases g.fallback? p with
    | some v => exact plays_make fun g => (g.put p v).play_stating p.node _
    | none => exact (plays_make fun g => g.play_stating p.node _).bind fun _ => plays_stop _

theorem plays_compute : Plays (compute below p) (Graph.compute below' p) := by
  rw [Graph.compute_eq]
  refine (plays_look _).bind fun m => (plays_readAll same _).bind fun inputs => ?_
  exact (plays_attempt same _ inputs).bind fun result => plays_settle result

theorem plays_freshen : Plays (freshen below p) (Graph.freshen below' p) := by
  refine plays_ask_bind fun g => ?_
  simp only [id_eq]
  cases g.slot? p with
  | none => exact plays_stop _
  | some s =>
    refine plays_ite (plays_pure _) ?_
    cases s.attr.direction with
    | input =>
      cases g.source? p with
      | some q => exact plays_copyFrom same
      | none => exact (plays_make fun g => g.play_clearing p).bind fun _ => plays_ask _
    | output =>
      cases s.peer with
      | some q => exact plays_copyFrom same
      | none => exact plays_compute same

end Reads

theorem plays_readWithin (levels : Nat) (p : Port) :
    Plays (readWithin levels p) (Graph.readWithin levels p) := by
  induction levels generalizing p with
  | zero => exact plays_ask_bind fun g => plays_stop _
  | succ levels ih => exact plays_freshen ih

theorem plays_read (p : Port) : Plays (read p) (Graph.read p) :=
  (plays_look _).bind fun _ => plays_ask_bind fun _ => plays_readWithin _ p

theorem plays_readEach (ps : List Port) (first : Option Error) :
    Plays (readEach ps first) (Graph.readEach ps first) := by
  induction ps generalizing first with
  | nil => exact plays_pure _
  | cons p ps ih =>
    refine plays_ask_bind fun g => plays_ite (plays_ask_bind fun g => ?_) (ih first)
    refine (plays_readWithin _ p).outcome.bind fun r => ?_
    cases r with
    | ok v => exact ih first
    | error e => exact ih _

theorem plays_refresh : Plays refresh Graph.refresh := by
  refine plays_ask_bind fun g => (plays_readEach _ none).bind fun r => ?_
  cases r with
  | some e => exact plays_stop e
  | none => exact plays_pure _

theorem plays_replacing (p : Port) (s : Slot) (v : Value) :
    Plays (replacing p s v) (Edit.change (·.replace p s v)) := by
  intro g
  rw [Edit.apply_change, replacing, bind_ok (run_make _ g), run_make]
  simp only [Graph.play_append, Graph.play_storing, Graph.play_spreading]
  rfl

theorem plays_assign (p : Port) (v : Value) : Plays (assign p v) (Edit.step (·.assign p v)) := by
  intro g
  rw [Edit.apply_step, Graph.assign]
  simp only [bind, Except.bind]
  cases checked : g.checkAssign p v with
  | error e =>
    rw [assign, bind_error (by rw [run_look, checked])]
    rfl
  | ok s =>
    rw [assign, bind_ok (by rw [run_look, checked])]
    simp only [Graph.play_nil, List.nil_append]
    cases !s.stale && s.held.agrees v with
    | true => rfl
    | false => exact plays_replacing p s v g

end Watched
end Dataflow
