import Dataflow.Proofs.Reading
import Dataflow.Proofs.StrictEdits
set_option autoImplicit false

/-!
Strict edits and strict reads. A strict edit runs as an edit does, and comes to `none` where a look-up
that is taken for granted misses. Main statements: strict edits that tally with edits can be put
together, and in a well-formed graph every port is read, and the whole graph brought up to date,
without missing a port, whatever the computations ask for.
-/

namespace Dataflow

/-- An edit that comes to nothing where something is missing that it looks up strictly. -/
abbrev StrictEdit (α : Type) := ExceptT Error (StateT Graph Option) α

namespace StrictEdit
open Graph.Strict (Check sure)
variable {α β : Type}

def apply (x : StrictEdit α) (g : Graph) : Option (Except Error α × Graph) := x.run g

/-- An edit in which nothing is taken for granted. -/
def plain (x : Edit α) : StrictEdit α := ExceptT.mk fun g => some (x.apply g)

/-- What a strict look-up comes to. -/
def find (f : Graph → Option α) : StrictEdit α := ExceptT.mk fun g => (f g).map fun a => (.ok a, g)

def look (f : Graph → Check α) : StrictEdit α := ExceptT.mk fun g => (f g).run.map fun r => (r, g)

def change (f : Graph → Option Graph) : StrictEdit Unit :=
  ExceptT.mk fun g => (f g).map fun h => (.ok (), h)

def step (f : Graph → Check Graph) : StrictEdit Unit := do set (← look f)

def outcome (x : StrictEdit α) : StrictEdit (Except Error α) :=
  ExceptT.mk do
    let r ← x.run
    pure (.ok r)

theorem apply_plain (x : Edit α) (g : Graph) : (plain x).apply g = some (x.apply g) := rfl

theorem apply_find (f : Graph → Option α) (g : Graph) :
    (find f).apply g = (f g).map fun a => (.ok a, g) := rfl

theorem apply_look (f : Graph → Check α) (g : Graph) :
    (look f).apply g = (f g).run.map fun r => (r, g) := rfl

theorem apply_change (f : Graph → Option Graph) (g : Graph) :
    (change f).apply g = (f g).map fun h => (.ok (), h) := rfl

theorem apply_bind (x : StrictEdit α) (f : α → StrictEdit β) (g : Graph) :
    (x >>= f).apply g = x.apply g >>= fun r =>
      match r.1 with
      | .ok a => (f a).apply r.2
      | .error e => some (.error e, r.2) := by
  change (do let r ← x.run; ExceptT.bindCont f r : StateT Graph Option (Except Error β)) g = _
  simp only [bind, StateT.bind, apply, ExceptT.run]
  congr 1
  funext r
  rcases r with ⟨a | e, h⟩ <;> rfl

/-- Where the first step tallies with that of an edit, and then the second one, both together do. -/
theorem apply_bind_eq {x : StrictEdit α} {y : Edit α} {f : α → StrictEdit β} {f' : α → Edit β}
    {g : Graph} (first : x.apply g = some (y.apply g))
    (rest : ∀ a h, y.apply g = (.ok a, h) → (f a).apply h = some ((f' a).apply h)) :
    (x >>= f).apply g = some ((y >>= f').apply g) := by
  rw [apply_bind, first, Edit.apply_bind, Option.bind_eq_bind, Option.bind_some]
  rcases hy : y.apply g with ⟨e | a, h⟩
  · rfl
  · exact rest a h hy

/-- On graphs as `P` says, the strict edit comes to what the edit comes to, and leaves such a graph. -/
def Tallies (P : Graph → Prop) (x : StrictEdit α) (y : Edit α) : Prop :=
  ∀ g, P g → x.apply g = some (y.apply g) ∧ P (y.apply g).2

section Tallies
variable {P : Graph → Prop}

theorem tallies_pure (a : α) : Tallies P (pure a) (pure a) := fun _ h => ⟨rfl, h⟩

theorem tallies_throw (e : Error) : Tallies P (throw e : StrictEdit α) (throw e) := fun _ h => ⟨rfl, h⟩

theorem tallies_plain {x : Edit α} (keeps : Edit.Keeps P x) : Tallies P (plain x) x :=
  fun g h => ⟨rfl, keeps g h⟩

theorem tallies_look {f : Graph → Check α} {f' : Graph → Except Error α}
    (eq : ∀ g, P g → f g = sure (f' g)) : Tallies P (look f) (Edit.look f') := by
  intro g h
  rw [Edit.apply_look, apply_look, eq g h]
  exact ⟨rfl, h⟩

theorem tallies_change {f : Graph → Option Graph} {f' : Graph → Graph}
    (eq : ∀ g, P g → f g = some (f' g)) (keeps : ∀ g, P g → P (f' g)) :
    Tallies P (change f) (Edit.change f') := by
  intro g h
  rw [Edit.apply_change, apply_change, eq g h]
  exact ⟨rfl, keeps g h⟩

theorem Tallies.bind {x : StrictEdit α} {y : Edit α} {f : α → StrictEdit β} {f' : α → Edit β}
    (first : Tallies P x y) (rest : ∀ a, Tallies P (f a) (f' a)) : Tallies P (x >>= f) (y >>= f') := by
  intro g h
  obtain ⟨eq, kept⟩ := first g h
  refine ⟨apply_bind_eq eq fun a k hy => ?_, ?_⟩
  · rw [hy] at kept
    exact (rest a k kept).1
  · rw [Edit.apply_bind]
    cases (y.apply g).1 with
    | error e => exact kept
    | ok a => exact (rest a _ kept).2

/-- What was found by a checked look-up may be used after it. -/
theorem tallies_checked_bind {f : Graph → Except Error α} {k : α → StrictEdit β} {k' : α → Edit β}
    (rest : ∀ a g, P g → f g = .ok a → Tallies P (k a) (k' a)) :
    Tallies P (plain (Edit.look f) >>= k) (Edit.look f >>= k') := by
  intro g h
  rw [Edit.apply_bind, Edit.apply_look, apply_bind, apply_plain, Edit.apply_look]
  cases hf : f g with
  | error e => exact ⟨rfl, h⟩
  | ok a => exact rest a g h hf g h

theorem tallies_get_bind {k : Graph → StrictEdit β} {k' : Graph → Edit β}
    (rest : ∀ g, P g → Tallies P (k g) (k' g)) : Tallies P (get >>= k) (get >>= k') :=
  fun g h => rest g h g h

/-- A strict look-up takes the place of one in the graph as it is. -/
theorem tallies_find_bind {f : Graph → Option α} {k : α → StrictEdit β} {k' : Graph → Edit β}
    (found : ∀ g, P g → ∃ a, f g = some a ∧ Tallies P (k a) (k' g)) :
    Tallies P (find f >>= k) (get >>= k') := by
  intro g h
  obtain ⟨a, eq, rest⟩ := found g h
  rw [apply_bind, Edit.apply_bind, Edit.apply_get, apply_find, eq]
  exact rest g h

theorem tallies_find {f : Graph → Option α} {f' : Graph → α} (eq : ∀ g, P g → f g = some (f' g)) :
    Tallies P (find f) (do return f' (← get)) := by
  intro g h
  rw [apply_find, eq g h]
  exact ⟨rfl, h⟩

/-- A strict look-up that comes to something. -/
theorem tallies_found_bind {o : Option α} {a : α} {k : α → StrictEdit β} {y : Edit β} (found : o = some a)
    (rest : Tallies P (k a) y) : Tallies P (find (fun _ => o) >>= k) y := by
  intro g h
  rw [apply_bind, apply_find, found]
  exact rest g h

theorem tallies_step {f : Graph → Check Graph} {f' : Graph → Except Error Graph}
    (eq : ∀ g, P g → f g = sure (f' g)) (keeps : Edit.Keeps P (Edit.step f')) :
    Tallies P (step f) (Edit.step f') :=
  fun g h => ⟨apply_bind_eq (tallies_look eq g h).1 fun _ _ _ => rfl, keeps g h⟩

theorem tallies_outcome {x : StrictEdit α} {y : Edit α} (same : Tallies P x y) :
    Tallies P (outcome x) (Edit.outcome y) := by
  intro g h
  obtain ⟨eq, kept⟩ := same g h
  refine ⟨?_, kept⟩
  change (x.apply g >>= fun r => some (Except.ok r.1, r.2)) = _
  rw [eq]
  rfl

theorem tallies_ite {c : Prop} [Decidable c] {x x' : StrictEdit α} {y y' : Edit α}
    (yes : c → Tallies P x y) (no : ¬ c → Tallies P x' y') :
    Tallies P (if c then x else x') (if c then y else y') := by
  by_cases h : c
  · rw [if_pos h, if_pos h]
    exact yes h
  · rw [if_neg h, if_neg h]
    exact no h

/-- A check after which all goes on. -/
theorem tallies_check {c : Prop} [Decidable c] (e : Error) {x : StrictEdit α} {y : Edit α}
    (same : Tallies P x y) :
    Tallies P
      (do
        if c then throw e
        x)
      (do
        if c then throw e
        y) :=
  tallies_ite (fun _ => (tallies_throw e).bind fun _ => same) fun _ => same

theorem tallies_forM {f : β → StrictEdit PUnit} {f' : β → Edit PUnit} (l : List β)
    (same : ∀ b ∈ l, Tallies P (f b) (f' b)) : Tallies P (l.forM f) (l.forM f') := by
  induction l with
  | nil => exact tallies_pure _
  | cons b l ih =>
    exact (same b (by simp)).bind fun _ => ih fun c hc => same c (List.mem_cons_of_mem _ hc)

end Tallies
end StrictEdit

namespace Graph.Strict
open StrictEdit

/-! ### Reads -/

/-- What a port holds, which has to be there. -/
def heldAt (p : Port) : StrictEdit Value := find fun g => (g.slot? p).map Slot.held

def readFor (below : Port → StrictEdit Value) (p : Port) : StrictEdit Value := do
  let s ← plain (Edit.look (·.slot p))
  let _ ← look fun g => resolved g p
  match s.attr.direction with
  | .input => below p
  | .output => pure s.held

def writeFor (p : Port) (v : Value) : StrictEdit Unit := do
  let s ← plain (Edit.look (·.slot p))
  if s.attr.direction = .input then throw (.invalidDirection p)
  let t ← find fun g => effectiveType g p
  if t.isSome ∧ v.portType ≠ t then throw (.mismatch t v.portType)
  plain (Edit.change (·.hold p v))

def typeFor (p : Port) : StrictEdit PortType := do
  let _ ← plain (Edit.look (·.slot p))
  find fun g => effectiveType g p

/-- Answers the requests of a task, as they are answered without strict look-ups. -/
def perform {α : Type} (below : Port → StrictEdit Value) (node : NodeId) : Task α → StrictEdit α
  | .done a => pure a
  | .read i next => do
    let r ← outcome (readFor below ⟨node, i⟩)
    perform below node (next r)
  | .write i v next => do
    let r ← outcome (writeFor ⟨node, i⟩ v)
    perform below node (next r)
  | .typeOf i next => do
    let r ← outcome (typeFor ⟨node, i⟩)
    perform below node (next r)
  | .attachment next => do
    let v := ((← get).node? node).elim .null Node.attachment
    perform below node (next v)

def copyFrom (below : Port → StrictEdit Value) (p q : Port) : StrictEdit Value := do
  let v ← below q
  change fun g => touch g p ((g.hold p v).setCurrent p)
  pure v

def readAll (below : Port → StrictEdit Value) : List Port → StrictEdit (Except String Unit)
  | [] => pure (.ok ())
  | p :: ps => do
    match ← outcome (below p) with
    | .ok _ => readAll below ps
    | .error (.evaluationTooDeep d) => throw (.evaluationTooDeep d)
    | .error e => pure (.error e.message)

def invoke (below : Port → StrictEdit Value) (c : Computation) (p : Port) :
    StrictEdit (Except String Status) := do
  let g ← get
  plain (set (g.noted c p))
  perform below p.node (c.body ⟨p.node, p.index, g.runs c⟩)

def attempt (below : Port → StrictEdit Value) (p : Port) (c : Option Computation) :
    Except String Unit → StrictEdit (Except String Status)
  | .error message => pure (.error message)
  | .ok _ => match c with
    | some c => invoke below c p
    | none => pure (.ok .empty)

def fallback? (g : Graph) (p : Port) : Option (Option Value) := do
  let s ← g.slot? p
  if s.attr.type.isSome then some (some s.attr.default)
  else
    let fed ← (g.sinks p).mapM g.slot?
    some (fed.findSome? fun t => if t.attr.type.isSome then some t.attr.default else none)

def settleFailure (p : Port) (message : String) : StrictEdit Unit := do
  match ← find fun g => fallback? g p with
  | some v => plain (Edit.change fun g => (g.put p v).setStatus p.node (.failed message))
  | none =>
    plain (Edit.change (·.setStatus p.node (.failed message)))
    throw (.computeFailure p.node message)

def settle (p : Port) (result : Except String Status) : StrictEdit Value := do
  match result with
  | .ok s => plain (Edit.change (·.setStatus p.node s))
  | .error message => settleFailure p message
  change fun g => touch g p (g.settled p)
  heldAt p

def compute (below : Port → StrictEdit Value) (p : Port) : StrictEdit Value := do
  let m ← plain (Edit.look (·.node p.node))
  let inputs ← readAll below ((m.ports.inputsOf p.index).map (Port.mk p.node))
  let result ← attempt below p m.compute inputs
  settle p result

def freshen (below : Port → StrictEdit Value) (p : Port) : StrictEdit Value := do
  let g ← get
  let s ← find fun _ => g.slot? p
  if !s.stale then pure s.held
  else match s.attr.direction, g.source? p, s.peer with
    | .input, some q, _ => copyFrom below p q
    | .input, none, _ => do
      change fun g => touch g p (g.setCurrent p)
      heldAt p
    | .output, _, some q => copyFrom below p q
    | .output, _, none => compute below p

def readWithin : Nat → Port → StrictEdit Value
  | 0, _ => do throw (.evaluationTooDeep (← get).config.maxDepth)
  | levels + 1, p => freshen (readWithin levels) p

def read (p : Port) : StrictEdit Value := do
  let _ ← plain (Edit.look (·.slot p))
  readWithin ((← get).config.maxDepth + 1) p

def readAs (t : DataType) (p : Port) : StrictEdit Payload := do
  let _ ← plain (Edit.look (·.slot p))
  let u ← look fun g => resolved g p
  if u ≠ t then throw (.mismatch (some u) (some t))
  let v ← read p
  match v.as? t with
  | some payload => pure payload
  | none => throw (.mismatch (some t) v.portType)

def readEach : List Port → Option Error → StrictEdit (Option Error)
  | [], first => pure first
  | p :: ps, first => do
    if ← find fun g => (g.slot? p).map Slot.stale then
      match ← outcome (readWithin ((← get).config.maxDepth + 1) p) with
      | .ok _ => readEach ps first
      | .error e => readEach ps (first.or (some e))
    else readEach ps first

/-- What each port needs is looked up strictly when the order is made. -/
def refresh : StrictEdit Unit := do
  let g ← get
  let _ ← find fun _ => g.stalePorts.mapM (predecessors g)
  match ← readEach (schedule g.predecessors g.stalePorts) none with
  | some e => throw e
  | none => pure ()

section Reads
variable {g₀ : Graph} {p : Port} {below : Port → StrictEdit Value} {below' : Port → Edit Value}

theorem keeps_of_leads {α : Type} {x : Edit α} (h : Edit.Leads Calmer x) :
    Edit.Keeps (SameFrame g₀) x := h.keeps fun _ _ c a => a.trans c.frame

theorem tallies_heldAt (hp : g₀.Live p) :
    Tallies (SameFrame g₀) (heldAt p) (do return (← get).held p) := by
  refine tallies_find fun g a => ?_
  obtain ⟨s, hs⟩ := Live.slot (a.live ▸ hp : g.Live p)
  simp [Graph.held, hs]

/-- A port is changed that is there. -/
theorem tallies_touch (hp : g₀.Live p) {f : Graph → Graph} (calm : ∀ g, Calmer g (f g)) :
    Tallies (SameFrame g₀) (change fun g => touch g p (f g)) (Edit.change f) :=
  tallies_change (fun _ a => touch_eq (a.live ▸ hp) _) fun g a => a.trans (calm g).frame

theorem live_of_mem_inputs {g : Graph} (w : g.WellFormed) {n : NodeId} {m : Node} {i : Nat} {q : Port}
    (hm : g.node? n = some m) (hq : q ∈ (m.ports.inputsOf i).map (Port.mk n)) : g.Live q := by
  obtain ⟨j, hj, rfl⟩ := List.mem_map.1 hq
  have influences : g.Influences ⟨n, j⟩ ⟨n, i⟩ :=
    ⟨rfl, m.type, by simp [type?, hm], (Layout.mem_inputsOf _ _ _).1 hj⟩
  exact live_of_direction? (influences.input w)

theorem fallback?_eq {g : Graph} (w : g.WellFormed) (hp : g.Live p) :
    fallback? g p = some (g.fallback? p) := by
  obtain ⟨s, hs⟩ := hp.slot
  simp only [fallback?, Graph.fallback?, hs, Option.bind_eq_bind, Option.bind_some]
  split
  · rfl
  · rw [mapM_eq_filterMap fun t ht => live_of_mem_sinks w ht]
    rfl

theorem tallies_status (n : NodeId) (s : Status) : Tallies (SameFrame g₀)
    (plain (Edit.change (·.setStatus n s))) (Edit.change (·.setStatus n s)) :=
  tallies_plain (keeps_of_leads fun g => g.calmer_setStatus n s)

section Below
variable (hb : ∀ p, g₀.Live p → Tallies (SameFrame g₀) (below p) (below' p))
include hb

theorem tallies_copyFrom {q : Port} (hp : g₀.Live p) (hq : g₀.Live q) :
    Tallies (SameFrame g₀) (copyFrom below p q) (Graph.copyFrom below' p q) := by
  refine (hb q hq).bind fun v => ?_
  exact (tallies_touch hp fun g => (g.calmer_hold p v).trans (calmer_setCurrent _ p)).bind fun _ =>
    tallies_pure v

theorem tallies_readAll (ps : List Port) (live : ∀ p ∈ ps, g₀.Live p) :
    Tallies (SameFrame g₀) (readAll below ps) (Graph.readAll below' ps) := by
  induction ps with
  | nil => exact tallies_pure _
  | cons p ps ih =>
    refine (tallies_outcome (hb p (live p (by simp)))).bind fun r => ?_
    cases r with
    | ok v => exact ih fun q hq => live q (List.mem_cons_of_mem _ hq)
    | error e =>
      cases e with
      | evaluationTooDeep d => exact tallies_throw _
      | _ => exact tallies_pure _

end Below

section Task
variable (w : g₀.WellFormed)
include w

theorem tallies_effectiveType_bind {α : Type} {k : PortType → StrictEdit α} {k' : PortType → Edit α}
    (hp : g₀.Live p) (rest : ∀ t, Tallies (SameFrame g₀) (k t) (k' t)) :
    Tallies (SameFrame g₀) (find (fun g => effectiveType g p) >>= k)
      (get >>= fun g => k' (g.effectiveType p)) :=
  tallies_find_bind fun _ a => ⟨_, effectiveType_eq (a.wellFormed w) (a.live ▸ hp), rest _⟩

theorem tallies_writeFor (p : Port) (v : Value) :
    Tallies (SameFrame g₀) (writeFor p v) (Graph.writeFor p v) := by
  refine tallies_checked_bind fun s g a hs => ?_
  have hp : g₀.Live p := a.live ▸ live_of_slot hs
  refine tallies_check _ (tallies_effectiveType_bind w hp fun t => tallies_check _ ?_)
  exact tallies_plain (keeps_of_leads fun g => g.calmer_hold p v)

theorem tallies_typeFor (p : Port) : Tallies (SameFrame g₀) (typeFor p) (do
    let _ ← Edit.look (·.slot p)
    return (← get).effectiveType p) := by
  refine tallies_checked_bind fun s g a hs => ?_
  have hp : g₀.Live p := a.live ▸ live_of_slot hs
  exact tallies_find fun g a => effectiveType_eq (a.wellFormed w) (a.live ▸ hp)

variable (hb : ∀ p, g₀.Live p → Tallies (SameFrame g₀) (below p) (below' p))
include hb

theorem tallies_readFor (p : Port) :
    Tallies (SameFrame g₀) (readFor below p) (Graph.readFor below' p) := by
  refine tallies_checked_bind fun s g a hs => ?_
  have hp : g₀.Live p := a.live ▸ live_of_slot hs
  refine (tallies_look fun g a => resolved_eq (a.wellFormed w) (a.live ▸ hp)).bind fun _ => ?_
  cases s.attr.direction with
  | input => exact hb p hp
  | output => exact tallies_pure _

theorem tallies_perform {α : Type} (node : NodeId) (t : Task α) :
    Tallies (SameFrame g₀) (perform below node t) (t.perform below' node) := by
  induction t with
  | done a => exact tallies_pure a
  | read i next ih => exact (tallies_outcome (tallies_readFor w hb _)).bind ih
  | write i v next ih => exact (tallies_outcome (tallies_writeFor w _ v)).bind ih
  | typeOf i next ih => exact (tallies_outcome (tallies_typeFor w _)).bind ih
  | attachment next ih => exact tallies_get_bind fun g _ => ih _

theorem tallies_invoke (c : Computation) (p : Port) :
    Tallies (SameFrame g₀) (invoke below c p) (Graph.invoke below' c p) :=
  tallies_get_bind fun g a => by
    have noted : SameFrame g₀ (g.noted c p) := a.trans (sameFrame_of_nodes rfl rfl rfl)
    exact (tallies_plain fun _ _ => noted).bind fun _ => tallies_perform w hb _ _

theorem tallies_attempt (p : Port) (c : Option Computation) (inputs : Except String Unit) :
    Tallies (SameFrame g₀) (attempt below p c inputs) (Graph.attempt below' p c inputs) := by
  cases inputs with
  | error message => exact tallies_pure _
  | ok u =>
    cases c with
    | none => exact tallies_pure _
    | some c => exact tallies_invoke w hb c p

end Task

section Settle
variable (w : g₀.WellFormed) (hp : g₀.Live p)
include w hp

theorem tallies_settleFailure (message : String) :
    Tallies (SameFrame g₀) (settleFailure p message) (Graph.settleFailure p message) := by
  refine tallies_find_bind fun g a => ⟨_, fallback?_eq (a.wellFormed w) (a.live ▸ hp), ?_⟩
  cases g.fallback? p with
  | some v =>
    exact tallies_plain (keeps_of_leads fun g => (g.calmer_put p v).trans (calmer_setStatus _ _ _))
  | none => exact (tallies_status _ _).bind fun _ => tallies_throw _

theorem tallies_settle (result : Except String Status) :
    Tallies (SameFrame g₀) (settle p result) (Graph.settle p result) := by
  have rest : Tallies (SameFrame g₀) (do
      change fun g => touch g p (g.settled p)
      heldAt p) (do
      Edit.change (·.settled p)
      return (← get).held p) :=
    (tallies_touch hp fun g => g.calmer_settled p).bind fun _ => tallies_heldAt hp
  cases result with
  | ok s => exact (tallies_status _ _).bind fun _ => rest
  | error message => exact (tallies_settleFailure w hp message).bind fun _ => rest

end Settle

section Freshen
variable (w : g₀.WellFormed) (hb : ∀ p, g₀.Live p → Tallies (SameFrame g₀) (below p) (below' p))
include w hb

theorem tallies_compute (hp : g₀.Live p) :
    Tallies (SameFrame g₀) (compute below p) (Graph.compute below' p) := by
  rw [compute_eq]
  refine tallies_checked_bind fun m g a hm => ?_
  refine (tallies_readAll hb _ fun q hq => ?_).bind fun inputs => ?_
  · exact a.live ▸ live_of_mem_inputs (a.wellFormed w) (node_eq_ok_iff.1 hm) hq
  · exact (tallies_attempt w hb p _ inputs).bind fun result => tallies_settle w hp result

theorem tallies_freshen (hp : g₀.Live p) :
    Tallies (SameFrame g₀) (freshen below p) (Graph.freshen below' p) := by
  refine tallies_get_bind fun g a => ?_
  obtain ⟨s, hs⟩ := Live.slot (a.live ▸ hp : g.Live p)
  have w' := a.wellFormed w
  simp only [hs]
  refine tallies_found_bind rfl (tallies_ite (fun _ => tallies_pure _) fun _ => ?_)
  cases s.attr.direction with
  | input =>
    cases hq : g.source? p with
    | some q => exact tallies_copyFrom hb hp (a.live ▸ live_of_source? w' hq)
    | none =>
      exact (tallies_touch hp fun g => g.calmer_setCurrent p).bind fun _ => tallies_heldAt hp
  | output =>
    cases hq : s.peer with
    | some q =>
      have peer : g.peer? p = some q := by simp [Graph.peer?, hs, hq]
      exact tallies_copyFrom hb hp (a.live ▸ live_of_peer? w' peer)
    | none => exact tallies_compute w hb hp

end Freshen

/-- A port that is there is read without missing any other. -/
theorem tallies_readWithin (w : g₀.WellFormed) (levels : Nat) (hp : g₀.Live p) :
    Tallies (SameFrame g₀) (readWithin levels p) (Graph.readWithin levels p) := by
  induction levels generalizing p with
  | zero => exact tallies_get_bind fun _ _ => tallies_throw _
  | succ levels ih => exact tallies_freshen w (fun _ => ih) hp

section Run
variable (w : g₀.WellFormed)
include w

theorem tallies_read (p : Port) : Tallies (SameFrame g₀) (read p) (Graph.read p) :=
  tallies_checked_bind fun _ _ a hs => tallies_get_bind fun _ _ =>
    tallies_readWithin w _ (a.live ▸ live_of_slot hs)

theorem tallies_readAs (t : DataType) (p : Port) :
    Tallies (SameFrame g₀) (readAs t p) (Graph.readAs t p) := by
  refine tallies_checked_bind fun s g a hs => ?_
  have hp : g₀.Live p := a.live ▸ live_of_slot hs
  refine (tallies_look fun g a => resolved_eq (a.wellFormed w) (a.live ▸ hp)).bind fun u => ?_
  refine tallies_check _ ((tallies_read w p).bind fun v => ?_)
  cases v.as? t with
  | some payload => exact tallies_pure payload
  | none => exact tallies_throw _

theorem tallies_readEach (ps : List Port) (live : ∀ p ∈ ps, g₀.Live p) (first : Option Error) :
    Tallies (SameFrame g₀) (readEach ps first) (Graph.readEach ps first) := by
  induction ps generalizing first with
  | nil => exact tallies_pure first
  | cons p ps ih =>
    have hp := live p (by simp)
    have ih := ih fun q hq => live q (List.mem_cons_of_mem _ hq)
    refine tallies_find_bind fun g a => ?_
    obtain ⟨s, hs⟩ := Live.slot (a.live ▸ hp : g.Live p)
    refine ⟨s.stale, by rw [hs]; rfl, ?_⟩
    have stale : g.isStale p = s.stale := by simp [isStale, hs]
    rw [stale]
    refine tallies_ite (fun _ => tallies_get_bind fun _ _ => ?_) fun _ => ih first
    refine (tallies_outcome (tallies_readWithin w _ hp)).bind fun r => ?_
    cases r with
    | ok v => exact ih first
    | error e => exact ih _

theorem tallies_refresh : Tallies (SameFrame g₀) refresh Graph.refresh := by
  refine tallies_get_bind fun g a => ?_
  have w' := a.wellFormed w
  have live (p : Port) (hp : p ∈ g.stalePorts) : g.Live p := by
    have stale := (mem_stalePorts_iff w'.tree p).1 hp
    rw [isStale] at stale
    cases hs : g.slot? p with
    | none => simp [hs] at stale
    | some s => simp [Live, hs]
  have needs := mapM_eq_some fun p hp => predecessors_eq (live p hp)
  refine tallies_found_bind needs ((tallies_readEach w _ (fun p hp => ?_) none).bind fun r => ?_)
  · exact a.live ▸ live p ((schedule_perm _ _).mem_iff.1 hp)
  · cases r with
    | some e => exact tallies_throw e
    | none => exact tallies_pure ()

end Run
end Reads
end Graph.Strict

end Dataflow
