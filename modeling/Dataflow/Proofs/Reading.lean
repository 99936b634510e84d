import Dataflow.Graph.Refresh
import Dataflow.Proofs.Edit
import Dataflow.Proofs.Flow
set_option autoImplicit false

/-!
What reading leaves as it was. Main statements: whatever the computations do, a read changes nothing
of the frame and marks nothing as out of date, and a port that was read with success is up to date.
-/

namespace Dataflow.Graph

/-- The frame is the same, and nothing is out of date that was not before. -/
structure Calmer (g h : Graph) : Prop where
  frame : SameFrame g h
  stale : ∀ p, h.isStale p = true → g.isStale p = true

namespace Calmer
variable {g h k : Graph}

theorem refl (g : Graph) : Calmer g g := ⟨.refl g, fun _ h => h⟩

theorem trans (a : Calmer g h) (b : Calmer h k) : Calmer g k :=
  ⟨a.frame.trans b.frame, fun p hp => a.stale p (b.stale p hp)⟩

theorem steps : Edit.Steps Calmer := ⟨refl, trans⟩

theorem current (a : Calmer g h) {p : Port} (hp : g.isStale p = false) : h.isStale p = false := by
  cases hs : h.isStale p with
  | false => rfl
  | true => rw [a.stale p hs] at hp; cases hp

end Calmer

section Elementary
variable (g : Graph) (p : Port)

theorem isStale_hold (v : Value) (q : Port) : (g.hold p v).isStale q = g.isStale q := by
  have h := slot?_modifySlot (g.stamp v).2 p q fun s => { s with held := (g.stamp v).1 }
  have same : (g.stamp v).2.slot? q = g.slot? q := rfl
  simp only [isStale, hold, slot?_emit, put, h, same]
  split
  · cases g.slot? q <;> rfl
  · rfl

theorem isStale_put (v : Value) (q : Port) : (g.put p v).isStale q = g.isStale q :=
  isStale_hold g p v q

theorem slot?_setStatus (n : NodeId) (s : Status) (q : Port) :
    (g.setStatus n s).slot? q = g.slot? q := by
  simp only [setStatus]
  split
  · split
    · rfl
    · simp only [slot?, Option.bind_eq_bind]
      exact bind_node?_modifyNode g n (fun m => { m with status := s })
        (fun m => m.ports.get? q.index) (fun _ => rfl) q.node
  · rfl

theorem isStale_setStatus (n : NodeId) (s : Status) (q : Port) :
    (g.setStatus n s).isStale q = g.isStale q := by rw [isStale, slot?_setStatus]; rfl

theorem calmer_hold (v : Value) : Calmer g (g.hold p v) :=
  ⟨g.sameFrame_hold p v, fun q h => by rwa [isStale_hold] at h⟩

theorem calmer_put (v : Value) : Calmer g (g.put p v) :=
  ⟨g.sameFrame_put p v, fun q h => by rwa [isStale_put] at h⟩

theorem calmer_setStatus (n : NodeId) (s : Status) : Calmer g (g.setStatus n s) :=
  ⟨g.sameFrame_setStatus n s, fun q h => by rwa [isStale_setStatus] at h⟩

theorem calmer_emit (e : Event) : Calmer g (g.emit e) := ⟨g.sameFrame_emit e, fun _ h => h⟩

theorem calmer_setCurrent : Calmer g (g.setCurrent p) := by
  refine ⟨g.sameFrame_setCurrent p, fun q h => ?_⟩
  rw [isStale_setCurrent] at h
  split at h
  · cases h
  · exact h

end Elementary

theorem mem_stalePorts_iff {g : Graph} (w : g.Tree) (p : Port) :
    p ∈ g.stalePorts ↔ g.isStale p = true := by
  rw [stalePorts, List.mem_mergeSort, mem_portsWhere_iff w, isStale]
  cases g.slot? p <;> simp

/-- How often a computation will have run. -/
def runs (g : Graph) (c : Computation) : Nat := (g.calls.get? c.serial).getD 0 + 1

/-- One more run of a computation is counted and noted. -/
def noted (g : Graph) (c : Computation) (p : Port) : Graph :=
  { g with calls := g.calls.put c.serial (g.runs c), journal := .computing p :: g.journal }

theorem invoke_apply (below : Port → Edit Value) (c : Computation) (p : Port) (g : Graph) :
    (invoke below c p).apply g =
      ((c.body ⟨p.node, p.index, g.runs c⟩).perform below p.node).apply (g.noted c p) := by
  rw [invoke, Edit.apply_bind, Edit.apply_get]
  rfl

/-- What a task is given for an attribute that it reads. -/
def readFor (below : Port → Edit Value) (p : Port) : Edit Value := do
  let s ← Edit.look (·.slot p)
  let _ ← Edit.look (·.resolved p)
  match s.attr.direction with
  | .input => below p
  | .output => pure s.held

/-- What is done for a task that writes an attribute. -/
def writeFor (p : Port) (v : Value) : Edit Unit := do
  let s ← Edit.look (·.slot p)
  if s.attr.direction = .input then throw (.invalidDirection p)
  let t := (← get).effectiveType p
  if t.isSome ∧ v.portType ≠ t then throw (.mismatch t v.portType)
  Edit.change (·.hold p v)

section Perform
variable {α : Type} (below : Port → Edit Value) (node : NodeId)

theorem perform_read (i : Nat) (next : Except Error Value → Task α) :
    (Task.read i next).perform below node =
      (Edit.outcome (readFor below ⟨node, i⟩) >>= fun r => (next r).perform below node) := rfl

theorem perform_write (i : Nat) (v : Value) (next : Except Error Unit → Task α) :
    (Task.write i v next).perform below node =
      (Edit.outcome (writeFor ⟨node, i⟩ v) >>= fun r => (next r).perform below node) := rfl

end Perform

/-- A task gets an answer to whatever it asks for, so that it always comes to its end. -/
theorem perform_ok {α : Type} (below : Port → Edit Value) (node : NodeId) (t : Task α) (g : Graph) :
    ∃ a, ((t.perform below node).apply g).1 = .ok a := by
  induction t generalizing g with
  | done a => exact ⟨a, rfl⟩
  | read i next ih | write i v next ih | typeOf i next ih =>
    rw [Task.perform, Edit.apply_bind, Edit.apply_outcome]
    exact ih _ _
  | attachment next ih =>
    rw [Task.perform, Edit.apply_bind, Edit.apply_get]
    exact ih _ _

/-! ### The parts of a computation -/

/-- What becomes of an output whose inputs were read as told. -/
def attempt (below : Port → Edit Value) (p : Port) (c : Option Computation) :
    Except String Unit → Edit (Except String Status)
  | .error message => pure (.error message)
  | .ok _ => match c with
    | some c => invoke below c p
    | none => pure (.ok .empty)

/-- How an output comes to be up to date after that. -/
def settle (p : Port) (result : Except String Status) : Edit Value := do
  match result with
  | .ok s => Edit.change (·.setStatus p.node s)
  | .error message => settleFailure p message
  Edit.change fun g => (g.setCurrent p).emit (.valueChanged p)
  return (← get).held p

theorem compute_eq (below : Port → Edit Value) (p : Port) :
    compute below p = (do
      let m ← Edit.look (·.node p.node)
      let inputs ← readAll below ((m.ports.inputsOf p.index).map (Port.mk p.node))
      let result ← attempt below p m.compute inputs
      settle p result) := by
  simp only [compute]
  congr 1
  funext m
  congr 1
  funext inputs
  cases inputs <;> cases m.compute <;> rfl

/-- The output counts as up to date, and that is told. -/
def settled (g : Graph) (p : Port) : Graph := (g.setCurrent p).emit (.valueChanged p)

section Settle
variable (g : Graph) (p : Port)

theorem settle_ok (s : Status) : (settle p (.ok s)).apply g =
    (.ok (((g.setStatus p.node s).settled p).held p), (g.setStatus p.node s).settled p) := rfl

theorem settle_error_of_some {v : Value} (message : String) (hv : g.fallback? p = some v) :
    (settle p (.error message)).apply g =
      (.ok ((((g.put p v).setStatus p.node (.failed message)).settled p).held p),
        ((g.put p v).setStatus p.node (.failed message)).settled p) := by
  simp only [settle, settleFailure]
  rw [Edit.apply_bind, Edit.apply_bind, Edit.apply_get]
  simp only [hv]
  rfl

theorem settle_error_of_none (message : String) (hv : g.fallback? p = none) :
    (settle p (.error message)).apply g =
      (.error (.computeFailure p.node message), g.setStatus p.node (.failed message)) := by
  simp only [settle, settleFailure]
  rw [Edit.apply_bind, Edit.apply_bind, Edit.apply_get]
  simp only [hv]
  rfl

theorem isStale_settled (q : Port) :
    (g.settled p).isStale q = if p = q then false else g.isStale q := isStale_setCurrent g p q

theorem calmer_settled : Calmer g (g.settled p) := (g.calmer_setCurrent p).trans (calmer_emit _ _)

theorem calmer_settle (result : Except String Status) :
    Calmer g ((settle p result).apply g).2 := by
  cases result with
  | ok s =>
    rw [settle_ok]
    exact (g.calmer_setStatus p.node s).trans (calmer_settled _ p)
  | error message =>
    cases hv : g.fallback? p with
    | some v =>
      rw [settle_error_of_some g p message hv]
      exact ((g.calmer_put p v).trans (calmer_setStatus _ _ _)).trans (calmer_settled _ p)
    | none =>
      rw [settle_error_of_none g p message hv]
      exact g.calmer_setStatus _ _

end Settle

/-- A computation stops at an input that cannot be read for its depth, or it settles the output. -/
theorem compute_cases {below : Port → Edit Value} {p : Port} {g : Graph} {m : Node}
    (hm : g.node? p.node = some m) {motive : Except Error Value × Graph → Prop}
    (stopped : ∀ e h, (readAll below ((m.ports.inputsOf p.index).map (Port.mk p.node))).apply g =
      (.error e, h) → motive (.error e, h))
    (reached : ∀ inputs h result k,
      (readAll below ((m.ports.inputsOf p.index).map (Port.mk p.node))).apply g = (.ok inputs, h) →
      (attempt below p m.compute inputs).apply h = (.ok result, k) →
      motive ((settle p result).apply k)) : motive ((compute below p).apply g) := by
  rw [compute_eq, Edit.apply_bind, Edit.apply_look]
  simp only [node, hm]
  refine Edit.bind_elim (fun inputs h hr => ?_) stopped
  refine Edit.bind_elim (fun result k ha => reached inputs h result k hr ha) fun e k ha => ?_
  -- an attempt itself never fails
  cases inputs with
  | error message => cases ha
  | ok u =>
    cases hc : m.compute with
    | none =>
      rw [hc] at ha
      cases ha
    | some c =>
      rw [hc, attempt, invoke_apply] at ha
      obtain ⟨r, hr⟩ := perform_ok below p.node (c.body ⟨p.node, p.index, h.runs c⟩) (h.noted c p)
      rw [ha] at hr
      cases hr

/-- A port that is read is missing, or up to date, or has its value from a wire, from nowhere else,
from its peer or from the computation of its node. -/
theorem freshen_cases {below : Port → Edit Value} {p : Port} {g : Graph}
    {motive : Except Error Value × Graph → Prop}
    (absent : g.direction? p = none → motive (.error (.noPort p), g))
    (current : (g.direction? p).isSome → g.isStale p = false → motive (.ok (g.held p), g))
    (wired : ∀ q, g.direction? p = some .input → g.isStale p = true → g.source? p = some q →
      motive ((copyFrom below p q).apply g))
    (given : g.direction? p = some .input → g.isStale p = true → g.source? p = none →
      motive (.ok ((g.setCurrent p).held p), g.setCurrent p))
    (linked : ∀ q, g.direction? p = some .output → g.isStale p = true → g.peer? p = some q →
      motive ((copyFrom below p q).apply g))
    (made : g.direction? p = some .output → g.isStale p = true → g.peer? p = none →
      motive ((compute below p).apply g)) : motive ((freshen below p).apply g) := by
  rw [freshen, Edit.apply_bind, Edit.apply_get]
  simp only
  cases hs : g.slot? p with
  | none => exact absent (by simp [direction?, hs])
  | some s =>
    have hd : g.direction? p = some s.attr.direction := by simp [direction?, hs]
    have hp : g.peer? p = s.peer := by simp [peer?, hs]
    have held : g.held p = s.held := by simp [Graph.held, hs]
    have stale : g.isStale p = s.stale := by simp [isStale, hs]
    simp only
    split
    · next fresh =>
      rw [← held]
      exact current (by simp [hd]) (by rw [stale]; simpa using fresh)
    · next old =>
      have old : g.isStale p = true := by rw [stale]; simpa using old
      cases hdir : s.attr.direction with
      | input =>
        rw [hdir] at hd
        cases hq : g.source? p with
        | some q => exact wired q hd old hq
        | none => exact given hd old hq
      | output =>
        rw [hdir] at hd
        cases hq : s.peer with
        | some q => exact linked q hd old (by rw [hp, hq])
        | none => exact made hd old (by rw [hp, hq])

theorem freshen_of_current {below : Port → Edit Value} {p : Port} {g : Graph}
    (live : (g.direction? p).isSome) (hp : g.isStale p = false) :
    (freshen below p).apply g = (.ok (g.held p), g) := by
  refine freshen_cases (motive := fun x => x = (.ok (g.held p), g)) ?_ (fun _ _ => rfl) ?_ ?_ ?_ ?_
  · intro absent
    rw [absent] at live
    cases live
  all_goals
    intros
    simp_all

/-- What neither storing a value in an output nor noting a computation can break. -/
structure Harmless (R : Graph → Graph → Prop) : Prop extends Edit.Steps R where
  hold : ∀ g p v, R g (g.hold p v)
  noted : ∀ g c p, R g (g.noted c p)

theorem Calmer.harmless : Harmless Calmer where
  toSteps := Calmer.steps
  hold := fun g p v => g.calmer_hold p v
  noted := fun _ _ _ => ⟨sameFrame_of_nodes rfl rfl rfl, fun _ h => h⟩

theorem leads_readAll {R : Graph → Graph → Prop} (s : Edit.Steps R) {below : Port → Edit Value}
    (ps : List Port) (hb : ∀ p ∈ ps, Edit.Leads R (below p)) : Edit.Leads R (readAll below ps) := by
  induction ps with
  | nil => exact Edit.leads_pure s _
  | cons p ps ih =>
    refine Edit.leads_bind s (Edit.leads_outcome (hb p (by simp))) fun r => ?_
    cases r with
    | ok v => exact ih fun q hq => hb q (by simp [hq])
    | error e =>
      cases e with
      | evaluationTooDeep d => exact Edit.leads_throw s _
      | _ => exact Edit.leads_pure s _

section Task
open Edit
variable {R : Graph → Graph → Prop}

theorem leads_writeFor (s : Steps R) {p : Port} {v : Value} (hold : ∀ g, R g (g.hold p v)) :
    Leads R (writeFor p v) := by
  refine leads_bind s (leads_look s _) fun slot => ?_
  have store : Leads R (change (·.hold p v)) := leads_change hold
  have rest : Leads R (do
      let t := (← get).effectiveType p
      if t.isSome ∧ v.portType ≠ t then throw (.mismatch t v.portType)
      change (·.hold p v) : Edit Unit) :=
    leads_bind s (leads_get s) fun g =>
      leads_ite (leads_bind s (leads_throw s _) fun _ => store) store
  exact leads_ite (leads_bind s (leads_throw s _) fun _ => rest) rest

variable {below : Port → Edit Value}

theorem leads_readFor (s : Steps R) (hb : ∀ p, Leads R (below p)) (p : Port) :
    Leads R (readFor below p) := by
  refine leads_bind s (leads_look s _) fun slot => leads_bind s (leads_look s _) fun _ => ?_
  cases slot.attr.direction with
  | input => exact hb _
  | output => exact leads_pure s _

theorem leads_perform {α : Type} (s : Steps R) (hb : ∀ p, Leads R (below p)) {node : NodeId}
    (hw : ∀ i v, Leads R (writeFor ⟨node, i⟩ v)) (t : Task α) :
    Leads R (t.perform below node) := by
  induction t with
  | done a => exact leads_pure s a
  | read i next ih => exact leads_bind s (leads_outcome (leads_readFor s hb _)) fun r => ih r
  | write i v next ih => exact leads_bind s (leads_outcome (hw i v)) fun r => ih r
  | typeOf i next ih =>
    refine leads_bind s (leads_outcome ?_) fun r => ih r
    exact leads_bind s (leads_look s _) fun _ => leads_bind s (leads_get s) fun g => leads_pure s _
  | attachment next ih => exact leads_bind s (leads_get s) fun g => ih _

theorem leads_invoke (k : Harmless R) (hb : ∀ p, Leads R (below p)) (c : Computation) (p : Port) :
    Leads R (invoke below c p) := by
  intro g
  rw [invoke_apply]
  exact k.trans (k.noted g c p)
    (leads_perform k.toSteps hb (fun _ v => leads_writeFor k.toSteps fun g => k.hold g _ v) _ _)

end Task

/-! ### Reads -/

/-- What no step of a read can break. -/
structure Gentle (R : Graph → Graph → Prop) : Prop extends Harmless R where
  current : ∀ g p, R g (g.setCurrent p)
  settle : ∀ g p result, R g ((Graph.settle p result).apply g).2

theorem Calmer.gentle : Gentle Calmer where
  toHarmless := Calmer.harmless
  current := fun g p => g.calmer_setCurrent p
  settle := fun g p result => g.calmer_settle p result

section Reads
open Edit
variable {R : Graph → Graph → Prop} (k : Gentle R) {below : Port → Edit Value}
  (hb : ∀ p, Leads R (below p))
include k hb

theorem leads_attempt (p : Port) (c : Option Computation) (inputs : Except String Unit) :
    Leads R (attempt below p c inputs) := by
  cases inputs with
  | error message => exact leads_pure k.toSteps _
  | ok u =>
    cases c with
    | none => exact leads_pure k.toSteps _
    | some c => exact leads_invoke k.toHarmless hb c p

theorem leads_compute (p : Port) : Leads R (compute below p) := by
  have s := k.toSteps
  rw [compute_eq]
  refine leads_bind s (leads_look s _) fun m => leads_bind s (leads_readAll s _ fun q _ => hb q) fun inputs => ?_
  exact leads_bind s (leads_attempt k hb p _ inputs) fun r g => k.settle g p r

theorem leads_copyFrom (p q : Port) : Leads R (copyFrom below p q) := by
  have s := k.toSteps
  refine leads_bind s (hb q) fun v => leads_bind s (leads_change fun g => ?_) fun _ => leads_pure s _
  exact s.trans (k.hold g p v) (k.current _ p)

theorem leads_freshen (p : Port) : Leads R (freshen below p) := by
  intro g
  refine freshen_cases (motive := fun r => R g r.2) ?_ ?_ ?_ ?_ ?_ ?_
  · exact fun _ => k.refl g
  · exact fun _ _ => k.refl g
  · exact fun q _ _ _ => leads_copyFrom k hb p q g
  · exact fun _ _ _ => k.current g p
  · exact fun q _ _ _ => leads_copyFrom k hb p q g
  · exact fun _ _ _ => leads_compute k hb p g

end Reads

section Run
open Edit

theorem Gentle.readWithin {R : Graph → Graph → Prop} (k : Gentle R) (levels : Nat) (p : Port) :
    Leads R (readWithin levels p) := by
  induction levels generalizing p with
  | zero => exact leads_bind k.toSteps (leads_get k.toSteps) fun _ => leads_throw k.toSteps _
  | succ levels ih => exact leads_freshen k ih p

theorem leads_readWithin (levels : Nat) (p : Port) : Leads Calmer (readWithin levels p) :=
  Calmer.gentle.readWithin levels p

variable {R : Graph → Graph → Prop} (s : Steps R)
  (within : ∀ levels p, Leads R (readWithin levels p))
include s within

theorem leads_read (p : Port) : Leads R (read p) :=
  leads_bind s (leads_look s _) fun _ => leads_bind s (leads_get s) fun _ => within _ p

theorem leads_readAs (t : DataType) (p : Port) : Leads R (readAs t p) := by
  refine leads_bind s (leads_look s _) fun _ => leads_bind s (leads_look s _) fun u => ?_
  refine leads_ite (leads_bind s (leads_throw s _) fun _ => ?_) ?_
  all_goals
    refine leads_bind s (leads_read s within p) fun v => ?_
    cases v.as? t with
    | some payload => exact leads_pure s _
    | none => exact leads_throw s _

theorem leads_readEach (ps : List Port) (first : Option Error) : Leads R (readEach ps first) := by
  induction ps generalizing first with
  | nil => exact leads_pure s _
  | cons p ps ih =>
    refine leads_bind s (leads_get s) fun g => leads_ite ?_ (ih _)
    refine leads_bind s (leads_get s) fun g => ?_
    refine leads_bind s (leads_outcome (within _ p)) fun r => ?_
    cases r with
    | ok v => exact ih _
    | error e => exact ih _

theorem leads_refresh : Leads R refresh := by
  refine leads_bind s (leads_get s) fun g => leads_bind s (leads_readEach s within _ _) fun r => ?_
  cases r with
  | some e => exact leads_throw s _
  | none => exact leads_pure s _

end Run
end Dataflow.Graph
