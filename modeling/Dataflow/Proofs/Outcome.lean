import Dataflow.Proofs.Freshness
set_option autoImplicit false

/-!
What a computation makes of its inputs, apart from any graph. A computation is confined if it reads
only inputs that influence the output it is asked for, and writes only that output. Main statement:
where those inputs are up to date, a confined computation does in a graph just what it does apart.
-/

namespace Dataflow

/-- How a task ends and what it wrote last, if its inputs hold `inputs` and its output takes values
of type `type`. There is no answer to a task that reads anything but inputs in `reads` or writes
anything but the attribute `out`. -/
def Task.run {α : Type} (reads : List Nat) (out : Nat) (type : PortType) (inputs : Nat → Value) :
    Task α → Option Value → Option (α × Option Value)
  | .done a, last => some (a, last)
  | .read i next, last =>
    if i ∈ reads then (next (.ok (inputs i))).run reads out type inputs last else none
  | .write i v next, last =>
    if i = out then
      if v.portType = type then (next (.ok ())).run reads out type inputs (some v)
      else (next (.error (.mismatch type v.portType))).run reads out type inputs last
    else none
  | .typeOf _ _, _ => none
  | .attachment _, _ => none

theorem Task.run_congr {α : Type} {reads : List Nat} {inputs inputs' : Nat → Value}
    (h : ∀ i ∈ reads, inputs i = inputs' i) (out : Nat) (type : PortType) (t : Task α)
    (last : Option Value) :
    t.run reads out type inputs last = t.run reads out type inputs' last := by
  induction t generalizing last with
  | done a => rfl
  | read i next ih =>
    simp only [run]
    split
    · next hi => rw [h i hi, ih]
    · rfl
  | write i v next ih => simp only [run, ih]
  | typeOf i next ih => rfl
  | attachment next ih => rfl

/-- A value that carries what is given and has no mark. -/
def Value.ofPayload : Option Payload → Value
  | some x => .fresh x
  | none => .null

namespace NodeType

/-- What a computation for the output `p` leaves in it: what it wrote, or the default if it fails.
There is no answer to one that is not confined, or that succeeds without having written. -/
def made (t : NodeType) (c : Computation) (p : Port) (count : Nat) (inputs : Nat → Value) :
    Option Value :=
  (t.ports.get? p.index).bind fun a =>
    match (c.body ⟨p.node, p.index, count⟩).run (t.ports.inputsOf p.index) p.index a.type inputs
      none with
    | some (.ok _, some v) => some v
    | some (.error _, _) => some a.default
    | _ => none

/-- The node computes its outputs as functions of what the inputs that influence them carry. -/
structure Functional (t : NodeType) : Prop where
  typed : ∀ i a, t.ports.get? i = some a → a.type.isSome
  made : ∀ c p a count inputs, t.compute = some c → t.ports.get? p.index = some a →
    a.direction = .output → (t.made c p count inputs).isSome
  same : ∀ c p count count' (inputs inputs' : Nat → Value), t.compute = some c →
    (∀ i ∈ t.ports.inputsOf p.index, (inputs i).payload? = (inputs' i).payload?) →
    (t.made c p count inputs).map Value.payload? = (t.made c p count' inputs').map Value.payload?

theorem made_eq_some {t : NodeType} {c : Computation} {p : Port} {count : Nat}
    {inputs : Nat → Value} {v : Value} (h : t.made c p count inputs = some v) :
    ∃ a, t.ports.get? p.index = some a ∧
      let run := (c.body ⟨p.node, p.index, count⟩).run (t.ports.inputsOf p.index) p.index a.type
        inputs none
      (∃ s, run = some (.ok s, some v)) ∨ ∃ m u, run = some (.error m, u) ∧ v = a.default := by
  obtain ⟨a, ha, h⟩ := Option.bind_eq_some_iff.1 h
  refine ⟨a, ha, ?_⟩
  split at h
  · next s u hr =>
    cases h
    exact .inl ⟨s, hr⟩
  · next m u hr =>
    cases h
    exact .inr ⟨m, u, hr, rfl⟩
  · cases h

/-- A type of which nodes may be made: a part of networks, or one whose nodes compute by
functions. -/
structure Regular (t : NodeType) : Prop extends t.Standard where
  functional : t.compute.isSome → t.Functional

/-- What the output `p` carries if the inputs carry `inputs`. -/
def outcome (t : NodeType) (c : Computation) (p : Port) (inputs : Nat → Option Payload) :
    Option Payload :=
  (t.made c p 0 fun i => .ofPayload (inputs i)).bind Value.payload?

theorem outcome_congr (t : NodeType) (c : Computation) (p : Port)
    {inputs inputs' : Nat → Option Payload}
    (h : ∀ i ∈ t.ports.inputsOf p.index, inputs i = inputs' i) :
    t.outcome c p inputs = t.outcome c p inputs' := by
  have values : ∀ i ∈ t.ports.inputsOf p.index,
      Value.ofPayload (inputs i) = Value.ofPayload (inputs' i) := by
    intro i hi
    rw [h i hi]
  simp only [outcome, made, Task.run_congr values]

theorem payload_ofPayload (x : Option Payload) : (Value.ofPayload x).payload? = x := by
  cases x <;> rfl

/-- Of a functional type, any run of the computation gives the outcome. -/
theorem Functional.outcome_eq {t : NodeType} (f : t.Functional) {c : Computation}
    (hc : t.compute = some c) {p : Port} {count : Nat} {inputs : Nat → Value} {v : Value}
    (h : t.made c p count inputs = some v) :
    t.outcome c p (fun i => (inputs i).payload?) = v.payload? := by
  have same := f.same c p count 0 inputs (fun i => .ofPayload (inputs i).payload?) hc
    fun i _ => (payload_ofPayload _).symm
  rw [h] at same
  rw [outcome]
  cases hm : t.made c p 0 fun i => .ofPayload (inputs i).payload? with
  | none => simp [hm] at same
  | some u => simpa [hm] using same.symm

end NodeType

namespace Graph

/-- A port with a type of its own goes by that. -/
theorem effectiveType_of_declared {g : Graph} (w : g.Tree) {p : Port} {t : DataType}
    (h : g.declaredType p = some t) : g.effectiveType p = some t := by
  have live : p ∈ g.ports := by
    rw [mem_ports_iff w, direction?]
    simp only [declaredType] at h
    cases hs : g.slot? p with
    | none => simp [hs] at h
    | some s => rfl
  rw [effectiveType, walk, if_pos live, List.findSome?_cons, h]

/-- What a port carries. -/
def value (g : Graph) (p : Port) : Option Payload := (g.held p).payload?

theorem held_setCurrent (g : Graph) (p q : Port) : (g.setCurrent p).held q = g.held q := by
  simp only [held, setCurrent, slot?_emit, slot?_modifySlot]
  split
  · cases g.slot? q <;> rfl
  · rfl

theorem value_put (g : Graph) (p q : Port) (v : Value) (live : (g.direction? p).isSome) :
    (g.put p v).value q = if p = q then v.payload? else g.value q := by
  rw [value, held_put]
  by_cases hp : p = q
  · subst hp
    rw [direction?, Option.isSome_map] at live
    rw [if_pos ⟨rfl, live⟩, if_pos rfl, Value.payload_stamp]
  · rw [if_neg (fun h => hp h.1), if_neg hp]
    rfl

theorem value_hold (g : Graph) (p q : Port) (v : Value) (live : (g.direction? p).isSome) :
    (g.hold p v).value q = if p = q then v.payload? else g.value q := g.value_put p q v live

/-- Nothing has changed at the ports but what `p` holds. -/
structure Stored (p : Port) (g h : Graph) : Prop where
  frame : SameFrame g h
  slot : ∀ q, q ≠ p → h.slot? q = g.slot? q
  stale : h.isStale p = g.isStale p

namespace Stored
variable {p : Port} {g h k : Graph}

theorem refl (g : Graph) : Stored p g g := ⟨.refl g, fun _ _ => rfl, rfl⟩

theorem trans (a : Stored p g h) (b : Stored p h k) : Stored p g k :=
  ⟨a.frame.trans b.frame, fun q hq => (b.slot q hq).trans (a.slot q hq), b.stale.trans a.stale⟩

theorem of_quiet (a : Quiet g h) : Stored p g h :=
  ⟨a.frame, fun q _ => by rw [a.slot], by rw [a.isStale]⟩

theorem put (g : Graph) (p : Port) (v : Value) : Stored p g (g.put p v) := by
  refine ⟨g.sameFrame_put p v, fun q hq => ?_, isStale_put g p v p⟩
  have h := slot?_modifySlot (g.stamp v).2 p q fun s => { s with held := (g.stamp v).1 }
  rw [if_neg (Ne.symm hq)] at h
  exact h

theorem hold (g : Graph) (p : Port) (v : Value) : Stored p g (g.hold p v) :=
  (put g p v).trans (.of_quiet (quiet_emit _ _))

theorem setStatus (g : Graph) (n : NodeId) (s : Status) : Stored p g (g.setStatus n s) :=
  ⟨g.sameFrame_setStatus n s, fun q _ => slot?_setStatus g n s q, isStale_setStatus g n s p⟩

theorem held (a : Stored p g h) {q : Port} (hq : q ≠ p) : h.held q = g.held q := by
  rw [Graph.held, a.slot q hq]
  rfl

theorem value (a : Stored p g h) {q : Port} (hq : q ≠ p) : h.value q = g.value q := by
  rw [Graph.value, a.held hq]
  rfl

theorem isStale (a : Stored p g h) : h.isStale = g.isStale := by
  funext q
  by_cases hq : q = p
  · rw [hq, a.stale]
  · rw [Graph.isStale, a.slot q hq]
    rfl

end Stored

/-! ### In a graph -/

theorem slot_of_direction? {g : Graph} {p : Port} {d : Direction} (h : g.direction? p = some d) :
    ∃ s, g.slot p = .ok s ∧ s.attr.direction = d := by
  obtain ⟨s, hs, hd⟩ := Option.map_eq_some_iff.1 h
  refine ⟨s, ?_, hd⟩
  simp only [slot?, Option.bind_eq_bind] at hs
  obtain ⟨m, hm, hs⟩ := Option.bind_eq_some_iff.1 hs
  simp [slot, node, hm, hs, bind, Except.bind]

/-- The inputs of a computation give what they hold, whatever the output holds meanwhile. -/
def Ready (below : Port → Edit Value) (g : Graph) (p : Port) (i : Nat) : Prop :=
  g.direction? ⟨p.node, i⟩ = some .input ∧ (g.declaredType ⟨p.node, i⟩).isSome ∧
    ∀ h, Stored p g h → (below ⟨p.node, i⟩).apply h = (.ok (g.held ⟨p.node, i⟩), h)

section Answers
variable {below : Port → Edit Value} {g h : Graph} {p : Port}

theorem Stored.effectiveType (s : Stored p g h) (w : g.Tree) {q : Port} {t : DataType}
    (known : g.declaredType q = some t) : h.effectiveType q = some t :=
  effectiveType_of_declared ((SameTree.of_sameFrame s.frame).tree w) (by rwa [s.frame.declaredType])

theorem readFor_ready (w : g.Tree) {i : Nat} (r : Ready below g p i) (s : Stored p g h) :
    (readFor below ⟨p.node, i⟩).apply h = (.ok (g.held ⟨p.node, i⟩), h) := by
  obtain ⟨hd, ht, hb⟩ := r
  obtain ⟨slot, hslot, hdir⟩ := slot_of_direction? (by rw [s.frame.direction]; exact hd)
  obtain ⟨u, hu⟩ := Option.isSome_iff_exists.1 ht
  rw [readFor, Edit.apply_bind, Edit.apply_look, hslot]
  simp only
  rw [Edit.apply_bind, Edit.apply_look, resolved, s.effectiveType w hu]
  simp only [hdir]
  exact hb h s

variable {type : DataType} (w : g.Tree) (hd : g.direction? p = some .output)
  (ht : g.declaredType p = some type) (s : Stored p g h)
include w hd ht s

theorem writeFor_eq (v : Value) :
    (writeFor p v).apply h =
      if v.portType = some type then (.ok (), h.hold p v)
      else (.error (.mismatch (some type) v.portType), h) := by
  obtain ⟨slot, hslot, hdir⟩ := slot_of_direction? (by rw [s.frame.direction]; exact hd)
  rw [writeFor, Edit.apply_bind, Edit.apply_look, hslot]
  simp only [hdir, reduceCtorEq, if_false]
  rw [Edit.apply_bind, Edit.apply_get]
  by_cases hv : v.portType = some type
  · simp only [s.effectiveType w ht, hv, ne_eq, not_true_eq_false, and_false, if_true, if_false]
    rfl
  · simp only [s.effectiveType w ht, hv, Option.isSome_some, ne_eq, not_false_eq_true, and_self,
      if_true, if_false]
    rfl

/-- A confined task does in a graph what it does apart. -/
theorem perform_run {α : Type} {reads : List Nat} (ready : ∀ i ∈ reads, Ready below g p i)
    (t : Task α) {last last' : Option Value} {a : α}
    (eq : t.run reads p.index (some type) (fun i => g.held ⟨p.node, i⟩) last = some (a, last'))
    (hl : ∀ v, last = some v → h.value p = v.payload?) :
    ∃ k, (t.perform below p.node).apply h = (.ok a, k) ∧ Stored p g k ∧
      ∀ v, last' = some v → k.value p = v.payload? := by
  induction t generalizing h last with
  | done b =>
    cases eq
    exact ⟨h, rfl, s, hl⟩
  | read i next ih =>
    simp only [Task.run] at eq
    split at eq
    · next hi =>
      rw [perform_read, Edit.apply_bind, Edit.apply_outcome, readFor_ready w (ready i hi) s]
      exact ih _ s eq hl
    · cases eq
  | write i v next ih =>
    simp only [Task.run] at eq
    split at eq
    · next hi =>
      subst hi
      rw [perform_write, Edit.apply_bind, Edit.apply_outcome, writeFor_eq w hd ht s]
      split at eq
      · next hv =>
        simp only [if_pos hv]
        refine ih _ (s.trans (.hold h p v)) eq fun u hu => ?_
        cases hu
        rw [value_hold _ _ _ _ (by rw [s.frame.direction, hd]; rfl), if_pos rfl]
      · next hv =>
        simp only [if_neg hv]
        exact ih _ s eq hl
    · cases eq
  | typeOf i next ih => cases eq
  | attachment next ih => cases eq

end Answers

end Graph
end Dataflow
