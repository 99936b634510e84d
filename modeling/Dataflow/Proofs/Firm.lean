import Dataflow.Proofs.Outcome
import Dataflow.Proofs.Seeded
set_option autoImplicit false

/-!
What reads leave of the types of what is held. Main statement: whatever the computations do, a port
that no read brings up to date keeps what it holds, or gets something of the type by which it goes.
-/

namespace Dataflow.Graph

/-- An output that is made from nothing. -/
def Inert (g : Graph) (p : Port) : Prop :=
  g.direction? p = some .output ∧ g.peer? p = none ∧
    ∀ t, g.type? p.node = some t → t.compute = none ∧ t.ports.influences = []

/-- The node computes, if there is one. -/
def Active (g : Graph) (n : NodeId) : Prop := ∀ t, g.type? n = some t → t.compute.isSome

/-- What the types by which ports go rest on. -/
structure Apt (g : Graph) : Prop where
  lawful : g.Lawful
  matching : g.Matching

/-- A port that a read does not bring up to date keeps what it holds, or gets something of its type. -/
structure Firm (g h : Graph) : Prop extends Calmer g h where
  held : ∀ p t, g.effectiveType p = some t → g.isStale p = false ∨ h.isStale p = true →
    h.heldType p = g.heldType p ∨ h.heldType p = some t
  inert : ∀ p, g.Inert p → h.heldType p = g.heldType p

section Apt
variable {g h k : Graph}

theorem SameFrame.matching (a : SameFrame g h) (m : g.Matching) : h.Matching := by
  refine ⟨?_, ?_, ?_⟩
  · rw [a.attr]; exact m.defaults
  · rw [a.feeds, a.lends, a.declaredType]; exact m.fits
  · rw [a.peer, a.contents, a.declaredType]; exact m.boundary

theorem SameFrame.apt (a : SameFrame g h) (s : g.Apt) : h.Apt :=
  ⟨a.lawful s.lawful, a.matching s.matching⟩

theorem Apt.effectiveType (s : g.Apt) (a : SameFrame g h) : h.effectiveType = g.effectiveType :=
  a.effectiveType s.lawful.wellFormed.tree

theorem SameFrame.inert (a : SameFrame g h) : h.Inert = g.Inert := by
  funext p
  simp only [Inert, a.direction, a.peer, a.type]

theorem SameFrame.active (a : SameFrame g h) {n : NodeId} (c : g.Active n) :
    h.Active n := by
  rw [Active, a.type]
  exact c

theorem active_of_isSome {n : NodeId} {t : NodeType} (ht : g.type? n = some t)
    (hc : t.compute.isSome) : g.Active n := fun u hu => by
  obtain rfl := Option.some.inj (ht.symm.trans hu)
  exact hc

theorem Firm.refl (g : Graph) : Firm g g := ⟨.refl g, fun _ _ _ _ => .inl rfl, fun _ _ => rfl⟩

theorem Firm.trans (s : g.Apt) (a : Firm g k) (b : Firm k h) : Firm g h := by
  refine ⟨a.toCalmer.trans b.toCalmer, fun p t ht hs => ?_, fun p hp => ?_⟩
  · have before : g.isStale p = false ∨ k.isStale p = true := hs.imp_right (b.stale p)
    have after : k.isStale p = false ∨ h.isStale p = true := hs.imp_left a.toCalmer.current
    rcases b.held p t (by rwa [s.effectiveType a.frame]) after with held | held
    · rw [held]
      exact a.held p t ht before
    · exact .inr held
  · rw [b.inert p (by rwa [a.frame.inert]), a.inert p hp]

theorem Firm.steps : Edit.Steps fun g h => g.Apt → Firm g h :=
  .under .refl (fun s a => a.frame.apt s) .trans

theorem Firm.of_held (a : Calmer g h) (held : ∀ p, h.heldType p = g.heldType p) : Firm g h :=
  ⟨a, fun p _ _ _ => .inl (held p), fun p _ => held p⟩

theorem Firm.of_quiet (a : Quiet g h) : Firm g h :=
  .of_held ⟨a.frame, fun p hp => by rwa [a.isStale] at hp⟩ fun p => by
    rw [heldType, a.held]
    rfl

theorem quiet_noted (g : Graph) (c : Computation) (p : Port) : Quiet g (g.noted c p) :=
  .of_nodes rfl rfl rfl

/-- One port is brought up to date. -/
theorem Firm.renew {p : Port} (a : Firm g k) (calm : Calmer k h) (stale : g.isStale p = true)
    (current : h.isStale p = false) (inert : g.Inert p → h.heldType p = g.heldType p)
    (other : ∀ q, q ≠ p → h.heldType q = k.heldType q) : Firm g h := by
  refine ⟨a.toCalmer.trans calm, fun q t ht hs => ?_, fun q hq => ?_⟩
  · have ne : q ≠ p := by
      rintro rfl
      simp [stale, current] at hs
    rw [other q ne]
    exact a.held q t ht (hs.imp_right (calm.stale q))
  · by_cases ne : q = p
    · subst ne
      exact inert hq
    · rw [other q ne, a.inert q hq]

theorem heldType_setCurrent (g : Graph) (p q : Port) :
    (g.setCurrent p).heldType q = g.heldType q := by
  rw [heldType, held_setCurrent]
  rfl

theorem Stored.heldType {p q : Port} (a : Stored p g h) (hq : q ≠ p) :
    h.heldType q = g.heldType q := heldType_congr (a.value hq)

theorem heldType_settled (g : Graph) (p q : Port) : (g.settled p).heldType q = g.heldType q :=
  heldType_setCurrent g p q

theorem heldType_setStatus (g : Graph) (n : NodeId) (s : Status) (q : Port) :
    (g.setStatus n s).heldType q = g.heldType q := by
  rw [heldType, Graph.held, slot?_setStatus]
  rfl

theorem heldType_put {p : Port} {v : Value} (live : (g.direction? p).isSome) :
    (g.put p v).heldType p = v.portType := by
  rw [heldType_eq_value, value_put _ _ _ _ live, if_pos rfl]
  cases v <;> rfl

theorem heldType_hold {p : Port} {v : Value} (live : (g.direction? p).isSome) :
    (g.hold p v).heldType p = v.portType := heldType_put live

/-- A write is refused, or the value is of the type by which the output goes. -/
theorem writeFor_apply (g : Graph) (p : Port) (v : Value) :
    (∃ e, (writeFor p v).apply g = (.error e, g)) ∨
      (writeFor p v).apply g = (.ok (), g.hold p v) ∧ g.direction? p = some .output ∧
        ∀ t, g.effectiveType p = some t → v.portType = some t := by
  rw [writeFor, Edit.apply_bind, Edit.apply_look]
  cases hs : g.slot p with
  | error e => exact .inl ⟨e, rfl⟩
  | ok s =>
    have hd : g.direction? p = some s.attr.direction := by
      simp only [slot, node, bind, Except.bind] at hs
      simp only [direction?, slot?, Option.bind_eq_bind]
      cases hm : g.node? p.node with
      | none => simp [hm] at hs
      | some m =>
        simp only [hm] at hs
        cases hi : m.ports.get? p.index with
        | none => simp [hi] at hs
        | some u =>
          simp only [hi, Except.ok.injEq] at hs
          simp [hi, hs]
    simp only
    cases hdir : s.attr.direction with
    | input => exact .inl ⟨_, rfl⟩
    | output =>
      simp only [reduceCtorEq, if_false]
      rw [Edit.apply_bind, Edit.apply_get]
      simp only
      split
      · exact .inl ⟨_, rfl⟩
      · next fits =>
        refine .inr ⟨rfl, by rw [hd, hdir], fun t ht => ?_⟩
        simpa [ht] using fits

theorem firm_writeFor {p : Port} {v : Value}
    (active : g.Active p.node) : Firm g ((writeFor p v).apply g).2 := by
  rcases writeFor_apply g p v with ⟨e, eq⟩ | ⟨eq, hd, fits⟩
  · rw [eq]
    exact .refl g
  · rw [eq]
    have live : (g.direction? p).isSome := by simp [hd]
    have stored := Stored.hold g p v
    refine ⟨g.calmer_hold p v, fun q t ht _ => ?_, fun q hq => ?_⟩
    · by_cases ne : q = p
      · subst ne
        exact .inr ((heldType_hold live).trans (fits t ht))
      · exact .inl (stored.heldType ne)
    · refine stored.heldType ?_
      rintro rfl
      obtain ⟨t, ht⟩ := exists_type?_of_direction? hd
      have := active t ht
      simp [(hq.2.2 t ht).1] at this

end Apt

section Reads
open Edit
variable {below : Port → Edit Value} (hb : ∀ p, Leads (fun g h => g.Apt → Firm g h) (below p))
include hb

theorem firm_perform {α : Type} {g : Graph} (s : g.Apt) {n : NodeId} (c : g.Active n)
    (t : Task α) : Firm g ((t.perform below n).apply g).2 := by
  -- the node computes all the while
  have steps : Steps fun g h => g.Apt ∧ g.Active n → Firm g h :=
    .under .refl (fun s a => ⟨a.frame.apt s.1, a.frame.active s.2⟩) fun s => .trans s.1
  exact leads_perform steps (fun q g s => hb q g s.1) (fun i v g s => firm_writeFor s.2) t g ⟨s, c⟩

theorem firm_attempt {g : Graph} (s : g.Apt) {p : Port} (c : Option Computation)
    (hc : c.isSome → g.Active p.node) (inputs : Except String Unit) :
    Firm g ((attempt below p c inputs).apply g).2 := by
  cases inputs with
  | error message => exact .refl g
  | ok u =>
    cases c with
    | none => exact .refl g
    | some c =>
      have noted := quiet_noted g c p
      rw [attempt, invoke_apply]
      exact (Firm.of_quiet noted).trans s
        (firm_perform hb (noted.frame.apt s) (noted.frame.active (hc rfl)) _)

omit hb in
/-- Where there is nothing to read and to compute, nothing fails. -/
theorem Inert.settles {g h k : Graph} {p : Port} (inert : g.Inert p) {m : Node}
    (hm : g.node? p.node = some m) {inputs : Except String Unit} {result : Except String Status}
    (hr : (readAll below ((m.ports.inputsOf p.index).map (Port.mk p.node))).apply g = (.ok inputs, h))
    (ha : (attempt below p m.compute inputs).apply h = (.ok result, k)) : ∃ s, result = .ok s := by
  obtain ⟨idle, empty⟩ := inert.2.2 m.type (by simp [type?, hm])
  have idle : m.compute = none := idle
  have reads : m.ports.inputsOf p.index = [] := by
    have empty : m.ports.influences = [] := empty
    rw [Layout.inputsOf, empty]
    rfl
  rw [reads] at hr
  cases hr
  rw [idle] at ha
  cases ha
  exact ⟨_, rfl⟩

omit hb in
/-- An output is settled on what its computation left, or on a default. -/
theorem firm_settle {g k : Graph} {p : Port} (s : g.Apt) (a : Firm g k) (stale : g.isStale p = true)
    (result : Except String Status) (empty : g.Inert p → ∃ s, result = .ok s) :
    Firm g ((settle p result).apply k).2 := by
  cases result with
  | ok status =>
    rw [settle_ok]
    have same (q : Port) : ((k.setStatus p.node status).settled p).heldType q = k.heldType q := by
      rw [heldType_settled, heldType_setStatus]
    refine a.renew ((calmer_setStatus k p.node status).trans (calmer_settled _ p)) stale ?_ ?_
      fun q _ => same q
    · rw [isStale_settled, if_pos rfl]
    · exact fun hp => (same p).trans (a.inert p hp)
  | error message =>
    cases hv : k.fallback? p with
    | some v =>
      rw [settle_error_of_some k p message hv]
      refine a.renew (((calmer_put k p v).trans (calmer_setStatus _ _ _)).trans
        (calmer_settled _ p)) stale ?_ (fun hp => nomatch (empty hp).choose_spec) fun q hq => ?_
      · rw [isStale_settled, if_pos rfl]
      · rw [heldType_settled, heldType_setStatus, (Stored.put k p v).heldType hq]
    | none =>
      rw [settle_error_of_none k p message hv]
      exact a.trans s (.of_held (calmer_setStatus _ _ _) fun q => heldType_setStatus ..)

theorem firm_compute {g : Graph} (s : g.Apt) {p : Port} (hd : g.direction? p = some .output)
    (stale : g.isStale p = true) : Firm g ((compute below p).apply g).2 := by
  obtain ⟨t, ht⟩ := exists_type?_of_direction? hd
  obtain ⟨m, hm, rfl⟩ := Option.map_eq_some_iff.1 ht
  have first := leads_readAll Firm.steps ((m.ports.inputsOf p.index).map (Port.mk p.node))
    (fun q _ => hb q) g s
  refine compute_cases hm (motive := fun r => Firm g r.2) ?stopped ?reached
  case stopped =>
    intro e h hr
    rw [hr] at first
    exact first
  case reached =>
    intro inputs h result k hr ha
    rw [hr] at first
    have second := first.trans s (firm_attempt hb (first.frame.apt s)
      m.compute (fun hc => first.frame.active (active_of_isSome ht hc)) inputs)
    rw [ha] at second
    exact firm_settle s second stale result fun inert => inert.settles hm hr ha

omit hb in
theorem Firm.copied {g k : Graph} (a : Firm g k) {p : Port} {v : Value}
    (stale : g.isStale p = true) (made : ¬ g.Inert p) : Firm g ((k.hold p v).setCurrent p) := by
  refine a.renew ((calmer_hold k p v).trans (calmer_setCurrent _ p)) stale ?_
    (fun hp => absurd hp made) fun r hr => ?_
  · rw [isStale_setCurrent, if_pos rfl]
  · rw [heldType_setCurrent, (Stored.hold k p v).heldType hr]

theorem firm_copyFrom {g : Graph} (s : g.Apt) {p q : Port} (stale : g.isStale p = true)
    (made : ¬ g.Inert p) : Firm g ((copyFrom below p q).apply g).2 := by
  have first := hb q g s
  rw [copyFrom, apply_bind]
  rcases hr : (below q).apply g with ⟨e | v, k⟩
  · rw [hr] at first
    exact first
  · rw [hr] at first
    exact first.copied stale made

theorem firm_freshen (p : Port) : Leads (fun g h => g.Apt → Firm g h) (freshen below p) := by
  intro g s
  refine freshen_cases (motive := fun r => Firm g r.2) (fun _ => .refl g) (fun _ _ => .refl g)
    ?_ ?_ ?_ ?_
  · intro q hd stale _
    refine firm_copyFrom hb s stale fun inert => ?_
    rw [inert.1] at hd
    cases hd
  · exact fun _ _ _ => .of_held (calmer_setCurrent g p) fun q => heldType_setCurrent ..
  · intro q _ stale hq
    refine firm_copyFrom hb s stale fun inert => ?_
    rw [inert.2.1] at hq
    cases hq
  · exact fun hd stale _ => firm_compute hb s hd stale

end Reads

theorem firm_readWithin (levels : Nat) (p : Port) :
    Edit.Leads (fun g h => g.Apt → Firm g h) (readWithin levels p) := by
  induction levels generalizing p with
  | zero => exact fun g _ => .refl g
  | succ levels ih => exact firm_freshen ih p

theorem firm_reads {g : Graph} (s : g.Apt) {o : Action} (ho : o.reads = true) :
    Firm g (o.after g) := leads_reads Firm.steps firm_readWithin ho g s

end Dataflow.Graph
