import Dataflow.Proofs.Settled
set_option autoImplicit false

/-!
Reads and values from scratch. Main statements: a read touches only what its port is made from, keeps
the agreement of values, gives no port another value from scratch, and ends with the value from
scratch of its port unless the port lies too deep.
-/

namespace Dataflow.Graph

/-- A port whose value comes from outside of the graph. -/
def Given (g : Graph) (r : Port) : Prop :=
  g.direction? r = some .input ∧ g.source? r = none ∨
    g.direction? r = some .output ∧ g.peer? r = none ∧
      ∀ t, g.type? r.node = some t → t.compute = none

section Coherent
variable {g h : Graph}

theorem SameFrame.given (a : SameFrame g h) : h.Given = g.Given := by
  funext r
  simp only [Given, a.direction, a.source, a.peer, a.type]

theorem Coherent.of_sameFrame (s : g.Coherent) (a : SameFrame g h) (c : Closed true h)
    (t : h.Settled) : h.Coherent :=
  ⟨a.standard s.standard, (steady_of_type a.type).computes s.computes, a.acyclic s.acyclic, c, t⟩

theorem fallback?_of_declared {p : Port} {a : Attribute} (ha : g.attr? p = some a)
    (ht : a.type.isSome) : g.fallback? p = some a.default := by
  obtain ⟨s, hs, rfl⟩ := Option.map_eq_some_iff.1 ha
  simp only [fallback?, hs, ht, if_true]

theorem Computes.attr (c : g.Computes) {p : Port} {t : NodeType} (ht : g.type? p.node = some t)
    (hc : t.compute.isSome) (live : (g.direction? p).isSome) :
    ∃ a, g.attr? p = some a ∧ t.ports.get? p.index = some a ∧ a.type.isSome := by
  rw [direction?_eq, Option.isSome_map] at live
  obtain ⟨a, ha⟩ := Option.isSome_iff_exists.1 live
  have place : t.ports.get? p.index = some a := by rwa [attr?_eq, ht] at ha
  exact ⟨a, ha, place, (c _ t ht hc).typed _ a place⟩

theorem Computes.backed (c : g.Computes) : g.Backed := by
  intro q t ht hd _ hc
  obtain ⟨a, ha, -, typed⟩ := c.attr ht hc (by simp [hd])
  rw [fallback?_of_declared ha typed]
  rfl

theorem Coherent.good (s : g.Coherent) (w : g.WellFormed) : Good true g :=
  ⟨w, s.standard, s.closed, fun _ => s.computes.backed⟩

/-- What a port that is out of date holds is of no account. -/
theorem Stored.coherent {p : Port} (a : Stored p g h) (hp : g.isStale p = true)
    (w : g.WellFormed) (s : g.Coherent) : h.Coherent := by
  refine s.of_sameFrame a.frame (a.frame.closedBut a.isStale s.closed) ?_
  refine s.settled.of_alike (f := id) (a.frame.wellFormed w) fun r hr => .inr ?_
  rw [a.isStale] at hr
  refine ⟨hr, a.frame.alike (a.value ?_) fun q hq => a.value ?_⟩
  · rintro rfl
    rw [hp] at hr
    cases hr
  · rintro rfl
    rw [s.closed.flow hq hp] at hr
    cases hr

theorem value_setCurrent (g : Graph) (p : Port) : (g.setCurrent p).value = g.value := by
  funext q
  rw [value, held_setCurrent]
  rfl

theorem Coherent.setCurrent {p : Port} (s : g.Coherent) (w : g.WellFormed) (agrees : g.Agrees p)
    (sources : ∀ q, g.Flows q p → g.isStale q = false) : (g.setCurrent p).Coherent := by
  have frame := g.sameFrame_setCurrent p
  refine s.of_sameFrame frame ?_ fun r hr => ?_
  · exact closed_setCurrent s.closed p (fun o hf => sources o (.inr (.inl hf)))
      (fun q hd hq => sources q (.inr (.inr ⟨hd, hq⟩))) fun _ q hi => sources q (.inl hi)
  · have alike : Alike id g (g.setCurrent p) r :=
      frame.alike (by rw [value_setCurrent]) fun q _ => by rw [value_setCurrent]
    refine alike.agrees (frame.wellFormed w) ?_
    rw [isStale_setCurrent] at hr
    split at hr
    · next here => exact here ▸ agrees
    · exact s.settled r hr

end Coherent

/-! ### What a read touches -/

/-- Reading the ports in `S` keeps the graph lawful and coherent, and touches nothing but what those
ports are made from, and there nothing that comes from outside. -/
def Rework (S : Port → Prop) (g h : Graph) : Prop :=
  LawfulWith Coherent g → LawfulWith Coherent h ∧ SameFrame g h ∧
    (∀ r, (∀ q, S q → ¬ Relation.ReflTransGen g.Flows r q) → h.slot? r = g.slot? r) ∧
    ∀ r, g.Given r → h.value r = g.value r

namespace Rework
variable {S T : Port → Prop}

theorem steps : Edit.Steps (Rework S) where
  refl := fun g w => ⟨w, .refl g, fun _ _ => rfl, fun _ _ => rfl⟩
  trans := by
    intro g h k a b w
    obtain ⟨wh, frame, slots, given⟩ := a w
    obtain ⟨wk, frame', slots', given'⟩ := b wh
    rw [frame.flows] at slots'
    rw [frame.given] at given'
    exact ⟨wk, frame.trans frame', fun r hr => (slots' r hr).trans (slots r hr),
      fun r hr => (given' r hr).trans (given r hr)⟩

theorem mono {g h : Graph} (a : Rework S g h) (sub : ∀ q, S q → T q) : Rework T g h := by
  intro w
  obtain ⟨wh, frame, slots, given⟩ := a w
  exact ⟨wh, frame, fun r hr => slots r fun q hq => hr q (sub q hq), given⟩

end Rework

/-- A way to read ports that can be relied on. -/
structure Faithful (below : Port → Edit Value) : Prop extends Refreshes true below where
  rework : ∀ p, Edit.Leads (Rework (· = p)) (below p)
  value : ∀ p g v h, (below p).apply g = (.ok v, h) → v.payload? = h.value p
  again : ∀ p g v h, (below p).apply g = (.ok v, h) → ∀ q k, (k.direction? q).isSome →
    k.isStale q = false → (below q).apply k = (.ok (k.held q), k)

section Reads
open Edit
variable {below : Port → Edit Value} (r : Faithful below)
include r

theorem rework_copyFrom (p q : Port) (g : Graph) (source : ∀ o, g.Flows o p ↔ o = q)
    (hp : g.isStale p = true) (agrees : ∀ h : Graph, SameFrame g h → h.value p = h.value q → h.Agrees p)
    (given : ¬ g.Given p) : Rework (· = p) g ((copyFrom below p q).apply g).2 := by
  intro w
  obtain ⟨w₁, frame, slots, kept⟩ := r.rework q g w
  have hf : g.Flows q p := (source q).2 rfl
  rw [copyFrom, apply_bind]
  have upstream {s : Port} (hs : ∀ t, t = p → ¬ Relation.ReflTransGen g.Flows s t) (t : Port)
      (ht : t = q) : ¬ Relation.ReflTransGen g.Flows s t := by
    subst ht
    exact fun h => hs p rfl (h.tail hf)
  rcases eq : (below q).apply g with ⟨e | v, g₁⟩
  · rw [eq] at w₁ frame slots kept
    exact ⟨w₁, frame, fun s hs => slots s (upstream hs), kept⟩
  · rw [eq] at w₁ frame slots kept
    have cycle : ∀ t, t = q → ¬ Relation.ReflTransGen g.Flows p t := by
      rintro t rfl h
      exact w.holds.acyclic p (.tail' h hf)
    have same := slots p cycle
    have hp₁ : g₁.isStale p = true := by
      rw [isStale, same]
      exact hp
    have live : (g₁.direction? p).isSome := by
      rw [frame.direction]
      exact hf.isSome_right w.lawful.wellFormed
    have stored := Stored.hold g₁ p v
    have frame₂ := frame.trans stored.frame
    have c₂ := stored.coherent hp₁ w₁.lawful.wellFormed w₁.holds
    have wf₂ := frame₂.wellFormed w.lawful.wellFormed
    have hne : q ≠ p := by
      rintro rfl
      exact w.holds.acyclic q (.single hf)
    have carried : (g₁.hold p v).value p = (g₁.hold p v).value q := by
      rw [value_hold _ _ _ _ live, if_pos rfl, stored.value hne]
      exact r.value q g v g₁ eq
    have c₃ := c₂.setCurrent wf₂ (agrees _ frame₂ carried) fun o ho => by
      rw [frame₂.flows, source] at ho
      rw [ho, stored.isStale]
      exact r.current q g v g₁ eq
    have frame₃ := frame₂.trans (sameFrame_setCurrent _ p)
    refine ⟨w.of_sameFrame frame₃ c₃, frame₃, fun s hs => ?_, fun s hs => ?_⟩
    · have ne : s ≠ p := by
        rintro rfl
        exact hs s rfl .refl
      change ((g₁.hold p v).setCurrent p).slot? s = _
      rw [slot?_setCurrent_of_ne _ ne, stored.slot s ne]
      exact slots s (upstream hs)
    · have ne : s ≠ p := by
        rintro rfl
        exact given hs
      change ((g₁.hold p v).setCurrent p).value s = _
      rw [value_setCurrent, stored.value ne]
      exact kept s hs

omit r in
/-- With all its inputs up to date, an output comes to agree with them. -/
theorem made_spec {p : Port} {g : Graph} {m : Node} (w : g.WellFormed) (k : g.Computes)
    (hm : g.node? p.node = some m) (hd : g.direction? p = some .output) (hp : g.peer? p = none)
    (ready : ∀ q, g.Influences q p → ∀ h, Stored p g h → (below q).apply h = (.ok (g.held q), h)) :
    ∃ h, (attempt below p m.compute (.ok ()) >>= settle p).apply g =
        (.ok ((h.settled p).held p), h.settled p) ∧
      Stored p g h ∧ h.Agrees p ∧ (m.compute = none → h.value p = g.value p) := by
  have ht : g.type? p.node = some m.type := by simp [type?, hm]
  -- nothing but the computation has a say in what the output carries
  have agrees (h : Graph) (s : Stored p g h) (computed : ∀ c, m.compute = some c →
      h.value p = m.type.outcome c p fun i => h.value ⟨p.node, i⟩) : h.Agrees p := by
    constructor
    · intro o hf
      rw [s.frame.feeds] at hf
      rw [hf.input w.wired] at hd
      cases hd
    · intro q _ hq
      rw [s.frame.peer, hp] at hq
      cases hq
    · intro t c _ htype hc
      rw [s.frame.type, ht] at htype
      cases htype
      exact computed c hc
  cases hc : m.compute with
  | none =>
    refine ⟨g.setStatus p.node .empty, rfl, .setStatus g _ _, ?_, fun _ => ?_⟩
    · exact agrees _ (.setStatus g _ _) fun c h => by rw [hc] at h; cases h
    · rw [value, held, slot?_setStatus]
      rfl
  | some c =>
    have hcompute : m.type.compute = some c := hc
    have functional := k _ _ ht (by simp [hcompute])
    obtain ⟨a, attr, place, typed⟩ := k.attr ht (by simp [hcompute]) (by simp [hd])
    obtain ⟨type, htype⟩ := Option.isSome_iff_exists.1 typed
    have output : a.direction = .output := by
      rw [direction?_eq, attr] at hd
      exact Option.some.inj hd
    have declared : g.declaredType p = some type := by
      rw [declaredType_eq, attr]
      exact htype
    have inputs (i : Nat) (hi : i ∈ m.type.ports.inputsOf p.index) : Ready below g p i := by
      have influence := influences_of_mem ht hi
      refine ⟨influence.input w, ?_, ready _ influence⟩
      exact k.isSome_declaredType ht (by simp [hcompute]) (by simp [influence.input w])
    obtain ⟨v, hv⟩ := Option.isSome_iff_exists.1
      (functional.made c p a (g.runs c) (fun i => g.held ⟨p.node, i⟩) hcompute place output)
    have outcome := functional.outcome_eq hcompute hv
    have carried (h : Graph) (s : Stored p g h) (hh : h.value p = v.payload?) : h.Agrees p := by
      refine agrees h s fun c' hc' => ?_
      rw [hc, Option.some.injEq] at hc'
      subst hc'
      rw [hh, ← outcome]
      refine NodeType.outcome_congr _ _ _ fun i hi => (s.value ?_).symm
      intro same
      have := (influences_of_mem ht hi).input w
      rw [same, hd] at this
      cases this
    have noted : Stored p g (g.noted c p) := .of_quiet (.of_nodes rfl rfl rfl)
    obtain ⟨b, hb, ran⟩ := NodeType.made_eq_some hv
    rw [place, Option.some.injEq] at hb
    subst hb
    rw [htype] at ran
    rw [apply_bind, attempt, invoke_apply]
    rcases ran with ⟨status, ran⟩ | ⟨message, u, ran, rfl⟩
    · obtain ⟨h, performed, stored, last⟩ :=
        perform_run w.tree hd declared noted inputs _ ran (by simp)
      rw [performed]
      have s := stored.trans (.setStatus h p.node status)
      refine ⟨h.setStatus p.node status, settle_ok h p status, s, carried _ s ?_, by simp⟩
      rw [value, held, slot?_setStatus]
      exact last v rfl
    · obtain ⟨h, performed, stored, -⟩ := perform_run w.tree hd declared noted inputs _ ran (by simp)
      rw [performed]
      have fallback : h.fallback? p = some a.default := by
        rw [stored.frame.fallback]
        exact fallback?_of_declared attr typed
      have s := (stored.trans (.put h p a.default)).trans (.setStatus _ p.node (.failed message))
      refine ⟨_, settle_error_of_some h p message fallback, s, carried _ s ?_, by simp⟩
      rw [value, held, slot?_setStatus]
      exact (value_put h p p a.default (by rw [stored.frame.direction, hd]; rfl)).trans (if_pos rfl)

/-- Where some ports could be read, any port that is up to date gives what it holds. -/
theorem readAll_again {ps : List Port} {p : Port} (hp : p ∈ ps) {g h : Graph}
    (eq : (readAll below ps).apply g = (.ok (.ok ()), h)) (q : Port) (k : Graph)
    (live : (k.direction? q).isSome) (hq : k.isStale q = false) :
    (below q).apply k = (.ok (k.held q), k) := by
  cases ps with
  | nil => cases hp
  | cons a ps =>
    rw [readAll, apply_bind, apply_outcome] at eq
    rcases ha : (below a).apply g with ⟨e | v, g₁⟩
    · rw [ha] at eq
      cases e <;> cases eq
    · exact r.again a g v g₁ ha q k live hq

theorem rework_compute (p : Port) (g : Graph) (hd : g.direction? p = some .output)
    (hp : g.peer? p = none) (hs : g.isStale p = true) :
    Rework (· = p) g ((compute below p).apply g).2 := by
  intro w
  have wf := w.lawful.wellFormed
  obtain ⟨m, hm⟩ : ∃ m, g.node? p.node = some m := by
    obtain ⟨t, ht⟩ := exists_type?_of_direction? hd
    obtain ⟨m, hm, -⟩ := Option.map_eq_some_iff.1 ht
    exact ⟨m, hm⟩
  have inputs := mem_inputs_iff hm
  generalize hps : (m.ports.inputsOf p.index).map (Port.mk p.node) = ps at inputs
  rw [compute_eq, apply_bind, apply_look]
  simp only [node, hm, hps]
  rw [apply_bind]
  have read := leads_readAll (Rework.steps (S := fun q => q ∈ ps)) ps
    (fun q hq k => (r.rework q k).mono (by rintro _ rfl; exact hq)) g
  have spec := readAll_spec r.toRefreshes ps g (w.holds.good wf)
    (fun q hq => by simp [((inputs q).1 hq).input wf])
  rcases eq : (readAll below ps).apply g with ⟨y, g₁⟩
  rw [eq] at read
  obtain ⟨w₁, frame, slots, kept⟩ := read w
  have upstream {s : Port} (hs : ∀ q, q = p → ¬ Relation.ReflTransGen g.Flows s q) (q : Port)
      (hq : q ∈ ps) : ¬ Relation.ReflTransGen g.Flows s q :=
    fun h => hs p rfl (h.tail (.inl ((inputs q).1 hq)))
  obtain ⟨-, failed, fresh, told⟩ := spec y g₁ eq
  cases y with
  | error e => exact ⟨w₁, frame, fun s hs => slots s (upstream hs), kept⟩
  | ok result =>
    cases result with
    | error message => exact absurd rfl (told rfl message)
    | ok u =>
      -- no input is made from the output, which has not been touched so far
      have same : g₁.slot? p = g.slot? p := slots p fun q hq h =>
        w.holds.acyclic p (.tail' h (.inl ((inputs q).1 hq)))
      have stale₁ : g₁.isStale p = true := by
        rw [isStale, same]
        exact hs
      have hd₁ : g₁.direction? p = some .output := by rw [frame.direction, hd]
      have hp₁ : g₁.peer? p = none := by rw [frame.peer, hp]
      have wf₁ := w₁.lawful.wellFormed
      have current (q : Port) (hq : g₁.Influences q p) : g₁.isStale q = false := by
        rw [frame.influences] at hq
        exact fresh rfl q ((inputs q).2 hq)
      have ready (q : Port) (hq : g₁.Influences q p) (h : Graph) (s : Stored p g₁ h) :
          (below q).apply h = (.ok (g₁.held q), h) := by
        have ne : q ≠ p := by
          rintro rfl
          have := hq.input wf₁
          rw [hd₁] at this
          cases this
        rw [← s.held ne]
        refine readAll_again r ((inputs q).2 (by rwa [frame.influences] at hq)) eq q h ?_ ?_
        · rw [s.frame.direction, hq.input wf₁]
          rfl
        · rw [s.isStale]
          exact current q hq
      obtain ⟨m₁, hm₁, hcompute⟩ : ∃ m₁, g₁.node? p.node = some m₁ ∧ m₁.compute = m.compute := by
        have types := congrFun frame.type p.node
        simp only [type?, hm, Option.map_some] at types
        obtain ⟨m₁, hm₁, ht⟩ := Option.map_eq_some_iff.1 types
        exact ⟨m₁, hm₁, congrArg NodeType.compute ht⟩
      obtain ⟨h, ran, stored, agrees, inert⟩ := made_spec wf₁ w₁.holds.computes hm₁ hd₁ hp₁ ready
      rw [hcompute] at ran inert
      have c₂ := stored.coherent stale₁ wf₁ w₁.holds
      have wf₂ := stored.frame.wellFormed wf₁
      have c₃ := c₂.setCurrent wf₂ agrees fun q hq => by
        rw [stored.frame.flows, flows_output_iff wf₁ hd₁ hp₁] at hq
        rw [stored.isStale]
        exact current q hq
      have quiet := quiet_emit (h.setCurrent p) (.valueChanged p)
      have frame₂ := (frame.trans stored.frame).trans ((h.sameFrame_setCurrent p).trans quiet.frame)
      have c₄ : (h.settled p).Coherent := keptByEdits_coherent.quiet _ _ quiet c₃
      simp only
      rw [ran]
      refine ⟨w.of_sameFrame frame₂ c₄, frame₂, fun s hs => ?_, fun s outside => ?_⟩
      · have ne : s ≠ p := by
          rintro rfl
          exact hs s rfl .refl
        change (h.setCurrent p).slot? s = _
        rw [slot?_setCurrent_of_ne _ ne, stored.slot s ne]
        exact slots s (upstream hs)
      · change (h.setCurrent p).value s = _
        rw [value_setCurrent]
        by_cases ne : s = p
        · -- only an output that nothing computes comes from outside
          subst ne
          rcases outside with ⟨hi, -⟩ | ⟨-, -, none⟩
          · rw [hd] at hi
            cases hi
          · rw [inert (none m.type (by simp [type?, hm])), value, held, same]
            rfl
        · rw [stored.value ne]
          exact kept s outside

theorem rework_freshen (p : Port) : Edit.Leads (Rework (· = p)) (freshen below p) := by
  intro g
  refine freshen_cases (motive := fun x => Rework (· = p) g x.2) ?absent ?current ?wired ?given
    ?linked ?made
  case absent => exact fun _ => Rework.steps.refl g
  case current => exact fun _ _ => Rework.steps.refl g
  case wired =>
    intro q hd hs hq w
    have wf := w.lawful.wellFormed
    refine rework_copyFrom r p q g (fun o => ?_) hs (fun h frame same => ?_) ?_ w
    · rw [flows_input_iff wf hd, hq, Option.some.injEq, eq_comm]
    · constructor
      · intro o ho
        rw [frame.feeds, ← source?_eq_some_iff wf.wired, hq, Option.some.injEq] at ho
        rw [← ho]
        exact same
      · intro o ho
        rw [frame.direction, hd] at ho
        cases ho
      · intro t c ho
        rw [frame.direction, hd] at ho
        cases ho
    · rintro (⟨-, hn⟩ | ⟨hn, -⟩)
      · rw [hq] at hn
        cases hn
      · rw [hd] at hn
        cases hn
  case given =>
    intro hd hs hq w
    have wf := w.lawful.wellFormed
    have frame := g.sameFrame_setCurrent p
    have unwired (o : Port) : ¬ g.Flows o p := by
      rw [flows_input_iff wf hd, hq]
      nofun
    have agrees : g.Agrees p := by
      constructor
      · exact fun o ho => absurd (.inr (.inl ho)) (unwired o)
      · intro o ho
        rw [hd] at ho
        cases ho
      · intro t c ho
        rw [hd] at ho
        cases ho
    have c := w.holds.setCurrent wf agrees fun o ho => absurd ho (unwired o)
    refine ⟨w.of_sameFrame frame c, frame, fun s hs => ?_, fun s _ => by rw [value_setCurrent]⟩
    refine slot?_setCurrent_of_ne g fun same => ?_
    exact hs p rfl (by rw [same])
  case linked =>
    intro q hd hs hq w
    have wf := w.lawful.wellFormed
    have d := w.holds.standard
    refine rework_copyFrom r p q g (fun o => d.flows_iff wf hd hq) hs (fun h frame same => ?_) ?_ w
    · constructor
      · intro o ho
        rw [frame.feeds] at ho
        rw [ho.input wf.wired] at hd
        cases hd
      · intro o _ ho
        rw [frame.peer, hq, Option.some.injEq] at ho
        rw [← ho]
        exact .inr same
      · intro t c _ ht hc
        rw [frame.type] at ht
        rw [(d.of_peer? wf hq ht).1] at hc
        cases hc
    · rintro (⟨hn, -⟩ | ⟨-, hn, -⟩)
      · rw [hd] at hn
        cases hn
      · rw [hq] at hn
        cases hn
  case made => exact fun hd hs hp => rework_compute r p g hd hp hs

/-- Afterwards a port has what it was read as, and so has the port it was copied from. -/
theorem value_copyFrom {p q : Port} {g h : Graph} {v : Value} (live : (g.direction? p).isSome)
    (eq : (copyFrom below p q).apply g = (.ok v, h)) :
    v.payload? = h.value p ∧ (q ≠ p → h.value q = h.value p) := by
  rw [copyFrom, apply_bind] at eq
  have calm := r.calm q g
  rcases hq : (below q).apply g with ⟨e | u, g₁⟩
  · rw [hq] at eq
    cases eq
  · rw [hq] at eq calm
    cases eq
    have live₁ : (g₁.direction? p).isSome := by
      rw [calm.frame.direction]
      exact live
    have own : ((g₁.hold p v).setCurrent p).value p = v.payload? := by
      rw [value_setCurrent, value_hold _ _ _ _ live₁, if_pos rfl]
    refine ⟨own.symm, fun ne => ?_⟩
    rw [own, value_setCurrent, (Stored.hold g₁ p v).value ne]
    exact (r.value q g v g₁ hq).symm

omit r in
theorem value_compute {p : Port} {g h : Graph} {v : Value}
    (eq : (compute below p).apply g = (.ok v, h)) : v.payload? = h.value p := by
  revert eq
  rw [compute_eq]
  refine bind_elim (motive := fun x => x = (.ok v, h) → _) (fun m g₁ _ => ?_) nofun
  refine bind_elim (motive := fun x => x = (.ok v, h) → _) (fun inputs g₂ _ => ?_) nofun
  refine bind_elim (motive := fun x => x = (.ok v, h) → _) (fun result g₃ _ eq => ?_) nofun
  cases result with
  | ok status =>
    rw [settle_ok] at eq
    cases eq
    rfl
  | error message =>
    cases hv : g₃.fallback? p with
    | some d =>
      rw [settle_error_of_some g₃ p message hv] at eq
      cases eq
      rfl
    | none =>
      rw [settle_error_of_none g₃ p message hv] at eq
      cases eq

theorem value_freshen {p : Port} {g h : Graph} {v : Value}
    (eq : (freshen below p).apply g = (.ok v, h)) : v.payload? = h.value p := by
  revert eq
  refine freshen_cases (motive := fun x => x = (.ok v, h) → _) nofun ?current ?wired ?given ?linked
    fun _ _ _ => value_compute
  case current =>
    intro _ _ eq
    cases eq
    rfl
  case given =>
    intro _ _ _ eq
    cases eq
    rfl
  case wired => exact fun q hd _ _ eq => (value_copyFrom r (by simp [hd]) eq).1
  case linked => exact fun q hd _ _ eq => (value_copyFrom r (by simp [hd]) eq).1

end Reads

theorem faithful_readWithin (levels : Nat) : Faithful (readWithin levels) := by
  induction levels with
  | zero =>
    refine ⟨refreshes_readWithin true 0, fun p g => Rework.steps.refl g, ?_, ?_⟩
    · exact fun p g v h eq => by cases eq
    · exact fun p g v h eq => by cases eq
  | succ levels r =>
    refine ⟨refreshes_readWithin true _, rework_freshen r, fun p g v h => value_freshen r, ?_⟩
    exact fun _ _ _ _ _ q k live hq => freshen_of_current live hq

end Dataflow.Graph
