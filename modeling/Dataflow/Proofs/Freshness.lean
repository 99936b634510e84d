import Dataflow.Proofs.Projection
import Dataflow.Proofs.Staleness
set_option autoImplicit false

/-!
How far reads respect that being out of date is closed along the flow. A read may bring an output up
to date before an input that influences it: the input could not be read, and the output took its
default. Main statements: nothing else breaks the law, and it holds in every run without such reads.
-/

namespace Dataflow.Graph

/-- Every output that is computed finds a default if that fails. -/
def Backed (g : Graph) : Prop :=
  ∀ q t, g.type? q.node = some t → g.direction? q = some .output → g.peer? q = none →
    t.compute.isSome → (g.fallback? q).isSome

theorem fallback?_eq (g : Graph) (p : Port) : g.fallback? p = (g.attr? p).bind fun b =>
    if b.type.isSome then some b.default
    else ((g.sinks p).filterMap g.attr?).findSome? fun b =>
      if b.type.isSome then some b.default else none := by
  have attrs : (g.sinks p).filterMap g.attr? = ((g.sinks p).filterMap g.slot?).map Slot.attr := by
    rw [List.map_filterMap]
    rfl
  simp only [fallback?, attrs, List.findSome?_map]
  simp only [attr?]
  cases g.slot? p <;> rfl

theorem SameFrame.fallback {g h : Graph} (a : SameFrame g h) : h.fallback? = g.fallback? := by
  funext p
  rw [fallback?_eq, fallback?_eq, a.attr, a.sinks]

theorem SameFrame.backed {g h : Graph} (a : SameFrame g h) (b : g.Backed) : h.Backed := by
  intro q t
  rw [a.type, a.direction, a.peer, a.fallback]
  exact b q t

/-- What reads rely on. -/
structure Good (all : Bool) (g : Graph) : Prop where
  wellFormed : g.WellFormed
  standard : g.Standard
  closed : Closed all g
  backed : all = true → g.Backed

section Reads
open Edit
variable {all : Bool} {g h : Graph}

theorem Good.of_sameFrame (good : Good all g) (a : SameFrame g h) (c : Closed all h) :
    Good all h :=
  ⟨a.wellFormed good.wellFormed, a.standard good.standard, c, fun ha => a.backed (good.backed ha)⟩

theorem Good.of_isStale (good : Good all g) (a : SameFrame g h) (hs : h.isStale = g.isStale) :
    Good all h := good.of_sameFrame a (a.closedBut hs good.closed)

theorem Good.hold (good : Good all g) (p : Port) (v : Value) : Good all (g.hold p v) :=
  good.of_isStale (g.sameFrame_hold p v) (funext fun q => isStale_hold g p v q)

theorem Good.put (good : Good all g) (p : Port) (v : Value) : Good all (g.put p v) :=
  good.of_isStale (g.sameFrame_put p v) (funext fun q => isStale_put g p v q)

theorem Good.setStatus (good : Good all g) (n : NodeId) (s : Status) :
    Good all (g.setStatus n s) :=
  good.of_isStale (g.sameFrame_setStatus n s) (funext fun q => isStale_setStatus g n s q)

theorem Good.quiet (good : Good all g) (a : Quiet g h) : Good all h :=
  good.of_isStale a.frame a.isStale

theorem harmless_good : Harmless fun g h => Good all g → Good all h where
  refl := fun _ good => good
  trans := fun a b good => b (a good)
  hold := fun _ p v good => good.hold p v
  noted := fun _ _ _ good => good.quiet (.of_nodes rfl rfl rfl)

/-- An error by depth is the only one that may leave an input behind its output. -/
def TooDeep (e : Error) : Prop := ∃ d, e = .evaluationTooDeep d

/-- What a way to read ports has to do to them. If every output finds a default, only depth may
stop it. -/
structure Refreshes (all : Bool) (below : Port → Edit Value) : Prop where
  calm : ∀ p, Leads Calmer (below p)
  keeps : ∀ p, Keeps (Good all) (below p)
  current : ∀ p g v h, (below p).apply g = (.ok v, h) → h.isStale p = false
  deep : all = true → ∀ p g e h, Good all g → (g.direction? p).isSome →
    (below p).apply g = (.error e, h) → TooDeep e

variable {below : Port → Edit Value} (r : Refreshes all below)
include r

/-- How the inputs of an output are read: with success they are up to date, and only depth stops the
reader itself. -/
theorem readAll_spec (ps : List Port) (g : Graph) (good : Good all g)
    (live : ∀ p ∈ ps, (g.direction? p).isSome) (x : Except Error (Except String Unit)) (h : Graph)
    (eq : (readAll below ps).apply g = (x, h)) :
    Good all h ∧ (∀ e, x = .error e → TooDeep e) ∧
      (x = .ok (.ok ()) → ∀ p ∈ ps, h.isStale p = false) ∧
      (all = true → ∀ m, x ≠ .ok (.error m)) := by
  induction ps generalizing g with
  | nil =>
    cases eq
    exact ⟨good, nofun, fun _ => by simp, fun _ m hm => by cases hm⟩
  | cons p ps ih =>
    rw [readAll, apply_bind, apply_outcome] at eq
    have good₁ := r.keeps p g good
    have calm₁ := r.calm p g
    rcases hp : (below p).apply g with ⟨e | v, g₁⟩
    · rw [hp] at eq good₁
      simp only at eq
      -- only what is no matter of depth is told
      have told (m : String) (hx : (x, h) = (.ok (.error m), g₁)) (notDeep : ¬ TooDeep e) :
          Good all h ∧ (∀ e, x = .error e → TooDeep e) ∧
            (x = .ok (.ok ()) → ∀ q ∈ p :: ps, h.isStale q = false) ∧
            (all = true → ∀ m, x ≠ .ok (.error m)) := by
        cases hx
        refine ⟨good₁, nofun, nofun, fun ha => ?_⟩
        exact absurd (r.deep ha p g e _ good (live p (by simp)) hp) notDeep
      cases e with
      | evaluationTooDeep d =>
        cases eq
        exact ⟨good₁, fun e he => ⟨d, by cases he; rfl⟩, nofun, fun _ m hm => by cases hm⟩
      | _ => exact told _ eq.symm (by rintro ⟨d, hd⟩; cases hd)
    · rw [hp] at eq good₁ calm₁
      have live₁ : ∀ q ∈ ps, (g₁.direction? q).isSome := by
        intro q hq
        rw [calm₁.frame.direction]
        exact live q (by simp [hq])
      obtain ⟨good₂, failed, rest, told⟩ := ih g₁ good₁ live₁ eq
      refine ⟨good₂, failed, fun hx q hq => ?_, told⟩
      rcases List.mem_cons.1 hq with rfl | hq
      · have calm₂ := leads_readAll Calmer.steps ps (fun q _ => r.calm q) g₁
        rw [show (readAll below ps).apply g₁ = (x, h) from eq] at calm₂
        exact calm₂.current (r.current q g v g₁ hp)
      · exact rest hx q hq

omit r in
theorem Good.settled (good : Good all g) {p : Port} (hd : g.direction? p = some .output)
    (hp : g.peer? p = none) (hi : all = true → ∀ q, g.Influences q p → g.isStale q = false) :
    Good all (g.settled p) := by
  refine .quiet ?_ (quiet_emit _ _)
  refine good.of_sameFrame (g.sameFrame_setCurrent p) ?_
  refine closed_setCurrent good.closed p (fun o hf => ?_) (fun q _ hq => ?_) hi
  · have := hf.input good.wellFormed.wired
    rw [hd] at this
    cases this
  · have := good.wellFormed.linked.back _ _ hq
    rw [hp] at this
    cases this

omit r in
theorem mem_inputs_iff {p : Port} {m : Node} (hm : g.node? p.node = some m) (q : Port) :
    q ∈ (m.ports.inputsOf p.index).map (Port.mk p.node) ↔ g.Influences q p := by
  have ht : g.type? p.node = some m.type := by simp [type?, hm]
  simp only [List.mem_map, Layout.mem_inputsOf]
  constructor
  · rintro ⟨i, hi, rfl⟩
    exact ⟨rfl, m.type, ht, hi⟩
  · rintro ⟨hn, t, hq, hi⟩
    rw [hn, ht] at hq
    obtain rfl := Option.some.inj hq
    exact ⟨q.index, hi, by rw [← hn]⟩

/-- An attempt leads to a good graph, and if all inputs could be read then only a computation
fails. -/
theorem attempt_spec (p : Port) (c : Option Computation) (inputs : Except String Unit) (g : Graph)
    (good : Good all g) :
    ∃ result h, (attempt below p c inputs).apply g = (.ok result, h) ∧ Good all h ∧ Calmer g h ∧
      ∀ m, result = .error m → inputs = .error m ∨ c.isSome := by
  cases inputs with
  | error message => exact ⟨_, g, rfl, good, .refl g, fun m hm => .inl (by cases hm; rfl)⟩
  | ok u =>
    cases c with
    | none => exact ⟨_, g, rfl, good, .refl g, nofun⟩
    | some c =>
      have good' := leads_invoke harmless_good r.keeps c p g good
      have calm := leads_invoke Calmer.harmless r.calm c p g
      have performed := invoke_apply below c p g
      obtain ⟨result, hr⟩ := perform_ok below p.node (c.body ⟨p.node, p.index, g.runs c⟩) (g.noted c p)
      refine ⟨result, _, ?_, good', calm, fun _ _ => .inr rfl⟩
      rw [attempt, performed]
      exact Prod.ext hr rfl

/-- An output that has been settled is up to date, and so were its inputs, or it took its default. -/
theorem compute_spec (p : Port) (g : Graph) (good : Good all g) (hd : g.direction? p = some .output)
    (hp : g.peer? p = none) (x : Except Error Value) (h : Graph)
    (eq : (compute below p).apply g = (x, h)) :
    Good all h ∧ (all = true → ∀ e, x = .error e → TooDeep e) := by
  obtain ⟨m, hm⟩ : ∃ m, g.node? p.node = some m := by
    simp only [direction?, slot?] at hd
    cases hm : g.node? p.node with
    | none => simp [hm] at hd
    | some m => exact ⟨m, rfl⟩
  have ht : g.type? p.node = some m.type := by simp [type?, hm]
  rw [compute_eq, apply_bind, apply_look] at eq
  simp only [node, hm] at eq
  rw [apply_bind] at eq
  have live : ∀ q ∈ (m.ports.inputsOf p.index).map (Port.mk p.node), (g.direction? q).isSome := by
    intro q hq
    simp [((mem_inputs_iff hm q).1 hq).input good.wellFormed]
  have calm₁ := leads_readAll Calmer.steps ((m.ports.inputsOf p.index).map (Port.mk p.node))
    (fun q _ => r.calm q) g
  rcases hr : (readAll below ((m.ports.inputsOf p.index).map (Port.mk p.node))).apply g with ⟨y, g₁⟩
  obtain ⟨good₁, failed, fresh, told⟩ := readAll_spec r _ g good live y g₁ hr
  rw [hr] at eq calm₁
  cases y with
  | error e =>
    cases eq
    exact ⟨good₁, fun _ e' he => failed e' (by cases he; rfl)⟩
  | ok inputs =>
    simp only at eq
    rw [apply_bind] at eq
    obtain ⟨result, g₂, ha, good₂, calm₂, why⟩ := attempt_spec r p m.compute inputs g₁ good₁
    rw [ha] at eq
    simp only at eq
    have frame := calm₁.frame.trans calm₂.frame
    -- with `all` set every input has been read
    have current (hall : all = true) (q : Port) (hq : g₂.Influences q p) : g₂.isStale q = false := by
      rw [frame.influences] at hq
      cases inputs with
      | error message => exact absurd rfl (told hall message)
      | ok u => exact calm₂.current (fresh rfl q ((mem_inputs_iff hm q).2 hq))
    have done (k : Graph) (goodk : Good all k) (calm : Calmer g₂ k) : Good all (k.settled p) := by
      have framek := frame.trans calm.frame
      refine goodk.settled (by rw [framek.direction, hd]) (by rw [framek.peer, hp]) ?_
      intro hall q hq
      rw [calm.frame.influences] at hq
      exact calm.current (current hall q hq)
    cases result with
    | ok s =>
      rw [settle_ok] at eq
      cases eq
      exact ⟨done _ (good₂.setStatus _ _) (g₂.calmer_setStatus _ _), by simp⟩
    | error message =>
      cases hv : g₂.fallback? p with
      | some v =>
        rw [settle_error_of_some g₂ p message hv] at eq
        cases eq
        have calm := (g₂.calmer_put p v).trans (calmer_setStatus _ p.node (.failed message))
        exact ⟨done _ ((good₂.put p v).setStatus _ _) calm, by simp⟩
      | none =>
        rw [settle_error_of_none g₂ p message hv] at eq
        cases eq
        refine ⟨good₂.setStatus _ _, fun hall e he => ?_⟩
        -- the computation failed, and then there is a default
        have computes : m.compute.isSome := by
          cases inputs with
          | error told' => exact absurd rfl (told hall told')
          | ok u => exact (why message rfl).resolve_left (by simp)
        have backed := good.backed hall p m.type ht hd hp computes
        rw [← frame.fallback, hv] at backed
        cases backed

/-- A copy brings a port up to date if its source is the one that it depends on. -/
theorem copyFrom_spec (p q : Port) (g : Graph) (good : Good all g) (hq : (g.direction? q).isSome)
    (source : ∀ o, g.Flows o p → o = q) (x : Except Error Value) (h : Graph)
    (eq : (copyFrom below p q).apply g = (x, h)) :
    Good all h ∧ (all = true → ∀ e, x = .error e → TooDeep e) := by
  rw [copyFrom, apply_bind] at eq
  have good₁ := r.keeps q g good
  have calm₁ := r.calm q g
  rcases hr : (below q).apply g with ⟨e | v, g₁⟩
  · rw [hr] at eq good₁
    cases eq
    exact ⟨good₁, fun hall e' he => r.deep hall q g e' _ good hq (by cases he; exact hr)⟩
  · rw [hr] at eq good₁ calm₁
    cases eq
    refine ⟨?_, fun _ _ he => nomatch he⟩
    have current : (g₁.hold p v).isStale q = false := by
      rw [isStale_hold]
      exact r.current q g v g₁ hr
    have good₂ := good₁.hold p v
    have frame := calm₁.frame.trans (g₁.sameFrame_hold p v)
    have only (o : Port) (ho : (g₁.hold p v).Flows o p) : (g₁.hold p v).isStale o = false := by
      rw [frame.flows] at ho
      rw [source o ho]
      exact current
    refine good₂.of_sameFrame (sameFrame_setCurrent _ p) ?_
    exact closed_setCurrent good₂.closed p (fun o hf => only o (.inr (.inl hf)))
      (fun o hd hp => only o (.inr (.inr ⟨hd, hp⟩))) fun _ o hi => only o (.inl hi)

theorem freshen_spec (p : Port) (g : Graph) (good : Good all g) (x : Except Error Value) (h : Graph)
    (eq : (freshen below p).apply g = (x, h)) :
    Good all h ∧ (all = true → (g.direction? p).isSome → ∀ e, x = .error e → TooDeep e) := by
  have w := good.wellFormed
  revert eq
  refine freshen_cases (motive := fun r => r = (x, h) → _) ?absent ?current ?wired ?given ?linked
    ?made
  case absent =>
    intro hd eq
    cases eq
    exact ⟨good, fun _ live => by simp [hd] at live⟩
  case current =>
    intro _ _ eq
    cases eq
    exact ⟨good, fun _ _ _ he => nomatch he⟩
  case wired =>
    intro q hd _ hq eq
    have live := ((source?_eq_some_iff w.wired q p).1 hq).output w.wired
    have spec := copyFrom_spec r p q g good (by simp [live]) (fun o ho => by
      rw [flows_input_iff w hd, hq, Option.some.injEq] at ho
      exact ho.symm) x h eq
    exact ⟨spec.1, fun hall _ => spec.2 hall⟩
  case given =>
    intro hd _ hq eq
    cases eq
    have only (o : Port) (ho : g.Flows o p) : g.isStale o = false := by
      rw [flows_input_iff w hd, hq] at ho
      cases ho
    refine ⟨good.of_sameFrame (sameFrame_setCurrent _ p) ?_, fun _ _ _ he => nomatch he⟩
    exact closed_setCurrent good.closed p (fun o hf => only o (.inr (.inl hf)))
      (fun o hd hp => only o (.inr (.inr ⟨hd, hp⟩))) fun _ o hi => only o (.inl hi)
  case linked =>
    intro q hd _ hq eq
    have live : (g.direction? q).isSome := by
      rw [direction?_eq, Option.isSome_map]
      exact isSome_attr?_of_peer? g (w.linked.back _ _ hq)
    have spec := copyFrom_spec r p q g good live (fun o ho => (good.standard.flows_iff w hd hq).1 ho)
      x h eq
    exact ⟨spec.1, fun hall _ => spec.2 hall⟩
  case made =>
    intro hd _ hp eq
    have spec := compute_spec r p g good hd hp x h eq
    exact ⟨spec.1, fun hall _ => spec.2 hall⟩

omit r in
theorem current_of_freshen (p : Port) (g : Graph) (v : Value) (h : Graph)
    (eq : (freshen below p).apply g = (.ok v, h)) : h.isStale p = false := by
  have copied (q : Port) (eq : (copyFrom below p q).apply g = (.ok v, h)) :
      h.isStale p = false := by
    rw [copyFrom, apply_bind] at eq
    rcases hr : (below q).apply g with ⟨e | v, g₁⟩
    · rw [hr] at eq
      cases eq
    · rw [hr] at eq
      cases eq
      rw [isStale_setCurrent, if_pos rfl]
  revert eq
  refine freshen_cases (motive := fun r => r = (.ok v, h) → _) nofun ?current
    (fun q _ _ _ => copied q) ?given (fun q _ _ _ => copied q) ?made
  case current =>
    intro _ hs eq
    cases eq
    exact hs
  case given =>
    intro _ _ _ eq
    cases eq
    rw [isStale_setCurrent, if_pos rfl]
  case made =>
    -- the last thing that a computation does is to settle its output
    intro _ _ _
    rw [compute_eq]
    refine bind_elim (motive := fun r => r = (.ok v, h) → _) (fun m g₁ _ => ?_) nofun
    refine bind_elim (motive := fun r => r = (.ok v, h) → _) (fun inputs g₂ _ => ?_) nofun
    refine bind_elim (motive := fun r => r = (.ok v, h) → _) (fun result g₃ _ eq => ?_) nofun
    have settled (k : Graph) : (k.settled p).isStale p = false := by
      rw [isStale_settled, if_pos rfl]
    cases result with
    | ok status =>
      rw [settle_ok] at eq
      cases eq
      exact settled _
    | error message =>
      cases hv : g₃.fallback? p with
      | some d =>
        rw [settle_error_of_some g₃ p message hv] at eq
        cases eq
        exact settled _
      | none =>
        rw [settle_error_of_none g₃ p message hv] at eq
        cases eq

end Reads

theorem refreshes_readWithin (all : Bool) (levels : Nat) : Refreshes all (readWithin levels) := by
  induction levels with
  | zero =>
    refine ⟨leads_readWithin 0, fun p g good => good, fun p g v h eq => ?_, ?_⟩
    · cases eq
    · intro _ p g e h _ _ eq
      cases eq
      exact ⟨_, rfl⟩
  | succ levels r =>
    refine ⟨leads_readWithin _, fun p g good => ?_, current_of_freshen, ?_⟩
    · exact (freshen_spec r p g good _ _ rfl).1
    · intro hall p g e h good live eq
      exact (freshen_spec r p g good _ _ eq).2 hall live e rfl

end Dataflow.Graph
