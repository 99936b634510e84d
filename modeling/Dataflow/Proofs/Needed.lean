import Dataflow.Proofs.Agreement
import Dataflow.Proofs.Refreshed
set_option autoImplicit false

/-!
What a read evaluates. A port that is out of date needs those of the ports it is made from that are
out of date as well, and what they need in turn. Main statement: if a read succeeds and no computation
has failed for good in it, then it has brought up to date what its port needs and has touched nothing
else, each computation in there has run once, and a second read finds all done.
-/

namespace Dataflow.Graph

/-- The port `q` is out of date, and `p` is made from it by way of ports that all are out of date. -/
def Needs (g : Graph) (p q : Port) : Prop :=
  g.isStale q = true ∧ Relation.ReflTransGen g.Awaits p q

/-- Every graph that reads can cope with. -/
structure Tractable (g : Graph) : Prop where
  wellFormed : g.WellFormed
  acyclic : g.Acyclic
  confined : ∀ n t, g.type? n = some t → t.Confined

theorem SameFrame.tractable {g h : Graph} (a : SameFrame g h) (t : g.Tractable) : h.Tractable :=
  ⟨a.wellFormed t.wellFormed, a.acyclic t.acyclic, by rw [a.type]; exact t.confined⟩

theorem flows_of_predecessor {g : Graph} (w : g.WellFormed) {p q : Port}
    (h : q ∈ g.predecessors p) : g.Flows q p := by
  rcases (mem_predecessors_iff g p q).1 h with (⟨hd, hq⟩ | ⟨hd, hq⟩) | ⟨-, -, hi⟩
  · exact (flows_input_iff w hd).2 hq
  · have back := w.linked.back p q hq
    refine .inr (.inr ⟨?_, back⟩)
    obtain ⟨a, ha⟩ := Option.isSome_iff_exists.1 (isSome_attr?_of_peer? g back)
    have ne := peer_direction_ne w.linked back
    rw [hd, direction?_eq, ha, Option.map_some] at ne
    rw [direction?_eq, ha, Option.map_some]
    cases hdir : a.direction with
    | input => rfl
    | output => simp [hdir] at ne
  · exact .inl hi

/-! ### Needs -/

section Needs
variable {g h : Graph} {p q r : Port}

theorem Needs.stale_left (n : g.Needs p q) : g.isStale p = true := by
  rcases Relation.ReflTransGen.cases_head n.2 with rfl | ⟨r, awaits, -⟩
  · exact n.1
  · exact awaits.1

theorem Needs.closed (n : g.Needs p q) (hr : r ∈ g.predecessors q) (stale : g.isStale r = true) :
    g.Needs p r := ⟨stale, n.2.tail ⟨n.1, hr, stale⟩⟩

/-- A port needs itself and what the ports need that it is made from. -/
theorem needs_iff (hp : g.isStale p = true) :
    g.Needs p q ↔ q = p ∨ ∃ r ∈ g.predecessors p, g.Needs r q := by
  constructor
  · rintro ⟨stale, path⟩
    rcases Relation.ReflTransGen.cases_head path with rfl | ⟨r, awaits, rest⟩
    · exact .inl rfl
    · exact .inr ⟨r, awaits.2.1, stale, rest⟩
  · rintro (rfl | ⟨r, hr, n⟩)
    · exact ⟨hp, .refl⟩
    · exact ⟨n.1, .head ⟨hp, hr, n.stale_left⟩ n.2⟩

theorem flows_of_awaits (w : g.WellFormed) (path : Relation.ReflTransGen g.Awaits p q) :
    Relation.ReflTransGen g.Flows q p := by
  induction path with
  | refl => exact .refl
  | tail _ awaits ih => exact .head (flows_of_predecessor w awaits.2.1) ih

/-- What a port is made from does not need it. -/
theorem Tractable.not_needs (t : g.Tractable) (hr : r ∈ g.predecessors p) : ¬ g.Needs r p := by
  intro n
  exact t.acyclic p (.trans_right (flows_of_awaits t.wellFormed n.2)
    (.single (flows_of_predecessor t.wellFormed hr)))

/-- Nor does anything that is needed for that. -/
theorem Tractable.apart (t : g.Tractable) (n : ∃ r ∈ g.predecessors p, g.Needs r q) : q ≠ p := by
  rintro rfl
  obtain ⟨r, hr, n⟩ := n
  exact t.not_needs hr n

theorem Calmer.awaits (a : Calmer g h) (x : h.Awaits p q) : g.Awaits p q :=
  ⟨a.stale p x.1, (a.frame.mem_predecessors p q).1 x.2.1, a.stale q x.2.2⟩

theorem Calmer.needs (a : Calmer g h) (n : h.Needs p q) : g.Needs p q :=
  ⟨a.stale q n.1, n.2.lift id fun _ _ x => a.awaits x⟩

end Needs

/-! ### What is touched -/

/-- Nothing but the ports in `S` has been touched, and computations may have run. -/
structure Touched (S : Port → Prop) (g h : Graph) : Prop extends Calmer g h where
  slot : ∀ q, ¬ S q → h.slot? q = g.slot? q
  runs : ∃ l, h.computings = l ++ g.computings

/-- Just the ports in `S` have been brought up to date, with one run of each computation for them. -/
structure Renewed (S : Port → Prop) (g h : Graph) : Prop extends Calmer g h where
  slot : ∀ q, ¬ S q → h.slot? q = g.slot? q
  current : ∀ q, S q → h.isStale q = false
  once : ∃ l, h.computings = l ++ g.computings ∧ l.Nodup ∧ ∀ q, q ∈ l ↔ S q ∧ g.Computing q

section Touched
variable {S T U : Port → Prop} {g h k : Graph}

theorem Renewed.touched (a : Renewed S g h) : Touched S g h := by
  obtain ⟨l, hl, -⟩ := a.once
  exact ⟨a.toCalmer, a.slot, l, hl⟩

theorem Touched.refl (g : Graph) : Touched S g g := ⟨.refl g, fun _ _ => rfl, [], rfl⟩

theorem Touched.mono (a : Touched S g h) (sub : ∀ q, S q → T q) : Touched T g h :=
  ⟨a.toCalmer, fun q hq => a.slot q fun hs => hq (sub q hs), a.runs⟩

theorem Touched.trans (a : Touched S g h) (b : Touched S h k) : Touched S g k := by
  obtain ⟨l, hl⟩ := a.runs
  obtain ⟨l', hl'⟩ := b.runs
  exact ⟨a.toCalmer.trans b.toCalmer, fun q hq => (b.slot q hq).trans (a.slot q hq),
    l' ++ l, by rw [hl', hl, List.append_assoc]⟩

theorem Touched.sameOn (a : Touched S g h) : SameOn (¬ S ·) g h := by
  refine ⟨a.frame, fun q hq => ?_, fun q hq _ => ?_⟩
  · rw [isStale, isStale, a.slot q hq]
  · rw [Graph.held, Graph.held, a.slot q hq]

theorem Touched.computing (a : Touched S g h) : h.Computing = g.Computing := a.frame.computing

/-- What one step brings up to date the next one need not. -/
theorem Renewed.trans (a : Renewed S g h) (b : Renewed T h k) (apart : ∀ q, S q → ¬ T q)
    (both : ∀ q, U q ↔ S q ∨ T q) : Renewed U g k := by
  refine ⟨a.toCalmer.trans b.toCalmer, fun q hq => ?_, fun q hq => ?_, ?_⟩
  · rw [both, not_or] at hq
    rw [b.slot q hq.2, a.slot q hq.1]
  · rcases (both q).1 hq with hs | ht
    · rw [isStale, b.slot q (apart q hs)]
      exact a.current q hs
    · exact b.current q ht
  · obtain ⟨l, hl, nodup, members⟩ := a.once
    obtain ⟨l', hl', nodup', members'⟩ := b.once
    rw [a.frame.computing] at members'
    refine ⟨l' ++ l, by rw [hl', hl, List.append_assoc], ?_, fun q => ?_⟩
    · refine List.nodup_append.2 ⟨nodup', nodup, fun q hq r hr eq => ?_⟩
      subst eq
      exact apart q ((members q).1 hr).1 ((members' q).1 hq).1
    · rw [List.mem_append, members, members', both]
      tauto

theorem Renewed.congr (a : Renewed S g h) (same : ∀ q, T q ↔ S q) : Renewed T g h := by
  have eq : T = S := funext fun q => propext (same q)
  rw [eq]
  exact a

/-- What is needed after some of it has been brought up to date. -/
theorem Renewed.needs_iff (a : Renewed S g h)
    (closed : ∀ q r, S q → r ∈ g.predecessors q → g.isStale r = true → S r) {p q : Port} :
    h.Needs p q ↔ g.Needs p q ∧ ¬ S q := by
  have stale {r : Port} (hr : ¬ S r) : h.isStale r = g.isStale r := by
    rw [isStale, isStale, a.slot r hr]
  constructor
  · intro n
    refine ⟨a.needs n, fun hs => ?_⟩
    have := a.current q hs
    rw [n.1] at this
    cases this
  · rintro ⟨⟨hq, path⟩, hs⟩
    suffices h.Needs p q ∧ ¬ S p from this.1
    induction path using Relation.ReflTransGen.head_induction_on with
    | refl => exact ⟨⟨by rw [stale hs, hq], .refl⟩, hs⟩
    | head awaits _ ih =>
      obtain ⟨n, hr⟩ := ih
      have hp := fun hp => hr (closed _ _ hp awaits.2.1 awaits.2.2)
      refine ⟨⟨n.1, .head ⟨?_, ?_, n.stale_left⟩ n.2⟩, hp⟩
      · rw [stale hp, awaits.1]
      · exact (a.frame.mem_predecessors _ _).2 awaits.2.1

/-- A failure stays one while what is up to date is not touched. -/
theorem Broken.later {q : Port} (b : Broken g h q) (a : Touched S h k)
    (out : ∀ r, S r → h.isStale r = true) (w : h.Tree) : Broken g k q := by
  obtain ⟨failing, l, hl, hq⟩ := b
  obtain ⟨l', hl'⟩ := a.runs
  refine ⟨failing.of_sameOn a.sameOn w fun r hr hs => ?_, l' ++ l, ?_, by simp [hq]⟩
  · have := out r hs
    rw [failing.current r hr] at this
    cases this
  · rw [hl', hl, List.append_assoc]

theorem Broken.sooner {q : Port} (b : Broken h k q) (a : Touched S g h) : Broken g k q := by
  obtain ⟨failing, l, hl, hq⟩ := b
  obtain ⟨l', hl'⟩ := a.runs
  exact ⟨failing, l ++ l', by rw [hl, hl', List.append_assoc], by simp [hq]⟩

end Touched

/-- How an edit goes that has to bring the ports in `S` up to date: it does just that, or it stops
because it gets too deep, or a computation fails for good on the way. -/
inductive Serves (S : Port → Prop) (g : Graph) {α : Type} : Except Error α × Graph → Prop where
  | done {a : α} {h : Graph} (renewed : Renewed S g h) : Serves S g (.ok a, h)
  | deep {d : Nat} {h : Graph} (touched : Touched S g h) :
    Serves S g (.error (.evaluationTooDeep d), h)
  | broken {x : Except Error α} {h : Graph} {q : Port} (touched : Touched S g h)
    (cause : Broken g h q) : Serves S g (x, h)

section Serves
variable {α β : Type} {S T U : Port → Prop} {g h : Graph} {x : Except Error α × Graph}

theorem Serves.touched (s : Serves S g x) : Touched S g x.2 := by
  cases s with
  | done renewed => exact renewed.touched
  | deep touched => exact touched
  | broken touched _ => exact touched

/-- One step after another. -/
theorem Serves.after (s : Serves T h x) (a : Renewed S g h) (apart : ∀ q, S q → ¬ T q)
    (both : ∀ q, U q ↔ S q ∨ T q) : Serves U g x := by
  have before : Touched U g h := a.touched.mono fun q hq => (both q).2 (.inl hq)
  have sub (q : Port) (hq : T q) : U q := (both q).2 (.inr hq)
  cases s with
  | done renewed => exact .done (a.trans renewed apart both)
  | deep touched => exact .deep (before.trans (touched.mono sub))
  | broken touched cause => exact .broken (before.trans (touched.mono sub)) (cause.sooner before)

/-- A step after one in which a computation has failed. -/
theorem Touched.resume {q : Port} (a : Touched S g h) (cause : Broken g h q) (w : h.Tree)
    (b : Touched T h x.2) (stale : ∀ r, T r → h.isStale r = true) (left : ∀ r, S r → U r)
    (right : ∀ r, T r → U r) : Serves U g x :=
  .broken ((a.mono left).trans (b.mono right)) (cause.later b stale w)

end Serves

/-! ### Single steps -/

section Steps
variable {S : Port → Prop} {g h k : Graph} {p q : Port}

theorem Renewed.refl (none : ∀ q, ¬ S q) : Renewed S g g :=
  ⟨.refl g, fun _ _ => rfl, fun q hq => absurd hq (none q), [], rfl, List.nodup_nil,
    fun q => by simp [none q]⟩

theorem Renewed.quiet (a : Renewed S g h) (b : Quiet h k)
    (runs : k.computings = h.computings) : Renewed S g k := by
  obtain ⟨l, hl, once⟩ := a.once
  exact ⟨a.toCalmer.trans ⟨b.frame, fun q hq => by rwa [← b.isStale]⟩,
    fun q hq => by rw [b.slot, a.slot q hq], fun q hq => by rw [b.isStale, a.current q hq],
    l, by rw [runs, hl], once⟩

theorem Stored.touched (a : Stored p g h) (runs : ∃ l, h.computings = l ++ g.computings) :
    Touched (· = p) g h :=
  ⟨⟨a.frame, fun q hq => by rwa [← a.isStale]⟩, a.slot, runs⟩

/-- The value of a port has been stored, and the port is marked as up to date. -/
theorem Stored.renewed (a : Stored p g h) (runs : ¬ g.Computing p ∧ h.computings = g.computings ∨
    g.Computing p ∧ h.computings = p :: g.computings) : Renewed (· = p) g (h.setCurrent p) := by
  have calm : Calmer g h := ⟨a.frame, fun q hq => by rwa [← a.isStale]⟩
  have slot (q : Port) (hq : q ≠ p) : (h.setCurrent p).slot? q = g.slot? q := by
    rw [← a.slot q hq, setCurrent, slot?_emit, slot?_modifySlot, if_neg (Ne.symm hq)]
  refine ⟨calm.trans (h.calmer_setCurrent p), slot, ?_, ?_⟩
  · rintro q rfl
    rw [isStale_setCurrent, if_pos rfl]
  · rcases runs with ⟨inert, hr⟩ | ⟨computes, hr⟩
    · refine ⟨[], hr, List.nodup_nil, fun q => ?_⟩
      simp only [List.not_mem_nil, false_iff]
      rintro ⟨rfl, computes⟩
      exact inert computes
    · refine ⟨[p], hr, List.nodup_singleton p, fun q => ?_⟩
      simp only [List.mem_singleton, iff_self_and]
      rintro rfl
      exact computes

theorem Stored.settled (a : Stored p g h) (runs : ¬ g.Computing p ∧ h.computings = g.computings ∨
    g.Computing p ∧ h.computings = p :: g.computings) : Renewed (· = p) g (h.settled p) :=
  (a.renewed runs).quiet (quiet_emit _ _) rfl

/-- However an output is settled, that is all that changes. -/
theorem touched_settle (g : Graph) (p : Port) (result : Except String Status) :
    Touched (· = p) g ((settle p result).apply g).2 := by
  have done (k : Graph) (a : Stored p g k) (runs : k.computings = g.computings) :
      Touched (· = p) g (k.settled p) := by
    have slot (q : Port) (hq : q ≠ p) : (k.settled p).slot? q = g.slot? q := by
      rw [← a.slot q hq, Graph.settled, setCurrent, slot?_emit, slot?_emit, slot?_modifySlot,
        if_neg (Ne.symm hq)]
    exact ⟨(a.touched ⟨[], runs⟩).toCalmer.trans (k.calmer_settled p), slot, [], runs⟩
  cases result with
  | ok s => exact done _ (.setStatus g p.node s) (computings_setStatus g p.node s)
  | error message =>
    cases hv : g.fallback? p with
    | some v =>
      rw [settle_error_of_some g p message hv]
      refine done _ ((Stored.put g p v).trans (.setStatus _ p.node _)) ?_
      rw [computings_setStatus, computings_put]
    | none =>
      rw [settle_error_of_none g p message hv]
      exact (Stored.setStatus g p.node _).touched ⟨[], computings_setStatus g p.node _⟩

/-- An output whose inputs are up to date is settled, or its computation fails for good. -/
theorem serves_compute (t : g.Tractable) (hd : g.direction? p = some .output)
    (hp : g.isStale p = true) (hq : g.peer? p = none) {levels : Nat}
    (current : ∀ q, g.Influences q p → g.isStale q = false)
    (reach : (∃ q, g.Influences q p) → levels ≠ 0) :
    Serves (· = p) g ((compute (readWithin levels) p).apply g) := by
  rcases compute_of_current t.wellFormed hd hq t.confined current reach with
    ⟨v, h, computed, stored, runs⟩ | ⟨e, h, computed, stored, failing, runs⟩
  · rw [computed]
    exact .done (stored.settled runs)
  · rw [computed]
    have same : SameOn (fun _ => True) g h := .of_stored stored hp
    exact .broken (stored.touched ⟨[p], runs⟩)
      ⟨failing.of_sameOn same t.wellFormed.tree fun _ _ => trivial, [p], runs, by simp⟩

end Steps

/-! ### Whole reads -/

/-- A way to read ports that does what it has to and no more. -/
def Serving (below : Port → Edit Value) : Prop :=
  ∀ p g, g.Tractable → (g.direction? p).isSome → Serves (g.Needs p) g ((below p).apply g)

section Reads
variable {g h : Graph} {p q : Port} {below : Port → Edit Value}

theorem readAll_serves (serving : Serving below) (ps : List Port) (t : g.Tractable)
    (live : ∀ q ∈ ps, (g.direction? q).isSome) :
    Serves (fun q => ∃ r ∈ ps, g.Needs r q) g ((readAll below ps).apply g) ∧
      ∀ message h, (readAll below ps).apply g = (.ok (.error message), h) → ∃ q, Broken g h q := by
  induction ps generalizing g with
  | nil => exact ⟨.done (.refl (by rintro q ⟨r, hr, -⟩; cases hr)), by rintro _ _ ⟨⟩⟩
  | cons p ps ih =>
    have first := serving p g t (live p (by simp))
    have left (q : Port) (n : g.Needs p q) : ∃ r ∈ p :: ps, g.Needs r q := ⟨p, by simp, n⟩
    have rest (h : Graph) (a : Touched (g.Needs p) g h) :=
      ih (a.frame.tractable t) fun q hq => by
        rw [a.frame.direction]
        exact live q (by simp [hq])
    have right (h : Graph) (a : Touched (g.Needs p) g h) (q : Port)
        (n : ∃ r ∈ ps, h.Needs r q) : ∃ r ∈ p :: ps, g.Needs r q := by
      obtain ⟨r, hr, n⟩ := n
      exact ⟨r, by simp [hr], a.needs n⟩
    rw [readAll, Edit.apply_bind, Edit.apply_outcome]
    cases hx : (below p).apply g with
    | mk x h =>
      rw [hx] at first
      cases first with
      | deep touched => exact ⟨.deep (touched.mono left), by rintro _ _ ⟨⟩⟩
      | done renewed =>
        obtain ⟨serves, failed⟩ := rest h renewed.touched
        have needs (r q : Port) : h.Needs r q ↔ g.Needs r q ∧ ¬ g.Needs p q :=
          renewed.needs_iff fun _ _ n hr stale => n.closed hr stale
        refine ⟨serves.after renewed ?_ ?_, fun message k eq => ?_⟩
        · rintro q hq ⟨r, -, n⟩
          exact ((needs r q).1 n).2 hq
        · intro q
          simp only [needs, List.exists_mem_cons_iff]
          constructor
          · rintro (n | ⟨r, hr, n⟩)
            · exact .inl n
            · exact or_iff_not_imp_left.2 fun new => ⟨r, hr, n, new⟩
          · rintro (n | ⟨r, hr, n, -⟩)
            · exact .inl n
            · exact .inr ⟨r, hr, n⟩
        · obtain ⟨q, cause⟩ := failed message k eq
          exact ⟨q, cause.sooner renewed.touched⟩
      | broken touched cause =>
        have halted (y : Except Error (Except String Unit)) :
            Serves (fun q => ∃ r ∈ p :: ps, g.Needs r q) g (y, h) :=
          .broken (touched.mono left) cause
        cases x with
        | ok v =>
          obtain ⟨serves, failed⟩ := rest h touched
          have resumed := touched.resume cause (touched.frame.tractable t).wellFormed.tree
            serves.touched (by rintro q ⟨r, -, n⟩; exact n.1) left (right h touched)
          refine ⟨resumed, fun message k eq => ?_⟩
          obtain ⟨q, cause⟩ := failed message k eq
          exact ⟨q, cause.sooner touched⟩
        | error e =>
          cases e with
          | evaluationTooDeep d => exact ⟨halted _, by rintro _ _ ⟨⟩⟩
          | _ => exact ⟨halted _, fun message k eq => ⟨_, by cases eq; exact cause⟩⟩

/-- What comes after the inputs have been read can be looked at by itself. -/
theorem compute_resumed {levels : Nat} {m : Node} (hm : g.node? p.node = some m)
    (reads : (readAll (readWithin levels) ((m.ports.inputsOf p.index).map (Port.mk p.node))).apply g =
      (.ok (.ok ()), h)) (a : SameFrame g h) (w : h.WellFormed)
    (current : ∀ q, h.Influences q p → h.isStale q = false)
    (reach : (∃ q, h.Influences q p) → levels ≠ 0) :
    (compute (readWithin levels) p).apply g = (compute (readWithin levels) p).apply h := by
  have same : (h.node? p.node).map Node.type = some m.type := by
    have := congrFun a.type p.node
    simpa [type?, hm] using this
  obtain ⟨m', hm', types⟩ := Option.map_eq_some_iff.1 same
  have inputs : m.ports.inputsOf p.index = m'.ports.inputsOf p.index :=
    congrArg (fun t : NodeType => t.ports.inputsOf p.index) types.symm
  have computes : m.compute = m'.compute := congrArg NodeType.compute types.symm
  rw [inputs] at reads
  rw [compute_eq, Edit.apply_bind, Edit.apply_look, Edit.apply_bind, Edit.apply_look]
  simp only [node, hm, hm', inputs, computes]
  rw [Edit.apply_bind, reads, Edit.apply_bind, readAll_inputs w hm' current levels reach]

theorem current_readAll {levels : Nat} {ps : List Port}
    (eq : (readAll (readWithin levels) ps).apply g = (.ok (.ok ()), h)) :
    ∀ q ∈ ps, h.isStale q = false := by
  induction ps generalizing g with
  | nil => simp
  | cons p ps ih =>
    rw [readAll, Edit.apply_bind, Edit.apply_outcome] at eq
    cases hx : (readWithin levels p).apply g with
    | mk x k =>
      rw [hx] at eq
      cases x with
      | error e => cases e <;> cases eq
      | ok v =>
        have current := (faithful_readWithin levels).current p g v k hx
        have calm := leads_readAll Calmer.steps ps (fun q _ => leads_readWithin levels q) k
        rw [show (readAll (readWithin levels) ps).apply k = _ from eq] at calm
        simp only [List.mem_cons, forall_eq_or_imp]
        exact ⟨calm.current current, ih eq⟩

theorem reach_of_readAll {levels : Nat} {ps : List Port} {x : Except String Unit}
    (eq : (readAll (readWithin levels) ps).apply g = (.ok x, h)) (hq : q ∈ ps) : levels ≠ 0 := by
  rintro rfl
  cases ps with
  | nil => cases hq
  | cons p ps =>
    rw [readAll, Edit.apply_bind, Edit.apply_outcome, tooDeep_zero] at eq
    cases eq

section Last
variable {α : Type} {x : Except Error α × Graph} (t : g.Tractable) (hp : g.isStale p = true)
include t hp

/-- Once a port has what it is made from, only the port itself is left to do. -/
theorem Serves.last (s : Serves (· = p) h x)
    (a : Renewed (fun q => ∃ r ∈ g.predecessors p, g.Needs r q) g h) : Serves (g.Needs p) g x :=
  s.after a (fun _ n => t.apart n) fun _ => (needs_iff hp).trans or_comm

theorem Broken.last (cause : Broken g h q) (b : Touched (· = p) h x.2)
    (a : Touched (fun q => ∃ r ∈ g.predecessors p, g.Needs r q) g h) : Serves (g.Needs p) g x := by
  refine a.resume cause (a.frame.tractable t).wellFormed.tree b ?_ ?_ ?_
  · rintro r rfl
    rw [isStale, a.slot r fun n => t.apart n rfl]
    exact hp
  · exact fun r n => (needs_iff hp).2 (.inr n)
  · exact fun r hr => (needs_iff hp).2 (.inl hr)

end Last

theorem mem_predecessors_of_copies (c : g.Copies p q) (r : Port) :
    r ∈ g.predecessors p ↔ r = q := by
  rw [mem_predecessors_iff]
  rcases c with ⟨hd, hq⟩ | ⟨hd, hq⟩ <;> simp [Copies, hd, hq, eq_comm]

theorem Copies.live (w : g.WellFormed) (c : g.Copies p q) : (g.direction? q).isSome := by
  rcases c with ⟨-, hq⟩ | ⟨-, hq⟩
  · simp [((source?_eq_some_iff w.wired q p).1 hq).output w.wired]
  · rw [direction?_eq, Option.isSome_map]
    exact isSome_attr?_of_peer? g (w.linked.back p q hq)

theorem freshen_copy_serves (serving : Serving below) (t : g.Tractable) (c : g.Copies p q)
    (hp : g.isStale p = true) : Serves (g.Needs p) g ((freshen below p).apply g) := by
  have only : (fun r => ∃ s ∈ g.predecessors p, g.Needs s r) = g.Needs q := by
    funext r
    simp [mem_predecessors_of_copies c]
  have sub (r : Port) (n : g.Needs q r) : g.Needs p r := by
    rw [needs_iff hp]
    exact .inr ⟨q, (mem_predecessors_of_copies c q).2 rfl, n⟩
  have first := serving q g t (Copies.live t.wellFormed c)
  have copied (v : Value) (h : Graph) (a : SameFrame g h) :
      Serves (α := Value) (· = p) h (.ok v, (h.hold p v).setCurrent p) := by
    refine .done ((Stored.hold h p v).renewed (.inl ⟨?_, rfl⟩))
    rintro ⟨hd, free, -⟩
    rw [a.direction] at hd
    rw [a.peer] at free
    rcases c with ⟨hd', -⟩ | ⟨-, hq⟩
    · rw [hd'] at hd
      cases hd
    · rw [hq] at free
      cases free
  rw [freshen_of_copies c hp]
  cases hx : (below q).apply g with
  | mk x h =>
    rw [hx] at first
    cases first with
    | done renewed =>
      rw [copyFrom_ok hx]
      exact .last t hp (copied _ h renewed.frame) (by rwa [only])
    | deep touched =>
      rw [copyFrom_error hx]
      exact .deep (touched.mono sub)
    | broken touched cause =>
      cases x with
      | ok v =>
        rw [copyFrom_ok hx]
        exact cause.last t hp (copied v h touched.frame).touched (by rwa [only])
      | error e =>
        rw [copyFrom_error hx]
        exact .broken (touched.mono sub) cause

theorem freshen_given_serves (t : g.Tractable) (hd : g.direction? p = some .input)
    (hp : g.isStale p = true) (hs : g.source? p = none) :
    Serves (g.Needs p) g ((freshen below p).apply g) := by
  have inert : ¬ g.Computing p := by
    rintro ⟨hd', -⟩
    rw [hd] at hd'
    cases hd'
  have none (r : Port) : r ∉ g.predecessors p := by
    rw [mem_predecessors_iff]
    simp [Copies, hd, hs]
  rw [turned_given hd hp hs]
  exact .last t hp (.done ((Stored.refl g).renewed (.inl ⟨inert, rfl⟩)))
    (.refl (by rintro q ⟨r, hr, -⟩; exact none r hr))

theorem freshen_made_serves {levels : Nat} (serving : Serving (readWithin levels)) (t : g.Tractable)
    (hd : g.direction? p = some .output) (hp : g.isStale p = true) (hq : g.peer? p = none) :
    Serves (g.Needs p) g ((freshen (readWithin levels) p).apply g) := by
  have w := t.wellFormed
  obtain ⟨type, ht⟩ := exists_type?_of_direction? hd
  obtain ⟨m, hm, rfl⟩ := Option.map_eq_some_iff.1 ht
  have inputs (q : Port) : q ∈ (m.ports.inputsOf p.index).map (Port.mk p.node) ↔
      q ∈ g.predecessors p := by rw [mem_inputs_iff hm, mem_predecessors_of_made hd hq]
  obtain ⟨serves, failed⟩ := readAll_serves serving
    ((m.ports.inputsOf p.index).map (Port.mk p.node)) t fun q hq => by
      rw [((mem_inputs_iff hm q).1 hq).input w]
      rfl
  simp only [inputs] at serves
  rw [freshen_of_made hd hp hq]
  rcases hx : (readAll (readWithin levels) ((m.ports.inputsOf p.index).map (Port.mk p.node))).apply g
    with ⟨x, h⟩
  · rw [hx] at serves
    have sub : ∀ r, (∃ s ∈ g.predecessors p, g.Needs s r) → g.Needs p r :=
      fun r n => (needs_iff hp).2 (.inr n)
    rcases x with e | message | u
    · have computed : (compute (readWithin levels) p).apply g = (.error e, h) := by
        rw [compute_eq, Edit.apply_bind, Edit.apply_look]
        simp only [node, hm]
        rw [Edit.apply_bind, hx]
      rw [computed]
      cases serves with
      | deep touched => exact .deep (touched.mono sub)
      | broken touched cause => exact .broken (touched.mono sub) cause
    · have computed :
          (compute (readWithin levels) p).apply g = (settle p (.error message)).apply h := by
        rw [compute_eq, Edit.apply_bind, Edit.apply_look]
        simp only [node, hm]
        rw [Edit.apply_bind, hx]
        rfl
      obtain ⟨q, cause⟩ := failed message h hx
      rw [computed]
      exact cause.last t hp (touched_settle h p _) serves.touched
    · have current (q : Port) (influence : g.Influences q p) : h.isStale q = false :=
        current_readAll hx q ((mem_inputs_iff hm q).2 influence)
      have reach : (∃ q, g.Influences q p) → levels ≠ 0 := fun fed => by
        obtain ⟨q, influence⟩ := fed
        exact reach_of_readAll hx ((mem_inputs_iff hm q).2 influence)
      have frame := serves.touched.frame
      have hp' : h.isStale p = true := by
        rw [isStale, serves.touched.slot p fun n => t.apart n rfl]
        exact hp
      rw [← frame.influences] at current reach
      have rest := serves_compute (frame.tractable t) (by rw [frame.direction, hd]) hp'
        (by rw [frame.peer, hq]) current reach
      rw [compute_resumed hm hx frame (frame.wellFormed w) current reach]
      cases serves with
      | done renewed => exact .last t hp rest renewed
      | broken touched cause => exact cause.last t hp rest.touched touched

end Reads

theorem serving_readWithin (levels : Nat) : Serving (readWithin levels) := by
  induction levels with
  | zero =>
    intro p g _ _
    rw [tooDeep_zero]
    exact .deep (.refl g)
  | succ levels serving =>
    intro p g t live
    refine freshen_cases (motive := fun x => Serves (g.Needs p) g x) ?absent ?current ?wired ?given
      ?linked ?made
    case absent =>
      intro absent
      rw [absent] at live
      cases live
    case current =>
      intro _ hp
      refine .done (.refl fun q n => ?_)
      rw [n.stale_left] at hp
      cases hp
    case wired =>
      intro q hd hp hq
      have c : g.Copies p q := .inl ⟨hd, hq⟩
      rw [← freshen_of_copies c hp]
      exact freshen_copy_serves serving t c hp
    case linked =>
      intro q hd hp hq
      have c : g.Copies p q := .inr ⟨hd, hq⟩
      rw [← freshen_of_copies c hp]
      exact freshen_copy_serves serving t c hp
    case given =>
      intro hd hp hs
      rw [← turned_given hd hp hs (readWithin levels)]
      exact freshen_given_serves t hd hp hs
    case made =>
      intro hd hp hq
      rw [← freshen_of_made hd hp hq]
      exact freshen_made_serves serving t hd hp hq

theorem live_of_read {g h : Graph} {p : Port} {v : Value} (ok : (read p).apply g = (.ok v, h)) :
    (g.direction? p).isSome := by
  have done : ((read p).apply g).1 = .ok v := by rw [ok]
  obtain ⟨s, hs, -⟩ := Edit.ok_of_bind done
  rw [Edit.apply_look, slot_eq_ok_iff] at hs
  rw [direction?, hs]
  rfl

theorem tractable_of_grown {g : Graph} (r : Grown g)
    (confined : ∀ n t, g.type? n = some t → t.Confined) : g.Tractable :=
  ⟨(acyclic_of_grown r).lawful.wellFormed, (acyclic_of_grown r).holds, confined⟩

/-- If a read succeeds and no computation has failed for good in it, then it has brought up to date
just what the port needs and touched nothing else, it has run the computations of those ports, each
once, and to read the port again changes nothing and gives the same. -/
theorem read_needed {g h : Graph} {p : Port} {v : Value} (r : Grown g)
    (confined : ∀ n t, g.type? n = some t → t.Confined)
    (ok : (read p).apply g = (.ok v, h)) (sound : ∀ q, ¬ Broken g h q) :
    (∀ q, g.isStale q = true ∧ h.isStale q = false ↔ g.Needs p q) ∧
    (∀ q, ¬ g.Needs p q → h.slot? q = g.slot? q) ∧
    (∃ l, h.computings = l ++ g.computings ∧ l.Nodup ∧
      ∀ q, q ∈ l ↔ g.Needs p q ∧ g.Computing q) ∧
    ∃ u, (read p).apply h = (.ok u, h) ∧ u.payload? = v.payload? := by
  have live := live_of_read ok
  rw [read_apply live] at ok
  have serves := serving_readWithin (g.config.maxDepth + 1) p g (tractable_of_grown r confined) live
  rw [ok] at serves
  cases serves with
  | broken _ cause => exact absurd cause (sound _)
  | done renewed =>
    have live' : (h.direction? p).isSome := by rwa [renewed.frame.direction]
    have faithful := faithful_readWithin (g.config.maxDepth + 1)
    refine ⟨fun q => ⟨fun cleared => ?_, fun n => ⟨n.1, renewed.current q n⟩⟩, renewed.slot,
      renewed.once, h.held p, ?_, (faithful.value p g v h ok).symm⟩
    · by_contra other
      rw [isStale, isStale, renewed.slot q other] at cleared
      rw [cleared.1] at cleared
      cases cleared.2
    · rw [read_apply live']
      exact freshen_of_current live' (faithful.current p g v h ok)

/-- Two repeaters in a row, of which the first has been read. -/
def halfRead : Graph :=
  let g := (Action.addNode ⟨1⟩ repeater "a" .standard).after (create ⟨9, true⟩ .start 0 [])
  let g := (Action.addNode ⟨1⟩ repeater "b" .standard).after g
  let g := (Action.connect ⟨⟨2⟩, 1⟩ ⟨⟨3⟩, 0⟩).after g
  (Action.read ⟨⟨2⟩, 1⟩).after g

theorem standardRun_halfRead : StandardRun halfRead := by
  have standard : repeater.Standard :=
    .of_name ⟨by decide, by decide, by decide⟩ (by decide) (by decide) (by decide)
  exact .step (.step (.step (.step (.start ..) standard) standard) trivial) trivial

theorem type_halfRead {n : NodeId} {t : NodeType} (ht : halfRead.type? n = some t) :
    t = .network ∨ t = repeater := by
  have known : (halfRead.nodes.keys, halfRead.type? ⟨1⟩, halfRead.type? ⟨2⟩, halfRead.type? ⟨3⟩) =
      ([⟨1⟩, ⟨2⟩, ⟨3⟩], some .network, some repeater, some repeater) := by cbv
  simp only [Prod.mk.injEq] at known
  obtain ⟨keys, h1, h2, h3⟩ := known
  have live := (isSome_type?_iff halfRead n).1 (by simp [ht])
  rw [keys] at live
  simp only [List.mem_cons, List.not_mem_nil, or_false] at live
  rcases live with rfl | rfl | rfl
  · exact .inl (Option.some.inj (ht.symm.trans h1))
  · exact .inr (Option.some.inj (ht.symm.trans h2))
  · exact .inr (Option.some.inj (ht.symm.trans h3))

theorem not_broken_halfRead {h : Graph} (a : SameFrame halfRead h) (p : Port) :
    ¬ Broken halfRead h p := by
  rintro ⟨failing, -⟩
  have output := failing.output
  have untyped := failing.untyped
  rw [a.direction] at output
  rw [a.declaredType] at untyped
  obtain ⟨b, hb, -⟩ := isSome_attr?_of_direction? output
  obtain ⟨t, ht⟩ := exists_type?_of_direction? output
  rw [declaredType_eq, hb, Option.bind_some] at untyped
  rw [attr?_eq, ht, Option.bind_some] at hb
  have declared := List.mem_of_getElem? hb
  rcases type_halfRead ht with rfl | rfl
  · cases declared
  · simp only [repeater, relay, List.mem_cons, List.not_mem_nil, or_false] at declared
    rcases declared with rfl | rfl <;> cases untyped

/-- Only the second repeater is left to do. -/
theorem halfRead_read : ∃ v h, (read ⟨⟨3⟩, 1⟩).apply halfRead = (.ok v, h) ∧
    (∀ q, ¬ Broken halfRead h q) ∧
    (∀ q, halfRead.isStale q = true ∧ h.isStale q = false ↔ halfRead.Needs ⟨⟨3⟩, 1⟩ q) ∧
    (∃ l, h.computings = l ++ halfRead.computings ∧ l.Nodup ∧
      ∀ q, q ∈ l ↔ halfRead.Needs ⟨⟨3⟩, 1⟩ q ∧ halfRead.Computing q) ∧
    h.computings = [⟨⟨3⟩, 1⟩, ⟨⟨2⟩, 1⟩] := by
  have known : (((read ⟨⟨3⟩, 1⟩).apply halfRead).1.map Value.payload?,
      ((read ⟨⟨3⟩, 1⟩).apply halfRead).2.computings) =
      (.ok (some (.int 0)), [⟨⟨3⟩, 1⟩, ⟨⟨2⟩, 1⟩]) := by cbv
  have confined (n : NodeId) (t : NodeType) (ht : halfRead.type? n = some t) : t.Confined := by
    rcases type_halfRead ht with rfl | rfl
    · exact NodeType.confined_of_inert rfl
    · exact confined_repeater
  have frame := (leads_read Calmer.steps leads_readWithin ⟨⟨3⟩, 1⟩ halfRead).frame
  cases eq : (read ⟨⟨3⟩, 1⟩).apply halfRead with
  | mk x h =>
    rw [eq] at known frame
    cases x with
    | error e => cases known
    | ok v =>
      have sound := not_broken_halfRead frame
      obtain ⟨cleared, -, once, -⟩ :=
        read_needed (grown_of_standard standardRun_halfRead) confined eq sound
      exact ⟨v, h, rfl, sound, cleared, once, (Prod.mk.inj known).2⟩

end Dataflow.Graph
