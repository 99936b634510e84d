import Dataflow.Proofs.Outcome
import Mathlib.Data.Fintype.Card
import Mathlib.Data.Fintype.EquivFin
import Mathlib.Data.Fintype.Sets
set_option autoImplicit false

/-!
Values from scratch: what a port carries if everything is computed anew, whatever is marked as out
of date. Main statements: in an acyclic graph every port has exactly one value from scratch, and
where the ports that are up to date agree with what they are made from, they carry that value.
-/

namespace Dataflow.Graph

/-- A port carries `x` from scratch. -/
inductive FromScratch (g : Graph) : Port → Option Payload → Prop where
  /-- An input without a wire has what it was given. -/
  | given {p : Port} (hd : g.direction? p = some .input) (hs : g.source? p = none) :
    FromScratch g p (g.value p)
  | wired {p q : Port} {x : Option Payload} (hd : g.direction? p = some .input)
    (hs : g.source? p = some q) (hx : FromScratch g q x) : FromScratch g p x
  | linked {p q : Port} {x : Option Payload} (hd : g.direction? p = some .output)
    (hp : g.peer? p = some q) (hx : FromScratch g q x) : FromScratch g p x
  /-- An output that nothing computes has what it was given. -/
  | inert {p : Port} {t : NodeType} (hd : g.direction? p = some .output) (hp : g.peer? p = none)
    (ht : g.type? p.node = some t) (hc : t.compute = none) : FromScratch g p (g.value p)
  | computed {p : Port} {t : NodeType} {c : Computation} {inputs : Nat → Option Payload}
    (hd : g.direction? p = some .output) (hp : g.peer? p = none) (ht : g.type? p.node = some t)
    (hc : t.compute = some c)
    (hx : ∀ i ∈ t.ports.inputsOf p.index, FromScratch g ⟨p.node, i⟩ (inputs i)) :
    FromScratch g p (t.outcome c p inputs)

section FromScratch
variable {g : Graph}

theorem FromScratch.unique {p : Port} {x y : Option Payload} (hx : g.FromScratch p x)
    (hy : g.FromScratch p y) : x = y := by
  induction hx generalizing y with
  | given hd hs => cases hy <;> simp_all
  | wired hd hs _ ih =>
    cases hy with
    | wired hd' hs' hy =>
      rw [hs, Option.some.injEq] at hs'
      subst hs'
      exact ih hy
    | _ => simp_all
  | linked hd hp _ ih =>
    cases hy with
    | linked hd' hp' hy =>
      rw [hp, Option.some.injEq] at hp'
      subst hp'
      exact ih hy
    | _ => simp_all
  | inert hd hp ht hc => cases hy <;> simp_all
  | computed hd hp ht hc _ ih =>
    cases hy with
    | computed hd' hp' ht' hc' hy =>
      rw [ht, Option.some.injEq] at ht'
      subst ht'
      rw [hc, Option.some.injEq] at hc'
      subst hc'
      exact NodeType.outcome_congr _ _ _ fun i hi => ih i hi (hy i hi)
    | _ => simp_all

/-- A graph has finitely many ports, so no chain of values that are made from one another goes back
for ever. -/
theorem Acyclic.wellFounded (a : g.Acyclic) (w : g.WellFormed) : WellFounded g.Flows := by
  let r (p q : {p // p ∈ g.ports}) : Prop := Relation.TransGen g.Flows p.1 q.1
  have : IsTrans _ r := ⟨fun _ _ _ hpq hqr => Relation.TransGen.trans hpq hqr⟩
  have : Std.Irrefl r := ⟨fun p => a p.1⟩
  have founded : WellFounded r := Finite.wellFounded_of_trans_of_irrefl r
  have live (p : Port) (hp : p ∈ g.ports) : Acc g.Flows p := by
    refine founded.induction (C := fun p => Acc g.Flows p.1) ⟨p, hp⟩ fun p ih => ⟨p.1, ?_⟩
    intro q hq
    exact ih ⟨q, (mem_ports_iff w.tree q).2 (hq.isSome_left w)⟩ (.single hq)
  refine ⟨fun p => ⟨p, fun q hq => live q ?_⟩⟩
  exact (mem_ports_iff w.tree q).2 (hq.isSome_left w)

theorem influences_of_mem {p : Port} {t : NodeType} (ht : g.type? p.node = some t) {i : Nat}
    (hi : i ∈ t.ports.inputsOf p.index) : g.Influences ⟨p.node, i⟩ p :=
  ⟨rfl, t, ht, (Layout.mem_inputsOf _ _ _).1 hi⟩

theorem exists_fromScratch (w : g.WellFormed) (a : g.Acyclic) (s : g.Standard) {p : Port}
    (live : (g.direction? p).isSome) : ∃ x, g.FromScratch p x := by
  induction p using (a.wellFounded w).induction with
  | _ p ih =>
    obtain ⟨d, hd⟩ := Option.isSome_iff_exists.1 live
    cases d with
    | input =>
      cases hs : g.source? p with
      | none => exact ⟨_, .given hd hs⟩
      | some q =>
        have flows := (flows_input_iff w hd).2 hs
        obtain ⟨x, hx⟩ := ih q flows (flows.isSome_left w)
        exact ⟨x, .wired hd hs hx⟩
    | output =>
      cases hp : g.peer? p with
      | some q =>
        have flows := (s.flows_iff w hd hp).2 rfl
        obtain ⟨x, hx⟩ := ih q flows (flows.isSome_left w)
        exact ⟨x, .linked hd hp hx⟩
      | none =>
        obtain ⟨t, ht⟩ := exists_type?_of_direction? hd
        cases hc : t.compute with
        | none => exact ⟨_, .inert hd hp ht hc⟩
        | some c =>
          have each (i : Nat) (hi : i ∈ t.ports.inputsOf p.index) :
              ∃ x, g.FromScratch ⟨p.node, i⟩ x := by
            have flows : g.Flows ⟨p.node, i⟩ p := .inl (influences_of_mem ht hi)
            exact ih _ flows (flows.isSome_left w)
          let inputs (i : Nat) : Option Payload :=
            if hi : i ∈ t.ports.inputsOf p.index then (each i hi).choose else none
          have values : ∀ i ∈ t.ports.inputsOf p.index, g.FromScratch ⟨p.node, i⟩ (inputs i) := by
            intro i hi
            simp only [inputs, hi, dif_pos]
            exact (each i hi).choose_spec
          exact ⟨_, .computed hd hp ht hc values⟩

end FromScratch

/-! ### Agreement -/

/-- An open output of a network that feeds nothing and has its default. Losing the last wire gives it
that, whatever its peer has. -/
structure Loose (g : Graph) (p : Port) : Prop where
  linked : (g.peer? p).isSome
  free : ∀ i, ¬ g.Feeds p i
  reset : ∃ a, g.attr? p = some a ∧ a.direction = .output ∧ a.type = none ∧
    g.value p = a.default.payload?

theorem Loose.of_attr {g h : Graph} {p q : Port} (a : g.Loose q) (linked : (h.peer? p).isSome)
    (feeds : ∀ i, h.Feeds p i → ∃ j, g.Feeds q j)
    (attr : (h.attr? p).map (fun b => (b.direction, b.type, b.default)) =
      (g.attr? q).map fun b => (b.direction, b.type, b.default))
    (value : h.value p = g.value q) : h.Loose p := by
  obtain ⟨b, hb, output, untyped, reset⟩ := a.reset
  rw [hb, Option.map_some] at attr
  obtain ⟨c, hc, eq⟩ := Option.map_eq_some_iff.1 attr
  simp only [Prod.mk.injEq] at eq
  obtain ⟨direction, type, default⟩ := eq
  refine ⟨linked, fun i hi => ?_, c, hc, direction.trans output, type.trans untyped, ?_⟩
  · obtain ⟨j, hj⟩ := feeds i hi
    exact a.free j hj
  · rw [value, reset, default]

theorem Loose.direction {g : Graph} {p : Port} (a : g.Loose p) : g.direction? p = some .output := by
  obtain ⟨b, hb, output, -⟩ := a.reset
  rw [direction?_eq, hb, Option.map_some, output]

/-- Nothing is made from a loose port. -/
theorem Loose.not_flows {g : Graph} (w : g.WellFormed) {p : Port} (a : g.Loose p) (q : Port) :
    ¬ g.Flows p q := by
  rintro (hq | hq | ⟨hd, -⟩)
  · have := hq.input w
    rw [a.direction] at this
    cases this
  · exact a.free q hq
  · rw [a.direction] at hd
    cases hd

/-- What a port carries is what the node makes of its inputs, if it computes. -/
def Computed (g : Graph) (p : Port) : Prop :=
  ∀ t c, g.direction? p = some .output → g.type? p.node = some t → t.compute = some c →
    g.value p = t.outcome c p fun i => g.value ⟨p.node, i⟩

/-- What a port carries agrees with what it is made from. -/
structure Agrees (g : Graph) (p : Port) : Prop where
  wired : ∀ o, g.Feeds o p → g.value p = g.value o
  linked : ∀ q, g.direction? p = some .output → g.peer? p = some q →
    g.Loose p ∨ g.value p = g.value q
  computed : g.Computed p

/-- Every port that is up to date agrees with what it is made from. -/
def Settled (g : Graph) : Prop := ∀ p, g.isStale p = false → g.Agrees p

/-- What is up to date carries its value from scratch, if all of it agrees or does so anyway. -/
theorem value_eq_of_each {g : Graph} (w : g.WellFormed) (d : g.Standard) (c : Closed true g)
    (each : ∀ p, g.isStale p = false → g.Agrees p ∨ ∀ x, g.FromScratch p x → g.value p = x)
    {p : Port} {x : Option Payload} (h : g.FromScratch p x) (hp : g.isStale p = false)
    (tight : ¬ g.Loose p) : g.value p = x := by
  have above {p q : Port} (hf : g.Flows p q) (hq : g.isStale q = false) :
      g.isStale p = false ∧ ¬ g.Loose p := by
    refine ⟨?_, fun loose => loose.not_flows w q hf⟩
    cases hs : g.isStale p with
    | false => rfl
    | true => rw [c.flow hf hs] at hq; cases hq
  induction h with
  | given hd hs => rfl
  | wired hd hs hx ih =>
    rcases each _ hp with agrees | done
    · rw [agrees.wired _ ((source?_eq_some_iff w.wired _ _).1 hs)]
      obtain ⟨hq, tight⟩ := above ((flows_input_iff w hd).2 hs) hp
      exact ih hq tight
    · exact done _ (.wired hd hs hx)
  | linked hd hq hx ih =>
    rcases each _ hp with agrees | done
    · rw [(agrees.linked _ hd hq).resolve_left tight]
      obtain ⟨hr, tight⟩ := above ((d.flows_iff w hd hq).2 rfl) hp
      exact ih hr tight
    · exact done _ (.linked hd hq hx)
  | inert hd hq ht hc => rfl
  | computed hd hq ht hc hx ih =>
    rcases each _ hp with agrees | done
    · rw [agrees.computed _ _ hd ht hc]
      refine NodeType.outcome_congr _ _ _ fun i hi => ?_
      obtain ⟨hr, tight⟩ := above (.inl (influences_of_mem ht hi)) hp
      exact ih i hi hr tight
    · exact done _ (.computed hd hq ht hc hx)

theorem Settled.value_eq {g : Graph} (s : g.Settled) (w : g.WellFormed) (d : g.Standard)
    (c : Closed true g) {p : Port} {x : Option Payload} (h : g.FromScratch p x)
    (hp : g.isStale p = false) (tight : ¬ g.Loose p) : g.value p = x :=
  value_eq_of_each w d c (fun q hq => .inl (s q hq)) h hp tight

end Dataflow.Graph
