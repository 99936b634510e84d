import Dataflow.Proofs.Lawful
import Mathlib.Logic.Relation
set_option autoImplicit false

/-!
How values flow in a lawful graph. One port flows into another through an influence, a wire or a
peer. Main statements: this is what the successors of a port are, the walk along them gets
everywhere, and what `spread` marks is marked with everything that it flows into.
-/

namespace Dataflow.Graph

/-- The input `p` influences the output `q` of the same node. -/
def Influences (g : Graph) (p q : Port) : Prop :=
  p.node = q.node ∧ ∃ t, g.type? p.node = some t ∧ (p.index, q.index) ∈ t.ports.influences

/-- The value of `q` is made from the value of `p`. -/
def Flows (g : Graph) (p q : Port) : Prop :=
  g.Influences p q ∨ g.Feeds p q ∨ g.direction? p = some .input ∧ g.peer? p = some q

/-- No port is made from itself. -/
def Acyclic (g : Graph) : Prop := ∀ p, ¬ Relation.TransGen g.Flows p p

namespace SameFrame
variable {g h : Graph}

theorem influences (a : SameFrame g h) : h.Influences = g.Influences := by
  funext p q
  simp only [Influences, a.type]

theorem flows (a : SameFrame g h) : h.Flows = g.Flows := by
  funext p q
  simp only [Flows, a.influences, a.feeds, a.direction, a.peer]

theorem acyclic (a : SameFrame g h) (w : g.Acyclic) : h.Acyclic := by
  rw [Acyclic, a.flows]
  exact w

end SameFrame

variable {g : Graph}

theorem Influences.input (w : g.WellFormed) {p q : Port} (h : g.Influences p q) :
    g.direction? p = some .input := by
  obtain ⟨-, t, ht, hm⟩ := h
  have hd := (w.sound p.node t ht).sources _ hm
  rw [direction?_eq, attr?_eq, ht]
  exact hd

theorem Influences.output (w : g.WellFormed) {p q : Port} (h : g.Influences p q) :
    g.direction? q = some .output := by
  obtain ⟨hn, t, ht, hm⟩ := h
  have hd := (w.sound p.node t ht).targets _ hm
  rw [direction?_eq, attr?_eq, ← hn, ht]
  exact hd

theorem peer_direction (w : g.WellFormed) {p q : Port} (h : g.peer? p = some q)
    (hp : g.direction? p = some .input) : g.direction? q = some .output := by
  have ne := peer_direction_ne w.linked h
  have hq := isSome_attr?_of_peer? g (w.linked.back p q h)
  rw [hp] at ne
  rw [direction?_eq] at ne ⊢
  obtain ⟨a, ha⟩ := Option.isSome_iff_exists.1 hq
  rw [ha] at ne ⊢
  cases hd : a.direction <;> simp_all

theorem Flows.isSome_left (w : g.WellFormed) {p q : Port} (h : g.Flows p q) :
    (g.direction? p).isSome := by
  rcases h with h | h | ⟨h, -⟩
  · simp [h.input w]
  · simp [h.output w.wired]
  · simp [h]

theorem Flows.isSome_right (w : g.WellFormed) {p q : Port} (h : g.Flows p q) :
    (g.direction? q).isSome := by
  rcases h with h | h | ⟨hp, h⟩
  · simp [h.output w]
  · simp [h.input w.wired]
  · simp [peer_direction w h hp]

/-- An input has its value from the wire to it. -/
theorem flows_input_iff (w : g.WellFormed) {p q : Port} (h : g.direction? q = some .input) :
    g.Flows p q ↔ g.source? q = some p := by
  rw [source?_eq_some_iff w.wired]
  constructor
  · rintro (hf | hf | ⟨hp, hf⟩)
    · simp [hf.output w] at h
    · exact hf
    · simp [peer_direction w hf hp] at h
  · exact fun hf => .inr (.inl hf)

/-- An output without a peer has its value from the inputs that influence it. -/
theorem flows_output_iff (w : g.WellFormed) {p q : Port} (h : g.direction? q = some .output)
    (free : g.peer? q = none) : g.Flows p q ↔ g.Influences p q := by
  constructor
  · rintro (hf | hf | ⟨-, hf⟩)
    · exact hf
    · simp [hf.input w.wired] at h
    · simp [w.linked.back _ _ hf] at free
  · exact .inl

theorem mem_successors_iff (w : g.WellFormed) (p q : Port) :
    q ∈ g.successors p ↔ g.Flows p q := by
  simp only [successors, Flows]
  cases hn : g.node? p.node with
  | none =>
    have hd : g.direction? p = none := by simp [direction?, slot?, hn]
    constructor
    · simp
    · rintro (h | h | ⟨h, -⟩)
      · simp [h.input w] at hd
      · simp [h.output w.wired] at hd
      · simp [h] at hd
  | some m =>
    have ht : g.type? p.node = some m.type := by simp [type?, hn]
    cases hs : m.ports.get? p.index with
    | none =>
      have hd : g.direction? p = none := by simp [direction?, slot?, hn, hs]
      simp only [hs]
      constructor
      · simp
      · rintro (h | h | ⟨h, -⟩)
        · simp [h.input w] at hd
        · simp [h.output w.wired] at hd
        · simp [h] at hd
    | some s =>
      have hd : g.direction? p = some s.attr.direction := by simp [direction?, slot?, hn, hs]
      have hp : g.peer? p = s.peer := by simp [peer?, slot?, hn, hs]
      cases hdir : s.attr.direction with
      | input =>
        simp only [hs, hdir]
        rw [hdir] at hd
        have no_wire : ¬ g.Feeds p q := by
          intro h
          simp [h.output w.wired] at hd
        simp only [List.mem_append, List.mem_map, Layout.mem_outputsOf, Option.mem_toList, hd, hp,
          Influences, ht, no_wire, true_and, false_or]
        refine or_congr ?_ Iff.rfl
        constructor
        · rintro ⟨o, ho, rfl⟩
          exact ⟨rfl, m.type, rfl, ho⟩
        · rintro ⟨hq, t, ht, ho⟩
          obtain rfl := Option.some.inj ht
          refine ⟨q.index, ho, ?_⟩
          rw [hq]
      | output =>
        simp only [hs, hdir]
        rw [hdir] at hd
        have no_influence : ¬ g.Influences p q := by
          intro h
          simp [h.input w] at hd
        rw [mem_sinks_iff w.wired]
        simp [hd, no_influence]

theorem mem_nodes_iff (w : g.Tree) (n : NodeId) (m : Node) :
    (n, m) ∈ g.nodes ↔ g.node? n = some m := by
  have nodup : (g.nodes.map Prod.fst).Nodup := w.keys
  simp only [node?]
  generalize g.nodes = t at nodup
  induction t with
  | nil => simp [Table.get?]
  | cons x t ih =>
    obtain ⟨k, v⟩ := x
    simp only [List.map_cons, List.nodup_cons, List.mem_map] at nodup
    have rest := ih nodup.2
    simp only [List.mem_cons, Table.get?, rest, Prod.mk.injEq]
    by_cases hk : k = n
    · subst hk
      have absent : Table.get? t k ≠ some m := by
        intro h
        exact nodup.1 ⟨_, rest.2 h, rfl⟩
      simp [absent, eq_comm]
    · simp [hk, Ne.symm hk]

theorem mem_portsWhere_iff (w : g.Tree) (keep : Slot → Bool) (p : Port) :
    p ∈ g.portsWhere keep ↔ ∃ s, g.slot? p = some s ∧ keep s = true := by
  simp only [portsWhere, List.mem_flatMap, Prod.exists, mem_nodes_iff w, portsOf, List.mem_filterMap,
    List.mem_zipIdx_iff_getElem?, slot?, Option.bind_eq_bind, Option.bind_eq_some_iff, Layout.get?]
  constructor
  · rintro ⟨n, m, hn, s, i, hs, hk⟩
    split at hk
    · next keeps =>
      cases hk
      exact ⟨s, ⟨m, hn, hs⟩, keeps⟩
    · cases hk
  · rintro ⟨s, ⟨m, hn, hs⟩, hk⟩
    exact ⟨p.node, m, hn, s, p.index, hs, by simp [hk]⟩

theorem mem_ports_iff (w : g.Tree) (p : Port) : p ∈ g.ports ↔ (g.direction? p).isSome := by
  rw [ports, mem_portsWhere_iff w, direction?]
  cases g.slot? p <;> simp

theorem mem_currentPorts_iff (w : g.Tree) (p : Port) :
    p ∈ g.currentPorts ↔ (g.direction? p).isSome ∧ g.isStale p = false := by
  rw [currentPorts, mem_portsWhere_iff w, direction?, isStale]
  cases g.slot? p <;> simp

theorem leadsTo_iff (w : g.WellFormed) (p q : Port) (hp : (g.direction? p).isSome) :
    g.leadsTo p q = true ↔ Along g.successors p q := by
  rw [leadsTo, List.contains_iff_mem]
  constructor
  · intro h
    obtain ⟨a, ha, hq⟩ := along_of_mem_walk _ _ _ _ h
    rw [List.mem_singleton.1 ha] at hq
    exact hq
  · intro h
    have start := mem_walk_of_mem g.successors g.ports [p] p (by simp) ((mem_ports_iff w.tree p).2 hp)
    refine mem_walk_of_along _ _ _ _ _ start h fun c _ d hd => ?_
    have flows := (mem_successors_iff w c d).1 hd
    exact (mem_ports_iff w.tree d).2 (flows.isSome_right w)

theorem along_iff (w : g.WellFormed) (p q : Port) :
    Along g.successors p q ↔ Relation.ReflTransGen g.Flows p q := by
  constructor
  · intro h
    induction h with
    | here => exact .refl
    | step hb _ ih => exact .head ((mem_successors_iff w _ _).1 hb) ih
  · intro h
    induction h using Relation.ReflTransGen.head_induction_on with
    | refl => exact .here _
    | head hb _ ih => exact .step ((mem_successors_iff w _ _).2 hb) ih

/-! ### Staying acyclic -/

section Acyclic
variable {h : Graph}

/-- A graph is acyclic if its flow can be followed in one that is. -/
theorem Acyclic.of_map (w : g.Acyclic) (f : Port → Port)
    (hf : ∀ p q, h.Flows p q → g.Flows (f p) (f q)) : h.Acyclic :=
  fun p hp => w (f p) (Relation.TransGen.lift f hf p p hp)

/-- New ports from which nothing flows close no cycle. -/
theorem Acyclic.of_sinks (w : g.Acyclic) (new : Port → Prop)
    (hf : ∀ p q, h.Flows p q → g.Flows p q ∨ new q) (hn : ∀ p q, h.Flows p q → ¬ new p) :
    h.Acyclic := by
  have old {p q r : Port} (hpq : Relation.TransGen h.Flows p q) (hqr : h.Flows q r) :
      Relation.TransGen g.Flows p q := by
    induction hpq generalizing r with
    | single hab => exact .single ((hf _ _ hab).resolve_right (hn _ _ hqr))
    | tail _ hbc ih => exact .tail (ih hbc) ((hf _ _ hbc).resolve_right (hn _ _ hqr))
  intro p hp
  obtain ⟨q, hpq, _⟩ := Relation.TransGen.head'_iff.1 hp
  exact w p (old hp hpq)

/-- New ports into which nothing flows close no cycle. -/
theorem Acyclic.of_sources (w : g.Acyclic) (new : Port → Prop)
    (hf : ∀ p q, h.Flows p q → g.Flows p q ∨ new p) (hn : ∀ p q, h.Flows p q → ¬ new q) :
    h.Acyclic := by
  have old {p q : Port} (hp : ¬ new p) (hpq : Relation.TransGen h.Flows p q) :
      Relation.TransGen g.Flows p q := by
    induction hpq using Relation.TransGen.head_induction_on with
    | single hab => exact .single ((hf _ _ hab).resolve_right hp)
    | head hab _ ih => exact .head ((hf _ _ hab).resolve_right hp) (ih (hn _ _ hab))
  intro p hp
  obtain ⟨q, _, hq⟩ := Relation.TransGen.tail'_iff.1 hp
  exact w p (old (hn _ _ hq) hp)

/-- One more step from `o` to `i` closes no cycle unless `i` leads to `o`. -/
theorem Acyclic.of_step (w : g.Acyclic) (o i : Port)
    (hf : ∀ p q, h.Flows p q → g.Flows p q ∨ p = o ∧ q = i)
    (hi : ¬ Relation.ReflTransGen g.Flows i o) : h.Acyclic := by
  have cross {p q : Port} (hpq : Relation.TransGen h.Flows p q) :
      Relation.TransGen g.Flows p q ∨
        Relation.ReflTransGen g.Flows p o ∧ Relation.ReflTransGen g.Flows i q := by
    induction hpq with
    | single hab =>
      rcases hf _ _ hab with hab | ⟨rfl, rfl⟩
      · exact .inl (.single hab)
      · exact .inr ⟨.refl, .refl⟩
    | tail _ hbc ih =>
      rcases hf _ _ hbc with hbc | ⟨rfl, rfl⟩
      · rcases ih with ih | ⟨hpo, hib⟩
        · exact .inl (.tail ih hbc)
        · exact .inr ⟨hpo, .tail hib hbc⟩
      · rcases ih with ih | ⟨hpo, -⟩
        · exact .inr ⟨ih.to_reflTransGen, .refl⟩
        · exact .inr ⟨hpo, .refl⟩
  intro p hp
  rcases cross hp with hp | ⟨hpo, hip⟩
  · exact w p hp
  · exact hi (hip.trans hpo)

end Acyclic

/-! ### Spreading -/

section Spread
variable (g)

theorem isStale_foldl_setStale (l : List Port) (q : Port) :
    (l.foldl setStale g).isStale q = (g.isStale q || decide (q ∈ l) && (g.slot? q).isSome) := by
  induction l generalizing g with
  | nil => simp
  | cons p l ih =>
    have same : ((g.setStale p).slot? q).isSome = (g.slot? q).isSome := by
      rw [isSome_slot?, isSome_slot?, (g.sameFrame_setStale p).attr]
    rw [List.foldl_cons, ih, same, isStale_setStale]
    by_cases hp : p = q
    · subst hp
      have here : g.isStale p = true → (g.slot? p).isSome = true := by
        intro h
        cases hs : g.slot? p <;> simp_all [isStale]
      cases hs : g.isStale p <;> cases hq : (g.slot? p).isSome <;> simp_all
    · simp [hp, Ne.symm hp]

theorem held_foldl_setStale (l : List Port) (q : Port) :
    (l.foldl setStale g).held q = g.held q := by
  induction l generalizing g with
  | nil => rfl
  | cons p l ih =>
    rw [List.foldl_cons, ih]
    simp only [held, setStale, slot?_emit, slot?_modifySlot]
    split
    · cases g.slot? q <;> rfl
    · rfl

theorem held_spread (starts : List Port) (q : Port) : (g.spread starts).held q = g.held q :=
  g.held_foldl_setStale _ q

theorem isStale_spread_of_isStale (starts : List Port) (q : Port) (h : g.isStale q = true) :
    (g.spread starts).isStale q = true := by
  rw [spread, isStale_foldl_setStale, h]
  rfl

variable {g}

theorem isStale_spread_iff (w : g.Tree) (starts : List Port) (q : Port) :
    (g.spread starts).isStale q = true ↔
      g.isStale q = true ∨ q ∈ walk g.successors g.currentPorts starts := by
  rw [spread, isStale_foldl_setStale]
  simp only [Bool.or_eq_true, Bool.and_eq_true, decide_eq_true_eq]
  refine or_congr_right ⟨fun h => h.1, fun h => ⟨h, ?_⟩⟩
  have free := mem_free_of_mem_walk _ _ _ _ h
  have live := ((mem_currentPorts_iff w q).1 free).1
  rw [direction?, Option.isSome_map] at live
  exact live

theorem isStale_spread_of_mem (w : g.Tree) (starts : List Port) (q : Port) (h : q ∈ starts)
    (hq : (g.direction? q).isSome) : (g.spread starts).isStale q = true := by
  rw [isStale_spread_iff w]
  cases hs : g.isStale q with
  | true => exact .inl rfl
  | false =>
    exact .inr (mem_walk_of_mem _ _ _ _ h ((mem_currentPorts_iff w q).2 ⟨hq, hs⟩))

/-- What is marked afresh is marked with everything that it flows into. -/
theorem isStale_spread_of_flows (w : g.WellFormed) (starts : List Port) (p q : Port)
    (hp : (g.spread starts).isStale p = true) (fresh : g.isStale p = false) (h : g.Flows p q) :
    (g.spread starts).isStale q = true := by
  rw [isStale_spread_iff w.tree] at hp ⊢
  have hw := hp.resolve_left (by simp [fresh])
  cases hs : g.isStale q with
  | true => exact .inl rfl
  | false =>
    have free := (mem_currentPorts_iff w.tree q).2 ⟨h.isSome_right w, hs⟩
    exact .inr (mem_walk_next _ _ _ _ _ hw ((mem_successors_iff w p q).2 h) free)

end Spread
end Dataflow.Graph
