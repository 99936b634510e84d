import Dataflow.Proofs.Flow
set_option autoImplicit false

/-!
The growth of a boundary by one port. Main statements: the new port stands behind all others and
faces its terminal, all other ports stay what they were, and a graph stays well formed and acyclic.
-/

namespace Dataflow

theorem NodeType.Sound.declare {t : NodeType} (s : t.Sound) (a : Attribute)
    (ha : a.name ∉ t.ports.entries.map Attribute.name) : (t.declare a).Sound := by
  have old {i : Nat} {d : Direction} (h : (t.ports.get? i).map Attribute.direction = some d) :
      ((t.declare a).ports.get? i).map Attribute.direction = some d := by
    obtain ⟨b, hb, -⟩ := Option.map_eq_some_iff.1 h
    have hi : i < t.ports.length := (List.getElem?_eq_some_iff.1 hb).1
    rw [NodeType.declare, Layout.get?_declare _ _ _ hi]
    exact h
  constructor
  case sources => exact fun p hp => old (s.sources p hp)
  case targets => exact fun p hp => old (s.targets p hp)
  case names =>
    simp only [NodeType.declare, Layout.declare, List.map_append, List.map_cons, List.map_nil]
    refine List.nodup_append.2 ⟨s.names, by simp, ?_⟩
    intro x hx y hy hxy
    obtain rfl := List.mem_singleton.1 hy
    exact ha (hxy ▸ hx)

namespace Graph

/-- `b` has joined the ports of the network `b.node` as the peer of the terminal `t`, and nothing
else has changed. -/
structure Growth (side : Direction) (t b : Port) (a : Attribute) (g h : Graph) : Prop where
  tree : SameTree g h
  contents : h.contents? = g.contents?
  name : g.name? t.node = some a.name
  direction : a.direction = side
  typed : a.type = a.default.portType
  serial : a.serializable = true
  type : ∀ n, h.type? n = if n = b.node then (g.type? n).map (·.declare a) else g.type? n
  index : ∃ u, g.type? b.node = some u ∧ b.index = u.ports.length
  slot : ∀ p, h.slot? p =
    if p = b then some { newSlot a a.default with peer := some t }
    else if p = t then (g.slot? t).map fun s => { s with peer := some b }
    else g.slot? p

theorem growth_grow (g : Graph) (side : Direction) (t other : Port) (n : NodeId)
    (hn : g.around? t.node = some n) (hlive : (g.type? n).isSome) (hne : t.node ≠ n) :
    ∃ a i, Growth side t ⟨n, i⟩ a g (g.grow side t other) ∧
      a.default.payload? = (g.firstValue t other).payload? := by
  simp only [around?, Option.bind_eq_some_iff] at hn
  obtain ⟨tn, htn, hparent⟩ := hn
  simp only [type?, Option.isSome_map] at hlive
  obtain ⟨m, hm⟩ := Option.isSome_iff_exists.1 hlive
  let v := (g.stamp (g.firstValue t other)).1
  let g₁ := (g.stamp (g.firstValue t other)).2
  let a : Attribute := .ofValue tn.name side v
  let s : Slot := { newSlot a v with peer := some t }
  let f (m : Node) : Node := { m with ports := m.ports.declare s }
  let g₂ := (g₁.modifyNode n f).emit (.metadataChanged n)
  let b : Port := ⟨n, m.ports.length⟩
  have eq : g.grow side t other = g₂.setPeer t (some b) := by
    simp only [grow, htn, hparent, hm]
    rfl
  have node₂ (k : NodeId) : g₂.node? k = if n = k then (g.node? k).map f else g.node? k :=
    node?_modifyNode g₁ n k f
  have tree₁ : SameTree g g₁ := .of_sameFrame (sameFrame_of_nodes rfl rfl rfl)
  have tree₂ : SameTree g g₂ :=
    (tree₁.trans (sameTree_modifyNode g₁ n f (fun _ => rfl) (fun _ => rfl) (fun _ => rfl)
      (fun _ => rfl) fun _ => rfl)).trans (.of_sameFrame (sameFrame_emit _ _))
  have contents₂ : g₂.contents? = g.contents? := contents?_modifyNode g₁ n f fun _ => rfl
  have slot₂ (p : Port) : g₂.slot? p = if p = b then some s else g.slot? p := by
    simp only [slot?, node₂, Option.bind_eq_bind]
    obtain ⟨k, i⟩ := p
    by_cases hk : n = k
    · subst hk
      simp only [if_true, hm, Option.map_some, Option.bind_some, f, b, Port.mk.injEq, true_and,
        Layout.get?, Layout.declare, Layout.length]
      grind
    · have hkb : (⟨k, i⟩ : Port) ≠ b := by
        intro h
        exact hk (congrArg Port.node h).symm
      simp [hk, hkb]
  refine ⟨a, m.ports.length, ?_, Value.payload_stamp _ _⟩
  rw [eq]
  constructor
  case tree => exact tree₂.trans (sameTree_setPeer g₂ t _)
  case contents => rw [contents?_setPeer, contents₂]
  case name => simp [name?, htn, a, Attribute.ofValue]
  case direction | typed | serial => rfl
  case type =>
    intro k
    rw [type?_setPeer]
    simp only [type?, node₂]
    by_cases hk : n = k
    · subst hk
      simp [hm, f, Node.type, NodeType.declare, Layout.map, Layout.declare, s, newSlot]
    · simp [hk, Ne.symm hk]
  case index => exact ⟨m.type, by simp [type?, hm], by simp [Node.type, Layout.length, Layout.map]⟩
  case slot =>
    intro p
    rw [slot?_setPeer, slot₂]
    have htb : t ≠ b := by
      intro h
      exact hne (congrArg Port.node h)
    have same : g₂.slot? t = g.slot? t := by rw [slot₂, if_neg htb]
    change _ = if p = b then _ else if p = t then _ else _
    by_cases hpb : p = b
    · rw [if_pos hpb, if_neg (fun h => htb (h.trans hpb)), if_pos hpb]
      rfl
    · rw [if_neg hpb, if_neg hpb]
      by_cases hpt : p = t
      · rw [if_pos hpt.symm, if_pos hpt, hpt]
      · rw [if_neg (Ne.symm hpt), if_neg hpt]

/-! ### What has grown -/

namespace Growth
variable {g h : Graph} {side : Direction} {t b : Port} {a : Attribute}

theorem fresh (c : Growth side t b a g h) : g.slot? b = none := by
  obtain ⟨u, hu, hi⟩ := c.index
  have ha : g.attr? b = none := by
    rw [attr?_eq, hu, hi]
    exact List.getElem?_eq_none (Nat.le_refl _)
  simpa [attr?] using ha

theorem attr (c : Growth side t b a g h) (p : Port) :
    h.attr? p = if p = b then some a else g.attr? p := by
  simp only [attr?, c.slot]
  by_cases hb : p = b
  · simp [hb, newSlot]
  · by_cases ht : p = t
    · subst ht
      cases g.slot? p <;> simp [hb]
    · simp [hb, ht]

theorem direction?_eq (c : Growth side t b a g h) (p : Port) :
    h.direction? p = if p = b then some side else g.direction? p := by
  rw [Graph.direction?_eq, c.attr, Graph.direction?_eq]
  split
  · rw [Option.map_some, c.direction]
  · rfl

theorem isStale (c : Growth side t b a g h) (p : Port) :
    h.isStale p = if p = b then side == .output else g.isStale p := by
  simp only [Graph.isStale, c.slot]
  by_cases hb : p = b
  · simp [hb, newSlot, c.direction]
  · by_cases ht : p = t
    · subst ht
      cases g.slot? p <;> simp [hb]
    · simp [hb, ht]

theorem held (c : Growth side t b a g h) (p : Port) :
    h.held p = if p = b then a.default else g.held p := by
  simp only [Graph.held, c.slot]
  by_cases hb : p = b
  · simp [hb, newSlot]
  · by_cases ht : p = t
    · subst ht
      cases g.slot? p <;> simp [hb]
    · simp [hb, ht]

theorem wires (c : Growth side t b a g h) : h.wires = g.wires := by
  funext n
  simp only [Graph.wires, c.contents]

theorem feeds (c : Growth side t b a g h) : h.Feeds = g.Feeds := by
  funext o i
  simp only [Feeds, c.wires]

theorem connected (c : Growth side t b a g h) : h.Connected = g.Connected := by
  funext p
  simp only [Connected, c.feeds]

theorem influences (c : Growth side t b a g h) : h.Influences = g.Influences := by
  funext p q
  simp only [Influences, c.type]
  split
  · cases g.type? p.node <;> simp [NodeType.declare, Layout.declare]
  · rfl

/-- What holds where a port may come to face `t`. -/
structure Ready (side : Direction) (t b : Port) (a : Attribute) (g : Graph) : Prop where
  terminal : g.terminal? t = some side
  around : g.around? t.node = some b.node
  free : g.peer? t = none
  name : ∀ u, g.type? b.node = some u → a.name ∉ u.ports.entries.map Attribute.name

theorem Ready.isSome_contents? (r : Ready side t b a g) (w : g.WellFormed) :
    (g.contents? b.node).isSome :=
  isSome_contents?_of_around? w.tree r.around

variable (c : Growth side t b a g h) (r : Ready side t b a g)
include c r

theorem ne : t ≠ b := by
  rintro rfl
  have hd := (terminal?_direction r.terminal).2
  simp [Graph.direction?, c.fresh] at hd

theorem peer (p : Port) :
    h.peer? p = if p = b then some t else if p = t then some b else g.peer? p := by
  simp only [peer?, c.slot]
  by_cases hb : p = b
  · simp [hb]
  · by_cases ht : p = t
    · subst ht
      have hd := (terminal?_direction r.terminal).2
      simp only [Graph.direction?, Option.isSome_map] at hd
      obtain ⟨s, hs⟩ := Option.isSome_iff_exists.1 hd
      simp [hb, hs]
    · simp [hb, ht]

/-- The new port and its terminal are the only new neighbours. -/
theorem peer_eq_some_iff (p q : Port) :
    h.peer? p = some q ↔ g.peer? p = some q ∨ p = b ∧ q = t ∨ p = t ∧ q = b := by
  have hb : g.peer? b = none := by simp [peer?, c.fresh]
  have hne := c.ne r
  rw [c.peer r]
  by_cases hpb : p = b
  · subst hpb
    simp [hb, Ne.symm hne, eq_comm]
  · by_cases hpt : p = t
    · subst hpt
      simp [r.free, hpb, eq_comm]
    · simp [hpb, hpt]

theorem fitted_terminal (hc : g.Connected t) : h.Fitted t := by
  intro _
  rw [c.connected, c.peer r, if_neg (c.ne r), if_pos rfl]
  simp [hc]

theorem flows_iff (p q : Port) :
    h.Flows p q ↔ g.Flows p q ∨
      side = .input ∧ p = b ∧ q = t ∨ side = .output ∧ p = t ∧ q = b := by
  have hb : g.peer? b = none := by simp [peer?, c.fresh]
  have htd := terminal?_direction r.terminal
  simp only [Flows, c.influences, c.feeds, c.direction?_eq, c.peer_eq_some_iff r]
  have new : ((if p = b then some side else g.direction? p) = some .input ∧
      (g.peer? p = some q ∨ p = b ∧ q = t ∨ p = t ∧ q = b)) ↔
      (g.direction? p = some .input ∧ g.peer? p = some q) ∨
      side = .input ∧ p = b ∧ q = t ∨ side = .output ∧ p = t ∧ q = b := by
    have hne := c.ne r
    by_cases hpb : p = b
    · subst hpb
      simp [hb, Ne.symm hne]
    · by_cases hpt : p = t
      · subst hpt
        obtain ⟨d, hd⟩ := Option.isSome_iff_exists.1 htd.2
        cases side <;> cases d <;> simp_all [r.free]
      · simp [hpb, hpt]
  rw [new]
  simp only [or_assoc]

variable (w : g.WellFormed)
include w

theorem terminal? : h.terminal? = g.terminal? := by
  funext p
  by_cases hp : p.node = b.node
  · have hc : (g.contents? p.node).isSome := by
      rw [hp]
      exact r.isSome_contents? w
    rw [terminal?_of_contents? w.tree hc, terminal?_of_contents? (c.tree.tree w.tree)]
    rw [c.contents]
    exact hc
  · have hpb : p ≠ b := by
      rintro rfl
      exact hp rfl
    simp only [terminal?_eq, c.type, hp, if_false, c.direction?_eq, hpb]

theorem faces_new : h.Faces t b := by
  refine ⟨side, ?_, ?_, ?_⟩
  · rw [c.terminal? r w]
    exact r.terminal
  · rw [c.direction?_eq, if_pos rfl]
  · rw [c.tree.around]
    exact r.around

theorem faces_of_faces {p q : Port} (hf : g.Faces p q) : h.Faces p q := by
  obtain ⟨s, hs, hd, ha⟩ := hf
  refine ⟨s, ?_, ?_, ?_⟩
  · rw [c.terminal? r w]
    exact hs
  · have hq : q ≠ b := by
      rintro rfl
      simp [Graph.direction?, c.fresh] at hd
    rw [c.direction?_eq, if_neg hq]
    exact hd
  · rw [c.tree.around]
    exact ha

theorem wellFormed : h.WellFormed := by
  have old {p : Port} {d : Direction} (hp : g.direction? p = some d) : h.direction? p = some d := by
    have hpb : p ≠ b := by
      rintro rfl
      simp [Graph.direction?, c.fresh] at hp
    rw [c.direction?_eq, if_neg hpb]
    exact hp
  refine ⟨c.tree.tree w.tree, ?wired, ?linked, ?sound⟩
  case wired =>
    constructor
    · rw [c.wires]
      exact fun n e he => old (w.wired.output n e he)
    · rw [c.wires]
      exact fun n e he => old (w.wired.input n e he)
    · rw [c.wires, c.tree.around]
      exact w.wired.outputAround
    · rw [c.wires, c.tree.around]
      exact w.wired.inputAround
    · rw [c.wires]
      exact w.wired.single
  case linked =>
    constructor
    · intro p q hpq
      rw [c.peer_eq_some_iff r] at hpq ⊢
      rcases hpq with hpq | ⟨rfl, rfl⟩ | ⟨rfl, rfl⟩
      · exact .inl (w.linked.back p q hpq)
      · exact .inr (.inr ⟨rfl, rfl⟩)
      · exact .inr (.inl ⟨rfl, rfl⟩)
    · intro p q hpq
      rcases (c.peer_eq_some_iff r p q).1 hpq with hpq | ⟨rfl, rfl⟩ | ⟨rfl, rfl⟩
      · exact (w.linked.faces p q hpq).imp (c.faces_of_faces r w) (c.faces_of_faces r w)
      · exact .inr (c.faces_new r w)
      · exact .inl (c.faces_new r w)
  case sound =>
    intro n u hu
    rw [c.type] at hu
    split at hu
    · next hn =>
      obtain ⟨v, hv, rfl⟩ := Option.map_eq_some_iff.1 hu
      rw [hn] at hv
      exact (w.sound _ v hv).declare a (r.name v hv)
    · exact w.sound n u hu

/-- Only the terminal has to be looked at anew. -/
theorem fitted {q : Port} (hq : q ≠ t) (hf : g.Fitted q) : h.Fitted q := by
  intro ht
  rw [c.terminal? r w] at ht
  have hqb : q ≠ b := by
    rintro rfl
    have := contents?_of_terminal? w.tree ht
    have hc := r.isSome_contents? w
    simp [this] at hc
  rw [c.connected, c.peer r, if_neg hqb, if_neg hq]
  exact hf ht

theorem acyclic (ha : g.Acyclic) : h.Acyclic := by
  have hb {q : Port} : ¬ g.Flows b q := by
    intro hf
    have := hf.isSome_left w
    simp [Graph.direction?, c.fresh] at this
  have hb' {q : Port} : ¬ g.Flows q b := by
    intro hf
    have := hf.isSome_right w
    simp [Graph.direction?, c.fresh] at this
  have hne := c.ne r
  cases hs : side with
  | input =>
    refine ha.of_sources (· = b) (fun p q hf => ?_) fun p q hf => ?_
    · rcases (c.flows_iff r p q).1 hf with hf | ⟨-, rfl, -⟩ | ⟨h, -⟩
      · exact .inl hf
      · exact .inr rfl
      · simp [hs] at h
    · rintro rfl
      rcases (c.flows_iff r p q).1 hf with hf | ⟨-, -, rfl⟩ | ⟨h, -⟩
      · exact hb' hf
      · exact hne rfl
      · simp [hs] at h
  | output =>
    refine ha.of_sinks (· = b) (fun p q hf => ?_) fun p q hf => ?_
    · rcases (c.flows_iff r p q).1 hf with hf | ⟨h, -⟩ | ⟨-, -, rfl⟩
      · exact .inl hf
      · simp [hs] at h
      · exact .inr rfl
    · rintro rfl
      rcases (c.flows_iff r p q).1 hf with hf | ⟨h, -⟩ | ⟨-, rfl, -⟩
      · exact hb hf
      · simp [hs] at h
      · exact hne rfl

end Growth
end Graph
end Dataflow
