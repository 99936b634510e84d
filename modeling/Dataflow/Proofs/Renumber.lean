import Dataflow.Proofs.Rewire
set_option autoImplicit false

/-!
New places for the ports of one node. The peers of these ports and the wires around the node go
along. Main statements: renumbering leaves a graph well formed and acyclic, and terminals fitted.
-/

namespace Dataflow

/-- A type whose attributes have new places is as sound as the old one. -/
theorem NodeType.Sound.rearrange {t u : NodeType} (s : t.Sound) (old : Nat → Nat)
    (get : ∀ i, u.ports.get? i = t.ports.get? (old i))
    (influences : ∀ p ∈ u.ports.influences, (old p.1, old p.2) ∈ t.ports.influences)
    (inj : ∀ i j, (u.ports.get? i).isSome → old i = old j → i = j) : u.Sound := by
  constructor
  case sources =>
    intro p hp
    rw [get]
    exact s.sources _ (influences p hp)
  case targets =>
    intro p hp
    rw [get]
    exact s.targets _ (influences p hp)
  case names =>
    have name (i : Nat) : (u.ports.entries.map Attribute.name)[i]? =
        (t.ports.entries.map Attribute.name)[old i]? := by
      simp only [List.getElem?_map]
      exact congrArg (Option.map Attribute.name) (get i)
    rw [List.Nodup, List.pairwise_iff_getElem]
    intro i j hi hj hij heq
    have hsome : (u.ports.entries.map Attribute.name)[i]? = (u.ports.entries.map Attribute.name)[j]? := by
      rw [List.getElem?_eq_getElem hi, List.getElem?_eq_getElem hj, heq]
    have there : (u.ports.get? i).isSome := by
      simp only [List.length_map] at hi
      simp [Layout.get?, hi]
    have low : old i < (t.ports.entries.map Attribute.name).length := by
      rw [get, Layout.get?] at there
      simpa using there
    rw [name, name] at hsome
    have := inj i j there ((List.getElem?_inj low s.names).1 hsome)
    omega

namespace Graph

/-- The port of `n` in each place `i` stood in the place `old i` before, and what named a port by
its old place names it by its `new` one. -/
structure Renumbered (n : NodeId) (old new : Nat → Nat) (g h : Graph) : Prop where
  tree : SameTree g h
  slot : ∀ p, h.slot? p = (g.slot? (p.moved n old)).map fun s =>
    { s with peer := s.peer.map (Port.moved n new) }
  wires : ∀ k, h.wires k = (g.wires k).map (Edge.mapPorts (Port.moved n new))
  influences : ∀ p q, h.Influences p q → g.Influences (p.moved n old) (q.moved n old)
  live : ∀ p, (h.slot? p).isSome → (p.moved n old).moved n new = p
  kept : ∀ p, (g.peer? p).isSome ∨ g.Connected p → (p.moved n new).moved n old = p
  type : ∀ k, k ≠ n → h.type? k = g.type? k
  sound : ∀ k t, h.type? k = some t → t.Sound

theorem node_moved (p : Port) (n : NodeId) (f : Nat → Nat) : (p.moved n f).node = p.node := by
  simp only [Port.moved]
  split
  · next h => exact h.symm
  · rfl

theorem moved_of_ne {p : Port} {n : NodeId} (f : Nat → Nat) (h : p.node ≠ n) :
    p.moved n f = p := by simp [Port.moved, h]

theorem terminal?_congr {g h : Graph} {p q : Port}
    (ht : (h.type? p.node).map NodeType.name = (g.type? q.node).map NodeType.name)
    (hd : h.direction? p = g.direction? q) : h.terminal? p = g.terminal? q := by
  rw [terminal?_eq, terminal?_eq, hd]
  cases hp : h.type? p.node <;> cases hq : g.type? q.node <;> simp_all

namespace Renumbered
variable {n : NodeId} {old new : Nat → Nat} {g h : Graph} (a : Renumbered n old new g h)
include a

theorem attr (p : Port) : h.attr? p = g.attr? (p.moved n old) := by
  simp only [attr?, a.slot, Option.map_map]
  rfl

theorem direction (p : Port) : h.direction? p = g.direction? (p.moved n old) := by
  rw [direction?_eq, a.attr, ← direction?_eq]

theorem isStale (p : Port) : h.isStale p = g.isStale (p.moved n old) := by
  simp only [Graph.isStale, a.slot]
  cases g.slot? (p.moved n old) <;> rfl

theorem held (p : Port) : h.held p = g.held (p.moved n old) := by
  simp only [Graph.held, a.slot]
  cases g.slot? (p.moved n old) <;> rfl

theorem peer (p : Port) : h.peer? p = (g.peer? (p.moved n old)).map (Port.moved n new) := by
  simp only [peer?, a.slot]
  cases g.slot? (p.moved n old) <;> rfl

theorem terminal (p : Port) : h.terminal? p = g.terminal? (p.moved n old) := by
  refine terminal?_congr ?_ (a.direction p)
  rw [node_moved]
  exact a.tree.typeName p.node

theorem feeds_iff (o i : Port) :
    h.Feeds o i ↔ ∃ o' i', g.Feeds o' i' ∧ o = o'.moved n new ∧ i = i'.moved n new := by
  simp only [Feeds, a.wires, List.mem_map, Edge.mapPorts, Edge.mk.injEq]
  constructor
  · rintro ⟨k, e, he, rfl, rfl⟩
    exact ⟨e.output, e.input, ⟨k, he⟩, rfl, rfl⟩
  · rintro ⟨o', i', ⟨k, hk⟩, rfl, rfl⟩
    exact ⟨k, ⟨o', i'⟩, hk, rfl, rfl⟩

theorem kept_output {o i : Port} (hf : g.Feeds o i) : (o.moved n new).moved n old = o :=
  a.kept o (.inr ⟨i, .inl hf⟩)

theorem kept_input {o i : Port} (hf : g.Feeds o i) : (i.moved n new).moved n old = i :=
  a.kept i (.inr ⟨o, .inr hf⟩)

theorem feeds_old {o i : Port} (hf : h.Feeds o i) : g.Feeds (o.moved n old) (i.moved n old) := by
  obtain ⟨o', i', hg, rfl, rfl⟩ := (a.feeds_iff o i).1 hf
  rw [a.kept_output hg, a.kept_input hg]
  exact hg

theorem peer_old (w : g.Linked) {p q : Port} (hp : h.peer? p = some q) :
    g.peer? (p.moved n old) = some (q.moved n old) := by
  rw [a.peer] at hp
  obtain ⟨q', hq, rfl⟩ := Option.map_eq_some_iff.1 hp
  have hk : (g.peer? q').isSome := by simp [w.back _ _ hq]
  rw [a.kept q' (.inl hk)]
  exact hq

theorem flows_old (w : g.Linked) {p q : Port} (hf : h.Flows p q) :
    g.Flows (p.moved n old) (q.moved n old) := by
  rcases hf with hf | hf | ⟨hd, hf⟩
  · exact .inl (a.influences p q hf)
  · exact .inr (.inl (a.feeds_old hf))
  · rw [a.direction] at hd
    exact .inr (.inr ⟨hd, a.peer_old w hf⟩)

theorem acyclic (w : g.Linked) (ha : g.Acyclic) : h.Acyclic :=
  ha.of_map (Port.moved n old) fun _ _ hf => a.flows_old w hf

theorem connected_iff (p : Port) (hp : (h.slot? p).isSome) :
    h.Connected p ↔ g.Connected (p.moved n old) := by
  constructor
  · rintro ⟨q, hf | hf⟩
    · exact ⟨q.moved n old, .inl (a.feeds_old hf)⟩
    · exact ⟨q.moved n old, .inr (a.feeds_old hf)⟩
  · have back := a.live p hp
    rintro ⟨q, hf | hf⟩
    · exact ⟨q.moved n new, .inl ((a.feeds_iff _ _).2 ⟨_, _, hf, back.symm, rfl⟩)⟩
    · exact ⟨q.moved n new, .inr ((a.feeds_iff _ _).2 ⟨_, _, hf, rfl, back.symm⟩)⟩

theorem fitted (p : Port) (hf : g.Fitted (p.moved n old)) : h.Fitted p := by
  intro ht
  have hp : (h.slot? p).isSome := by
    obtain ⟨s, hs⟩ := Option.isSome_iff_exists.1 ht
    have := (terminal?_direction hs).2
    simpa [direction?] using this
  rw [a.terminal] at ht
  rw [a.connected_iff p hp, a.peer, Option.isSome_map]
  exact hf ht

theorem faces (p q : Port) : h.Faces p q ↔ g.Faces (p.moved n old) (q.moved n old) := by
  simp only [Faces, a.terminal, a.direction, a.tree.around, node_moved]

theorem wellFormed (w : g.WellFormed) : h.WellFormed := by
  refine ⟨a.tree.tree w.tree, ?wired, ?linked, a.sound⟩
  case wired =>
    constructor
    case output =>
      intro k e he
      have hf := w.wired.output
      rw [a.wires] at he
      obtain ⟨d, hd, rfl⟩ := List.mem_map.1 he
      rw [a.direction]
      simp only [Edge.mapPorts]
      rw [a.kept_output ⟨k, hd⟩]
      exact w.wired.output k d hd
    case input =>
      intro k e he
      rw [a.wires] at he
      obtain ⟨d, hd, rfl⟩ := List.mem_map.1 he
      rw [a.direction]
      simp only [Edge.mapPorts]
      rw [a.kept_input ⟨k, hd⟩]
      exact w.wired.input k d hd
    case outputAround =>
      intro k e he
      rw [a.wires] at he
      obtain ⟨d, hd, rfl⟩ := List.mem_map.1 he
      simp only [Edge.mapPorts, node_moved, a.tree.around]
      exact w.wired.outputAround k d hd
    case inputAround =>
      intro k e he
      rw [a.wires] at he
      obtain ⟨d, hd, rfl⟩ := List.mem_map.1 he
      simp only [Edge.mapPorts, node_moved, a.tree.around]
      exact w.wired.inputAround k d hd
    case single =>
      intro k
      have single := w.wired.single k
      rw [a.wires, List.map_map]
      rw [List.Nodup, List.pairwise_map] at single ⊢
      refine single.imp_of_mem fun {d e} hd he hne heq => hne ?_
      simp only [Function.comp_apply, Edge.mapPorts] at heq
      rw [← a.kept_input ⟨k, hd⟩, heq, a.kept_input ⟨k, he⟩]
  case linked =>
    constructor
    case back =>
      intro p q hp
      have hq := w.linked.back _ _ (a.peer_old w.linked hp)
      have live : (h.slot? p).isSome := by
        rw [isSome_slot?]
        exact isSome_attr?_of_peer? h hp
      rw [a.peer, hq, Option.map_some, a.live p live]
    case faces =>
      intro p q hp
      rw [a.faces, a.faces]
      exact w.linked.faces _ _ (a.peer_old w.linked hp)

end Renumbered

/-! ### Telling the peers -/

/-- Tells the peer of one port of `n` where that port is. -/
def address (n : NodeId) (g : Graph) (s : Slot × Nat) : Graph :=
  match s.1.peer with
  | some q => g.setPeer q (some ⟨n, s.2⟩)
  | none => g

section Address
variable (n : NodeId) (l : List (Slot × Nat)) (g : Graph)

theorem readdress_eq (start : Nat) : g.readdress n start =
    (g.node? n).elim g fun m => (m.ports.entries.zipIdx.drop start).foldl (address n) g := by
  rw [readdress]
  cases g.node? n <;> rfl

theorem sameTree_foldl_address : SameTree g (l.foldl (address n) g) := by
  induction l generalizing g with
  | nil => exact .refl g
  | cons s l ih =>
    refine SameTree.trans ?_ (ih _)
    rw [address]
    split
    · exact sameTree_setPeer _ _ _
    · exact .refl g

theorem contents?_foldl_address : (l.foldl (address n) g).contents? = g.contents? := by
  induction l generalizing g with
  | nil => rfl
  | cons s l ih =>
    rw [List.foldl_cons, ih, address]
    split
    · exact contents?_setPeer _ _ _
    · rfl

theorem type?_foldl_address : (l.foldl (address n) g).type? = g.type? := by
  induction l generalizing g with
  | nil => rfl
  | cons s l ih =>
    rw [List.foldl_cons, ih, address]
    split
    · exact type?_setPeer _ _ _
    · rfl

theorem slot?_foldl_address_of_ne (p : Port) (h : ∀ s ∈ l, s.1.peer ≠ some p) :
    (l.foldl (address n) g).slot? p = g.slot? p := by
  induction l generalizing g with
  | nil => rfl
  | cons s l ih =>
    rw [List.foldl_cons, ih _ fun r hr => h r (List.mem_cons_of_mem _ hr), address]
    split
    · next q hq =>
      have hne : q ≠ p := by
        rintro rfl
        exact h s (by simp) hq
      rw [slot?_setPeer, if_neg hne]
    · rfl

/-- A peer that only one port has is told the place of that port. -/
theorem slot?_foldl_address (p : Port) (i : Nat) (h : ∀ s ∈ l, s.1.peer = some p → s.2 = i)
    (hs : ∃ s ∈ l, s.1.peer = some p) :
    (l.foldl (address n) g).slot? p = (g.slot? p).map fun s => { s with peer := some ⟨n, i⟩ } := by
  induction l generalizing g with
  | nil => simp at hs
  | cons s l ih =>
    rw [List.foldl_cons]
    have rest (r : Slot × Nat) (hr : r ∈ l) := h r (List.mem_cons_of_mem _ hr)
    by_cases hl : ∃ r ∈ l, r.1.peer = some p
    · rw [ih _ rest hl, address]
      split
      · rw [slot?_setPeer]
        split
        · cases g.slot? p <;> rfl
        · rfl
      · rfl
    · have none_left : ∀ r ∈ l, r.1.peer ≠ some p := fun r hr hp => hl ⟨r, hr, hp⟩
      rw [slot?_foldl_address_of_ne n l _ p none_left]
      have hsp : s.1.peer = some p := by
        obtain ⟨r, hr, hp⟩ := hs
        rcases List.mem_cons.1 hr with rfl | hr
        · exact hp
        · exact absurd hp (none_left r hr)
      rw [address]
      simp only [hsp]
      rw [slot?_setPeer, if_pos rfl, h s (by simp) hsp]

theorem wiresAround_readdress (start : Nat) (k : NodeId) :
    (g.readdress n start).wiresAround k = g.wiresAround k := by
  rw [readdress_eq]
  cases g.node? n with
  | none => rfl
  | some m =>
    rw [Option.elim_some, wiresAround_eq, wiresAround_eq, (sameTree_foldl_address n _ g).around]
    cases g.around? k with
    | none => rfl
    | some p => simp only [Option.elim_some, wires, contents?_foldl_address]

theorem mem_drop_zipIdx {α : Type} (l : List α) (start : Nat) (x : α × Nat) :
    x ∈ l.zipIdx.drop start ↔ start ≤ x.2 ∧ l[x.2]? = some x.1 := by
  simp only [List.mem_iff_getElem?, List.getElem?_drop, List.getElem?_zipIdx,
    Option.map_eq_some_iff]
  constructor
  · rintro ⟨i, a, ha, rfl⟩
    exact ⟨by simp, by simpa using ha⟩
  · rintro ⟨hle, hx⟩
    refine ⟨x.2 - start, x.1, ?_, ?_⟩
    · rw [Nat.add_sub_cancel' hle]
      exact hx
    · simp [Nat.add_sub_cancel' hle]

end Address

/-! ### Renumbering -/

/-- Gives the ports of `n` new places, from place `start` on, and takes peers and wires along. -/
def renumber (g : Graph) (n : NodeId) (f : Layout Slot → Layout Slot) (start : Nat)
    (new : Nat → Nat) : Graph :=
  ((g.modifyNode n fun m => { m with ports := f m.ports }).readdress n start).modifyWiresAround n
    fun w => w.map (Edge.mapPorts (Port.moved n new))

section Renumber
variable {g : Graph} {n : NodeId} {m : Node} {f : Layout Slot → Layout Slot} {start : Nat}
  {old new : Nat → Nat}

/-- Peers are ports of different nodes. -/
theorem peer_node_ne (w : g.WellFormed) {p q : Port} (h : g.peer? p = some q) :
    p.node ≠ q.node := by
  intro same
  rcases w.linked.faces p q h with hf | hf
  · have inside := hf.isSome_contents? w.tree
    have outside := contents?_of_terminal? w.tree hf.isSome_terminal?
    rw [same] at outside
    simp [outside] at inside
  · have inside := hf.isSome_contents? w.tree
    have outside := contents?_of_terminal? w.tree hf.isSome_terminal?
    rw [same] at inside
    simp [outside] at inside

/-- How `f` moves the ports of `n`, whose node is `m`. -/
structure Moves (g : Graph) (n : NodeId) (m : Node) (f : Layout Slot → Layout Slot) (start : Nat)
    (old new : Nat → Nat) : Prop where
  get : ∀ i, (f m.ports).get? i = m.ports.get? (old i)
  influences : ∀ p ∈ (f m.ports).influences, (old p.1, old p.2) ∈ m.ports.influences
  live : ∀ i, (m.ports.get? (old i)).isSome → new (old i) = i
  kept : ∀ i, (g.peer? ⟨n, i⟩).isSome ∨ g.Connected ⟨n, i⟩ → old (new i) = i
  low : ∀ i, i < start → old i = i

theorem wires_of_around?_ne (w : g.Wired) (k : NodeId) (h : g.around? n ≠ some k)
    (new : Nat → Nat) : (g.wires k).map (Edge.mapPorts (Port.moved n new)) = g.wires k := by
  refine (List.map_congr_left fun e he => ?_).trans (List.map_id _)
  have ho : e.output.node ≠ n := by
    rintro rfl
    exact h (w.outputAround k e he)
  have hi : e.input.node ≠ n := by
    rintro rfl
    exact h (w.inputAround k e he)
  simp [Edge.mapPorts, moved_of_ne new ho, moved_of_ne new hi]

/-- A port stands in its new place even before its peer is told. -/
theorem Moves.slot?_modifyNode (a : Moves g n m f start old new) (hm : g.node? n = some m)
    (p : Port) :
    (g.modifyNode n fun m => { m with ports := f m.ports }).slot? p = g.slot? (p.moved n old) := by
  obtain ⟨k, i⟩ := p
  simp only [slot?, Option.bind_eq_bind, node?_modifyNode]
  by_cases hk : k = n
  · subst hk
    simp only [Port.moved, if_true, hm, Option.map_some, Option.bind_some]
    exact a.get i
  · rw [moved_of_ne old (by exact hk), if_neg (Ne.symm hk)]

theorem slot?_readdress (w : g.WellFormed) (hm : g.node? n = some m)
    (a : Moves g n m f start old new) (p : Port) :
    ((g.modifyNode n fun m => { m with ports := f m.ports }).readdress n start).slot? p =
      (g.slot? (p.moved n old)).map fun s => { s with peer := s.peer.map (Port.moved n new) } := by
  let g₁ := g.modifyNode n fun m => { m with ports := f m.ports }
  have node₁ : g₁.node? n = some { m with ports := f m.ports } := by
    rw [node?_modifyNode, if_pos rfl, hm]
    rfl
  have slot₁ := a.slot?_modifyNode hm
  have peer_of (i : Nat) : g.peer? ⟨n, i⟩ = (m.ports.get? i).bind Slot.peer := by
    simp [peer?, slot?, hm]
  rw [readdress_eq, node₁, Option.elim_some]
  have entry (s : Slot × Nat) (hs : s ∈ (f m.ports).entries.zipIdx.drop start) :
      start ≤ s.2 ∧ g.peer? ⟨n, old s.2⟩ = s.1.peer ∧ new (old s.2) = s.2 := by
    obtain ⟨hle, hget⟩ := (mem_drop_zipIdx _ _ _).1 hs
    have hold : m.ports.get? (old s.2) = some s.1 := by
      rw [← a.get]
      exact hget
    exact ⟨hle, by simp [peer_of, hold], a.live _ (by simp [hold])⟩
  by_cases hp : p.node = n
  · -- a port of the node itself is no peer of another one
    have far (s : Slot × Nat) (hs : s ∈ (f m.ports).entries.zipIdx.drop start) :
        s.1.peer ≠ some p := by
      intro hsp
      have hpeer := (entry s hs).2.1
      rw [hsp] at hpeer
      exact peer_node_ne w hpeer hp.symm
    rw [slot?_foldl_address_of_ne n _ _ p far, slot₁]
    cases hs : g.slot? (p.moved n old) with
    | none => rfl
    | some s =>
      have same : s.peer.map (Port.moved n new) = s.peer := by
        cases hq : s.peer with
        | none => rfl
        | some q =>
          have hpq : g.peer? (p.moved n old) = some q := by simp [peer?, hs, hq]
          have ne := peer_node_ne w hpq
          rw [node_moved, hp] at ne
          rw [Option.map_some, moved_of_ne new ne.symm]
      simp [same]
  · rw [moved_of_ne old hp]
    cases hs : g.slot? p with
    | none =>
      have hnone : ∀ s ∈ (f m.ports).entries.zipIdx.drop start, s.1.peer ≠ some p := by
        intro s hs' hsp
        have hpeer := (entry s hs').2.1
        rw [hsp] at hpeer
        have := isSome_attr?_of_peer? g (w.linked.back _ _ hpeer)
        simp [attr?, hs] at this
      rw [slot?_foldl_address_of_ne n _ _ p hnone, slot₁, moved_of_ne old hp, hs]
      rfl
    | some s =>
      have hpeer : g.peer? p = s.peer := by simp [peer?, hs]
      by_cases hq : ∃ k, s.peer = some ⟨n, k⟩
      · obtain ⟨k, hk⟩ := hq
        have back : g.peer? ⟨n, k⟩ = some p := w.linked.back _ _ (hpeer.trans hk)
        have kept : old (new k) = k := a.kept k (.inl (by simp [back]))
        have unique (r : Slot × Nat) (hr : r ∈ (f m.ports).entries.zipIdx.drop start)
            (hrp : r.1.peer = some p) : r.2 = new k := by
          obtain ⟨-, hr₁, hr₂⟩ := entry r hr
          have := w.linked.back _ _ (hr₁.trans hrp)
          rw [hpeer, hk, Option.some.injEq, Port.mk.injEq] at this
          rw [← hr₂, this.2]
        by_cases hlow : new k < start
        · have here : new k = k := by rw [← a.low _ hlow, kept]
          rw [slot?_foldl_address_of_ne n _ _ p, slot₁, moved_of_ne old hp, hs]
          · have same : s.peer.map (Port.moved n new) = s.peer := by simp [hk, Port.moved, here]
            simp [same]
          · intro r hr hrp
            have := unique r hr hrp
            have := (entry r hr).1
            omega
        · have hget : (f m.ports).get? (new k) = m.ports.get? k := by rw [a.get, kept]
          rw [slot?_foldl_address n _ _ p (new k) unique, slot₁, moved_of_ne old hp, hs]
          · simp [hk, Port.moved]
          · rw [peer_of] at back
            obtain ⟨r, hr, hrp⟩ := Option.bind_eq_some_iff.1 back
            rw [hr] at hget
            exact ⟨⟨r, new k⟩, (mem_drop_zipIdx _ _ _).2 ⟨Nat.le_of_not_lt hlow, hget⟩, hrp⟩
      · have far (r : Slot × Nat) (hr : r ∈ (f m.ports).entries.zipIdx.drop start) :
            r.1.peer ≠ some p := by
          intro hrp
          have := w.linked.back _ _ ((entry r hr).2.1.trans hrp)
          exact hq ⟨_, hpeer.symm.trans this⟩
        rw [slot?_foldl_address_of_ne n _ _ p far, slot₁, moved_of_ne old hp, hs]
        have same : s.peer.map (Port.moved n new) = s.peer := by
          cases hr : s.peer with
          | none => rfl
          | some q =>
            rw [Option.map_some, moved_of_ne]
            rintro rfl
            exact hq ⟨q.index, hr⟩
        simp [same]

theorem renumbered (w : g.WellFormed) (hm : g.node? n = some m)
    (a : Moves g n m f start old new) : Renumbered n old new g (g.renumber n f start new) := by
  let change (m : Node) : Node := { m with ports := f m.ports }
  let g₁ := g.modifyNode n change
  let g₂ := g₁.readdress n start
  have tree₁ : SameTree g g₁ := sameTree_modifyNode g n change (fun _ => rfl) (fun _ => rfl)
    (fun _ => rfl) (fun _ => rfl) fun _ => rfl
  have tree₂ : SameTree g g₂ := by
    refine tree₁.trans ?_
    change SameTree g₁ (g₁.readdress n start)
    rw [readdress_eq]
    cases g₁.node? n with
    | none => exact .refl _
    | some m => exact sameTree_foldl_address _ _ _
  have contents₂ : g₂.contents? = g.contents? := by
    refine Eq.trans ?_ (contents?_modifyNode g n change fun _ => rfl)
    change (g₁.readdress n start).contents? = g₁.contents?
    rw [readdress_eq]
    cases g₁.node? n with
    | none => rfl
    | some m => exact contents?_foldl_address _ _ _
  have type₂ (k : NodeId) : g₂.type? k = if k = n then some (change m).type else g.type? k := by
    have step : g₂.type? = g₁.type? := by
      change (g₁.readdress n start).type? = g₁.type?
      rw [readdress_eq]
      cases g₁.node? n with
      | none => rfl
      | some m => exact type?_foldl_address _ _ _
    rw [step, type?, node?_modifyNode]
    by_cases hk : k = n
    · subst hk
      simp [hm]
    · simp [hk, Ne.symm hk, type?]
  have slot₂ := slot?_readdress w hm a
  have wires₂ : g₂.wires = g.wires := by
    funext k
    simp only [Graph.wires, contents₂]
  -- where the node has no network around it, its ports have no wires
  have last : ∃ h, g.renumber n f start new = h ∧ SameTree g₂ h ∧ h.slot? = g₂.slot? ∧
      h.type? = g₂.type? ∧ ∀ k, h.wires k =
        (g.wires k).map (Edge.mapPorts (Port.moved n new)) := by
    refine ⟨_, rfl, ?_⟩
    change SameTree g₂ (g₂.modifyWiresAround n _) ∧ _
    cases ha : g.around? n with
    | none =>
      have ha₂ : g₂.around? n = none := by rw [tree₂.around, ha]
      have eq : g.renumber n f start new = g₂ := by
        change g₂.modifyWiresAround n _ = g₂
        simp only [modifyWiresAround, ha₂]
      rw [eq]
      have eq' : (g₂.modifyWiresAround n fun w => w.map (Edge.mapPorts (Port.moved n new))) = g₂ := eq
      rw [eq']
      refine ⟨.refl _, rfl, rfl, fun k => ?_⟩
      rw [wires₂, wires_of_around?_ne w.wired k (by simp [ha])]
    | some k =>
      have ha₂ : g₂.around? n = some k := by rw [tree₂.around, ha]
      have inside : (g₂.contents? k).isSome := by
        rw [contents₂]
        exact isSome_contents?_of_around? w.tree ha
      have r := rewired_modifyWiresAround g₂ n k
        (fun w => w.map (Edge.mapPorts (Port.moved n new))) ha₂ inside
      refine ⟨r.tree, r.slot, r.type, fun j => ?_⟩
      refine (r.wires j).trans ?_
      rw [wires₂]
      split
      · rfl
      · next hj =>
        rw [wires_of_around?_ne w.wired j]
        rw [ha]
        exact fun h => hj (Option.some.inj h).symm
  obtain ⟨h, rfl, tree, slot, type, wires⟩ := last
  constructor
  case tree => exact tree₂.trans tree
  case slot =>
    intro p
    rw [slot]
    exact slot₂ p
  case wires => exact wires
  case influences =>
    rintro p q ⟨hpq, t, ht, hm'⟩
    rw [type, type₂] at ht
    refine ⟨by rw [node_moved, node_moved]; exact hpq, ?_⟩
    rw [node_moved]
    by_cases hp : p.node = n
    · rw [if_pos hp] at ht
      obtain rfl := Option.some.inj ht
      refine ⟨m.type, by rw [hp]; simp [type?, hm], ?_⟩
      simp only [Port.moved, hp, hpq ▸ hp, if_true]
      exact a.influences _ hm'
    · rw [if_neg hp] at ht
      rw [moved_of_ne old hp, moved_of_ne old (hpq ▸ hp)]
      exact ⟨t, ht, hm'⟩
  case live =>
    intro p hp
    rw [slot, slot₂, Option.isSome_map] at hp
    by_cases hn : p.node = n
    · obtain ⟨k, i⟩ := p
      obtain rfl : k = n := hn
      simp only [slot?, Port.moved, if_true, hm, Option.bind_eq_bind, Option.bind_some] at hp
      simp [Port.moved, a.live i hp]
    · rw [moved_of_ne old hn, moved_of_ne new hn]
  case kept =>
    intro p hp
    by_cases hn : p.node = n
    · obtain ⟨k, i⟩ := p
      obtain rfl : k = n := hn
      simp [Port.moved, a.kept i hp]
    · rw [moved_of_ne new hn, moved_of_ne old hn]
  case type =>
    intro k hk
    rw [type, type₂, if_neg hk]
  case sound =>
    intro k t ht
    rw [type, type₂] at ht
    split at ht
    · obtain rfl := Option.some.inj ht
      refine (w.sound n m.type (by simp [type?, hm])).rearrange old (fun i => ?_) a.influences ?_
      · simp only [Node.type, Layout.get?_map]
        exact congrArg _ (a.get i)
      · intro i j hi hij
        simp only [Node.type, Layout.get?_map, Option.isSome_map] at hi
        have hi' : ((f m.ports).get? i).isSome := hi
        rw [a.get] at hi'
        have hj := a.live j (hij ▸ hi')
        rw [← a.live i hi', hij, hj]
    · exact w.sound k t ht

end Renumber
end Graph
end Dataflow
