import Dataflow.Proofs.Renumber
set_option autoImplicit false

/-!
Taking a port from a boundary. The port and its terminal first forget each other, and then the later
ports of the network move down. Main statements: a port without wires can go, all other ports stay
what they were, and a graph stays well formed and acyclic.
-/

namespace Dataflow

theorem Layout.remove_modify {α : Type} (l : Layout α) (i : Nat) (f : α → α) :
    (l.modify i f).remove i = l.remove i := by
  have same : (l.entries.modify i f).eraseIdx i = l.entries.eraseIdx i := by
    apply List.ext_getElem?
    intro j
    simp only [List.getElem?_eraseIdx, List.getElem?_modify]
    split
    · next h => simp [show i ≠ j by omega]
    · next h => simp [show i ≠ j + 1 by omega]
  simp only [Layout.remove, Layout.modify, same]

namespace Graph

theorem modifyNode_modifyNode (g : Graph) (n : NodeId) (f f' : Node → Node) :
    (g.modifyNode n f).modifyNode n f' = g.modifyNode n (f' ∘ f) := by
  simp only [modifyNode, Table.modify_modify]

/-! ### Forgetting a peer -/

/-- The ports `b` and `t` are no longer peers. -/
structure Unlinked (b t : Port) (g h : Graph) : Prop where
  tree : SameTree g h
  contents : h.contents? = g.contents?
  type : h.type? = g.type?
  slot : ∀ p, h.slot? p =
    if p = b ∨ p = t then (g.slot? p).map fun s => { s with peer := none } else g.slot? p

theorem unlinked_setPeer (g : Graph) (b t : Port) :
    Unlinked b t g ((g.setPeer t none).setPeer b none) := by
  constructor
  case tree => exact (sameTree_setPeer _ _ _).trans (sameTree_setPeer _ _ _)
  case contents => rw [contents?_setPeer, contents?_setPeer]
  case type => rw [type?_setPeer, type?_setPeer]
  case slot =>
    intro p
    rw [slot?_setPeer, slot?_setPeer]
    by_cases hb : p = b
    · subst hb
      rw [if_pos rfl, if_pos (Or.inl rfl : p = p ∨ p = t)]
      split
      · cases g.slot? p <;> rfl
      · rfl
    · by_cases ht : p = t
      · subst ht
        simp [Ne.symm hb]
      · simp [hb, ht, Ne.symm hb, Ne.symm ht]

namespace Unlinked
variable {g h : Graph} {b t : Port} (a : Unlinked b t g h)
include a

theorem attr : h.attr? = g.attr? := by
  funext p
  simp only [attr?, a.slot]
  split
  · cases g.slot? p <;> rfl
  · rfl

theorem direction : h.direction? = g.direction? := by
  funext p
  rw [direction?_eq, a.attr, ← direction?_eq]

theorem isStale : h.isStale = g.isStale := by
  funext p
  simp only [Graph.isStale, a.slot]
  split
  · cases g.slot? p <;> rfl
  · rfl

theorem held : h.held = g.held := by
  funext p
  simp only [Graph.held, a.slot]
  split
  · cases g.slot? p <;> rfl
  · rfl

theorem peer (p : Port) : h.peer? p = if p = b ∨ p = t then none else g.peer? p := by
  simp only [peer?, a.slot]
  split
  · cases g.slot? p <;> rfl
  · rfl

theorem terminal : h.terminal? = g.terminal? := by
  funext p
  simp only [terminal?_eq, a.type, a.direction]

theorem faces : h.Faces = g.Faces := by
  funext p q
  simp only [Faces, a.terminal, a.direction, a.tree.around]

theorem wires : h.wires = g.wires := by
  funext k
  simp only [Graph.wires, a.contents]

theorem feeds : h.Feeds = g.Feeds := by
  funext o i
  simp only [Feeds, a.wires]

theorem connected : h.Connected = g.Connected := by
  funext p
  simp only [Connected, a.feeds]

theorem influences : h.Influences = g.Influences := by
  funext p q
  simp only [Influences, a.type]

theorem peer_old {p q : Port} (hp : h.peer? p = some q) : g.peer? p = some q := by
  rw [a.peer] at hp
  split at hp
  · cases hp
  · exact hp

theorem flows_old {p q : Port} (hf : h.Flows p q) : g.Flows p q := by
  simp only [Flows, a.influences, a.feeds, a.direction] at hf
  exact hf.imp_right (Or.imp_right (And.imp_right a.peer_old))

theorem acyclic (w : g.Acyclic) : h.Acyclic := w.of_map id fun _ _ hf => a.flows_old hf

theorem fitted {p : Port} (hb : p ≠ b) (ht : p ≠ t) (hf : g.Fitted p) : h.Fitted p := by
  rw [Fitted, a.terminal, a.connected, a.peer, if_neg (by simp [hb, ht])]
  exact hf

theorem wellFormed (w : g.WellFormed) (hb : g.peer? b = some t) : h.WellFormed := by
  refine ⟨a.tree.tree w.tree, ?wired, ?linked, ?sound⟩
  case wired =>
    constructor
    · rw [a.wires, a.direction]; exact w.wired.output
    · rw [a.wires, a.direction]; exact w.wired.input
    · rw [a.wires, a.tree.around]; exact w.wired.outputAround
    · rw [a.wires, a.tree.around]; exact w.wired.inputAround
    · rw [a.wires]; exact w.wired.single
  case linked =>
    constructor
    · intro p q hp
      have hpq := a.peer_old hp
      have hqp := w.linked.back p q hpq
      rw [a.peer] at hp ⊢
      have far : ¬ (p = b ∨ p = t) := by
        intro h
        rw [if_pos h] at hp
        cases hp
      -- peers come in pairs, so the peer of a port that is neither `b` nor `t` is neither
      rw [if_neg, hqp]
      rintro (rfl | rfl)
      · rw [hb, Option.some.injEq] at hqp
        exact far (.inr hqp.symm)
      · rw [w.linked.back b q hb, Option.some.injEq] at hqp
        exact far (.inl hqp.symm)
    · intro p q hp
      rw [a.faces]
      exact w.linked.faces p q (a.peer_old hp)
  case sound =>
    rw [a.type]
    exact w.sound

end Unlinked

/-! ### Taking a port away -/

/-- The place where the port stood that is in place `i` once the one at `gone` has left. -/
def unshift (gone i : Nat) : Nat := if i < gone then i else i + 1

/-- Takes a port without wires from a network. -/
def dropPort (g : Graph) (b : Port) : Graph :=
  let g := match g.peer? b with
    | some q => g.setPeer q none
    | none => g
  let g := g.modifyNode b.node fun m => { m with ports := m.ports.remove b.index }
  let g := g.readdress b.node b.index
  let g := g.modifyWiresAround b.node fun w => w.shift b.node b.index
  g.emit (.metadataChanged b.node)

theorem dropBoundary_eq (cut : Graph → Edge → Graph) (g : Graph) (b : Port) :
    dropBoundary cut g b =
      dropPort (((g.wiresAround b.node).filter (Edge.endsAt b)).foldl cut g) b := rfl

theorem shifted_eq_moved (n : NodeId) (gone : Nat) :
    Port.shifted n gone = Port.moved n (Layout.shift gone) := by
  funext p
  obtain ⟨k, i⟩ := p
  by_cases hk : k = n
  · subst hk
    by_cases hi : gone < i <;> simp [Port.shifted, Port.moved, Layout.shift, hi]
  · simp [Port.shifted, Port.moved, hk]

section Drop
variable {g : Graph} {b t : Port}

theorem moves_remove (m : Node) (hp : g.peer? b = none) (hc : ¬ g.Connected b) :
    Moves g b.node m (fun l => l.remove b.index) b.index (unshift b.index) (Layout.shift b.index) := by
  constructor
  case get =>
    intro i
    simp only [Layout.remove, Layout.get?, List.getElem?_eraseIdx, unshift]
    split <;> rfl
  case influences =>
    rintro ⟨i, j⟩ h
    simp only [Layout.remove, List.mem_map, List.mem_filter, Bool.and_eq_true, bne_iff_ne,
      Prod.mk.injEq] at h
    obtain ⟨⟨i', j'⟩, ⟨h, hi, hj⟩, rfl, rfl⟩ := h
    have back {k : Nat} (hk : k ≠ b.index) : unshift b.index (Layout.shift b.index k) = k := by
      simp only [unshift, Layout.shift]
      grind
    simp only at hi hj
    rw [back hi, back hj]
    exact h
  case live =>
    intro i _
    simp only [unshift, Layout.shift]
    grind
  case kept =>
    intro i hi
    have hne : i ≠ b.index := by
      rintro rfl
      rcases hi with hi | hi
      · change (g.peer? b).isSome at hi
        simp [hp] at hi
      · exact hc hi
    simp only [unshift, Layout.shift]
    grind
  case low =>
    intro i hi
    simp [unshift, hi]

/-- It does not matter what the peer of a port was that is taken away. -/
theorem modifyNode_setPeer_remove (g : Graph) (b : Port) (r : Option Port) :
    (g.setPeer b r).modifyNode b.node (fun m => { m with ports := m.ports.remove b.index }) =
      g.modifyNode b.node fun m => { m with ports := m.ports.remove b.index } := by
  simp only [setPeer, modifySlot]
  rw [modifyNode_modifyNode]
  congr 1
  funext m
  simp only [Function.comp_apply, Layout.remove_modify]

/-- What taking away the port `b`, the peer of `t`, consists of. -/
theorem dropped (w : g.WellFormed) (hb : g.peer? b = some t) (hc : ¬ g.Connected b) :
    ∃ g₁ g₂, Unlinked b t g g₁ ∧ g₁.WellFormed ∧
      Renumbered b.node (unshift b.index) (Layout.shift b.index) g₁ g₂ ∧
      g.dropPort b = g₂.emit (.metadataChanged b.node) := by
  let g₁ := (g.setPeer t none).setPeer b none
  have a : Unlinked b t g g₁ := g.unlinked_setPeer b t
  have w₁ := a.wellFormed w hb
  have live : (g₁.slot? b).isSome := by
    rw [isSome_slot?, a.attr]
    exact isSome_attr?_of_peer? g hb
  obtain ⟨m, hm⟩ : ∃ m, g₁.node? b.node = some m := by
    simp only [slot?, Option.bind_eq_bind] at live
    cases hm : g₁.node? b.node with
    | none => simp [hm] at live
    | some m => exact ⟨m, rfl⟩
  have moves := moves_remove (b := b) m (by rw [a.peer]; simp) (by rw [a.connected]; exact hc)
  refine ⟨g₁, _, a, w₁, renumbered w₁ hm moves, ?_⟩
  simp only [dropPort, hb, renumber, g₁, modifyNode_setPeer_remove, Wiring.shift,
    shifted_eq_moved]

end Drop

section DropPort
variable {g : Graph} {b t : Port} (w : g.WellFormed) (hb : g.peer? b = some t)
  (hc : ¬ g.Connected b)
include w hb hc

theorem wellFormed_dropPort : (g.dropPort b).WellFormed := by
  obtain ⟨g₁, g₂, -, w₁, r, eq⟩ := dropped w hb hc
  rw [eq]
  exact (sameFrame_emit _ _).wellFormed (r.wellFormed w₁)

theorem acyclic_dropPort (ha : g.Acyclic) : (g.dropPort b).Acyclic := by
  obtain ⟨g₁, g₂, a, w₁, r, eq⟩ := dropped w hb hc
  rw [eq]
  exact (sameFrame_emit _ _).acyclic (r.acyclic w₁.linked (a.acyclic ha))

theorem sameTree_dropPort : SameTree g (g.dropPort b) := by
  obtain ⟨g₁, g₂, a, w₁, r, eq⟩ := dropped w hb hc
  rw [eq]
  exact (a.tree.trans r.tree).trans (.of_sameFrame (sameFrame_emit _ _))

theorem fitted_dropPort (inside : (g.contents? b.node).isSome) (ht : ¬ g.Connected t)
    {p : Port} (hf : p ≠ t → g.Fitted p) : (g.dropPort b).Fitted p := by
  obtain ⟨g₁, g₂, a, w₁, r, eq⟩ := dropped w hb hc
  rw [eq, (sameFrame_emit _ _).fitted]
  intro hterm
  have hterm₁ := hterm
  rw [r.terminal, a.terminal] at hterm₁
  have stays : p.moved b.node (unshift b.index) = p := by
    refine moved_of_ne _ fun h => ?_
    have := contents?_of_terminal? w.tree hterm₁
    rw [node_moved, h] at this
    simp [this] at inside
  refine r.fitted p ?_ hterm
  rw [stays] at hterm₁ ⊢
  by_cases hpt : p = t
  · subst hpt
    intro _
    rw [a.connected, a.peer, if_pos (.inr rfl)]
    simp [ht]
  · refine a.fitted ?_ hpt (hf hpt)
    rintro rfl
    have := contents?_of_terminal? w.tree hterm₁
    simp [this] at inside

end DropPort
end Graph
end Dataflow
