import Dataflow.Proofs.Flow
set_option autoImplicit false

/-!
Adding and removing wires, without what follows from it. Only the wires of one network change.
-/

namespace Dataflow.Graph

/-- The wires of the network `n` have changed as `f` says, and nothing else. -/
structure Rewired (n : NodeId) (f : Wiring → Wiring) (g h : Graph) : Prop where
  tree : SameTree g h
  slot : h.slot? = g.slot?
  type : h.type? = g.type?
  wires : ∀ k, h.wires k = if k = n then f (g.wires k) else g.wires k

namespace Rewired
variable {n : NodeId} {f : Wiring → Wiring} {g h : Graph}

theorem attr (a : Rewired n f g h) : h.attr? = g.attr? := by
  funext p
  simp only [attr?, a.slot]

theorem direction (a : Rewired n f g h) : h.direction? = g.direction? := by
  funext p
  simp only [direction?, a.slot]

theorem peer (a : Rewired n f g h) : h.peer? = g.peer? := by
  funext p
  simp only [peer?, a.slot]

theorem isStale (a : Rewired n f g h) : h.isStale = g.isStale := by
  funext p
  simp only [Graph.isStale, a.slot]

theorem held (a : Rewired n f g h) : h.held = g.held := by
  funext p
  simp only [Graph.held, a.slot]

theorem terminal (a : Rewired n f g h) : h.terminal? = g.terminal? := by
  funext p
  simp only [terminal?_eq, a.type, a.direction]

theorem faces (a : Rewired n f g h) : h.Faces = g.Faces := by
  funext t b
  simp only [Faces, a.terminal, a.direction, a.tree.around]

theorem influences (a : Rewired n f g h) : h.Influences = g.Influences := by
  funext p q
  simp only [Influences, a.type]

theorem linked (a : Rewired n f g h) (w : g.Linked) : h.Linked := by
  constructor
  · rw [a.peer]; exact w.back
  · rw [a.peer, a.faces]; exact w.faces

theorem sound (a : Rewired n f g h) (w : g.WellFormed) (k : NodeId) (t : NodeType)
    (ht : h.type? k = some t) : t.Sound := by
  rw [a.type] at ht
  exact w.sound k t ht

end Rewired

theorem rewired_modifyWiresAround (g : Graph) (k n : NodeId) (f : Wiring → Wiring)
    (hk : g.around? k = some n) (hn : (g.contents? n).isSome) :
    Rewired n f g (g.modifyWiresAround k f) := by
  let change (m : Node) : Node := { m with inner := m.inner.map fun w => { w with wires := f w.wires } }
  have eq : g.modifyWiresAround k f = g.modifyNode n change := by
    simp only [modifyWiresAround, hk]
    rfl
  have contents (j : NodeId) : (g.modifyNode n change).contents? j =
      if n = j then (g.contents? j).map fun w => { w with wires := f w.wires }
      else g.contents? j := by
    simp only [contents?, node?_modifyNode]
    split
    · cases g.node? j <;> rfl
    · rfl
  rw [eq]
  constructor
  case slot =>
    funext p
    simp only [slot?, Option.bind_eq_bind]
    exact bind_node?_modifyNode g n change (fun m => m.ports.get? p.index) (fun _ => rfl) p.node
  case type => exact type?_modifyNode g n change fun _ => rfl
  case wires =>
    intro j
    simp only [wires, contents]
    by_cases hj : n = j
    · subst hj
      obtain ⟨w, hw⟩ := Option.isSome_iff_exists.1 hn
      simp [hw]
    · simp [hj, Ne.symm hj]
  case tree =>
    constructor
    case keys => exact keys_modifyNode g n change
    case root | config => rfl
    case around => exact around?_modifyNode g n change fun _ => rfl
    case name => exact name?_modifyNode g n change fun _ => rfl
    case children =>
      funext j
      simp only [children, contents]
      split
      · cases g.contents? j <;> rfl
      · rfl
    case network =>
      intro j
      rw [contents]
      split
      · rw [Option.isSome_map]
      · rfl
    case typeName | compute =>
      intro j
      rw [type?_modifyNode g n change fun _ => rfl]

/-! ### One wire more -/

section Add
variable {g h : Graph} {n : NodeId} {e : Edge}

theorem feeds_add (a : Rewired n (·.add e) g h) (o i : Port) :
    h.Feeds o i ↔ g.Feeds o i ∨ o = e.output ∧ i = e.input := by
  simp only [Feeds, a.wires]
  constructor
  · rintro ⟨k, hk⟩
    split at hk
    · rcases List.mem_append.1 hk with hk | hk
      · exact .inl ⟨k, hk⟩
      · obtain rfl := List.mem_singleton.1 hk
        exact .inr ⟨rfl, rfl⟩
    · exact .inl ⟨k, hk⟩
  · rintro (⟨k, hk⟩ | ⟨rfl, rfl⟩)
    · refine ⟨k, ?_⟩
      split
      · exact List.mem_append_left _ hk
      · exact hk
    · exact ⟨n, by simp [Wiring.add]⟩

theorem wellFormed_add (a : Rewired n (·.add e) g h) (w : g.WellFormed)
    (ho : g.direction? e.output = some .output) (hi : g.direction? e.input = some .input)
    (hon : g.around? e.output.node = some n) (hin : g.around? e.input.node = some n)
    (hfree : ∀ o, ¬ g.Feeds o e.input) : h.WellFormed := by
  refine ⟨a.tree.tree w.tree, ?_, a.linked w.linked, a.sound w⟩
  have mem {k : NodeId} {d : Edge} (hd : d ∈ h.wires k) : d ∈ g.wires k ∨ d = e ∧ k = n := by
    rw [a.wires] at hd
    split at hd
    · next hk =>
      rcases List.mem_append.1 hd with hd | hd
      · exact .inl hd
      · exact .inr ⟨List.mem_singleton.1 hd, hk⟩
    · exact .inl hd
  constructor
  case output =>
    intro k d hd
    rw [a.direction]
    rcases mem hd with hd | ⟨rfl, -⟩
    · exact w.wired.output k d hd
    · exact ho
  case input =>
    intro k d hd
    rw [a.direction]
    rcases mem hd with hd | ⟨rfl, -⟩
    · exact w.wired.input k d hd
    · exact hi
  case outputAround =>
    intro k d hd
    rw [a.tree.around]
    rcases mem hd with hd | ⟨rfl, rfl⟩
    · exact w.wired.outputAround k d hd
    · exact hon
  case inputAround =>
    intro k d hd
    rw [a.tree.around]
    rcases mem hd with hd | ⟨rfl, rfl⟩
    · exact w.wired.inputAround k d hd
    · exact hin
  case single =>
    intro k
    have old := w.wired.single k
    rw [a.wires]
    split
    · simp only [Wiring.add, List.map_append, List.map_cons, List.map_nil]
      refine List.nodup_append.2 ⟨old, by simp, ?_⟩
      intro i hik j hj hij
      obtain rfl := List.mem_singleton.1 hj
      obtain ⟨d, hd, hdi⟩ := List.mem_map.1 hik
      refine hfree d.output ⟨k, ?_⟩
      rw [← hij, ← hdi]
      exact hd
    · exact old

end Add

/-! ### One wire less -/

section Remove
variable {g h : Graph} {n : NodeId} {e : Edge}

theorem feeds_remove (a : Rewired n (·.remove e) g h) (w : g.Wired) (he : e ∈ g.wires n)
    (o i : Port) : h.Feeds o i ↔ g.Feeds o i ∧ ¬ (o = e.output ∧ i = e.input) := by
  have same : (⟨o, i⟩ : Edge) = e ↔ o = e.output ∧ i = e.input := by
    constructor
    · rintro rfl; exact ⟨rfl, rfl⟩
    · rintro ⟨rfl, rfl⟩; rfl
  simp only [Feeds, a.wires, ← same]
  constructor
  · rintro ⟨k, hk⟩
    split at hk
    · have hm := ((nodup_wires w k).mem_erase_iff).1 hk
      exact ⟨⟨k, hm.2⟩, hm.1⟩
    · next hkn =>
      refine ⟨⟨k, hk⟩, ?_⟩
      rintro rfl
      have hk := w.inputAround k _ hk
      have hn := w.inputAround n _ he
      rw [hk] at hn
      exact hkn (Option.some.inj hn)
  · rintro ⟨⟨k, hk⟩, hne⟩
    refine ⟨k, ?_⟩
    split
    · exact ((nodup_wires w k).mem_erase_iff).2 ⟨hne, hk⟩
    · exact hk

theorem wellFormed_remove (a : Rewired n (·.remove e) g h) (w : g.WellFormed) : h.WellFormed := by
  refine ⟨a.tree.tree w.tree, ?_, a.linked w.linked, a.sound w⟩
  have sub (k : NodeId) : (h.wires k).Sublist (g.wires k) := by
    rw [a.wires]
    split
    · exact List.erase_sublist
    · exact .refl _
  constructor
  case output =>
    intro k d hd
    rw [a.direction]
    exact w.wired.output k d ((sub k).subset hd)
  case input =>
    intro k d hd
    rw [a.direction]
    exact w.wired.input k d ((sub k).subset hd)
  case outputAround =>
    intro k d hd
    rw [a.tree.around]
    exact w.wired.outputAround k d ((sub k).subset hd)
  case inputAround =>
    intro k d hd
    rw [a.tree.around]
    exact w.wired.inputAround k d ((sub k).subset hd)
  case single => exact fun k => (w.wired.single k).sublist ((sub k).map _)

end Remove
end Dataflow.Graph
