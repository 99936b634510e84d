import Dataflow.Proofs.Upstream
set_option autoImplicit false

/-!
Drawing a wire and removing it again. A wire may bring up to two new ports to the boundary of its
network, behind all others, and takes them away with it. Main statement: the graph is then what it was,
in the order of its wires and attributes as well, but for what the ends of the wire hold, and but for
ports that have become out of date.
-/

namespace Dataflow

namespace NodeType
variable {t : NodeType}

/-- The type with more attributes behind its own. -/
def extend (t : NodeType) (as : List Attribute) : NodeType :=
  { t with ports := ⟨t.ports.entries ++ as, t.ports.influences⟩ }

/-- The type without the attribute in that place. -/
def without (t : NodeType) (i : Nat) : NodeType := { t with ports := t.ports.remove i }

theorem extend_nil (t : NodeType) : t.extend [] = t := by simp [extend]

theorem declare_extend (as : List Attribute) (a : Attribute) :
    (t.extend as).declare a = t.extend (as ++ [a]) := by
  simp [extend, declare, Layout.declare]

theorem get?_extend (as : List Attribute) {i : Nat} (hi : i < t.ports.length) :
    (t.extend as).ports.get? i = t.ports.get? i := List.getElem?_append_left hi

/-- Influences are between the attributes that the type has, so none is lost. -/
theorem Sound.without_extend (s : t.Sound) (a : Attribute) (as : List Attribute) :
    (t.extend (a :: as)).without t.ports.length = t.extend as := by
  have low {i : Nat} {d : Direction} (h : (t.ports.get? i).map Attribute.direction = some d) :
      i < t.ports.length := by
    obtain ⟨b, hb, -⟩ := Option.map_eq_some_iff.1 h
    exact (List.getElem?_eq_some_iff.1 hb).1
  have influences : ((t.ports.influences.filter fun p =>
      p.1 != t.ports.length && p.2 != t.ports.length).map fun p =>
        (Layout.shift t.ports.length p.1, Layout.shift t.ports.length p.2)) = t.ports.influences := by
    rw [List.filter_eq_self.2, List.map_congr_left (g := id), List.map_id]
    · intro p hp
      have h₁ := low (s.sources p hp)
      have h₂ := low (s.targets p hp)
      simp [Layout.shift, Nat.not_lt_of_lt h₁, Nat.not_lt_of_lt h₂]
    · intro p hp
      have h₁ := low (s.sources p hp)
      have h₂ := low (s.targets p hp)
      simp only [Bool.and_eq_true, bne_iff_ne]
      omega
  have entries : (t.ports.entries ++ a :: as).eraseIdx t.ports.length = t.ports.entries ++ as := by
    rw [Layout.length, List.eraseIdx_append_of_length_le (Nat.le_refl _), Nat.sub_self]
    rfl
  simp only [extend, without, Layout.remove]
  rw [entries, influences]

end NodeType

namespace Graph

theorem type?_modifyWiresAround (g : Graph) (n : NodeId) (f : Wiring → Wiring) :
    (g.modifyWiresAround n f).type? = g.type? := by
  rw [modifyWiresAround]
  split
  · exact type?_modifyNode _ _ _ fun _ => rfl
  · rfl

theorem type?_dropPort (g : Graph) (b : Port) (k : NodeId) : (g.dropPort b).type? k =
    if k = b.node then (g.type? k).map (·.without b.index) else g.type? k := by
  have readdress (g : Graph) : (g.readdress b.node b.index).type? = g.type? := by
    rw [readdress_eq]
    cases g.node? b.node with
    | none => rfl
    | some m => exact type?_foldl_address _ _ _
  have remove (g : Graph) :
      (g.modifyNode b.node fun m => { m with ports := m.ports.remove b.index }).type? k =
      if k = b.node then (g.type? k).map (·.without b.index) else g.type? k := by
    simp only [type?, node?_modifyNode, eq_comm (a := k)]
    split
    · cases g.node? k with
      | none => rfl
      | some m => simp [Node.type, NodeType.without, Layout.map, Layout.remove, List.eraseIdx_map]
    · rfl
  rw [dropPort, (sameFrame_emit _ _).type, type?_modifyWiresAround, readdress, remove]
  cases g.peer? b with
  | none => rfl
  | some q => simp only [type?_setPeer]

/-- How many ports a node has. -/
def width (g : Graph) (n : NodeId) : Nat := (g.type? n).elim 0 fun t => t.ports.length

theorem index_lt_width {g : Graph} {p : Port} (live : (g.attr? p).isSome) : p.index < g.width p.node := by
  obtain ⟨a, ha⟩ := Option.isSome_iff_exists.1 live
  rw [attr?_eq] at ha
  obtain ⟨t, ht, hi⟩ := Option.bind_eq_some_iff.1 ha
  rw [width, ht, Option.elim_some]
  exact (List.getElem?_eq_some_iff.1 hi).1

theorem isSome_of_direction? {g : Graph} {p : Port} {d : Direction} (hp : g.direction? p = some d) :
    (g.attr? p).isSome := by
  obtain ⟨a, ha, -⟩ := isSome_attr?_of_direction? hp
  rw [ha]
  rfl

theorem isSome_attr?_of_isStale {g : Graph} {p : Port} (hp : g.isStale p = true) :
    (g.attr? p).isSome := by
  rw [isStale] at hp
  rw [attr?]
  cases hs : g.slot? p with
  | none => simp [hs] at hp
  | some s => rfl

theorem exists_getElem?_concat {α : Type} (l : List α) (z : α) (P : Nat → α → Prop) :
    (∃ j y, (l ++ [z])[j]? = some y ∧ P j y) ↔ (∃ j y, l[j]? = some y ∧ P j y) ∨ P l.length z := by
  constructor
  · rintro ⟨j, y, hj, h⟩
    rw [List.getElem?_append] at hj
    split at hj
    · exact .inl ⟨j, y, hj, h⟩
    · next high =>
      obtain ⟨low, rfl⟩ := List.getElem?_eq_some_iff.1 hj
      obtain rfl : j = l.length := by
        rw [List.length_singleton] at low
        omega
      exact .inr (by simpa using h)
  · rintro (⟨j, y, hj, h⟩ | h)
    · have low := (List.getElem?_eq_some_iff.1 hj).1
      exact ⟨j, y, by rw [List.getElem?_append_left low, hj], h⟩
    · exact ⟨l.length, z, by simp, h⟩

theorem exists_getElem?_cons {α : Type} (l : List α) (z : α) (P : Nat → α → Prop) :
    (∃ j y, (z :: l)[j]? = some y ∧ P j y) ↔ P 0 z ∨ ∃ j y, l[j]? = some y ∧ P (j + 1) y := by
  constructor
  · rintro ⟨j, y, hj, h⟩
    cases j with
    | zero =>
      cases hj
      exact .inl h
    | succ j => exact .inr ⟨j, y, hj, h⟩
  · rintro (h | ⟨j, y, hj, h⟩)
    · exact ⟨0, z, rfl, h⟩
    · exact ⟨j + 1, y, hj, h⟩

/-! ### Ports that are there for a while -/

/-- The network `n` has new ports behind its own, each with its terminal for a peer. Else nothing has
changed that a wire does not change, and what is held has not but in `x`. -/
structure Sprouted (n : NodeId) (new : List (Attribute × Port)) (x : Port → Prop) (g h : Graph) :
    Prop where
  tree : SameTree g h
  type : ∀ k, h.type? k =
    if k = n then (g.type? k).map (·.extend (new.map Prod.fst)) else g.type? k
  peer : ∀ p q, h.peer? p = some q ↔ g.peer? p = some q ∨ ∃ j y, new[j]? = some y ∧
    (p = ⟨n, g.width n + j⟩ ∧ q = y.2 ∨ p = y.2 ∧ q = ⟨n, g.width n + j⟩)
  stale : ∀ p, g.isStale p = true → h.isStale p = true
  held : ∀ p, (g.attr? p).isSome → ¬ x p → h.held p = g.held p

namespace Sprouted
variable {n : NodeId} {new : List (Attribute × Port)} {x : Port → Prop} {g h k : Graph}

theorem refl (n : NodeId) (x : Port → Prop) (g : Graph) : Sprouted n [] x g g := by
  refine ⟨.refl g, fun k => ?_, fun p q => by simp, fun _ hp => hp, fun _ _ _ => rfl⟩
  split
  · cases g.type? k <;> simp [NodeType.extend_nil]
  · rfl

/-- A step that leaves the boundary alone. -/
theorem step (s : Sprouted n new x g h) (tree : SameTree h k) (type : k.type? = h.type?)
    (peer : k.peer? = h.peer?) (stale : ∀ p, h.isStale p = true → k.isStale p = true)
    (held : ∀ p, (g.attr? p).isSome → ¬ x p → k.held p = h.held p) : Sprouted n new x g k :=
  ⟨s.tree.trans tree, by rw [type]; exact s.type, by rw [peer]; exact s.peer,
    fun p hp => stale p (s.stale p hp),
    fun p live hp => (held p live hp).trans (s.held p live hp)⟩

theorem attr (s : Sprouted n new x g h) {p : Port} (live : (g.attr? p).isSome) :
    h.attr? p = g.attr? p := by
  have low := index_lt_width live
  rw [attr?_eq, attr?_eq, s.type]
  split
  · cases ht : g.type? p.node with
    | none => rfl
    | some t =>
      rw [width, ht] at low
      exact NodeType.get?_extend _ low
  · rfl

theorem terminal (s : Sprouted n new x g h) {p : Port} (live : (g.attr? p).isSome) :
    h.terminal? p = g.terminal? p :=
  terminal?_congr (s.tree.typeName p.node) (by rw [direction?_eq, s.attr live, ← direction?_eq])

theorem width_eq (s : Sprouted n new x g h) (live : (g.type? n).isSome) :
    h.width n = g.width n + new.length := by
  obtain ⟨t, ht⟩ := Option.isSome_iff_exists.1 live
  simp [width, s.type, ht, NodeType.extend, Layout.length]

theorem grow (s : Sprouted n new x g h) {side : Direction} {t b : Port} {a : Attribute}
    (c : Growth side t b a h k) (r : Growth.Ready side t b a h) (hb : b.node = n) :
    Sprouted n (new ++ [(a, t)]) x g k := by
  obtain ⟨u, hu, hi⟩ := c.index
  have old {p : Port} (live : (g.attr? p).isSome) : p ≠ b := by
    rintro rfl
    rw [← s.attr live, attr?, c.fresh] at live
    cases live
  have place : b = ⟨n, g.width n + new.length⟩ := by
    have live : (g.type? n).isSome := by
      rw [← s.tree.isSome_type, ← hb, hu]
      rfl
    have width := s.width_eq live
    rw [Graph.width, ← hb, hu, Option.elim_some] at width
    rw [← hb, ← width, ← hi]
  constructor
  case tree => exact s.tree.trans c.tree
  case type =>
    intro m
    rw [c.type, hb, s.type]
    split
    · rw [List.map_append]
      cases g.type? m with
      | none => rfl
      | some t => exact congrArg some (NodeType.declare_extend ..)
    · rfl
  case peer =>
    intro p q
    rw [c.peer_eq_some_iff r, s.peer, place, or_assoc, exists_getElem?_concat]
  case stale =>
    intro p hp
    rw [c.isStale, if_neg (old (isSome_attr?_of_isStale hp)), s.stale p hp]
  case held =>
    intro p live hp
    rw [c.held, if_neg (old live), s.held p live hp]

end Sprouted

/-! ### Taking the first new port away -/

section Places
variable {n : NodeId} {l j : Nat} {p q : Port}

/-- Ports before the one that goes stay where they are. -/
theorem moved_of_lt (low : p.node = n → p.index < l) :
    p.moved n (unshift l) = p ∧ p.moved n (Layout.shift l) = p := by
  obtain ⟨m, i⟩ := p
  grind [Port.moved, unshift, Layout.shift]

theorem moved_unshift_ne (n : NodeId) (l : Nat) (p : Port) : p.moved n (unshift l) ≠ ⟨n, l⟩ := by
  obtain ⟨m, i⟩ := p
  grind [Port.moved, unshift]

theorem eq_of_moved_unshift
    (low : (p.moved n (unshift l)).node = n → (p.moved n (unshift l)).index < l) :
    p.moved n (unshift l) = p := by
  obtain ⟨m, i⟩ := p
  grind [Port.moved, unshift]

theorem moved_unshift_eq_iff : p.moved n (unshift l) = ⟨n, l + (j + 1)⟩ ↔ p = ⟨n, l + j⟩ := by
  obtain ⟨m, i⟩ := p
  grind [Port.moved, unshift]

theorem moved_shift_succ : (⟨n, l + (j + 1)⟩ : Port).moved n (Layout.shift l) = ⟨n, l + j⟩ := by
  grind [Port.moved, Layout.shift]

end Places

section Old
variable {g : Graph} (w : g.WellFormed) (n : NodeId)
include w

/-- Peers and wires name ports that there are. -/
theorem low_of_peer? {p q : Port} (hp : g.peer? p = some q) :
    (p.node = n → p.index < g.width n) ∧ (q.node = n → q.index < g.width n) := by
  have low {r t : Port} (hr : g.peer? r = some t) (hn : r.node = n) : r.index < g.width n :=
    hn ▸ index_lt_width (isSome_attr?_of_peer? g hr)
  exact ⟨low hp, low (w.linked.back p q hp)⟩

theorem low_of_mem_wires {k : NodeId} {e : Edge} (he : e ∈ g.wires k) :
    (e.output.node = n → e.output.index < g.width n) ∧ (e.input.node = n → e.input.index < g.width n) := by
  have low {p : Port} {d : Direction} (hp : g.direction? p = some d) (hn : p.node = n) :
      p.index < g.width n :=
    hn ▸ index_lt_width (isSome_of_direction? hp)
  exact ⟨low (w.wired.output k e he), low (w.wired.input k e he)⟩

end Old

namespace Sprouted
variable {n : NodeId} {y : Attribute × Port} {new : List (Attribute × Port)} {x : Port → Prop}
  {g h : Graph} (s : Sprouted n (y :: new) x g h) (w : g.WellFormed) (w' : h.WellFormed)
  (wires : h.wires = g.wires)
include s

theorem peer_first : h.peer? ⟨n, g.width n⟩ = some y.2 :=
  (s.peer _ _).2 (.inr ⟨0, y, rfl, .inl ⟨rfl, rfl⟩⟩)

include w'

theorem terminal_ne {z : Attribute × Port} (hz : z ∈ y :: new) : z.2.node ≠ n := by
  obtain ⟨j, hj⟩ := List.mem_iff_getElem?.1 hz
  have face := (s.peer _ _).2 (.inr ⟨j, z, hj, .inl ⟨rfl, rfl⟩⟩)
  exact Ne.symm (peer_node_ne w' face)

include w

/-- The terminal of the first new port faces nothing else. -/
theorem peer_drop {p q : Port} :
    (p.moved n (unshift (g.width n)) ≠ y.2 ∧ ∃ r, h.peer? (p.moved n (unshift (g.width n))) = some r ∧
      q = r.moved n (Layout.shift (g.width n))) ↔
    g.peer? p = some q ∨ ∃ j z, new[j]? = some z ∧
      (p = ⟨n, g.width n + j⟩ ∧ q = z.2 ∨ p = z.2 ∧ q = ⟨n, g.width n + j⟩) := by
  have first : h.peer? y.2 = some ⟨n, g.width n⟩ := w'.linked.back _ _ s.peer_first
  constructor
  · rintro ⟨other, r, hr, rfl⟩
    rw [s.peer, exists_getElem?_cons] at hr
    rcases hr with hr | (⟨hp, -⟩ | ⟨hp, -⟩) | ⟨j, z, hz, ⟨hp, rfl⟩ | ⟨hp, rfl⟩⟩
    · obtain ⟨hp, hq⟩ := low_of_peer? w n hr
      rw [eq_of_moved_unshift hp] at hr
      rw [(moved_of_lt hq).2]
      exact .inl hr
    · exact absurd hp (moved_unshift_ne n _ p)
    · exact absurd hp other
    · have far := s.terminal_ne w' (List.mem_cons_of_mem _ (List.mem_of_getElem? hz))
      exact .inr ⟨j, z, hz, .inl ⟨moved_unshift_eq_iff.1 hp, moved_of_ne _ far⟩⟩
    · have far := s.terminal_ne w' (List.mem_cons_of_mem _ (List.mem_of_getElem? hz))
      have here : p.node ≠ n := by
        rw [← node_moved p n (unshift (g.width n)), hp]
        exact far
      rw [moved_of_ne _ here] at hp
      exact .inr ⟨j, z, hz, .inr ⟨hp, moved_shift_succ⟩⟩
  · rintro (hp | ⟨j, z, hz, ⟨rfl, rfl⟩ | ⟨rfl, rfl⟩⟩)
    · obtain ⟨low, low'⟩ := low_of_peer? w n hp
      rw [(moved_of_lt low).1]
      have there := (s.peer p q).2 (.inl hp)
      refine ⟨?_, q, there, (moved_of_lt low').2.symm⟩
      rintro rfl
      rw [first, Option.some.injEq] at there
      subst there
      exact Nat.lt_irrefl _ (low' rfl)
    · have far := s.terminal_ne w' (List.mem_cons_of_mem _ (List.mem_of_getElem? hz))
      rw [moved_unshift_eq_iff.2 rfl]
      refine ⟨fun same => s.terminal_ne w' List.mem_cons_self (congrArg Port.node same).symm, z.2, ?_,
        (moved_of_ne _ far).symm⟩
      exact (s.peer _ _).2 (.inr ⟨j + 1, z, hz, .inl ⟨rfl, rfl⟩⟩)
    · have far := s.terminal_ne w' (List.mem_cons_of_mem _ (List.mem_of_getElem? hz))
      have there := (s.peer _ _).2 (.inr ⟨j + 1, z, hz, .inr ⟨rfl, rfl⟩⟩)
      rw [moved_of_ne _ far]
      refine ⟨fun same => ?_, _, there, moved_shift_succ.symm⟩
      rw [same, first] at there
      simp at there

include wires

omit s w' in
theorem bare_first : ¬ h.Connected ⟨n, g.width n⟩ := by
  rintro ⟨q, ⟨k, hf⟩ | ⟨k, hf⟩⟩
  · rw [wires] at hf
    exact Nat.lt_irrefl _ ((low_of_mem_wires w n hf).1 rfl)
  · rw [wires] at hf
    exact Nat.lt_irrefl _ ((low_of_mem_wires w n hf).2 rfl)

theorem drop : Sprouted n new x g (h.dropPort ⟨n, g.width n⟩) ∧
    (h.dropPort ⟨n, g.width n⟩).wires = g.wires := by
  have bare := bare_first (n := n) w wires
  obtain ⟨g₁, g₂, a, w₁, r, eq⟩ := dropped w' s.peer_first bare
  have frame := g₂.sameFrame_emit (.metadataChanged n)
  have there {p : Port} (live : (g.attr? p).isSome) : p.moved n (unshift (g.width n)) = p :=
    (moved_of_lt fun hn => hn ▸ index_lt_width live).1
  refine ⟨?_, ?_⟩
  · constructor
    case tree => exact s.tree.trans (sameTree_dropPort w' s.peer_first bare)
    case type =>
      intro k
      rw [type?_dropPort, s.type]
      split
      · next hk =>
        subst hk
        cases ht : g.type? k with
        | none => rfl
        | some t =>
          have sound := w.sound k t ht
          simp only [Option.map_some, List.map_cons, width, ht, Option.elim_some]
          rw [sound.without_extend]
      · rfl
    case peer =>
      intro p q
      rw [eq, frame.peer, r.peer, a.peer, ← s.peer_drop w w']
      have away := moved_unshift_ne n (g.width n) p
      by_cases hp : p.moved n (unshift (g.width n)) = y.2
      · simp [hp]
      · simp [hp, away, eq_comm]
    case stale =>
      intro p hp
      have same : (h.dropPort ⟨n, g.width n⟩).isStale p = h.isStale p := by
        rw [eq, (quiet_emit _ _).isStale, r.isStale, a.isStale, there (isSome_attr?_of_isStale hp)]
      rw [same, s.stale p hp]
    case held =>
      intro p live hp
      rw [eq, (quiet_emit _ _).held, r.held, a.held, there live, s.held p live hp]
  · funext k
    rw [eq, frame.wires, r.wires, a.wires, wires, List.map_congr_left (g := id), List.map_id]
    intro e he
    obtain ⟨low, low'⟩ := low_of_mem_wires w n he
    rw [Edge.mapPorts, (moved_of_lt low).2, (moved_of_lt low').2]
    rfl

end Sprouted

/-! ### From the wire to the port that it brings -/

namespace Sprouted
variable {n : NodeId} {new : List (Attribute × Port)} {x : Port → Prop} {g h k : Graph}

/-- Without new ports nothing is new. -/
theorem same (s : Sprouted n [] x g h) (wires : h.wires = g.wires) : SameFrame g h where
  keys := s.tree.keys
  root := s.tree.root
  config := s.tree.config
  around := s.tree.around
  contents := by
    funext m
    have children := congrFun s.tree.children m
    have wires := congrFun wires m
    have network := s.tree.network m
    simp only [Graph.children, Graph.wires] at children wires
    cases hg : g.contents? m with
    | none => simpa [hg] using network
    | some w =>
      obtain ⟨w', hw'⟩ := Option.isSome_iff_exists.1 (network.trans (by rw [hg]; rfl))
      rw [hg, hw'] at children wires
      rw [hw']
      exact congrArg some (congr (congrArg Network.mk children) wires)
  type := by
    funext m
    rw [s.type]
    split
    · cases g.type? m with
      | none => rfl
      | some t => exact congrArg some t.extend_nil
    · rfl
  name := s.tree.name
  peer := by
    funext p
    refine Option.ext fun q => ?_
    simpa using s.peer p q

theorem peer_old (s : Sprouted n new x g h) {p : Port} (live : (g.attr? p).isSome)
    (other : ∀ y ∈ new, p ≠ y.2) : h.peer? p = g.peer? p := by
  refine Option.ext fun q => ?_
  rw [s.peer]
  constructor
  · rintro (hq | ⟨j, y, hy, ⟨rfl, -⟩ | ⟨rfl, -⟩⟩)
    · exact hq
    · exact absurd (index_lt_width live) (by simp)
    · exact absurd rfl (other y (List.mem_of_getElem? hy))
  · exact .inl

theorem grows (s : Sprouted n new x g h) {side : Direction} {p : Port} (live : (g.attr? p).isSome)
    (other : ∀ y ∈ new, p ≠ y.2) : h.grows side p = g.grows side p := by
  rw [Graph.grows, Graph.grows, s.terminal live, s.peer_old live other]

/-- The boundary grows where it has to. -/
theorem extend (s : Sprouted n new x g h) {side : Direction} {t : Port}
    (c : Extended side t n h k) : ∃ front, Sprouted n (new ++ front) x g k ∧
      (h.grows side t = false ∧ front = [] ∨ h.grows side t = true ∧ ∃ a, front = [(a, t)]) := by
  rcases c with ⟨no, rfl⟩ | ⟨i, a, c, r⟩
  · exact ⟨[], by rwa [List.append_nil], .inl ⟨no, rfl⟩⟩
  · exact ⟨[(a, t)], s.grow c r rfl, .inr ⟨grows_iff.2 ⟨r.terminal, r.free⟩, a, rfl⟩⟩

end Sprouted

/-! ### Drawn and removed again -/

section Ends
variable {g : Graph} (w : g.Lawful)
include w

theorem grows_output_iff {o : Port} (output : g.direction? o = some .output) :
    g.grows .input o = true ↔ g.terminal? o = some .input ∧ g.sinks o = [] := by
  rw [grows_iff]
  refine and_congr_right fun terminal => ?_
  rw [← Option.not_isSome_iff_eq_none, w.fitted o (by rw [terminal]; rfl)]
  refine ⟨fun bare => ?_, not_connected_of_sinks w.wellFormed.wired output⟩
  refine List.eq_nil_iff_forall_not_mem.2 fun i hi => bare ⟨i, .inl ?_⟩
  exact (mem_sinks_iff w.wellFormed.wired o i).1 hi

theorem grows_input_iff {i : Port} (input : g.direction? i = some .input)
    (free : g.source? i = none) : g.grows .output i = true ↔ g.terminal? i = some .output := by
  rw [grows_iff]
  refine and_iff_left_of_imp fun terminal => ?_
  rw [← Option.not_isSome_iff_eq_none, w.fitted i (by rw [terminal]; rfl)]
  rintro ⟨q, hf | hf⟩
  · have output := hf.output w.wellFormed.wired
    rw [input] at output
    cases output
  · exact (source?_eq_none_iff w.wellFormed.wired i).1 free q hf

end Ends

/-- What the port holds may have changed when the wire has come and gone. -/
def Pliant (g : Graph) (e : Edge) (p : Port) : Prop :=
  ∃ a, g.attr? p = some a ∧
    (p = e.input ∧ (a.type = none ∨ a.serializable = false) ∨ p = e.output ∧ a.type = none)

theorem held_seedEnds_of_not_pliant {g : Graph} {e : Edge} {q : Port} (live : (g.attr? q).isSome)
    (hq : ¬ g.Pliant e q) : (g.seedEnds e).held q = g.held q := by
  obtain ⟨a, ha⟩ := Option.isSome_iff_exists.1 live
  have typed (ends : q = e.input ∨ q = e.output) : (g.declaredType q).isSome := by
    rw [declaredType_eq, ha, Option.bind_some, Option.isSome_iff_ne_none]
    exact fun untyped => hq ⟨a, ha, ends.imp (⟨·, .inl untyped⟩) (⟨·, untyped⟩)⟩
  exact held_seedEnds_of_typed (fun ho => typed (.inr ho)) fun hi => typed (.inl hi)

section Drawn
variable {g g₁ g₂ g₃ g₄ h : Graph} {n : NodeId} {e : Edge} (x : Drawn n e g g₁ g₂ g₃ g₄ h)
include x

/-- The new ports of a new wire. -/
theorem Drawn.sprouted (d : Drawable n e g) : ∃ front back,
    Sprouted n (front ++ back) (g.Pliant e) g h ∧
    (g.grows .input e.output = false ∧ front = [] ∨
      g.grows .input e.output = true ∧ ∃ a, front = [(a, e.output)]) ∧
    (g.grows .output e.input = false ∧ back = [] ∨
      g.grows .output e.input = true ∧ ∃ a, back = [(a, e.input)]) := by
  have ne : e.input ≠ e.output := by
    intro same
    have output := d.output
    rw [← same, d.input] at output
    cases output
  have s₁ : Sprouted n [] (g.Pliant e) g g₁ :=
    (Sprouted.refl n _ g).step x.wire.tree x.wire.type x.wire.peer
      (fun p hp => by rwa [x.wire.isStale]) fun p _ _ => congrFun x.wire.held p
  have s₂ : Sprouted n [] (g.Pliant e) g g₂ := by
    refine s₁.step (.of_sameFrame x.frame₂) x.frame₂.type x.frame₂.peer (fun p hp => ?_)
      fun p old hp => ?_
    · rwa [x.seeds, isStale_seedEnds]
    · rw [x.seeds]
      refine held_seedEnds_of_not_pliant (by rwa [x.wire.attr]) ?_
      rwa [Pliant, x.wire.attr]
  obtain ⟨front, s₃, atOutput⟩ := s₂.extend x.atOutput
  obtain ⟨back, s₄, atInput⟩ := s₃.extend x.atInput
  rw [List.nil_append] at s₃ s₄
  rw [s₂.grows (isSome_of_direction? d.output) (by simp)] at atOutput
  rw [s₃.grows (isSome_of_direction? d.input)] at atInput
  · refine ⟨front, back, ?_, atOutput, atInput⟩
    refine s₄.step (.of_sameFrame x.frame₄) x.frame₄.type x.frame₄.peer (fun p hp => ?_) fun p _ _ => ?_
    · rw [x.spread, (quiet_emit _ _).isStale]
      exact isStale_spread_of_isStale _ _ _ (isStale_spread_of_isStale _ _ _ hp)
    · rw [x.spread, (quiet_emit _ _).held, spreadFrom, held_spread, spreadFrom, held_spread]
  · rintro y hy
    rcases atOutput with ⟨-, rfl⟩ | ⟨-, a, rfl⟩
    · cases hy
    · rw [List.mem_singleton.1 hy]
      exact ne

end Drawn

/-- The wire that brought the new ports is gone. -/
structure Leftover (n : NodeId) (new : List (Attribute × Port)) (x : Port → Prop) (g h : Graph) : Prop
    extends Sprouted n new x g h where
  wires : h.wires = g.wires
  wellFormed : h.WellFormed

section Leftover
variable {n : NodeId} {x : Port → Prop} {new : List (Attribute × Port)} {g h : Graph}

/-- A wire between a drawn one and its removal leaves no trace among the wires. -/
theorem leftover_sever {e : Edge} (s : Sprouted n new (g.Pliant e) g h) (w : h.WellFormed)
    (wires : ∀ k, h.wires k = if k = n then (g.wires k).add e else g.wires k)
    (fresh : e ∉ g.wires n) : Leftover n new (g.Pliant e) g (h.sever e) := by
  have he : e ∈ h.wires n := by simp [wires, Wiring.add]
  have kept : Sprouted n new (g.Pliant e) g (h.sever e) := by
    refine s.step (sameTree_sever w he) (type?_sever w he) (peer?_sever w he)
      (fun p hp => isStale_sever w he (.inr hp)) fun p live hp => held_sever w he ?_
    rintro ⟨a, ha, cause⟩
    rw [attr?_sever w he, s.attr live] at ha
    exact hp ⟨a, ha, cause.imp id fun h => ⟨h.1, h.2.1⟩⟩
  refine ⟨kept, ?_, wellFormed_sever w he⟩
  funext k
  rw [wires_sever w he, wires]
  split
  · next hk =>
    subst hk
    rw [Wiring.add, List.erase_append_right _ fresh, List.erase_cons_head, List.append_nil]
  · rfl

/-- With the peer of its first new port gone, a network has one new port less. -/
theorem Leftover.shed {y : Attribute × Port} (s : Leftover n (y :: new) x g h) (w : g.WellFormed)
    (cut : Graph → Edge → Graph) : Leftover n new x g (shrinkAt cut h y.2) := by
  have first := s.peer_first
  have bare := Sprouted.bare_first (n := n) w s.wires
  have none : (h.wiresAround n).filter (Edge.endsAt ⟨n, g.width n⟩) = [] := by
    rw [List.filter_eq_nil_iff]
    intro e he ends
    refine bare ((isConnected_iff s.wellFormed.wired ⟨n, g.width n⟩).1 ?_)
    exact List.any_eq_true.2 ⟨e, he, ends⟩
  obtain ⟨sprouted, wires⟩ := s.drop w s.wellFormed s.wires
  rw [shrinkAt, s.wellFormed.linked.back _ _ first]
  simp only [dropBoundary_eq, none, List.foldl_nil]
  exact ⟨sprouted, wires, wellFormed_dropPort s.wellFormed first bare⟩

/-- The boundary gives up just what it has grown. -/
theorem Leftover.shrink {front : List (Attribute × Port)} {t : Port} {c : Prop} [Decidable c]
    {grows : Bool} (s : Leftover n (front ++ new) x g h) (w : g.WellFormed)
    (cut : Graph → Edge → Graph) (why : c ↔ grows = true)
    (grown : grows = false ∧ front = [] ∨ grows = true ∧ ∃ a, front = [(a, t)]) :
    Leftover n new x g (if c then shrinkAt cut h t else h) := by
  rcases grown with ⟨rfl, rfl⟩ | ⟨rfl, a, rfl⟩
  · rwa [if_neg fun hc => Bool.false_ne_true (why.1 hc)]
  · rw [if_pos (why.2 rfl)]
    exact s.shed w cut

theorem Leftover.sinks (s : Leftover n new x g h) : h.sinks = g.sinks := by
  funext o
  rw [Graph.sinks, Graph.sinks, wiresAround_eq, wiresAround_eq, s.wires, s.tree.around]

end Leftover

/-- All that came with the wire goes with it. -/
theorem Drawn.leftover_cut {g g₁ g₂ g₃ g₄ h : Graph} {n : NodeId} {e : Edge}
    (x : Drawn n e g g₁ g₂ g₃ g₄ h) (d : Drawable n e g) (w : g.Lawful) :
    Leftover n [] (g.Pliant e) g (h.cut e) := by
  have wf := w.wellFormed
  have wf' := x.wellFormed d wf
  obtain ⟨front, back, s, atOutput, atInput⟩ := x.sprouted d
  have fresh : e ∉ g.wires n := fun he =>
    (source?_eq_none_iff wf.wired e.input).1 d.free e.output ⟨n, he⟩
  have severed := leftover_sever s wf' x.wires fresh
  have wire : h.Feeds e.output e.input := (x.feeds _ _).2 (.inr ⟨rfl, rfl⟩)
  obtain ⟨levels, hl⟩ : ∃ levels, h.nodes.length = levels + 1 := by
    refine Nat.exists_eq_succ_of_ne_zero fun none => ?_
    obtain ⟨t, ht⟩ := exists_type?_of_direction? (wire.output wf'.wired)
    have low : h.rank e.output.node < h.nodes.length := rank_lt_length (by rw [ht]; rfl)
    omega
  -- the end from which the wire came, and then the one to which it led
  have less : Leftover n back (g.Pliant e) g
      (shrinkOutput (cutWithin levels) (h.sever e) e.output) := by
    refine severed.shrink wf _ ?_ atOutput
    rw [severed.terminal (isSome_of_direction? d.output), severed.sinks, grows_output_iff w d.output]
  have none : Leftover n [] (g.Pliant e) g
      (shrinkInput (cutWithin levels) (shrinkOutput (cutWithin levels) (h.sever e) e.output)
        e.input) := by
    rw [← back.append_nil] at less
    refine less.shrink wf _ ?_ atInput
    rw [less.terminal (isSome_of_direction? d.input), grows_input_iff w d.input d.free]
  rw [cut, hl, cutWithin_succ wf' wire, shrinkBoundary_eq]
  have news := quiet_emit (shrinkInput (cutWithin levels)
    (shrinkOutput (cutWithin levels) (h.sever e) e.output) e.input) (.disconnected e.output e.input)
  refine ⟨none.step (.of_sameFrame news.frame) news.frame.type news.frame.peer (fun p hp => ?_)
    fun p _ _ => congrFun news.held p, news.frame.wires.trans none.wires,
    news.frame.wellFormed none.wellFormed⟩
  rwa [news.isStale]

/-- Whenever a wire can be drawn it can be removed again. Then every network has the same nodes and
the same wires in their order, every node has its attributes, with their influences, and its status,
and every port has its peer and its resolved type. All ports hold what they held, except for an input
without a type or left out of documents to which the wire led, and an output without a type from which
it came. What was out of date is so still. -/
theorem connect_disconnect {g h : Graph} (run : Grown g) {o i : Port} (ok : g.connect o i = .ok h) :
    ∃ k, h.disconnect o i = .ok k ∧ SameFrame g k ∧ k.effectiveType = g.effectiveType ∧ Aside g k ∧
      (∀ p, (g.attr? p).isSome → ¬ g.Pliant ⟨o, i⟩ p → k.held p = g.held p) ∧
      ∀ p, g.isStale p = true → k.isStale p = true := by
  have w := (acyclic_of_grown run).lawful
  obtain ⟨rfl, n, d⟩ : h = g.drawWire ⟨o, i⟩ ∧ ∃ n, Drawable n ⟨o, i⟩ g := by
    simp only [connect, bind, Except.bind] at ok
    split at ok
    · cases ok
    · next check => exact ⟨(Except.ok.inj ok).symm, checkConnect_ok check⟩
  obtain ⟨g₁, g₂, g₃, g₄, x⟩ := drawn d w.wellFormed
  have wire : (g.drawWire ⟨o, i⟩).Feeds o i := (x.feeds o i).2 (.inr ⟨rfl, rfl⟩)
  have left := x.leftover_cut d w
  have frame := left.same left.wires
  exact ⟨_, disconnect_of_feeds (x.wellFormed d w.wellFormed) wire, frame,
    frame.effectiveType w.wellFormed.tree, (Aside.drawWire g _).trans (.cutWithin _ _ _),
    left.held, left.stale⟩

/-- A network with an input node and a relay that it does not feed. -/
def unwiredRelay : Graph :=
  let g := (Action.addNetwork ⟨1⟩ "n").after (create .standard .start 0 [])
  let g := (Action.addNode ⟨2⟩ .networkInput "x" .standard).after g
  (Action.addNode ⟨2⟩ relay "a" .standard).after g

/-- With the wire inside, a port of the network comes and goes. -/
theorem unwiredRelay_restored : ∃ h k, unwiredRelay.connect ⟨⟨3⟩, 0⟩ ⟨⟨4⟩, 0⟩ = .ok h ∧
    h.disconnect ⟨⟨3⟩, 0⟩ ⟨⟨4⟩, 0⟩ = .ok k ∧ SameFrame unwiredRelay k ∧
    (h.attr? ⟨⟨2⟩, 0⟩).map Attribute.name = some "x" ∧ k.attr? ⟨⟨2⟩, 0⟩ = none := by
  have input : NodeType.networkInput.Sound := NodeType.standard_networkInput.sound
  have run : Grown unwiredRelay := .step (.step (.step (.start ..) sound_network) input) sound_relay
  have drawn : (unwiredRelay.connect ⟨⟨3⟩, 0⟩ ⟨⟨4⟩, 0⟩).map (fun h =>
      (h.attr? ⟨⟨2⟩, 0⟩).map Attribute.name) = .ok (some "x") := by cbv
  have bare : unwiredRelay.attr? ⟨⟨2⟩, 0⟩ = none := by cbv
  cases ok : unwiredRelay.connect ⟨⟨3⟩, 0⟩ ⟨⟨4⟩, 0⟩ with
  | error x =>
    rw [ok] at drawn
    cases drawn
  | ok h =>
    rw [ok] at drawn
    obtain ⟨k, undone, frame, -⟩ := connect_disconnect run ok
    exact ⟨h, k, rfl, undone, frame, Except.ok.inj drawn, by rw [frame.attr, bare]⟩

end Graph
end Dataflow
