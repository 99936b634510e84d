import Dataflow.Proofs.Run
set_option autoImplicit false

/-!
Graphs in which nodes named as parts of networks are of the types that networks are made of. Main
statements: then the ports of a network are the peers of its terminals and carry their names, their
values are serializable, nothing is computed or influenced on networks and terminals, and all this
holds in every run.
-/

namespace Dataflow

/-- A type that is named as a part of networks is that part. -/
structure NodeType.Standard (t : NodeType) : Prop where
  sound : t.Sound
  input : t.name = networkInput.name → t = networkInput
  output : t.name = networkOutput.name → t = networkOutput
  network : t.name = NodeType.network.name → t = .network

namespace NodeType

/-- A type of another name is no part of networks. -/
theorem Standard.of_name {t : NodeType} (s : t.Sound) (hi : t.name ≠ networkInput.name)
    (ho : t.name ≠ networkOutput.name) (hn : t.name ≠ NodeType.network.name) : t.Standard :=
  ⟨s, (absurd · hi), (absurd · ho), (absurd · hn)⟩

theorem standard_networkInput : networkInput.Standard :=
  ⟨⟨by decide, by decide, by decide⟩, fun _ => rfl, (absurd · (by decide)), (absurd · (by decide))⟩

theorem standard_networkOutput : networkOutput.Standard :=
  ⟨⟨by decide, by decide, by decide⟩, (absurd · (by decide)), fun _ => rfl, (absurd · (by decide))⟩

theorem standard_network : NodeType.network.Standard :=
  ⟨Graph.sound_network, (absurd · (by decide)), (absurd · (by decide)), fun _ => rfl⟩

end NodeType

namespace Graph

/-- Networks and their terminals are as their boundaries make them. -/
structure Standard (g : Graph) : Prop where
  input : ∀ n t, g.type? n = some t → t.name = NodeType.networkInput.name → t = .networkInput
  output : ∀ n t, g.type? n = some t → t.name = NodeType.networkOutput.name → t = .networkOutput
  inert : ∀ n t, g.type? n = some t → (g.contents? n).isSome → t.compute = none
  apart : ∀ p q, g.Influences p q → g.contents? p.node = none
  projected : ∀ p, (g.contents? p.node).isSome → (g.attr? p).isSome → (g.peer? p).isSome
  named : ∀ b t, g.peer? b = some t → (g.contents? b.node).isSome →
    (g.attr? b).map Attribute.name = g.name? t.node
  serial : ∀ p a, (g.contents? p.node).isSome → g.attr? p = some a → a.serializable = true

section Types
variable {g : Graph} (s : g.Standard)
include s

theorem Standard.index {p : Port} {side : Direction} (h : g.terminal? p = some side) :
    p.index = 0 := by
  obtain ⟨t, ht, hk⟩ := terminal?_eq_some_iff.1 h
  have live := (terminal?_direction h).2
  rw [direction?_eq, attr?_eq, ht, Option.isSome_map, Option.bind_some] at live
  have one : t.ports.length = 1 := by
    rcases hk with ⟨-, -, hn⟩ | ⟨-, -, hn⟩
    · rw [s.input _ t ht hn]
      rfl
    · rw [s.output _ t ht hn]
      rfl
  have : p.index < t.ports.length := by
    simpa [Layout.get?, Layout.length] using live
  omega

/-- A port with a peer is on a node that computes nothing and has no influences. -/
theorem Standard.of_peer? (w : g.WellFormed) {p q : Port} {t : NodeType}
    (h : g.peer? p = some q) (ht : g.type? p.node = some t) :
    t.compute = none ∧ t.ports.influences = [] := by
  rcases w.linked.faces p q h with hf | hf
  · obtain ⟨side, hs, -⟩ := hf
    obtain ⟨u, hu, hk⟩ := terminal?_eq_some_iff.1 hs
    rw [ht] at hu
    obtain rfl := Option.some.inj hu
    rcases hk with ⟨-, -, hn⟩ | ⟨-, -, hn⟩
    · rw [s.input _ t ht hn]
      exact ⟨rfl, rfl⟩
    · rw [s.output _ t ht hn]
      exact ⟨rfl, rfl⟩
  · have inside := hf.isSome_contents? w.tree
    refine ⟨s.inert _ t ht inside, ?_⟩
    cases hi : t.ports.influences with
    | nil => rfl
    | cons x l =>
      have := s.apart ⟨p.node, x.1⟩ ⟨p.node, x.2⟩ ⟨rfl, t, ht, by simp [hi]⟩
      simp [this] at inside

/-- An output with a peer has its value from there. -/
theorem Standard.flows_iff (w : g.WellFormed) {p q r : Port} (hd : g.direction? q = some .output)
    (hq : g.peer? q = some r) : g.Flows p q ↔ p = r := by
  constructor
  · rintro (⟨hn, t, ht, hm⟩ | hf | ⟨-, hf⟩)
    · rw [hn] at ht
      rw [(s.of_peer? w hq ht).2] at hm
      cases hm
    · simp [hf.input w.wired] at hd
    · have := w.linked.back _ _ hf
      rw [hq, Option.some.injEq] at this
      exact this.symm
  · rintro rfl
    have ne := peer_direction_ne w.linked hq
    have live := isSome_attr?_of_peer? g (w.linked.back _ _ hq)
    refine .inr (.inr ⟨?_, w.linked.back _ _ hq⟩)
    rw [hd] at ne
    rw [direction?_eq] at ne ⊢
    obtain ⟨a, ha⟩ := Option.isSome_iff_exists.1 live
    rw [ha] at ne ⊢
    cases had : a.direction <;> simp_all

end Types

/-! ### Steps -/

section Steps
variable {g h : Graph}

theorem SameFrame.standard (a : SameFrame g h) (s : g.Standard) : h.Standard := by
  constructor
  · rw [a.type]; exact s.input
  · rw [a.type]; exact s.output
  · rw [a.type, a.contents]; exact s.inert
  · rw [a.influences, a.contents]; exact s.apart
  · rw [a.contents, a.attr, a.peer]; exact s.projected
  · rw [a.peer, a.contents, a.attr, a.name]; exact s.named
  · rw [a.contents, a.attr]; exact s.serial

theorem Rewired.standard {n : NodeId} {f : Wiring → Wiring} (a : Rewired n f g h)
    (s : g.Standard) : h.Standard := by
  have absent (k : NodeId) (hk : g.contents? k = none) : h.contents? k = none := by
    have := a.tree.network k
    rw [hk] at this
    simpa using this
  constructor
  case input => rw [a.type]; exact s.input
  case output => rw [a.type]; exact s.output
  case inert =>
    intro n t ht hc
    rw [a.type] at ht
    rw [a.tree.network] at hc
    exact s.inert n t ht hc
  case apart =>
    intro p q hi
    rw [a.influences] at hi
    exact absent _ (s.apart p q hi)
  case projected =>
    intro p hc ha
    rw [a.tree.network] at hc
    rw [a.attr] at ha
    rw [a.peer]
    exact s.projected p hc ha
  case named =>
    intro b t hp hc
    rw [a.peer] at hp
    rw [a.tree.network] at hc
    rw [a.attr, a.tree.name]
    exact s.named b t hp hc
  case serial =>
    intro p b hc hb
    rw [a.tree.network] at hc
    rw [a.attr] at hb
    exact s.serial p b hc hb

theorem Growth.standard {side : Direction} {t b : Port} {a : Attribute}
    (c : Growth side t b a g h) (r : Growth.Ready side t b a g) (w : g.WellFormed)
    (s : g.Standard) : h.Standard := by
  have inside := r.isSome_contents? w
  -- the node whose type changes is a network
  have part {n : NodeId} {u : NodeType} (hu : h.type? n = some u)
      (hn : u.name ≠ NodeType.network.name) : g.type? n = some u := by
    rw [c.type] at hu
    split at hu
    · next hk =>
      obtain ⟨v, hv, rfl⟩ := Option.map_eq_some_iff.1 hu
      subst hk
      exact absurd ((w.tree.kind _ v hv).1 inside) hn
    · exact hu
  constructor
  case input =>
    intro n u hu hn
    exact s.input n u (part hu (by rw [hn]; decide)) hn
  case output =>
    intro n u hu hn
    exact s.output n u (part hu (by rw [hn]; decide)) hn
  case inert =>
    intro n u hu hc
    rw [c.contents] at hc
    rw [c.type] at hu
    split at hu
    · obtain ⟨v, hv, rfl⟩ := Option.map_eq_some_iff.1 hu
      exact s.inert n v hv hc
    · exact s.inert n u hu hc
  case apart =>
    intro p q hi
    rw [c.influences] at hi
    rw [c.contents]
    exact s.apart p q hi
  case projected =>
    intro p hc ha
    rw [c.contents] at hc
    rw [c.peer r]
    split
    · rfl
    · next hpb =>
      rw [c.attr, if_neg hpb] at ha
      split
      · rfl
      · exact s.projected p hc ha
  case named =>
    intro p q hp hc
    rw [c.contents] at hc
    rw [c.attr, c.tree.name]
    have hpt : p ≠ t := by
      rintro rfl
      have := contents?_of_terminal? w.tree (p := p) (by simp [r.terminal])
      simp [this] at hc
    rcases (c.peer_eq_some_iff r p q).1 hp with hp | ⟨rfl, rfl⟩ | ⟨h, -⟩
    · have hpb : p ≠ b := by
        rintro rfl
        simp [peer?, c.fresh] at hp
      rw [if_neg hpb]
      exact s.named p q hp hc
    · rw [if_pos rfl, c.name]
      rfl
    · exact absurd h hpt
  case serial =>
    intro p x hc hx
    rw [c.contents] at hc
    rw [c.attr] at hx
    split at hx
    · cases hx
      exact c.serial
    · exact s.serial p x hc hx

theorem Extended.standard {side : Direction} {p : Port} {n : NodeId}
    (x : Extended side p n g h) (w : g.WellFormed) (s : g.Standard) : h.Standard :=
  x.elim s fun _ _ c r => c.standard r w s

theorem Drawn.standard {g₁ g₂ g₃ g₄ : Graph} {n : NodeId} {e : Edge}
    (x : Drawn n e g g₁ g₂ g₃ g₄ h) (d : Drawable n e g) (w : g.WellFormed) (s : g.Standard) :
    h.Standard :=
  x.frame₄.standard (x.atInput.standard (x.wellFormed₃ d w)
    (x.atOutput.standard (x.wellFormed₂ d w) (x.frame₂.standard (x.wire.standard s))))

theorem Inserted.standard {id parent : NodeId} {t : NodeType} {name : String}
    {values : Datablock} (x : Inserted id parent t name values g h)
    (a : Insertable id parent t name values g) (ht : t.Standard) (w : g.WellFormed)
    (s : g.Standard) : h.Standard := by
  have old {k : NodeId} (hk : k ≠ id) : (h.contents? k).isSome = (g.contents? k).isSome := by
    rw [x.contents, if_neg hk]
    split
    · rw [Option.isSome_map]
    · rfl
  have network (hc : (h.contents? id).isSome) : t = .network := by
    rw [x.contents, if_pos rfl] at hc
    split at hc
    · next hn => exact ht.network hn
    · cases hc
  constructor
  case input =>
    intro n u hu hn
    rw [x.type] at hu
    split at hu
    · cases hu
      exact ht.input hn
    · exact s.input n u hu hn
  case output =>
    intro n u hu hn
    rw [x.type] at hu
    split at hu
    · cases hu
      exact ht.output hn
    · exact s.output n u hu hn
  case inert =>
    intro n u hu hc
    rw [x.type] at hu
    split at hu
    · next hn =>
      subst hn
      cases hu
      rw [network hc]
      rfl
    · next hn => exact s.inert n u hu (old hn ▸ hc)
  case apart =>
    rintro p q ⟨hn, u, hu, hm⟩
    rw [x.type] at hu
    split at hu
    · next hp =>
      cases hu
      cases hc : h.contents? p.node with
      | none => rfl
      | some c =>
        rw [hp] at hc
        rw [network (by simp [hc])] at hm
        cases hm
    · next hp =>
      have := s.apart p q ⟨hn, u, hu, hm⟩
      have same := old hp
      rw [this] at same
      simpa using same
  case projected =>
    intro p hc ha
    by_cases hp : p.node = id
    · rw [hp] at hc
      rw [attr?_eq, x.type, if_pos hp, network hc] at ha
      simp [NodeType.network, NodeType.plain, Layout.empty, Layout.get?] at ha
    · rw [x.peer a]
      refine s.projected p (old hp ▸ hc) ?_
      rw [attr?, ← x.slot p hp]
      exact ha
  case named =>
    intro b q hp hc
    rw [x.peer a] at hp
    have live {p r : Port} (h : g.peer? p = some r) : p.node ≠ id := by
      refine a.node_ne ?_
      rw [direction?_eq, Option.isSome_map]
      exact isSome_attr?_of_peer? g h
    have hb := live hp
    have hq := live (w.linked.back _ _ hp)
    rw [attr?, x.slot b hb, x.name, if_neg hq]
    exact s.named b q hp (old hb ▸ hc)
  case serial =>
    intro p b hc hb
    by_cases hp : p.node = id
    · rw [hp] at hc
      rw [attr?_eq, x.type, if_pos hp, network hc] at hb
      simp [NodeType.network, NodeType.plain, Layout.empty, Layout.get?] at hb
    · rw [attr?, x.slot p hp] at hb
      exact s.serial p b (old hp ▸ hc) hb

theorem Removed.standard {n : NodeId} (x : Removed n g h) (b : Bare n g) (w : g.WellFormed)
    (s : g.Standard) : h.Standard := by
  have type {k : NodeId} {t : NodeType} (ht : h.type? k = some t) : k ≠ n ∧ g.type? k = some t := by
    rw [x.type] at ht
    split at ht
    · cases ht
    · next hk => exact ⟨hk, ht⟩
  have inside {k : NodeId} (hc : (h.contents? k).isSome) : k ≠ n ∧ (g.contents? k).isSome := by
    rw [x.contents] at hc
    split at hc
    · cases hc
    · next hk =>
      refine ⟨hk, ?_⟩
      split at hc
      · rwa [Option.isSome_map] at hc
      · exact hc
  constructor
  case input => exact fun k t ht => s.input k t (type ht).2
  case output => exact fun k t ht => s.output k t (type ht).2
  case inert => exact fun k t ht hc => s.inert k t (type ht).2 (inside hc).2
  case apart =>
    rintro p q ⟨hn, t, ht, hm⟩
    cases hc : h.contents? p.node with
    | none => rfl
    | some c =>
      have old := (inside (k := p.node) (by simp [hc])).2
      simp [s.apart p q ⟨hn, t, (type ht).2, hm⟩] at old
  case projected =>
    intro p hc ha
    have hp := inside hc
    rw [x.peer b]
    refine s.projected p hp.2 ?_
    rw [attr?, x.slot, if_neg hp.1] at ha
    exact ha
  case named =>
    intro p q hp hc
    have hpn := inside hc
    rw [x.peer b] at hp
    have hqn : q.node ≠ n := by
      intro hq
      have := w.linked.back p q hp
      rw [b.alone q hq] at this
      cases this
    rw [attr?, x.slot, if_neg hpn.1, x.name, if_neg hqn]
    exact s.named p q hp hpn.2
  case serial =>
    intro p a hc ha
    have hp := inside hc
    rw [attr?, x.slot, if_neg hp.1] at ha
    exact s.serial p a hp.2 ha

theorem Renumbered.standard {n : NodeId} {old new : Nat → Nat} (a : Renumbered n old new g h)
    (w : g.WellFormed) (more : ∀ t, g.type? n = some t → t.ports.length ≠ 1) (s : g.Standard) :
    h.Standard := by
  -- a terminal has one port, so the node is none
  have part {k : NodeId} {t u : NodeType} (hu : g.type? k = some u) (hn : t.name = u.name)
      (ht : h.type? k = some t) (one : u.ports.length = 1) : t = u := by
    have hk : k ≠ n := by
      rintro rfl
      exact more u hu one
    rw [a.type k hk, hu] at ht
    exact (Option.some.inj ht).symm
  have named {k : NodeId} {t : NodeType} (ht : h.type? k = some t) :
      ∃ u, g.type? k = some u ∧ t.name = u.name ∧ t.compute = u.compute := by
    have names := a.tree.typeName k
    have computes := a.tree.compute k
    rw [ht] at names computes
    obtain ⟨u, hu, hun⟩ := Option.map_eq_some_iff.1 names.symm
    rw [hu] at computes
    exact ⟨u, hu, hun.symm, Option.some.inj computes⟩
  constructor
  case input =>
    intro k t ht hn
    obtain ⟨u, hu, hun, -⟩ := named ht
    have hu' := s.input k u hu (hun ▸ hn)
    rw [part hu hun ht (by rw [hu']; rfl), hu']
  case output =>
    intro k t ht hn
    obtain ⟨u, hu, hun, -⟩ := named ht
    have hu' := s.output k u hu (hun ▸ hn)
    rw [part hu hun ht (by rw [hu']; rfl), hu']
  case inert =>
    intro k t ht hc
    obtain ⟨u, hu, -, hcompute⟩ := named ht
    rw [a.tree.network] at hc
    rw [hcompute]
    exact s.inert k u hu hc
  case apart =>
    intro p q hi
    have := s.apart _ _ (a.influences p q hi)
    rw [node_moved] at this
    have same := a.tree.network p.node
    rw [this] at same
    simpa using same
  case projected =>
    intro p hc ha
    rw [a.tree.network] at hc
    rw [a.attr] at ha
    rw [a.peer, Option.isSome_map]
    exact s.projected _ (by rw [node_moved]; exact hc) ha
  case named =>
    intro p q hp hc
    rw [a.tree.network] at hc
    have := s.named _ _ (a.peer_old w.linked hp) (by rw [node_moved]; exact hc)
    rw [node_moved] at this
    rw [a.attr, a.tree.name]
    exact this
  case serial =>
    intro p b hc hb
    rw [a.tree.network] at hc
    rw [a.attr] at hb
    exact s.serial _ b (by rw [node_moved]; exact hc) hb

/-- All other ports of the network keep their peers and names. -/
theorem standard_dropPort {b t : Port} (w : g.WellFormed) (hb : g.peer? b = some t)
    (hf : g.Faces t b) (hc : ¬ g.Connected b) (s : g.Standard) : (g.dropPort b).Standard := by
  obtain ⟨g₁, g₂, a, w₁, r, eq⟩ := dropped w hb hc
  rw [eq]
  have inside : (g.contents? b.node).isSome := hf.isSome_contents? w.tree
  refine (sameFrame_emit _ _).standard ?_
  have type {k : NodeId} {u : NodeType} (hu : g₂.type? k = some u)
      (hn : u.name ≠ NodeType.network.name) : g.type? k = some u := by
    have hk : k ≠ b.node := by
      rintro rfl
      refine hn (((r.tree.tree w₁.tree).kind _ u hu).1 ?_)
      rw [r.tree.network, a.contents]
      exact inside
    rw [← a.type, ← r.type k hk]
    exact hu
  have place (p : Port) : p.moved b.node (unshift b.index) ≠ b := by
    intro h
    by_cases hp : p.node = b.node
    · have := congrArg Port.index h
      simp only [Port.moved, hp, if_true, unshift] at this
      split at this <;> omega
    · rw [moved_of_ne _ hp] at h
      exact hp (congrArg Port.node h)
  have far {p : Port} (hp : (g.contents? p.node).isSome) :
      ¬ (p.moved b.node (unshift b.index) = b ∨ p.moved b.node (unshift b.index) = t) := by
    rintro (h | h)
    · exact place p h
    · have := contents?_of_terminal? w.tree hf.isSome_terminal?
      rw [← h, node_moved] at this
      simp [this] at hp
  constructor
  case input =>
    intro k u hu hn
    exact s.input k u (type hu (by rw [hn]; decide)) hn
  case output =>
    intro k u hu hn
    exact s.output k u (type hu (by rw [hn]; decide)) hn
  case inert =>
    intro k u hu hk
    rw [r.tree.network, a.contents] at hk
    have computes := r.tree.compute k
    rw [hu, a.type] at computes
    obtain ⟨v, hv, hvu⟩ := Option.map_eq_some_iff.1 computes.symm
    rw [← hvu]
    exact s.inert k v hv hk
  case apart =>
    intro p q hi
    have hi' := r.influences p q hi
    rw [a.influences] at hi'
    have := s.apart _ _ hi'
    rw [node_moved] at this
    have same := r.tree.network p.node
    rw [a.contents, this] at same
    simpa using same
  case projected =>
    intro p hp ha
    rw [r.tree.network, a.contents] at hp
    rw [r.attr, a.attr] at ha
    rw [r.peer, Option.isSome_map, a.peer, if_neg (far hp)]
    exact s.projected _ (by rw [node_moved]; exact hp) ha
  case named =>
    intro p q hpq hp
    rw [r.tree.network, a.contents] at hp
    have := s.named _ _ (a.peer_old (r.peer_old w₁.linked hpq)) (by rw [node_moved]; exact hp)
    rw [node_moved] at this
    rw [r.attr, a.attr, r.tree.name, a.tree.name]
    exact this
  case serial =>
    intro p c hp hc
    rw [r.tree.network, a.contents] at hp
    rw [r.attr, a.attr] at hc
    exact s.serial _ c (by rw [node_moved]; exact hp) hc

theorem exposed_of_some {n : NodeId} {b : Port} (hb : g.exposedPort? n = some b) :
    (g.terminal? ⟨n, 0⟩).isSome ∧ g.peer? ⟨n, 0⟩ = some b := by
  simp only [exposedPort?] at hb
  split at hb
  · next ht => exact ⟨ht, hb⟩
  · cases hb

/-- Only networks get other types, and those differ in names alone. -/
theorem Renamed.type_old {n : NodeId} {new : String} (x : Renamed n (g.exposedPort? n) new g h)
    (w : g.WellFormed) {k : NodeId} {t : NodeType} (ht : h.type? k = some t) :
    ∃ u, g.type? k = some u ∧ t.name = u.name ∧ t.compute = u.compute ∧
      (g.contents? k = none → t = u) := by
  rw [x.type] at ht
  obtain ⟨u, hu, rfl⟩ := Option.map_eq_some_iff.1 ht
  refine ⟨u, hu, ?_⟩
  cases hb : g.exposedPort? n with
  | none => exact ⟨rfl, rfl, fun _ => rfl⟩
  | some b =>
    simp only
    split
    · next hk =>
      refine ⟨rfl, rfl, fun outside => ?_⟩
      obtain ⟨hterm, hp⟩ := exposed_of_some hb
      have inside := (faces_of_terminal? w hp hterm).isSome_contents? w.tree
      rw [← hk, outside] at inside
      cases inside
    · exact ⟨rfl, rfl, fun _ => rfl⟩

theorem Renamed.standard {n : NodeId} {new : String} (x : Renamed n (g.exposedPort? n) new g h)
    (w : g.WellFormed) (s : g.Standard) : h.Standard := by
  have type {k : NodeId} {t : NodeType} (ht : h.type? k = some t) :
      ∃ u, g.type? k = some u ∧ t.name = u.name ∧ t.compute = u.compute ∧
        (u.name ≠ NodeType.network.name → t = u) := by
    obtain ⟨u, hu, hn, hc, same⟩ := x.type_old w ht
    refine ⟨u, hu, hn, hc, fun hne => same ?_⟩
    have kind := w.tree.kind k u hu
    cases hk : g.contents? k with
    | none => rfl
    | some c => exact absurd (kind.1 (by simp [hk])) hne
  have attr (p : Port) : h.attr? p = (g.attr? p).map fun a =>
      if some p = g.exposedPort? n then { a with name := new } else a := by
    simp only [attr?, x.slot, Option.map_map]
    cases g.slot? p with
    | none => rfl
    | some s =>
      simp only [Option.map_some, Function.comp_apply]
      split <;> rfl
  constructor
  case input =>
    intro k t ht hn
    obtain ⟨u, hu, hun, -, same⟩ := type ht
    rw [same (by rw [← hun, hn]; decide)]
    exact s.input k u hu (hun ▸ hn)
  case output =>
    intro k t ht hn
    obtain ⟨u, hu, hun, -, same⟩ := type ht
    rw [same (by rw [← hun, hn]; decide)]
    exact s.output k u hu (hun ▸ hn)
  case inert =>
    intro k t ht hc
    obtain ⟨u, hu, -, hcompute, -⟩ := type ht
    rw [x.contents] at hc
    rw [hcompute]
    exact s.inert k u hu hc
  case apart =>
    rw [x.influences, x.contents]
    exact s.apart
  case projected =>
    intro p hc ha
    rw [x.contents] at hc
    rw [attr, Option.isSome_map] at ha
    rw [x.peer]
    exact s.projected p hc ha
  case named =>
    intro b t hp hc
    rw [x.peer] at hp
    rw [x.contents] at hc
    have faces := faces_of_contents? w hp hc
    have back := w.linked.back b t hp
    -- the port that is renamed is the peer of the terminal that is renamed
    have same : some b = g.exposedPort? n ↔ t.node = n := by
      constructor
      · intro hb
        have := w.linked.back _ _ (exposed_of_some hb.symm).2
        rw [hp, Option.some.injEq] at this
        rw [this]
      · rintro rfl
        obtain ⟨side, hs, -⟩ := faces
        have ht : t = ⟨t.node, 0⟩ := by
          rw [← s.index hs]
        rw [exposedPort?, ← ht, if_pos (by simp [hs]), back]
    have old := s.named b t hp hc
    rw [attr, x.name, Option.map_map]
    by_cases hn : t.node = n
    · rw [if_pos hn]
      simp only [same.2 hn]
      obtain ⟨a, ha⟩ := Option.isSome_iff_exists.1 (isSome_attr?_of_peer? g hp)
      rw [ha] at old ⊢
      rw [← old]
      rfl
    · rw [if_neg hn, ← old]
      congr 1
      funext a
      simp only [Function.comp_apply]
      rw [if_neg (fun h => hn (same.1 h))]
  case serial =>
    intro p b hc hb
    rw [x.contents] at hc
    rw [attr] at hb
    obtain ⟨a, ha, rfl⟩ := Option.map_eq_some_iff.1 hb
    have old := s.serial p a hc ha
    split
    · exact old
    · exact old

theorem standard_create (config : Config) (ids : IdSupply) (marks : Nat) (calls : Table Nat Nat) :
    (create config ids marks calls).Standard := by
  have attr (p : Port) : (create config ids marks calls).attr? p = none := by
    simp [attr?, slot?_create]
  have peer (p : Port) : (create config ids marks calls).peer? p = none := by
    simp [peer?, slot?_create]
  constructor
  case input =>
    intro n t ht hn
    rw [type?_create _ _ _ _ n t ht] at hn
    exact absurd hn (by decide)
  case output =>
    intro n t ht hn
    rw [type?_create _ _ _ _ n t ht] at hn
    exact absurd hn (by decide)
  case inert =>
    intro n t ht _
    rw [type?_create _ _ _ _ n t ht]
    rfl
  case apart =>
    rintro p q ⟨-, t, ht, hm⟩
    rw [type?_create _ _ _ _ _ t ht] at hm
    cases hm
  case projected =>
    intro p _ ha
    simp [attr] at ha
  case named =>
    intro b t h
    rw [peer] at h
    cases h
  case serial =>
    intro p a _ ha
    rw [attr] at ha
    cases ha

end Steps

/-! ### Runs -/

theorem keptByCuts_standard : KeptByCuts Standard where
  quiet := fun _ _ a s => a.frame.standard s
  sever := fun _ _ _ w he s => by
    obtain ⟨g₁, a, f⟩ := severed_frame w he
    exact f.standard (a.standard s)
  drop := fun _ _ _ w hb hf hc _ s => standard_dropPort w hb hf hc s

theorem keptByEdits_standard : KeptByEdits false (fun t _ => t.Standard) Standard where
  toKeptByGrowth :=
    { quiet := fun _ _ a s => a.frame.standard s
      insert := fun g _ _ _ _ _ attachment w ht a s => (inserted g attachment a).standard a ht w s
      draw := fun _ _ _ w d s => by
        obtain ⟨g₁, g₂, g₃, g₄, x⟩ := drawn d w.wellFormed
        exact x.standard d w.wellFormed s
      assign := fun g p v t _ _ s => (g.sameFrame_replace p t v).standard s
      arrange := fun _ _ _ names w _ ok s => by
        rcases arranged w names ok with rfl | ⟨more, old, new, g₁, r, rfl⟩
        · exact s
        · exact (sameFrame_emit _ _).standard (r.standard w more s) }
  sever := keptByCuts_standard.sever
  drop := keptByCuts_standard.drop
  remove := fun _ _ _ w b x s => x.standard b w s
  start := standard_create
  rename := fun _ _ _ _ w _ x s => x.standard w s

end Graph
end Dataflow
