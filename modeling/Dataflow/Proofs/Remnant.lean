import Dataflow.Proofs.Selected
import Dataflow.Proofs.Settled
set_option autoImplicit false

/-!
What is left after wires have been cut. Network ports that go make later ones move down, so each
port that is left is traced to where it stood. Main statement: every step of a cut leaves the ports
that stay with what they had, apart from the ends of the wires that go.
-/

namespace Dataflow.Graph

theorem Feeds.isSome_output {g : Graph} (w : g.Wired) {o i : Port} (hf : g.Feeds o i) :
    (g.attr? o).isSome := by
  obtain ⟨a, ha, -⟩ := isSome_attr?_of_direction? (hf.output w)
  simp [ha]

theorem Feeds.isSome_input {g : Graph} (w : g.Wired) {o i : Port} (hf : g.Feeds o i) :
    (g.attr? i).isSome := by
  obtain ⟨a, ha, -⟩ := isSome_attr?_of_direction? (hf.input w)
  simp [ha]

/-- Now that the wire `d` is gone, the port `q`, which stood at `p`, goes back to its default. An
input does so that has no type of its own or that documents leave out, and an output without a type
that has no wire left. -/
def Yields (h : Graph) (d : Edge) (p q : Port) : Prop :=
  ∃ a, h.attr? q = some a ∧ (p = d.input ∧ (a.type = none ∨ a.serializable = false) ∨
    p = d.output ∧ a.type = none ∧ ∀ i, ¬ h.Feeds q i)

/-- The graph `h` is what is left of `g` without the wires in `lost` and the network ports that only
those kept. The port at `p` stood at `old p`. -/
structure Remnant (old : Port → Port) (lost : Edge → Prop) (g h : Graph) : Prop where
  tree : SameTree g h
  node : ∀ p, (old p).node = p.node
  fixed : ∀ p, g.contents? p.node = none → old p = p
  type : ∀ n, g.contents? n = none → h.type? n = g.type? n
  attr : ∀ p, (h.attr? p).isSome → h.attr? p = g.attr? (old p)
  ports : ∀ p, (g.attr? p).isSome →
    (∃ q, (h.attr? q).isSome ∧ old q = p) ∨ ∃ t, g.Hosts p t ∧ ¬ h.Connected t
  real : ∀ d, lost d → g.Feeds d.output d.input
  peer : ∀ p q, (h.attr? p).isSome →
    (h.peer? p = some q ↔ (h.attr? q).isSome ∧ g.peer? (old p) = some (old q))
  wires : ∀ n, ((h.wires n).map (Edge.mapPorts old)).Sublist (g.wires n)
  stays : ∀ e, g.Feeds e.output e.input → ¬ lost e →
    ∃ d : Edge, h.Feeds d.output d.input ∧ d.mapPorts old = e
  gone : ∀ d : Edge, h.Feeds d.output d.input → ¬ lost (d.mapPorts old)
  flows : ∀ p q, h.Flows p q → g.Flows (old p) (old q)
  stale : ∀ p, (h.attr? p).isSome → g.isStale (old p) = true → h.isStale p = true
  spread : ∀ p, h.isStale p = true → g.isStale (old p) = true ∨
    ∃ d, lost d ∧ Relation.ReflTransGen g.Flows d.input (old p)
  keeps : ∀ p, (h.attr? p).isSome → (∀ d, lost d → ¬ h.Yields d (old p) p) →
    h.held p = g.held (old p)
  resets : ∀ p a d, h.attr? p = some a → lost d → h.Yields d (old p) p →
    h.value p = a.default.payload?

namespace Remnant
variable {old old' : Port → Port} {lost lost' : Edge → Prop} {g h k : Graph}

/-- A wire that is left was there before. -/
theorem feeds (x : Remnant old lost g h) {o i : Port} (hf : h.Feeds o i) :
    g.Feeds (old o) (old i) := by
  obtain ⟨n, hn⟩ := hf
  exact ⟨n, (x.wires n).subset (List.mem_map.2 ⟨_, hn, rfl⟩)⟩

theorem live (x : Remnant old lost g h) {p : Port} (hp : (h.attr? p).isSome) :
    (g.attr? (old p)).isSome := by rwa [← x.attr p hp]

/-- No two ports stood at one place. -/
theorem injective (x : Remnant old lost g h) (w : h.WellFormed) {p q : Port}
    (hp : (h.attr? p).isSome) (hq : (h.attr? q).isSome) (same : old p = old q) : p = q := by
  obtain ⟨a, ha⟩ := Option.isSome_iff_exists.1 hp
  have hb : h.attr? q = some a := by rw [x.attr q hq, ← same, ← x.attr p hp, ha]
  have node : p.node = q.node := by rw [← x.node p, same, x.node]
  exact port_of_label w (a := a.name) node (by rw [ha]; rfl) (by rw [hb]; rfl)

theorem namesake_iff (x : Remnant old lost g h) (w : g.WellFormed) {p q : Port} :
    Namesake g h p q ↔ (h.attr? q).isSome ∧ old q = p := by
  constructor
  · rintro ⟨node, a, hp, hq⟩
    have live : (h.attr? q).isSome := by
      obtain ⟨b, hb, -⟩ := Option.map_eq_some_iff.1 hq
      simp [hb]
    rw [x.attr q live] at hq
    exact ⟨live, port_of_label w ((x.node q).trans node) hq hp⟩
  · rintro ⟨live, rfl⟩
    obtain ⟨a, ha⟩ := Option.isSome_iff_exists.1 live
    exact ⟨(x.node q).symm, a.name, by rw [← x.attr q live, ha]; rfl, by rw [ha]; rfl⟩

theorem leaf (x : Remnant old lost g h) {n : NodeId} (hn : g.contents? n = none) :
    h.contents? n = none := by
  have := x.tree.network n
  simpa [hn] using this

theorem bare (x : Remnant old lost g h) {t : Port} (leaf : g.contents? t.node = none)
    (ht : ¬ g.Connected t) : ¬ h.Connected t := by
  have still := x.fixed t leaf
  rintro ⟨r, hr | hr⟩
  · exact ht ⟨_, .inl (still ▸ x.feeds hr)⟩
  · exact ht ⟨_, .inr (still ▸ x.feeds hr)⟩

theorem hosts (x : Remnant old lost g h) (w : h.WellFormed) {p t : Port}
    (hp : (h.attr? p).isSome) (hosts : h.Hosts p t) : g.Hosts (old p) t := by
  have leaf : g.contents? t.node = none := by
    have := x.tree.network t.node
    simpa [hosts.contents? w] using this.symm
  refine ⟨?_, ?_⟩
  · rw [((x.peer p t hp).1 hosts.1).2, x.fixed t leaf]
  · rw [x.node, ← x.tree.network]
    exact hosts.2

theorem of_quiet (w : g.Linked) (a : Quiet g h) : Remnant id (fun _ => False) g h where
  tree := .of_sameFrame a.frame
  node := fun _ => rfl
  fixed := fun _ _ => rfl
  type := fun n _ => by rw [a.frame.type]
  attr := fun p _ => by rw [a.frame.attr]; rfl
  ports := fun p hp => .inl ⟨p, by rwa [a.frame.attr], rfl⟩
  real := fun _ => False.elim
  peer := fun p q _ => by
    rw [a.frame.peer, a.frame.attr]
    exact ⟨fun h => ⟨isSome_attr?_of_peer? g (w.back p q h), h⟩, And.right⟩
  wires := fun n => by
    rw [a.frame.wires]
    exact (List.map_id _).symm ▸ List.Sublist.refl _
  stays := fun e he _ => ⟨e, by rwa [a.frame.feeds], rfl⟩
  gone := fun _ _ => id
  flows := fun p q hf => by rwa [a.frame.flows] at hf
  stale := fun p _ hp => by rwa [a.isStale]
  spread := fun p hp => .inl (by rwa [a.isStale] at hp)
  keeps := fun p _ _ => by rw [a.held]; rfl
  resets := fun _ _ _ _ lost => lost.elim

/-! ### Step by step -/

/-- The wires that go in the first of two steps or in the second. -/
def Either (old : Port → Port) (lost lost' : Edge → Prop) (d : Edge) : Prop :=
  lost d ∨ ∃ d', lost' d' ∧ d'.mapPorts old = d

section Trans
variable (x : Remnant old lost g h) (y : Remnant old' lost' h k) (wg : g.WellFormed)
  (wh : h.WellFormed) (wk : k.WellFormed)
include x y

include wg wh in
theorem ports_trans {p : Port} (hp : (g.attr? p).isSome) :
    (∃ r, (k.attr? r).isSome ∧ old (old' r) = p) ∨ ∃ t, g.Hosts p t ∧ ¬ k.Connected t := by
  rcases x.ports p hp with ⟨q, hq, rfl⟩ | ⟨t, hosts, ht⟩
  · rcases y.ports q hq with ⟨r, hr, rfl⟩ | ⟨t, hosts, ht⟩
    · exact .inl ⟨r, hr, rfl⟩
    · exact .inr ⟨t, x.hosts wh hq hosts, ht⟩
  · refine .inr ⟨t, hosts, y.bare (x.leaf (hosts.contents? wg)) ht⟩

theorem keeps_trans {p : Port} (hp : (k.attr? p).isSome)
    (untouched : ∀ d, Either old lost lost' d → ¬ k.Yields d (old (old' p)) p) :
    k.held p = g.held (old (old' p)) := by
  rw [y.keeps p hp fun d hd yields => ?_, x.keeps (old' p) (y.live hp) fun d hd yields => ?_]
  · obtain ⟨a, ha, cause⟩ := yields
    refine untouched d (.inl hd) ⟨a, by rw [y.attr p hp, ha], cause.imp_right fun ⟨e, t, free⟩ =>
      ⟨e, t, fun i hf => free _ (y.feeds hf)⟩⟩
  · obtain ⟨a, ha, cause⟩ := yields
    exact untouched (d.mapPorts old) (.inr ⟨d, hd, rfl⟩)
      ⟨a, ha, cause.imp (And.imp_left (congrArg old)) (And.imp_left (congrArg old))⟩

include wh wk in
theorem resets_trans {p : Port} {a : Attribute} {d : Edge} (hp : k.attr? p = some a)
    (hd : Either old lost lost' d) (yields : k.Yields d (old (old' p)) p) :
    k.value p = a.default.payload? := by
  have live : (k.attr? p).isSome := by simp [hp]
  by_cases now : ∃ c, lost' c ∧ k.Yields c (old' p) p
  · obtain ⟨c, hc, yields⟩ := now
    exact y.resets p a c hp hc yields
  have same : k.value p = h.value (old' p) := by
    rw [value, y.keeps p live fun c hc yields => now ⟨c, hc, yields⟩]
    rfl
  rw [same]
  obtain ⟨b, hb, cause⟩ := yields
  rcases hd with hd | ⟨c, hc, rfl⟩
  · refine x.resets (old' p) a d (by rw [← y.attr p live, hp]) hd
      ⟨b, by rw [← y.attr p live, hb], ?_⟩
    refine cause.imp_right fun out => ⟨out.1, out.2.1, fun i hf => ?_⟩
    obtain ⟨output, untyped, free⟩ := out
    -- the wire goes only now, and then the port is reset now
    by_cases hl : lost' ⟨old' p, i⟩
    · exact now ⟨_, hl, b, hb, .inr ⟨rfl, untyped, free⟩⟩
    · obtain ⟨f, hf', eq⟩ := y.stays ⟨old' p, i⟩ hf hl
      have output := y.injective wk (hf'.isSome_output wk.wired) live (congrArg Edge.output eq)
      rw [output] at hf'
      exact free _ hf'
  · have hf := y.real c hc
    refine absurd ⟨c, hc, b, hb, ?_⟩ now
    refine cause.imp (And.imp_left fun eq => ?_) (And.imp_left fun eq => ?_)
    · exact x.injective wh (y.live live) (Feeds.isSome_input wh.wired hf) eq
    · exact x.injective wh (y.live live) (Feeds.isSome_output wh.wired hf) eq

include wg wh wk in
theorem trans : Remnant (old ∘ old') (Either old lost lost') g k where
  tree := x.tree.trans y.tree
  node := fun p => (x.node _).trans (y.node p)
  fixed := fun p hp => by
    rw [Function.comp_apply, y.fixed p (x.leaf hp), x.fixed p hp]
  type := fun n hn => (y.type n (x.leaf hn)).trans (x.type n hn)
  attr := fun p hp => (y.attr p hp).trans (x.attr _ (y.live hp))
  ports := fun p hp => x.ports_trans y wg wh hp
  real := by
    rintro d (hd | ⟨c, hc, rfl⟩)
    · exact x.real d hd
    · exact x.feeds (y.real c hc)
  peer := fun p q hp => by
    rw [y.peer p q hp, x.peer _ _ (y.live hp)]
    exact and_congr_right fun hq => and_iff_right (y.live hq)
  wires := fun n => by
    have : (Edge.mapPorts (old ∘ old')) = Edge.mapPorts old ∘ Edge.mapPorts old' := rfl
    rw [this, ← List.map_map]
    exact ((y.wires n).map _).trans (x.wires n)
  stays := fun e he hl => by
    obtain ⟨d, hd, rfl⟩ := x.stays e he fun h => hl (.inl h)
    obtain ⟨f, hf, rfl⟩ := y.stays d hd fun h => hl (.inr ⟨d, h, rfl⟩)
    exact ⟨f, hf, rfl⟩
  gone := by
    rintro f hf (hl | ⟨d, hd, eq⟩)
    · exact x.gone (f.mapPorts old') (y.feeds hf) hl
    · have hf' := y.feeds hf
      have hd' := y.real d hd
      have output := x.injective wh (Feeds.isSome_output wh.wired hd')
        (Feeds.isSome_output wh.wired hf') (congrArg Edge.output eq)
      have input := x.injective wh (Feeds.isSome_input wh.wired hd')
        (Feeds.isSome_input wh.wired hf') (congrArg Edge.input eq)
      refine y.gone f hf ?_
      rwa [Edge.mapPorts, ← output, ← input]
  flows := fun p q hf => x.flows _ _ (y.flows p q hf)
  stale := fun p hp hs => y.stale p hp (x.stale _ (y.live hp) hs)
  spread := fun p hp => by
    rcases y.spread p hp with hp | ⟨d, hd, path⟩
    · exact (x.spread _ hp).imp_right fun ex => ex.imp fun d => And.imp_left .inl
    · exact .inr ⟨d.mapPorts old, .inr ⟨d, hd, rfl⟩, path.lift old x.flows⟩
  keeps := fun p hp untouched => x.keeps_trans y hp untouched
  resets := fun p a d hp hd yields => x.resets_trans y wh wk hp hd yields

end Trans

end Remnant

/-! ### A wire that is cut off -/

section Reset
variable {g : Graph} {p q : Port} {a : Attribute}

theorem held_resetInput (kept : q = p → ∀ a, g.attr? p = some a →
    ¬ (a.type = none ∨ a.serializable = false)) : (g.resetInput p).held q = g.held q := by
  simp only [resetInput]
  split
  · next s hs =>
    split
    · next reset =>
      by_cases hq : q = p
      · refine absurd ?_ (kept hq s.attr (by rw [attr?, hs]; rfl))
        simpa using reset
      · exact (Stored.hold _ _ _).held hq
    · rfl
  · rfl

theorem value_resetInput (ha : g.attr? p = some a)
    (reset : a.type = none ∨ a.serializable = false) :
    (g.resetInput p).value p = a.default.payload? := by
  obtain ⟨s, hs, rfl⟩ := Option.map_eq_some_iff.1 ha
  simp only [resetInput, hs]
  rw [if_pos (by simpa using reset), value_hold _ _ _ _ (by simp [direction?, hs]), if_pos rfl]

theorem held_resetOutput (kept : q = p → ∀ a, g.attr? p = some a →
    ¬ (a.type = none ∧ g.sinks p = [])) : (g.resetOutput p).held q = g.held q := by
  simp only [resetOutput]
  split
  · next s hs =>
    split
    · next reset =>
      by_cases hq : q = p
      · refine absurd ?_ (kept hq s.attr (by rw [attr?, hs]; rfl))
        simpa using reset
      · exact (Stored.hold _ _ _).held hq
    · rfl
  · rfl

end Reset

section Sever
variable {g : Graph} {m : NodeId} {e : Edge} (w : g.WellFormed) (he : e ∈ g.wires m)
include w he

theorem attr?_sever : (g.sever e).attr? = g.attr? := by
  funext p
  rw [attr?_eq, attr?_eq, type?_sever w he]

/-- Without its wire the graph goes on to lose what the ends of the wire held. -/
theorem severed_held : ∃ g₁, Rewired m (·.remove e) g g₁ ∧ SameFrame g₁ (g.sever e) ∧
    (g.sever e).held = ((g₁.resetInput e.input).resetOutput e.output).held := by
  obtain ⟨g₁, a, eq⟩ := severed w he
  refine ⟨g₁, a, ?_, ?_⟩
  · rw [eq]
    exact (g₁.sameFrame_resetEnds e).trans (sameFrame_spread _ _)
  · funext q
    rw [eq, spreadFrom, held_spread, resetEnds_eq]

/-- Only an end of the wire that yields may be reset. -/
theorem held_sever {q : Port} (untouched : ¬ (g.sever e).Yields e q q) :
    (g.sever e).held q = g.held q := by
  obtain ⟨g₁, x, a, held⟩ := severed_held w he
  have attr : (g.sever e).attr? = g₁.attr? := a.attr
  have frame := g₁.sameFrame_resetInput e.input
  rw [held, held_resetOutput, held_resetInput]
  · exact congrFun x.held q
  · rintro rfl b hb reset
    exact untouched ⟨b, by rw [attr, hb], .inl ⟨rfl, reset⟩⟩
  · rintro rfl b hb ⟨untyped, free⟩
    rw [frame.attr] at hb
    rw [frame.sinks] at free
    refine untouched ⟨b, by rw [attr, hb], .inr ⟨rfl, untyped, fun i hf => ?_⟩⟩
    rw [a.feeds, ← mem_sinks_iff (wellFormed_remove x w).wired, free] at hf
    cases hf

theorem value_sever_of_yields {q : Port} {a : Attribute} (ha : (g.sever e).attr? q = some a)
    (yields : (g.sever e).Yields e q q) : (g.sever e).value q = a.default.payload? := by
  obtain ⟨b, hb, cause⟩ := yields
  obtain rfl : b = a := Option.some.inj (hb.symm.trans ha)
  rw [attr?_sever w he] at ha
  rcases cause with ⟨rfl, reset⟩ | ⟨rfl, untyped, free⟩
  · obtain ⟨g₁, x, -, held⟩ := severed_held w he
    have ne : e.input ≠ e.output := by
      intro h
      have output := w.wired.output m e he
      rw [← h, w.wired.input m e he] at output
      cases output
    rw [value, held, held_resetOutput fun h => absurd h ne]
    exact value_resetInput (by rw [x.attr, ha]) reset
  · exact value_sever_output w he ha untyped free

/-- What is marked lies behind the wire. -/
theorem isStale_sever_cases {q : Port} (hq : (g.sever e).isStale q = true) :
    g.isStale q = true ∨ Relation.ReflTransGen g.Flows e.input q := by
  obtain ⟨g₁, x, eq⟩ := severed w he
  have frame := g₁.sameFrame_resetEnds e
  have w₁ := frame.wellFormed (wellFormed_remove x w)
  rw [eq, spreadFrom, isStale_spread_iff w₁.tree, isStale_resetEnds, x.isStale] at hq
  refine hq.imp_right fun walked => ?_
  obtain ⟨a, ha, along⟩ := along_of_mem_walk _ _ _ _ walked
  rw [List.mem_singleton.1 ha, along_iff w₁, frame.flows] at along
  refine along.lift id fun p r hf => flows_sever w he ?_
  rw [eq, spreadFrom, (sameFrame_spread _ _).flows, frame.flows]
  exact hf

theorem remnant_sever : Remnant id (· = e) g (g.sever e) where
  tree := sameTree_sever w he
  node := fun _ => rfl
  fixed := fun _ _ => rfl
  type := fun n _ => by rw [type?_sever w he]
  attr := fun p _ => by rw [attr?_sever w he]; rfl
  ports := fun p hp => .inl ⟨p, by rwa [attr?_sever w he], rfl⟩
  real := by
    rintro _ rfl
    exact ⟨m, he⟩
  peer := fun p q _ => by
    rw [peer?_sever w he, attr?_sever w he]
    exact ⟨fun h => ⟨isSome_attr?_of_peer? g (w.linked.back p q h), h⟩, And.right⟩
  wires := fun n => by
    have : Edge.mapPorts id = id := rfl
    rw [this, List.map_id, wires_sever w he]
    split
    · exact List.erase_sublist
    · exact List.Sublist.refl _
  stays := fun d hd ne => by
    refine ⟨d, (feeds_sever w he _ _).2 ⟨hd, fun same => ne ?_⟩, rfl⟩
    obtain ⟨o, i⟩ := d
    obtain ⟨o', i'⟩ := e
    rw [Edge.mk.injEq]
    exact same
  gone := by
    rintro d hd rfl
    exact ((feeds_sever w he _ _).1 hd).2 ⟨rfl, rfl⟩
  flows := fun p q hf => flows_sever w he hf
  stale := fun p _ hp => isStale_sever w he (.inr hp)
  spread := fun p hp => (isStale_sever_cases w he hp).imp_right fun path => ⟨e, rfl, path⟩
  keeps := fun p _ untouched => held_sever w he (untouched e rfl)
  resets := by
    rintro p a _ ha rfl yields
    exact value_sever_of_yields w he ha yields

end Sever

/-! ### A port that goes -/

theorem unshift_shift {gone i : Nat} (h : i ≠ gone) : unshift gone (Layout.shift gone i) = i := by
  simp only [unshift, Layout.shift]
  split <;> split <;> omega

theorem moved_back {p b : Port} (h : p ≠ b) :
    (p.moved b.node (Layout.shift b.index)).moved b.node (unshift b.index) = p := by
  by_cases node : p.node = b.node
  · have index : p.index ≠ b.index := by
      intro index
      obtain ⟨n, i⟩ := p
      obtain ⟨m, j⟩ := b
      simp_all
    simp only [Port.moved, node, if_true, unshift_shift index]
    rw [← node]
  · rw [moved_of_ne _ node, moved_of_ne _ node]

/-- A network port without wires goes, and the later ones move down. -/
theorem remnant_dropPort {g : Graph} {b t : Port} (w : g.WellFormed) (d : Deserted b t g)
    (hc : ¬ g.Connected b) :
    Remnant (Port.moved b.node (unshift b.index)) (fun _ => False) g (g.dropPort b) := by
  have narrowed := narrowed_dropPort w d hc
  have tree := sameTree_dropPort w d.peer hc
  have w' := wellFormed_dropPort w d.peer hc
  have network : (g.contents? b.node).isSome := d.faces.isSome_contents? w.tree
  obtain ⟨g₁, g₂, a, w₁, r, eq⟩ := dropped w d.peer hc
  have frame := g₂.sameFrame_emit (.metadataChanged b.node)
  have apart (p : Port) : p.moved b.node (unshift b.index) ≠ b := by
    intro same
    have node := node_moved p b.node (unshift b.index)
    rw [same] at node
    rw [Port.moved, if_pos node.symm] at same
    exact unshift_ne _ _ (congrArg Port.index same)
  rw [eq] at narrowed tree w' ⊢
  have live {p : Port} (hp : ((g₂.emit (.metadataChanged b.node)).attr? p).isSome) :
      (g₂.slot? p).isSome := by rwa [isSome_slot?, ← frame.attr]
  constructor
  case tree => exact tree
  case node => exact narrowed.node
  case fixed => exact narrowed.fixed
  case type =>
    intro n hn
    have ne : n ≠ b.node := by
      rintro rfl
      simp [hn] at network
    rw [frame.type, r.type n ne, a.type]
  case attr => exact narrowed.attr
  case ports =>
    intro p hp
    by_cases same : p = b
    · subst same
      exact .inr ⟨t, d.hosts w, narrowed.bare ((d.hosts w).contents? w) d.bare⟩
    · refine .inl ⟨p.moved b.node (Layout.shift b.index), ?_, moved_back same⟩
      rw [frame.attr, r.attr, a.attr, moved_back same]
      exact hp
  case real => exact fun _ => False.elim
  case peer =>
    intro p q hp
    rw [frame.peer, r.peer]
    constructor
    · intro hq
      obtain ⟨s, hs, rfl⟩ := Option.map_eq_some_iff.1 hq
      have back := w₁.linked.back _ _ hs
      have kept := r.kept s (.inl (by rw [back]; rfl))
      rw [frame.attr, r.attr, kept]
      exact ⟨isSome_attr?_of_peer? g₁ back, a.peer_old hs⟩
    · rintro ⟨hq, hs⟩
      have far : p.moved b.node (unshift b.index) ≠ t := by
        intro same
        rw [same, w.linked.back b t d.peer] at hs
        exact apart q (Option.some.inj hs).symm
      rw [a.peer, if_neg (by simp [apart, far]), hs, Option.map_some, r.live q (live hq)]
  case wires =>
    intro n
    have same : ((g₁.wires n).map (Edge.mapPorts (Port.moved b.node (Layout.shift b.index)))).map
        (Edge.mapPorts (Port.moved b.node (unshift b.index))) = g₁.wires n := by
      rw [List.map_map]
      refine (List.map_congr_left fun e he => ?_).trans (List.map_id _)
      have hf : g₁.Feeds e.output e.input := ⟨n, he⟩
      simp only [Function.comp_apply, Edge.mapPorts, r.kept_output hf, r.kept_input hf, id]
    rw [frame.wires, r.wires, same, a.wires]
  case stays =>
    intro e he _
    obtain ⟨d, hd, output, input⟩ := narrowed.stays e he id
    exact ⟨d, hd, by rw [Edge.mapPorts, output, input]⟩
  case gone => exact fun _ _ => id
  case flows =>
    intro p q hf
    rw [frame.flows] at hf
    exact a.flows_old (r.flows_old w₁.linked hf)
  case stale =>
    intro p _ hs
    rwa [(quiet_emit g₂ _).isStale, r.isStale, a.isStale]
  case spread =>
    intro p hs
    rw [(quiet_emit g₂ _).isStale, r.isStale, a.isStale] at hs
    exact .inl hs
  case keeps =>
    intro p _ _
    rw [(quiet_emit g₂ _).held, r.held, a.held]
  case resets => exact fun _ _ _ _ lost => lost.elim

/-! ### The whole cut -/

section Cut
variable {g h : Graph} {e : Edge}

/-- What is left of `g` when `e` is cut, at any time on the way. -/
structure Remains (g : Graph) (e : Edge) (h : Graph) : Prop where
  wellFormed : h.WellFormed
  trimmed : Trimmed g (· = e) h
  remnant : ∃ old lost, Remnant old lost g h

theorem Remains.step {k : Graph} (x : Remains g e h) (w : g.WellFormed)
    (trimmed : k.WellFormed ∧ Trimmed g (· = e) k) {old : Port → Port} {lost : Edge → Prop}
    (y : Remnant old lost h k) : Remains g e k := by
  obtain ⟨old', lost', z⟩ := x.remnant
  exact ⟨trimmed.1, trimmed.2, _, _, z.trans y w x.wellFormed trimmed.1⟩

/-- The wire that is cut is `e` or dangles. -/
theorem keptByCutting_remains (w : g.WellFormed) (e : Edge) :
    KeptByCutting (fun h d => Kin g h e d) (Remains g e) := by
  have trims : KeptByRemoving (fun h d => Kin g h e d)
      fun h => h.WellFormed ∧ Trimmed g (· = e) h :=
    keptByRemoving_trimmed w fun _ _ _ ask _ same => same.unique w ask
  constructor
  case quiet =>
    intro h k a x
    exact x.step w (trims.quiet h k a ⟨x.wellFormed, x.trimmed⟩) (.of_quiet x.wellFormed.linked a)
  case sever =>
    intro h m d wh hd why x
    exact x.step w (trims.sever h m d wh hd why ⟨wh, x.trimmed⟩) (remnant_sever wh hd)
  case drop =>
    intro h b t wh d hc x
    exact x.step w (trims.drop h b t wh d hc ⟨wh, x.trimmed⟩) (remnant_dropPort wh d hc)

theorem remains_cut (w : g.WellFormed) (he : g.Feeds e.output e.input) :
    Remains g e (g.cut e) := by
  have start : Remains g e g :=
    ⟨w, trimmed_refl w, id, fun _ => False, .of_quiet w.linked (.refl g)⟩
  exact keeps_cut (keptByCutting_remains w e) w (.self w.wired he) start

end Cut
end Dataflow.Graph
