import Dataflow.Proofs.Evaluation
import Dataflow.Proofs.Honest
import Dataflow.Proofs.Start
set_option autoImplicit false

/-!
Graphs of which everything can be told from the inputs that documents keep. Outside of networks and
terminals all ports have types there, all inputs are serializable, and all outputs are computed. Main
statements: each type goes back to one that is declared, through boundaries of any depth, and so every
read is honest.
-/

namespace Dataflow

/-- All that a node of the type has is given at inputs that documents keep, or computed. -/
structure NodeType.Recoverable (t : NodeType) : Prop where
  typed : ∀ a ∈ t.ports.entries, a.type.isSome
  serial : ∀ a ∈ t.ports.entries, a.direction = .input → a.serializable = true
  computed : ∀ a ∈ t.ports.entries, a.direction = .output → t.compute.isSome

theorem NodeType.recoverable_network : NodeType.network.Recoverable :=
  ⟨List.forall_mem_nil _, List.forall_mem_nil _, List.forall_mem_nil _⟩

theorem Action.Makes.uses {A : NodeType → Datablock → Prop} {B : NodeType → Prop} {o : Action}
    (h : o.Makes A) (sub : ∀ t values, A t values → B t) : o.Uses B := by
  cases o with
  | addNode _ t _ options => exact sub t _ h
  | addNetwork _ _ => exact sub _ _ h
  | loadInto r _ _ => exact fun name t ht => sub t _ (h name t ht)
  | restore r _ => exact fun name t ht => sub t _ (h name t ht)
  | _ => trivial

namespace Graph
variable {g h : Graph}

/-- All nodes but networks and terminals are of recoverable types. -/
def Recoverable (g : Graph) : Prop :=
  ∀ n t, g.type? n = some t → g.contents? n = none →
    t.name = NodeType.networkInput.name ∨ t.name = NodeType.networkOutput.name ∨ t.Recoverable

/-- The types that are lent, and what untyped ports hold, go back to declared types. -/
structure Anchored (g : Graph) : Prop where
  blank : g.Blank
  primed : g.Primed
  backed : ∀ o i, g.Feeds o i → g.declaredType o = none → (g.peer? o).isSome
  /-- The type of a network output is that of what feeds its terminal. -/
  resolved : ∀ b t o u, g.peer? b = some t → (g.contents? b.node).isSome → g.Feeds o t →
    g.declaredType b = some u → g.Lends o u

/-- A port without a peer is on no network. -/
theorem Standard.leaf_of_bare (s : g.Standard) {p : Port} {d : Direction}
    (hd : g.direction? p = some d) (bare : g.peer? p = none) : g.contents? p.node = none := by
  rw [← Option.not_isSome_iff_eq_none]
  intro inside
  have := s.projected p inside ((isSome_direction?_iff g p).1 (by simp [hd]))
  simp [bare] at this

section Recoverable
variable (r : g.Recoverable)
include r

/-- A port outside of networks is a terminal, or it is of a recoverable type. -/
theorem Recoverable.terminal_or (s : g.Standard) {p : Port} {a : Attribute} {t : NodeType}
    (leaf : g.contents? p.node = none) (ha : g.attr? p = some a) (ht : g.type? p.node = some t) :
    (∃ side, g.terminal? p = some side ∧ a.direction ≠ side) ∨ t.Recoverable ∧ a ∈ t.ports.entries := by
  have hd : g.direction? p = some a.direction := by rw [direction?_eq, ha]; rfl
  have mem : a ∈ t.ports.entries := by
    rw [attr?_eq, ht] at ha
    exact List.mem_of_getElem? ha
  rcases r p.node t ht leaf with name | name | rec
  · have only := s.input _ t ht name
    subst only
    have output : a.direction = .output := by
      rw [List.mem_singleton.1 mem]
      rfl
    rw [output] at hd ⊢
    exact .inl ⟨.input, terminal?_eq_some_iff.2 ⟨_, ht, .inl ⟨rfl, hd, rfl⟩⟩, by decide⟩
  · have only := s.output _ t ht name
    subst only
    have input : a.direction = .input := by
      rw [List.mem_singleton.1 mem]
      rfl
    rw [input] at hd ⊢
    exact .inl ⟨.output, terminal?_eq_some_iff.2 ⟨_, ht, .inr ⟨rfl, hd, rfl⟩⟩, by decide⟩
  · exact .inr ⟨rec, mem⟩

/-- A port without a type is a terminal, as network ports have types. -/
theorem Recoverable.terminal_of_open (s : g.Standard) (m : g.Matching) {p : Port} {d : Direction}
    (hd : g.direction? p = some d) (free : g.declaredType p = none) :
    ∃ side, g.terminal? p = some side ∧ d ≠ side := by
  obtain ⟨a, ha, rfl⟩ := isSome_attr?_of_direction? hd
  obtain ⟨t, ht⟩ := exists_type?_of_direction? hd
  cases leaf : g.contents? p.node with
  | some x =>
    have inside : (g.contents? p.node).isSome := by simp [leaf]
    obtain ⟨q, hq⟩ := Option.isSome_iff_exists.1 (s.projected p inside (by simp [ha]))
    have typed := m.boundary p q hq inside
    simp [free] at typed
  | none =>
    rcases r.terminal_or s leaf ha ht with terminal | ⟨rec, mem⟩
    · exact terminal
    · have typed := rec.typed a mem
      rw [declaredType_eq, ha, Option.bind_some] at free
      simp [free] at typed

/-- Nodes outside of networks keep their types, but for the order of their attributes. -/
theorem Recoverable.inherit (old : ∀ n t, h.type? n = some t → h.contents? n = none →
    ∃ u, g.type? n = some u ∧ g.contents? n = none ∧ t.name = u.name ∧ t.compute = u.compute ∧
      ∀ a ∈ t.ports.entries, a ∈ u.ports.entries) : h.Recoverable := by
  intro n t ht leaf
  obtain ⟨u, hu, leaf', name, compute, sub⟩ := old n t ht leaf
  rw [name]
  refine (r n u hu leaf').imp_right (Or.imp_right fun rec => ?_)
  refine ⟨fun a ha => rec.typed a (sub a ha), fun a ha => rec.serial a (sub a ha), fun a ha out => ?_⟩
  rw [compute]
  exact rec.computed a (sub a ha) out

/-- Only networks may have got other types. -/
theorem Recoverable.outside (tree : SameTree g h)
    (same : ∀ n t, g.contents? n = none → h.type? n = some t → g.type? n = some t) :
    h.Recoverable := by
  refine r.inherit fun n t ht leaf => ?_
  have leaf' : g.contents? n = none := by
    rw [← Option.not_isSome_iff_eq_none, ← tree.network, leaf]
    simp
  exact ⟨t, same n t leaf' ht, leaf', rfl, rfl, fun _ ha => ha⟩

theorem Recoverable.of_sameFrame (a : SameFrame g h) : h.Recoverable :=
  r.outside (.of_sameFrame a) fun n t _ ht => by rwa [a.type] at ht

theorem Recoverable.inserted {id parent : NodeId} {t : NodeType} {name : String} {values : Datablock}
    (x : Inserted id parent t name values g h) (own : t.name = NodeType.networkInput.name ∨
      t.name = NodeType.networkOutput.name ∨ t.Recoverable) : h.Recoverable := by
  intro n u hu leaf
  rw [x.type] at hu
  split at hu
  · cases hu
    exact own
  · next hn =>
    refine r n u hu ?_
    rw [← Option.not_isSome_iff_eq_none, ← x.network_old hn, leaf]
    simp

theorem Recoverable.drawn {g₁ g₂ g₃ g₄ : Graph} {n : NodeId} {e : Edge}
    (x : Drawn n e g g₁ g₂ g₃ g₄ h) (d : Drawable n e g) (w : g.Tree) : h.Recoverable := by
  have inside := isSome_contents?_of_around? w d.inputAround
  refine r.outside x.tree fun m t leaf ht => ?_
  rwa [x.type_old (by rintro rfl; simp [leaf] at inside)] at ht

/-- The attributes of one node are in another order. -/
theorem Recoverable.renumbered {n : NodeId} {old new : Nat → Nat} (a : Renumbered n old new g h) :
    h.Recoverable := by
  refine r.inherit fun m t ht leaf => ?_
  have leaf' : g.contents? m = none := by
    rw [← Option.not_isSome_iff_eq_none, ← a.tree.network, leaf]
    simp
  have name := a.tree.typeName m
  have compute := a.tree.compute m
  cases hu : g.type? m with
  | none => simp [ht, hu] at name
  | some u =>
    rw [ht, hu, Option.map_some, Option.map_some, Option.some.injEq] at name compute
    refine ⟨u, rfl, leaf', name, compute, fun x hx => ?_⟩
    obtain ⟨i, hi⟩ := List.mem_iff_getElem?.1 hx
    have here : h.attr? ⟨m, i⟩ = some x := by
      rw [attr?_eq, ht]
      exact hi
    rw [a.attr, attr?_eq, node_moved, hu] at here
    exact List.mem_of_getElem? here

theorem Recoverable.dropped {b t : Port} (w : g.WellFormed) (hb : g.peer? b = some t)
    (hc : ¬ g.Connected b) : (g.dropPort b).Recoverable := by
  obtain ⟨g₁, g₂, a, -, x, eq⟩ := Graph.dropped w hb hc
  rw [eq]
  refine (Recoverable.renumbered ?_ x).of_sameFrame (sameFrame_emit _ _)
  refine r.inherit fun n u hu leaf => ⟨u, by rwa [a.type] at hu, by rwa [a.contents] at leaf, rfl, rfl, ?_⟩
  exact fun _ hx => hx

theorem Recoverable.removed {n : NodeId} (x : Removed n g h) : h.Recoverable := by
  intro m t ht leaf
  rw [x.type] at ht
  split at ht
  · cases ht
  · next hm =>
    refine r m t ht ?_
    rw [x.contents, if_neg hm] at leaf
    split at leaf
    · exact Option.map_eq_none_iff.1 leaf
    · exact leaf

theorem Recoverable.severed {m : NodeId} {e : Edge} (w : g.WellFormed) (he : e ∈ g.wires m) :
    (g.sever e).Recoverable :=
  r.outside (sameTree_sever w he) fun n t _ ht => by rwa [type?_sever w he] at ht

theorem Recoverable.renamed {n : NodeId} {new : String} (x : Renamed n (g.exposedPort? n) new g h)
    (w : g.WellFormed) : h.Recoverable := by
  refine r.inherit fun m t ht leaf => ?_
  rw [x.contents] at leaf
  obtain ⟨u, hu, -, -, same⟩ := x.type_old w ht
  rw [same leaf]
  exact ⟨u, hu, leaf, rfl, rfl, fun _ ha => ha⟩

end Recoverable
/-! ### Types that go back to declared ones -/

section Carried
variable {f : Port → Port} (c : Carried f g h) (k : g.Anchored) (m : g.Matching) (w : g.WellFormed)
  (w' : h.WellFormed)
include c k m w w'

/-- A type is lent on while a wire is left, as what it goes back to is left as well. -/
theorem Carried.lends_kept {o i : Port} {u : DataType} (hf : h.Feeds o i) (lent : g.Lends (f o) u) :
    h.Lends o u := by
  have own := c.declaredType (hf.isSome_attr? w'.wired).1
  cases free : g.declaredType (f o) with
  | some v =>
    rw [m.lends_unique lent (.inl free)]
    exact .inl (own.trans free)
  | none =>
    obtain ⟨_, hb⟩ := Option.isSome_iff_exists.1 (k.backed _ _ (c.feeds o i hf) free)
    obtain ⟨b, hb', rfl⟩ := c.linked o _ ⟨i, .inl hf⟩ hb
    obtain ⟨v, hv⟩ := Option.isSome_iff_exists.1 (m.declared_peer w hb free)
    rw [m.lends_unique lent (.inr ⟨free, f i, c.feeds o i hf, .inr ⟨f b, hb, hv⟩⟩)]
    refine .inr ⟨own.trans free, i, hf, .inr ⟨b, hb', ?_⟩⟩
    rw [c.declaredType (isSome_attr?_of_peer? h (w'.linked.back _ _ hb')), hv]

theorem Carried.anchored (idle : ∀ o, h.direction? o = some .output → h.declaredType o = none →
    h.terminal? o = some .input) : h.Anchored where
  blank := fun p input free unfed => by
    have live : (h.attr? p).isSome := (isSome_direction?_iff h p).1 (by simp [input])
    rcases c.each p live with ⟨held, -⟩ | ⟨held, -⟩
    · rw [held, free]
    · by_cases fed : ∃ o, g.Feeds o (f p)
      · obtain ⟨o, ho⟩ := fed
        rcases c.unfed o p live ho with ⟨reset, -⟩ | ⟨o', ho'⟩
        · rw [reset, free]
        · exact absurd ho' (unfed o')
      · rw [held]
        refine k.blank _ (c.direction input) ?_ fun o ho => fed ⟨o, ho⟩
        rw [← c.declaredType live, free]
  primed := fun o output free => by
    have live : (h.attr? o).isSome := (isSome_direction?_iff h o).1 (by simp [output])
    by_cases wired : ∃ i, h.Feeds o i
    · obtain ⟨i, hi⟩ := wired
      rcases c.each o live with ⟨-, bare⟩ | ⟨held, -⟩
      · exact absurd hi (bare i).1
      · have free' : g.declaredType (f o) = none := by rw [← c.declaredType live, free]
        rcases k.primed _ (c.direction output) free' with ⟨t, lent, same⟩ | ⟨bare, -⟩
        · exact .inl ⟨t, c.lends_kept k m w w' hi lent, held.trans same⟩
        · exact absurd (c.feeds o i hi) (bare _)
    · have bare (i : Port) : ¬ h.Feeds o i := fun hi => wired ⟨i, hi⟩
      exact .inr ⟨bare, c.idle o (idle o output free) bare⟩
  backed := fun o i hf free => by
    have live := (hf.isSome_attr? w'.wired).1
    rw [c.declaredType live] at free
    obtain ⟨b, hb⟩ := Option.isSome_iff_exists.1 (k.backed _ _ (c.feeds o i hf) free)
    obtain ⟨b', hb', -⟩ := c.linked o b ⟨i, .inl hf⟩ hb
    rw [hb']
    rfl
  resolved := fun b t o u hb inside hf hu =>
    c.lends_kept k m w w' hf (k.resolved _ _ _ u (c.peer b t hb) (c.inside b inside) (c.feeds o t hf)
      (c.declared_old hu))

end Carried

/-- Outputs without types are the terminals of network inputs. -/
theorem Recoverable.idle (r : g.Recoverable) (s : g.Standard) (m : g.Matching) (o : Port)
    (output : g.direction? o = some .output) (free : g.declaredType o = none) :
    g.terminal? o = some .input := by
  obtain ⟨side, terminal, ne⟩ := r.terminal_of_open s m output free
  cases side with
  | input => exact terminal
  | output => exact absurd rfl ne

/-- An output that is made from nothing holds nothing. -/
theorem Recoverable.value_of_inert (r : g.Recoverable) (w : g.Lawful) (s : g.Standard) (k : g.Suited)
    {p : Port} {t : NodeType} (output : g.direction? p = some .output) (bare : g.peer? p = none)
    (ht : g.type? p.node = some t) (hc : t.compute = none) : g.value p = none := by
  obtain ⟨a, ha, hd⟩ := isSome_attr?_of_direction? output
  rcases r.terminal_or s (s.leaf_of_bare output bare) ha ht with ⟨side, terminal, ne⟩ | ⟨rec, mem⟩
  · rw [hd] at ne
    cases side with
    | output => exact absurd rfl ne
    | input =>
      have held := k.idle p terminal fun i hf => by
        have := (w.fitted p (by simp [terminal])).2 ⟨i, .inl hf⟩
        simp [bare] at this
      rw [heldType_eq_value] at held
      exact Option.map_eq_none_iff.1 held
  · have := rec.computed a mem hd
    simp [hc] at this

theorem Inserted.anchored {id parent : NodeId} {t : NodeType} {name : String} {values : Datablock}
    (x : Inserted id parent t name values g h) (a : Insertable id parent t name values g)
    (w : g.WellFormed) (suits : values.Suits t) (k : g.Anchored) : h.Anchored where
  blank := x.blank a suits k.blank
  primed := x.primed a w suits k.primed
  backed := fun o i hf free => by
    rw [x.feeds a] at hf
    rw [x.peer a]
    refine k.backed o i hf ?_
    rwa [x.declaredType_old (a.node_ne (by simp [hf.output w.wired]))] at free
  resolved := fun b t o u hb inside hf hu => by
    rw [x.peer a] at hb
    rw [x.feeds a] at hf
    have hn : b.node ≠ id := a.node_ne ((isSome_direction?_iff g b).2 (isSome_attr?_of_peer? g hb))
    rw [x.network_old hn] at inside
    rw [x.declaredType_old hn] at hu
    exact x.lends_kept a w (k.resolved b t o u hb inside hf hu)

section Drawn
variable {g₁ g₂ g₃ g₄ : Graph} {n : NodeId} {e : Edge} (x : Drawn n e g g₁ g₂ g₃ g₄ h)
  (d : Drawable n e g) (w : g.Lawful) (s : g.Sorted)
include x d w s

/-- A network output that comes with a wire has the type of the output that it is wired to. -/
theorem Drawn.resolved (k : g.Anchored) {b t o : Port} {u : DataType} (hb : h.peer? b = some t)
    (inside : (h.contents? b.node).isSome) (hf : h.Feeds o t) (hu : h.declaredType b = some u) :
    h.Lends o u := by
  have wf := w.wellFormed
  have w' := x.wellFormed d wf
  have back := w'.linked.back _ _ hb
  have terminal : (g.terminal? t).isSome := by
    have := (faces_of_contents? w' hb inside).isSome_terminal?
    rwa [x.frame₄.terminal, x.atInput.terminal (x.wellFormed₃ d wf),
      x.atOutput.terminal (x.wellFormed₂ d wf), x.frame₂.terminal, x.wire.terminal] at this
  rcases (x.feeds o t).1 hf with old | ⟨rfl, rfl⟩
  · -- the terminal had a wire, and so a peer
    obtain ⟨c, hc⟩ := Option.isSome_iff_exists.1 ((w.fitted t terminal).2 ⟨o, .inr old⟩)
    have same := x.peer_kept hc
    rw [back, Option.some.injEq] at same
    subst same
    have hb := wf.linked.back _ _ hc
    have live := (isSome_direction?_iff g b).2 (isSome_attr?_of_peer? g hb)
    rw [declaredType_eq, (x.slot_old live).1, ← declaredType_eq] at hu
    rw [x.tree.network] at inside
    exact x.lends_kept wf (k.resolved b t o u hb inside old hu)
  · rw [x.frame₄.peer] at back
    rcases x.grown_input d w s.standard s.typed.toSuited with same | ⟨i, a, v, c, r, type, lent, -⟩
    · -- a terminal that had no wire had no peer either
      rw [same] at back
      have live : (g₂.direction? e.input).isSome := by
        rw [x.frame₂.direction, x.wire.direction, d.input]
        rfl
      have before := x.atOutput.peer_old back live d.ends_ne.symm
      rw [x.peer₂] at before
      obtain ⟨q, hq | hq⟩ := (w.fitted e.input terminal).1 (by simp [before])
      · exact absurd hq (not_feeds_of_input wf.wired d.input)
      · exact absurd hq ((d.matched w s.typed.toSuited).unfed q)
    · have here : g₄.peer? e.input = some ⟨n, i⟩ :=
        (c.peer_eq_some_iff r _ _).2 (.inr (.inr ⟨rfl, rfl⟩))
      rw [back, Option.some.injEq] at here
      rw [here, x.frame₄.declaredType, declaredType_eq, c.attr, if_pos rfl, Option.bind_some, type,
        k.primed.heldType_of_lends s.typed.toSuited d.output lent, Option.some.injEq] at hu
      rw [← hu]
      exact x.lends_kept wf lent

theorem Drawn.anchored (r : h.Recoverable) (k : g.Anchored) : h.Anchored where
  blank := x.blank d w s k.blank
  primed := x.primed d w s k.primed
  backed := fun o i hf free => by
    have wf := w.wellFormed
    have output := hf.output (x.wellFormed d wf).wired
    have terminal := r.idle (x.standard d wf s.standard)
      (x.suited d w s.standard s.typed.toSuited).toMatching o output free
    exact (x.fitted d wf w.fitted o (by simp [terminal])).2 ⟨i, .inl hf⟩
  resolved := fun _ _ _ _ => x.resolved d w s k

end Drawn

/-! ### Edits -/

/-- What there is to say of a graph that is recoverable. -/
structure Grounded (g : Graph) : Prop extends Sorted g where
  recoverable : g.Recoverable
  anchored : g.Anchored

/-- New nodes are of types that the claims about recovery are made for, and start from values that
suit them. -/
structure Recovers (t : NodeType) (values : Datablock) : Prop extends Fits t values where
  regular : t.Regular
  own : t.name = NodeType.networkInput.name ∨ t.name = NodeType.networkOutput.name ∨ t.Recoverable

theorem SameFrame.anchored (a : SameFrame g h) (k : g.Anchored) (blank : h.Blank) (primed : h.Primed) :
    h.Anchored := by
  refine ⟨blank, primed, ?_, ?_⟩
  · rw [a.feeds, a.declaredType, a.peer]
    exact k.backed
  · rw [a.peer, a.contents, a.feeds, a.declaredType, a.lends]
    exact k.resolved

theorem Grounded.carry {f : Port → Port} (k : g.Grounded) (c : Carried f g h) (w : g.WellFormed)
    (w' : h.WellFormed) (sorted : h.Sorted) (r : h.Recoverable) : h.Grounded :=
  ⟨sorted, r, c.anchored k.anchored k.typed.toMatching w w'
    (r.idle sorted.standard sorted.typed.toMatching)⟩

theorem Quiet.grounded (a : Quiet g h) (k : g.Grounded) : h.Grounded :=
  ⟨a.sorted k.toSorted, k.recoverable.of_sameFrame a.frame,
    a.frame.anchored k.anchored (a.blank k.anchored.blank) (a.primed k.anchored.primed)⟩

/-- After what carries all ports over, only news may follow. -/
theorem Carried.anchored_quiet {f : Port → Port} {j : Graph} (c : Carried f g j) (quiet : Quiet j h)
    (k : g.Anchored) (m : g.Matching) (w : g.WellFormed) (w' : j.WellFormed) (sorted : h.Sorted)
    (r : h.Recoverable) : h.Anchored := by
  have idle := r.idle sorted.standard sorted.typed.toMatching
  rw [quiet.frame.direction, quiet.frame.declaredType, quiet.frame.terminal] at idle
  have a := c.anchored k m w w' idle
  exact quiet.frame.anchored a (quiet.blank a.blank) (quiet.primed a.primed)

theorem anchored_dropPort {b t : Port} (w : g.WellFormed) (hb : g.peer? b = some t)
    (hc : ¬ g.Connected b) (ht : ¬ g.Connected t) (k : g.Grounded) (sorted : (g.dropPort b).Sorted)
    (r : (g.dropPort b).Recoverable) : (g.dropPort b).Anchored := by
  have idle := k.recoverable.idle k.standard k.typed.toMatching
  obtain ⟨g₁, g₂, a, w₁, x, eq⟩ := dropped w hb hc
  rw [eq] at sorted r ⊢
  -- first the two ports are no longer peers, then the one is gone
  have c₁ := a.carried hc ht k.typed.toSuited
  have suited₁ := c₁.suited w₁.wired k.typed.toSuited
  have k₁ := c₁.anchored k.anchored k.typed.toMatching w w₁ fun o output free => by
    rw [a.terminal]
    rw [a.direction] at output
    rw [declaredType_eq, a.attr, ← declaredType_eq] at free
    exact idle o output free
  exact (x.carried w₁ suited₁).anchored_quiet (quiet_emit g₂ _) k₁ suited₁.toMatching w₁
    (x.wellFormed w₁) sorted r

theorem anchored_create (config : Config) (ids : IdSupply) (marks : Nat) (calls : Table Nat Nat) :
    (create config ids marks calls).Anchored := by
  have neat := neat_create config ids marks calls
  have w := (lawful_create config ids marks calls).wellFormed.wired
  have dead (p : Port) : ¬ ((create config ids marks calls).attr? p).isSome := by
    simp [attr?, slot?_create]
  exact ⟨neat.blank, neat.primed, fun o i hf => absurd (hf.isSome_attr? w).1 (dead o),
    fun b t o u hb => absurd (isSome_attr?_of_peer? _ hb) (dead b)⟩

theorem recoverable_create (config : Config) (ids : IdSupply) (marks : Nat) (calls : Table Nat Nat) :
    (create config ids marks calls).Recoverable := by
  intro n t ht leaf
  rw [type?_create config ids marks calls n t ht]
  exact .inr (.inr NodeType.recoverable_network)

theorem keptByEdits_grounded : KeptByEdits false Recovers Grounded where
  toKeptByGrowth :=
    { quiet := fun _ _ a k => a.grounded k
      insert := fun g _ _ _ _ _ attachment w makes a k => by
        have x := inserted g attachment a
        exact ⟨keptByEdits_sorted.insert _ _ _ _ _ _ _ w makes.toFits a k.toSorted,
          k.recoverable.inserted x makes.own, x.anchored a w makes.suits k.anchored⟩
      draw := fun g _ _ w d k => by
        obtain ⟨g₁, g₂, g₃, g₄, x⟩ := drawn d w.wellFormed
        have r := k.recoverable.drawn x d w.wellFormed.tree
        exact ⟨keptByEdits_sorted.draw _ _ _ w d k.toSorted, r, x.anchored d w k.toSorted r k.anchored⟩
      assign := fun g p v t w ok k => by
        have frame := g.sameFrame_replace p t v
        exact ⟨keptByEdits_sorted.assign _ _ _ _ w ok k.toSorted, k.recoverable.of_sameFrame frame,
          frame.anchored k.anchored (blank_replace w ok k.anchored.blank)
            (primed_replace (free_of_checkAssign ok).1 k.anchored.primed)⟩
      arrange := fun g h n names w t ok k => by
        have sorted := keptByEdits_sorted.arrange g h n names w t ok k.toSorted
        rcases arranged w names ok with rfl | ⟨-, old, new, g₁, x, rfl⟩
        · exact k
        · have r := (k.recoverable.renumbered x).of_sameFrame (sameFrame_emit g₁ (.metadataChanged n))
          exact ⟨sorted, r, (x.carried w k.typed.toSuited).anchored_quiet (quiet_emit g₁ _) k.anchored
            k.typed.toMatching w (x.wellFormed w) sorted r⟩ }
  sever := fun g _ _ w he k =>
    k.carry (carried_sever w k.standard he k.typed.toSuited) w (wellFormed_sever w he)
      (keptByEdits_sorted.sever _ _ _ w he k.toSorted) (k.recoverable.severed w he)
  drop := fun g b t w hb hf hc ht k => by
    have sorted := keptByEdits_sorted.drop _ _ _ w hb hf hc ht k.toSorted
    have r := k.recoverable.dropped w hb hc
    exact ⟨sorted, r, anchored_dropPort w hb hc ht k sorted r⟩
  remove := fun g h n w b x k =>
    k.carry (x.carried b w k.typed.toSuited) w (x.wellFormed b w)
      (keptByEdits_sorted.remove _ _ _ w b x k.toSorted) (k.recoverable.removed x)
  start := fun config ids marks calls =>
    ⟨sorted_create config ids marks calls, recoverable_create config ids marks calls,
      anchored_create config ids marks calls⟩
  rename := fun g h n new w ready x k =>
    k.carry (x.carried k.typed.toSuited) w (x.wellFormed ready w)
      (keptByEdits_sorted.rename _ _ _ _ w ready x k.toSorted) (k.recoverable.renamed x w)

/-! ### Reads -/

section Honest
variable (k : g.Grounded) (w : g.Lawful)
include k w

/-- An output that goes by a type of others has a wire, and so it has a peer. -/
theorem Grounded.diligent : g.Diligent := by
  intro p t output bare free goes _
  have bears := (k.typed.effectiveType_eq_some_iff w p t).1 goes
  rcases (bears_output_iff w.wellFormed.wired output t).1 bears with own | ⟨-, i, hf, -⟩
  · rw [free] at own
    cases own
  · have := k.anchored.backed p i hf free
    simp [bare] at this

/-- The port of a network and its terminal go by one type. -/
theorem Grounded.mirrored : g.Mirrored := by
  intro p q output hq
  have wf := w.wellFormed
  have back := wf.linked.back _ _ hq
  rcases wf.linked.faces p q hq with faces | faces
  · -- a terminal goes by the type of the network input
    have terminal := faces.isSome_terminal?
    obtain ⟨side, hs⟩ := Option.isSome_iff_exists.1 terminal
    have free := k.standard.declaredType_terminal hs
    obtain ⟨u, hu⟩ := Option.isSome_iff_exists.1
      (k.typed.boundary q p back (faces.isSome_contents? wf.tree))
    obtain ⟨i, hi | hi⟩ := (w.fitted p terminal).1 (by simp [hq])
    · have goes : g.Bears p u := .inl (.inr ⟨free, i, hi, .inr ⟨q, hq, hu⟩⟩)
      rw [effectiveType_of_declared wf.tree hu, (k.typed.effectiveType_eq_some_iff w p u).2 goes]
    · exact absurd hi (not_feeds_of_output wf.wired output)
  · -- a network output has the type of what feeds its terminal
    have inside := faces.isSome_contents? wf.tree
    obtain ⟨side, hs, hd, -⟩ := faces
    rw [output, Option.some.injEq] at hd
    subst hd
    have free := k.standard.declaredType_terminal hs
    obtain ⟨u, hu⟩ := Option.isSome_iff_exists.1 (k.typed.boundary p q hq inside)
    obtain ⟨o, ho | ho⟩ := (w.fitted q (by simp [hs])).1 (by simp [back])
    · exact absurd (ho.output wf.wired) (terminal?_direction hs).1
    · have goes : g.Bears q u := .inr ⟨free, o, ho, k.anchored.resolved p q o u hq inside ho hu⟩
      rw [effectiveType_of_declared wf.tree hu, (k.typed.effectiveType_eq_some_iff w q u).2 goes]

theorem Grounded.upright : g.Upright :=
  LawfulWith.upright ⟨w, k.toSorted⟩ (k.diligent w) (k.mirrored w)

/-- Every read brings ports up to date with values of the types by which they go. -/
theorem Grounded.honest (o : Action) : Honest g o := fun ho p t stale current goes =>
  (fair_reads (k.upright w) ho).new p t stale current goes

/-- Outputs without types go on holding what is lent from them. -/
theorem Grounded.primed_reads {o : Action} (ho : o.reads = true) : (o.after g).Primed := by
  have fair := fair_reads (k.upright w) ho
  intro p output free
  rw [fair.frame.direction] at output
  rw [fair.frame.declaredType] at free
  rw [fair.frame.lends, fair.frame.feeds]
  rcases k.anchored.primed p output free with ⟨t, lent, same⟩ | ⟨bare, none⟩
  · have goes := (k.typed.effectiveType_eq_some_iff w p t).2 (.inl lent)
    exact .inl ⟨t, lent, fair.kept goes same⟩
  · have terminal := k.recoverable.idle k.standard k.typed.toMatching p output free
    exact .inr ⟨bare, (fair.inert p (inert_of_free w k.standard terminal bare)).trans none⟩

theorem Grounded.reads (c : g.Coherent) {o : Action} (ho : o.reads = true) :
    (o.after g).Grounded := by
  have frame := (calmer_reads ho g).frame
  have rework := leads_reads (R := Rework fun _ => True) Rework.steps
    (fun levels q k => ((faithful_readWithin levels).rework q k).mono fun _ _ => trivial) ho g
  obtain ⟨-, -, -, given⟩ := rework ⟨w, c⟩
  refine ⟨sorted_reads ⟨w, k.toSorted⟩ ho (k.honest w o), k.recoverable.of_sameFrame frame,
    frame.anchored k.anchored ?_ (k.primed_reads w ho)⟩
  -- what comes from outside of the graph is not touched
  refine frame.blank (fun p input _ unfed => ?_) k.anchored.blank
  exact heldType_congr (given p (.inl ⟨input, (source?_eq_none_iff w.wellFormed.wired p).2 unfed⟩))

end Honest

/-! ### Runs -/

/-- Graphs of runs with recoverable node types, in which nothing is disturbed. -/
abbrev RecoverableRun (g : Graph) : Prop :=
  Reachable (fun g o => o.Makes Recovers ∧ Undisturbed g o) g

theorem RecoverableRun.regular (r : RecoverableRun g) : RegularRun g := by
  exact r.mono fun g o ok => ⟨Action.Makes.uses ok.1 fun _ _ makes => makes.regular, ok.2⟩

theorem grounded_of_run (r : RecoverableRun g) : LawfulWith Grounded g := by
  induction r with
  | start config ids marks calls => exact ⟨lawful_create .., keptByEdits_grounded.start ..⟩
  | @step k o r ok w =>
    refine w.after keptByEdits_grounded (fun _ _ makes => makes.standard.sound) ok.1
      (aimed_false k o) fun ho => ?_
    exact ⟨(calmer_reads ho k).frame.lawful w.lawful,
      w.holds.reads w.lawful (coherent_of_run (RecoverableRun.regular r)).holds ho⟩

end Graph
end Dataflow
