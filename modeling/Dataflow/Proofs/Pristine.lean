import Dataflow.Proofs.Redraw
set_option autoImplicit false

/-!
Graphs that only grow. Where no wire has ever been cut, nothing is left over from what is gone: the
first wire of an output tells its type, and a network hands out values of the type that it takes in.
Main statements: each step that adds something keeps this, and of such a graph a copy can be built.
-/

namespace Dataflow.Graph
variable {g h : Graph}

/-- A network port that hands out values is of the type of what is wired to its terminal. -/
def Conveying (g : Graph) : Prop :=
  ∀ b t o u, g.peer? b = some t → (g.contents? b.node).isSome → g.Feeds o t →
    g.declaredType b = some u → g.Lends o u

/-- What a graph is to which things have come and from which nothing has gone. -/
structure Pristine (g : Graph) : Prop extends Neat g where
  acyclic : g.Acyclic
  leading : g.Leading
  conveying : g.Conveying

/-- The peers at a boundary go by one type. -/
theorem Conveying.mirrored (k : g.Conveying) (m : g.Matching) (s : g.Standard) (w : g.Lawful) :
    g.Mirrored := by
  intro p q output hp
  have wf := w.wellFormed
  have bears := m.effectiveType_eq_some_iff w
  have back := wf.linked.back _ _ hp
  have wire {t b : Port} (faces : g.Faces t b) (ht : g.peer? t = some b) :
      ∃ side u i, g.terminal? t = some side ∧ g.declaredType t = none ∧ g.declaredType b = some u ∧
        (g.Feeds t i ∨ g.Feeds i t) := by
    obtain ⟨side, terminal, -⟩ := id faces
    obtain ⟨u, hu⟩ := Option.isSome_iff_exists.1
      (m.boundary b t (wf.linked.back _ _ ht) (faces.isSome_contents? wf.tree))
    obtain ⟨i, hi⟩ := (w.fitted t (by rw [terminal]; rfl)).1 (by rw [ht]; rfl)
    exact ⟨side, u, i, terminal, s.declaredType_terminal terminal, hu, hi⟩
  rcases wf.linked.faces _ _ hp with faces | faces
  · obtain ⟨side, u, i, -, free, hu, hi | hi⟩ := wire faces hp
    · rw [effectiveType_of_declared wf.tree hu]
      exact (bears p u).2 (.inl (.inr ⟨free, i, hi, .inr ⟨q, hp, hu⟩⟩))
    · exact absurd hi (not_feeds_of_output wf.wired output)
  · obtain ⟨side, u, o, -, free, hu, ho | ho⟩ := wire faces back
    · have input := faces.direction_ne
      rw [ho.output wf.wired, output] at input
      exact absurd rfl input
    · rw [effectiveType_of_declared wf.tree hu]
      refine ((bears q u).2 (.inr ⟨free, o, ho, ?_⟩)).symm
      exact k p q o u hp (faces.isSome_contents? wf.tree) ho hu

theorem Pristine.buildable (k : g.Pristine) (w : g.Lawful) : g.Buildable where
  toSuited := k.typed.toSuited
  lawful := w
  standard := k.standard
  acyclic := k.acyclic
  mirrored := k.conveying.mirrored k.typed.toMatching k.standard w

/-! ### Steps that leave the frame alone -/

section Frame
variable (a : SameFrame g h)
include a

theorem SameFrame.leading (k : g.Leading) : h.Leading := by
  rw [Leading, a.declaredType, a.sinks]
  exact k

theorem SameFrame.conveying (k : g.Conveying) : h.Conveying := by
  rw [Conveying, a.peer, a.contents, a.feeds, a.declaredType, a.lends]
  exact k

end Frame

theorem Quiet.pristine (a : Quiet g h) (k : g.Pristine) : h.Pristine where
  toNeat := a.neat k.toNeat
  acyclic := a.frame.acyclic k.acyclic
  leading := a.frame.leading k.leading
  conveying := a.frame.conveying k.conveying

/-! ### A new node -/

section Inserted
variable {id parent : NodeId} {t : NodeType} {name : String} {values : Datablock}
  (x : Inserted id parent t name values g h) (a : Insertable id parent t name values g)
  (w : g.WellFormed)
include x a w

theorem Inserted.leading (k : g.Leading) : h.Leading := by
  intro o i free first
  have fed := feeds_of_head? (x.wellFormed a w).wired first
  rw [x.feeds a] at fed
  have live := fed.isSome_attr? w.wired
  have old {p : Port} (hp : (g.attr? p).isSome) : p.node ≠ id :=
    a.node_ne ((isSome_direction?_iff g p).2 hp)
  rw [x.declaredType_old (old live.1)] at free
  rw [x.declaredType_old (old live.2)]
  refine k o i free ?_
  rwa [Graph.sinks, wiresAround_eq, x.around, if_neg (old live.1), x.wires a, ← wiresAround_eq] at first

theorem Inserted.conveying (k : g.Conveying) : h.Conveying := by
  intro b t' o u hb inside fed hu
  rw [x.peer a] at hb
  rw [x.feeds a] at fed
  have hn : b.node ≠ id := a.node_ne ((isSome_direction?_iff g b).2 (isSome_attr?_of_peer? g hb))
  rw [x.declaredType_old hn] at hu
  rw [x.network_old hn] at inside
  exact x.lends_kept a w (k b t' o u hb inside fed hu)

end Inserted

/-! ### New places -/

section Renumbered
variable {n : NodeId} {old new : Nat → Nat} (a : Renumbered n old new g h) (w : g.WellFormed)
include a w

theorem Renumbered.leading (k : g.Leading) : h.Leading := by
  intro o i free first
  have fed := feeds_of_head? (a.wellFormed w).wired first
  obtain ⟨o', i', hf, rfl, rfl⟩ := (a.feeds_iff _ _).1 fed
  rw [a.sinks w hf, List.head?_map, Option.map_eq_some_iff] at first
  obtain ⟨j, first, same⟩ := first
  have hj := feeds_of_head? w.wired first
  rw [a.declaredType, a.kept_output hf] at free
  rw [← same, a.declaredType, a.kept_input hj]
  exact k o' j free first

theorem Renumbered.conveying (k : g.Conveying) : h.Conveying := by
  intro b t o u hb inside fed hu
  have there : (o.moved n old).moved n new = o := by
    refine a.live o ?_
    rw [isSome_slot?]
    exact (fed.isSome_attr? (a.wellFormed w).wired).1
  refine a.lends_kept w there (k _ _ _ u (a.peer_old w.linked hb) ?_ (a.feeds_old fed) ?_)
  · rwa [node_moved, ← a.tree.network]
  · rwa [← a.declaredType]

end Renumbered

/-! ### A new wire -/

section Drawn
variable {g₁ g₂ g₃ g₄ : Graph} {n : NodeId} {e : Edge} (x : Drawn n e g g₁ g₂ g₃ g₄ h)
  (d : Drawable n e g)
include x d

/-- The first wire of an output without a type of its own leads to an input that has one. -/
theorem Drawn.leading (w : LawfulWith Neat g) (k : g.Leading) : h.Leading := by
  intro o i free first
  have wf := w.lawful.wellFormed
  have matched := d.matched w.lawful w.holds.typed.toSuited
  have declared {p : Port} (live : (g.attr? p).isSome) : h.declaredType p = g.declaredType p := by
    rw [declaredType_eq, (x.slot_old ((isSome_direction?_iff g p).2 live)).1, declaredType_eq]
  have known {p : Port} {dir : Direction} (hp : g.direction? p = some dir) : (g.attr? p).isSome := by
    rw [← isSome_direction?_iff, hp]
    rfl
  have old (first : (g.sinks o).head? = some i) : (h.declaredType i).isSome := by
    have live := (feeds_of_head? wf.wired first).isSome_attr? wf.wired
    rw [declared live.1] at free
    rw [declared live.2]
    exact k o i free first
  rw [x.sinks d] at first
  split at first
  · next ho =>
    subst ho
    cases sinks : g.sinks e.output with
    | nil =>
      rw [sinks] at first
      obtain rfl : e.input = i := Option.some.inj first
      rw [declared (known d.output)] at free
      rw [declared (known d.input)]
      refine matched.known.resolve_left ?_
      rintro ⟨t, own | ⟨-, j, hj, -⟩⟩
      · rw [free] at own
        cases own
      · rw [← mem_sinks_iff wf.wired, sinks] at hj
        cases hj
    | cons j l =>
      refine old ?_
      rw [sinks] at first ⊢
      exact first
  · exact old first

/-- A network port was there, or comes as the peer of an end of the wire. One that hands out values
then has the type that is lent to its terminal. -/
theorem Drawn.peer_cases (w : LawfulWith Neat g) {b t : Port} (hb : h.peer? b = some t)
    (inside : (h.contents? b.node).isSome) : g.peer? b = some t ∨ t = e.output ∨
      t = e.input ∧ ∃ u, g.Lends e.output u ∧ h.declaredType b = some u := by
  have wf := w.lawful.wellFormed
  have leaf {p : Port} {side : Direction} (ht : g.terminal? p = some side) : b.node ≠ p.node := by
    intro same
    have := contents?_of_terminal? wf.tree (p := p) (by rw [ht]; rfl)
    rw [x.tree.network, same, this] at inside
    cases inside
  have terminal₃ : g₃.terminal? = g.terminal? := by
    rw [x.atOutput.terminal (x.wellFormed₂ d wf), x.frame₂.terminal, x.wire.terminal]
  have at₃ (h₃ : g₃.peer? b = some t) : g.peer? b = some t ∨ t = e.output := by
    rw [← x.peer₂]
    rcases x.grown_output d w.lawful w.holds.standard w.holds.typed.toSuited with
      same | ⟨i, a, u, c, ready, -⟩
    · exact .inl (same ▸ h₃)
    · rcases (c.peer_eq_some_iff ready b t).1 h₃ with old | ⟨-, rfl⟩ | ⟨rfl, -⟩
      · exact .inl old
      · exact .inr rfl
      · have terminal := ready.terminal
        rw [x.frame₂.terminal, x.wire.terminal] at terminal
        exact absurd rfl (leaf terminal)
  rw [x.frame₄.peer] at hb
  rcases x.grown_input d w.lawful w.holds.standard w.holds.typed.toSuited with
    same | ⟨i, a, u, c, ready, type, lent, -⟩
  · exact (at₃ (same ▸ hb)).imp_right .inl
  · rcases (c.peer_eq_some_iff ready b t).1 hb with old | ⟨new, rfl⟩ | ⟨rfl, -⟩
    · exact (at₃ old).imp_right .inl
    · refine .inr (.inr ⟨rfl, u, lent, ?_⟩)
      rw [declaredType_eq, x.frame₄.attr, c.attr, if_pos new, Option.bind_some, type,
        w.holds.heldType_of_lends d.output lent]
    · exact absurd rfl (leaf (terminal₃ ▸ ready.terminal))

theorem Drawn.conveying (w : LawfulWith Neat g) (k : g.Conveying) : h.Conveying := by
  intro b t o u hb inside fed hu
  have wf := w.lawful.wellFormed
  have unfed := (d.matched w.lawful w.holds.typed.toSuited).unfed
  rcases x.peer_cases d w hb inside with old | rfl | ⟨rfl, v, lent, hv⟩
  · have inside₀ : (g.contents? b.node).isSome := by rwa [← x.tree.network]
    have live := (isSome_direction?_iff g b).2 (isSome_attr?_of_peer? g old)
    rw [declaredType_eq, (x.slot_old live).1, ← declaredType_eq] at hu
    rcases (x.feeds o t).1 fed with fed | ⟨-, rfl⟩
    · exact x.lends_kept wf (k b t o u old inside₀ fed hu)
    · -- a terminal with a peer has a wire already
      have terminal := (faces_of_contents? wf old inside₀).isSome_terminal?
      obtain ⟨j, hj | hj⟩ := (w.lawful.fitted e.input terminal).1 (by rw [wf.linked.back _ _ old]; rfl)
      · exact absurd hj (not_feeds_of_input wf.wired d.input)
      · exact absurd hj (unfed j)
  · have output := (x.feeds e.output e.input).2 (.inr ⟨rfl, rfl⟩)
    have wired := (x.wellFormed d wf).wired
    exact absurd fed (not_feeds_of_output wired (output.output wired))
  · rw [hv, Option.some.injEq] at hu
    subst hu
    rcases (x.feeds o e.input).1 fed with fed | ⟨rfl, -⟩
    · exact absurd fed (unfed o)
    · exact x.lends_kept wf lent

end Drawn

/-! ### All steps -/

theorem pristine_create (config : Config) (ids : IdSupply) (marks : Nat) (calls : Table Nat Nat) :
    (create config ids marks calls).Pristine where
  toNeat := neat_create config ids marks calls
  acyclic := acyclic_create config ids marks calls
  leading := fun o i _ first => by
    have fed := feeds_of_head? (lawful_create config ids marks calls).wellFormed.wired first
    obtain ⟨n, hn⟩ := fed
    rw [wires_create] at hn
    cases hn
  conveying := fun b t o u hb => by
    have := isSome_attr?_of_peer? _ hb
    rw [attr?, slot?_create] at this
    cases this

theorem keptByGrowth_pristine : KeptByGrowth false Fits Pristine where
  quiet := fun _ _ a k => a.pristine k
  insert := fun g _ _ _ _ _ attachment w fits a k => by
    have x := inserted g attachment a
    exact ⟨keptByGrowth_neat.insert _ _ _ _ _ _ _ w fits a k.toNeat, x.acyclic a w k.acyclic,
      x.leading a w k.leading, x.conveying a w k.conveying⟩
  draw := fun g n e w d k => by
    obtain ⟨g₁, g₂, g₃, g₄, x⟩ := drawn d w.wellFormed
    have neat : LawfulWith Neat g := ⟨w, k.toNeat⟩
    exact ⟨keptByGrowth_neat.draw _ _ _ w d k.toNeat, x.acyclic d w.wellFormed k.acyclic,
      x.leading d neat k.leading, x.conveying d neat k.conveying⟩
  assign := fun g p v s w ok k => by
    have frame := g.sameFrame_replace p s v
    exact ⟨keptByGrowth_neat.assign _ _ _ _ w ok k.toNeat, frame.acyclic k.acyclic,
      frame.leading k.leading, frame.conveying k.conveying⟩
  arrange := fun g h n names w t ok k => by
    have neat := keptByGrowth_neat.arrange g h n names w t ok k.toNeat
    have acyclic := acyclic_arrange w k.acyclic names ok
    rcases arranged w names ok with rfl | ⟨-, old, new, g₁, r, rfl⟩
    · exact k
    · have frame := (quiet_emit g₁ (.metadataChanged n)).frame
      exact ⟨neat, acyclic, frame.leading (r.leading w k.leading),
        frame.conveying (r.conveying w k.conveying)⟩

end Dataflow.Graph
