import Dataflow.Proofs.Unfed
set_option autoImplicit false

/-!
Outputs without types of their own, where no wire has ever been cut. Main statement: in a graph that
only grows, such an output holds something of the type that its wires lend it, or it has no wire and
holds nothing.
-/

namespace Dataflow.Graph
variable {g h : Graph}

/-- No wire that was there before can be told from what an output without a type of its own holds. -/
def Primed (g : Graph) : Prop :=
  ∀ o, g.direction? o = some .output → g.declaredType o = none →
    (∃ t, g.Lends o t ∧ g.heldType o = some t) ∨ (∀ i, ¬ g.Feeds o i) ∧ g.heldType o = none

/-- What a graph is that has come about by building alone. -/
structure Neat (g : Graph) : Prop extends Sorted g where
  primed : g.Primed
  awake : g.Awake
  blank : g.Blank

/-- A type is lent on as long as what lends it is still there. -/
theorem Lends.map {o : Port} {t : DataType} (lent : g.Lends o t) (f : Port → Port)
    (declared : h.declaredType (f o) = g.declaredType o)
    (feeds : ∀ i, g.Feeds o i → h.Feeds (f o) (f i) ∧ h.declaredType (f i) = g.declaredType i)
    (peer : ∀ b, g.peer? o = some b →
      h.peer? (f o) = some (f b) ∧ h.declaredType (f b) = g.declaredType b) : h.Lends (f o) t := by
  refine lent.imp (fun own => declared.trans own) ?_
  rintro ⟨free, i, hf, lent⟩
  refine ⟨declared.trans free, f i, (feeds i hf).1, lent.imp (fun own => ?_) ?_⟩
  · rw [(feeds i hf).2, own]
  · rintro ⟨b, hb, own⟩
    exact ⟨f b, (peer b hb).1, by rw [(peer b hb).2, own]⟩

theorem SameFrame.primed (a : SameFrame g h) (held : ∀ p, g.direction? p = some .output →
    h.heldType p = g.heldType p) (k : g.Primed) : h.Primed := by
  intro o output free
  rw [a.direction] at output
  rw [a.declaredType] at free
  rw [held o output, a.lends, a.feeds]
  exact k o output free

theorem Quiet.primed (a : Quiet g h) (k : g.Primed) : h.Primed :=
  a.frame.primed (fun p _ => by rw [heldType, a.held]; rfl) k

/-- An output from which a type is lent holds something of that type. -/
theorem Primed.heldType_of_lends (k : g.Primed) (s : g.Suited) {o : Port} {t : DataType}
    (ho : g.direction? o = some .output)
    (lent : g.Lends o t) : g.heldType o = some t := by
  cases own : g.declaredType o with
  | some u =>
    rw [s.lends_unique lent (.inl own)]
    exact s.declared o u own
  | none =>
    rcases k o ho own with ⟨u, hu, held⟩ | ⟨bare, -⟩
    · rw [s.lends_unique lent hu, held]
    · rcases lent with lent | ⟨-, i, hf, -⟩
      · rw [own] at lent
        cases lent
      · exact absurd hf (bare i)

theorem Neat.heldType_of_lends (k : g.Neat) {o : Port} {t : DataType}
    (ho : g.direction? o = some .output) (lent : g.Lends o t) : g.heldType o = some t :=
  k.primed.heldType_of_lends k.typed.toSuited ho lent

theorem Quiet.neat (a : Quiet g h) (k : g.Neat) : h.Neat :=
  ⟨a.sorted k.toSorted, a.primed k.primed, a.awake k.awake, a.blank k.blank⟩

theorem neat_create (config : Config) (ids : IdSupply) (marks : Nat) (calls : Table Nat Nat) :
    (create config ids marks calls).Neat where
  toSorted := sorted_create config ids marks calls
  primed := fun o output => by
    rw [direction?, slot?_create] at output
    cases output
  awake := fun p input => by
    rw [direction?, slot?_create] at input
    cases input
  blank := fun p input => by
    rw [direction?, slot?_create] at input
    cases input

section Inserted
variable {id parent : NodeId} {t : NodeType} {name : String} {values : Datablock}
  (x : Inserted id parent t name values g h) (a : Insertable id parent t name values g)
include x a

theorem Inserted.lends_kept (w : g.WellFormed) {o : Port} {u : DataType} (lent : g.Lends o u) :
    h.Lends o u := by
  have old {p : Port} (live : (g.attr? p).isSome) : h.declaredType p = g.declaredType p :=
    x.declaredType_old (a.node_ne ((isSome_direction?_iff g p).2 live))
  refine lent.map (fun p => p) (old (lent.isSome_attr? w.wired)) (fun i hf => ?_) fun b hb => ?_
  · exact ⟨by rwa [x.feeds a], old (hf.isSome_attr? w.wired).2⟩
  · exact ⟨by rwa [x.peer a], old (isSome_attr?_of_peer? g (w.linked.back _ _ hb))⟩

theorem Inserted.primed (w : g.WellFormed) (suits : values.Suits t) (k : g.Primed) : h.Primed := by
  intro o output free
  have feeds := x.feeds a
  by_cases ho : o.node = id
  · refine .inr ⟨fun i hf => ?_, by rw [x.heldType_new suits ho, free]⟩
    rw [feeds] at hf
    exact a.node_ne (by rw [hf.output w.wired]; rfl) ho
  · rw [direction?, x.slot o ho] at output
    have held : h.heldType o = g.heldType o := by
      rw [heldType, Graph.held, x.slot o ho]
      rfl
    rw [x.declaredType_old ho] at free
    rw [held, feeds]
    exact (k o output free).imp_left fun lent =>
      lent.imp fun _ => And.imp_left (x.lends_kept a w)

end Inserted

section Renumbered
variable {n : NodeId} {old new : Nat → Nat} (a : Renumbered n old new g h)
include a

theorem Renumbered.lends_kept (w : g.WellFormed) {o : Port} {t : DataType}
    (there : (o.moved n old).moved n new = o) (lent : g.Lends (o.moved n old) t) : h.Lends o t := by
  rw [← there]
  refine lent.map (Port.moved n new) (by rw [there, a.declaredType]) (fun i hf => ?_) fun b hb => ?_
  · exact ⟨(a.feeds_iff _ _).2 ⟨_, i, hf, rfl, rfl⟩, by rw [a.declaredType, a.kept_input hf]⟩
  · refine ⟨by rw [there, a.peer, hb]; rfl, ?_⟩
    rw [a.declaredType, a.kept b (.inl (by rw [w.linked.back _ _ hb]; rfl))]

theorem Renumbered.primed (k : g.Primed) (w : g.WellFormed) : h.Primed := by
  intro o output free
  have held : h.heldType o = g.heldType (o.moved n old) := by
    rw [heldType, a.held]
    rfl
  have there : (o.moved n old).moved n new = o := by
    refine a.live o ?_
    rw [isSome_slot?, ← isSome_direction?_iff, output]
    rfl
  rw [a.direction] at output
  rw [a.declaredType] at free
  rw [held]
  exact (k _ output free).imp (fun lent => lent.imp fun _ => And.imp_left (a.lends_kept w there))
    (And.imp_left fun bare i hf => bare _ (a.feeds_old hf))

end Renumbered

/-! ### A new wire -/

section Drawn
variable {g₁ g₂ g₃ g₄ : Graph} {n : NodeId} {e : Edge} (x : Drawn n e g g₁ g₂ g₃ g₄ h)
include x

theorem Drawn.peer_kept {p q : Port} (hq : g.peer? p = some q) : h.peer? p = some q := by
  have still {a b : Graph} {side : Direction} {t : Port} (y : Extended side t n a b)
      (hq : a.peer? p = some q) : b.peer? p = some q :=
    y.elim (P := fun k => k.peer? p = some q) hq fun i c gr r => (gr.peer_eq_some_iff r p q).2 (.inl hq)
  rw [x.frame₄.peer]
  refine still x.atInput (still x.atOutput ?_)
  rwa [x.frame₂.peer, x.wire.peer]

theorem Drawn.lends_kept {o : Port} {t : DataType} (w : g.WellFormed)
    (ho : g.Lends o t) : h.Lends o t := by
  have live : (g.attr? o).isSome := Lends.isSome_attr? w.wired ho
  have declared {p : Port} (live : (g.attr? p).isSome) : h.declaredType p = g.declaredType p := by
    rw [declaredType_eq, (x.slot_old ((isSome_direction?_iff g p).2 live)).1, declaredType_eq]
  refine ho.map id (declared live) (fun i hf => ?_) fun b hb => ?_
  · exact ⟨(x.feeds o i).2 (.inl hf), declared (hf.isSome_attr? w.wired).2⟩
  · exact ⟨x.peer_kept hb, declared (isSome_attr?_of_peer? g (w.linked.back _ _ hb))⟩

/-- The end of the first wire gives an output its type. -/
theorem Drawn.primed (d : Drawable n e g) (w : g.Lawful) (s : g.Sorted) (k : g.Primed) :
    h.Primed := by
  intro o output free
  have wf := w.wellFormed
  have m := d.matched w s.typed.toSuited
  have live : (g.direction? o).isSome := (isSome_direction?_iff g o).2 <|
    x.live_of_free d w s ((isSome_direction?_iff h o).1 (by rw [output]; rfl)) free
  have attr := (x.slot_old live).1
  rw [direction?_eq, attr, ← direction?_eq] at output
  rw [declaredType_eq, attr, ← declaredType_eq] at free
  have held : h.heldType o = g₂.heldType o := by
    rw [heldType, x.held₂ live]
    rfl
  have hi : o ≠ e.input := by
    rintro rfl
    rw [d.input] at output
    cases output
  rw [held]
  rcases k o output free with ⟨t, lent, same⟩ | ⟨bare, none⟩
  · refine .inl ⟨t, x.lends_kept wf lent, ?_⟩
    rw [x.heldType₂_of_isSome d (by simp [same]) fun h => absurd h hi, same]
  · by_cases ho : o = e.output
    · subst ho
      have fed := (x.feeds e.output e.input).2 (.inr ⟨rfl, rfl⟩)
      obtain ⟨t, ht⟩ : ∃ t, g.declaredType e.input = some t := by
        rcases m.known with ⟨t, own | ⟨-, i, hf, -⟩⟩ | known
        · rw [free] at own
          cases own
        · exact absurd hf (bare i)
        · exact Option.isSome_iff_exists.1 known
      have input := (x.slot_old (q := e.input) (by rw [d.input]; rfl)).1
      refine .inl ⟨t, .inr ⟨by rwa [declaredType_eq, attr, ← declaredType_eq], e.input, fed, .inl ?_⟩, ?_⟩
      · rwa [declaredType_eq, input, ← declaredType_eq]
      · rw [x.heldType₂_output d, if_pos ⟨free, none⟩, if_neg (by simp [ht]),
          s.typed.declared _ t ht]
    · refine .inr ⟨fun i hf => ?_, by rw [x.heldType₂_of_ne ho hi, none]⟩
      rcases (x.feeds o i).1 hf with hf | ⟨rfl, -⟩
      · exact bare i hf
      · exact ho rfl

end Drawn

/-! ### Edits -/

theorem primed_replace {p : Port} {s : Slot} {v : Value} (hd : g.direction? p = some .input)
    (k : g.Primed) : (g.replace p s v).Primed := by
  refine (g.sameFrame_replace p s v).primed (fun q output => ?_) k
  rw [heldType, held_replace]
  · rfl
  · rintro rfl
    rw [hd] at output
    cases output

theorem keptByGrowth_neat : KeptByGrowth false Fits Neat where
  quiet := fun _ _ a k => a.neat k
  insert := fun g _ _ _ _ _ attachment w fits a k => by
    have x := inserted g attachment a
    exact ⟨keptByEdits_sorted.insert _ _ _ _ _ _ _ w fits a k.toSorted,
      x.primed a w fits.suits k.primed, x.awake a k.awake, x.blank a fits.suits k.blank⟩
  draw := fun g _ _ w d k => by
    obtain ⟨g₁, g₂, g₃, g₄, x⟩ := drawn d w.wellFormed
    exact ⟨keptByEdits_sorted.draw _ _ _ w d k.toSorted, x.primed d w k.toSorted k.primed,
      x.awake d w.wellFormed k.awake, x.blank d w k.toSorted k.blank⟩
  assign := fun _ _ _ _ w ok k =>
    ⟨keptByEdits_sorted.assign _ _ _ _ w ok k.toSorted,
      primed_replace (free_of_checkAssign ok).1 k.primed, awake_replace w ok k.awake,
      blank_replace w ok k.blank⟩
  arrange := fun g h n names w t ok k => by
    have sorted := keptByEdits_sorted.arrange g h n names w t ok k.toSorted
    rcases arranged w names ok with rfl | ⟨-, old, new, g₁, r, rfl⟩
    · exact k
    · have quiet := quiet_emit g₁ (.metadataChanged n)
      exact ⟨sorted, quiet.primed (r.primed k.primed w), quiet.awake (r.awake k.awake),
        quiet.blank (r.blank k.blank)⟩

end Dataflow.Graph
