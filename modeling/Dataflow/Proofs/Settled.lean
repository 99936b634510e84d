import Dataflow.Proofs.Scratch
set_option autoImplicit false

/-!
How ports that are up to date go on agreeing with what they are made from. Main statement: every
operation but reads keeps this, where computations are functional and documents arrange the ports of
networks only.
-/

namespace Dataflow.Graph

/-- `p` in `h` is made from what `f p` in `g` is made from, and all that has the same values. -/
structure Alike (f : Port → Port) (g h : Graph) (p : Port) : Prop where
  direction : h.direction? p = g.direction? (f p)
  feeds : ∀ o, h.Feeds o p → g.Feeds (f o) (f p)
  peer : ∀ q, h.peer? p = some q → g.peer? (f p) = some (f q)
  loose : (h.peer? p).isSome → g.Loose (f p) → h.Loose p
  type : h.Computed p ∨ ∀ t, h.type? p.node = some t → t.compute.isSome →
    g.type? p.node = some t ∧ ∀ i, f ⟨p.node, i⟩ = ⟨p.node, i⟩
  value : h.value p = g.value (f p)
  values : ∀ q, h.Flows q p → h.value q = g.value (f q)

section Alike
variable {f : Port → Port} {g h : Graph}

theorem Alike.agrees {p : Port} (a : Alike f g h p) (w : h.WellFormed) (old : g.Agrees (f p)) :
    h.Agrees p := by
  constructor
  case wired =>
    intro o ho
    rw [a.value, a.values o (.inr (.inl ho))]
    exact old.wired _ (a.feeds o ho)
  case linked =>
    intro q hd hq
    have back := w.linked.back _ _ hq
    have hqd : h.direction? q = some .input := by
      have ne := peer_direction_ne w.linked hq
      have live := isSome_attr?_of_peer? h back
      rw [hd] at ne
      rw [direction?_eq] at ne ⊢
      obtain ⟨b, hb⟩ := Option.isSome_iff_exists.1 live
      rw [hb] at ne ⊢
      cases hbd : b.direction <;> simp_all
    rw [a.value, a.values q (.inr (.inr ⟨hqd, back⟩))]
    rcases old.linked _ (by rw [← a.direction]; exact hd) (a.peer q hq) with hl | hv
    · exact .inl (a.loose (by simp [hq]) hl)
    · exact .inr hv
  case computed =>
    refine a.type.elim id fun type t c hd ht hc => ?_
    obtain ⟨ht', fixed⟩ := type t ht (by simp [hc])
    have here : f p = p := fixed p.index
    have own := old.computed t c (by rw [← a.direction]; exact hd) (by rw [here]; exact ht') hc
    rw [a.value, own, here]
    refine NodeType.outcome_congr _ _ _ fun i hi => ?_
    rw [a.values _ (.inl (influences_of_mem ht hi)), fixed i]

/-- What is up to date was so before and is alike, or it agrees for a reason of its own. -/
theorem Settled.of_alike (s : g.Settled) (w : h.WellFormed)
    (each : ∀ p, h.isStale p = false → h.Agrees p ∨ g.isStale (f p) = false ∧ Alike f g h p) :
    h.Settled := by
  intro p hp
  rcases each p hp with done | ⟨hs, a⟩
  · exact done
  · exact a.agrees w (s _ hs)

theorem SameFrame.alike (a : SameFrame g h) {p : Port} (value : h.value p = g.value p)
    (values : ∀ q, g.Flows q p → h.value q = g.value q) : Alike id g h p where
  direction := by rw [a.direction]; rfl
  feeds := fun o ho => by rw [a.feeds] at ho; exact ho
  peer := fun q hq => by rw [a.peer] at hq; exact hq
  loose := fun hp hl =>
    hl.of_attr hp (fun i hi => ⟨i, by rwa [a.feeds] at hi⟩) (by rw [a.attr]; rfl) value
  type := .inr fun t ht _ => ⟨by rw [a.type] at ht; exact ht, fun _ => rfl⟩
  value := value
  values := fun q hq => by rw [a.flows] at hq; exact values q hq

theorem Quiet.value (a : Quiet g h) : h.value = g.value := by
  funext p
  simp only [Graph.value, a.held]

theorem Quiet.settled (a : Quiet g h) (s : g.Settled) : h.Settled := by
  intro p hp
  rw [a.isStale] at hp
  have old := s p hp
  constructor
  · rw [a.frame.feeds, a.value]
    exact old.wired
  · intro q hd hq
    rw [a.frame.direction] at hd
    have same := congrFun a.value
    rcases old.linked q hd (by rwa [a.frame.peer] at hq) with hl | hv
    · refine .inl (hl.of_attr (by simp [hq]) (fun i hi => ⟨i, ?_⟩) (by rw [a.frame.attr]) (same p))
      rwa [a.frame.feeds] at hi
    · rw [a.value]
      exact .inr hv
  · rw [Computed, a.frame.direction, a.frame.type, a.value]
    exact old.computed

theorem agrees_of_absent (w : h.WellFormed) {p : Port} (hp : h.direction? p = none) :
    h.Agrees p := by
  constructor
  · intro o ho
    rw [ho.input w.wired] at hp
    cases hp
  · intro q hd
    rw [hd] at hp
    cases hp
  · intro t c hd
    rw [hd] at hp
    cases hp

end Alike

/-! ### Edits -/

/-- No node that computes is of another type than before. -/
def Steady (g h : Graph) : Prop :=
  ∀ n t, h.type? n = some t → t.compute.isSome → g.type? n = some t

section Edits
variable {g h : Graph}

theorem steady_of_type (eq : h.type? = g.type?) : Steady g h := fun n t ht _ => by rwa [eq] at ht

/-- If only networks may have got other types, no node that computes has. -/
theorem steady_of_network (tree : SameTree g h) (s : g.Standard)
    (outside : ∀ n t, g.contents? n = none → h.type? n = some t → g.type? n = some t) :
    Steady g h := by
  intro n t ht hc
  cases hn : g.contents? n with
  | none => exact outside n t hn ht
  | some c =>
    have computes := tree.compute n
    rw [ht] at computes
    obtain ⟨u, hu, huc⟩ := Option.map_eq_some_iff.1 computes.symm
    rw [← huc, s.inert n u hu (by simp [hn])] at hc
    cases hc

theorem Growth.steady {side : Direction} {t b : Port} {a : Attribute} (k : Growth side t b a g h)
    (r : Growth.Ready side t b a g) (w : g.WellFormed) (s : g.Standard) : Steady g h := by
  refine steady_of_network k.tree s fun n u hn hu => ?_
  rw [k.type, if_neg] at hu
  · exact hu
  · rintro rfl
    have := r.isSome_contents? w
    simp [hn] at this

theorem Renumbered.steady {n : NodeId} {old new : Nat → Nat} (a : Renumbered n old new g h)
    (s : g.Standard) (inside : (g.contents? n).isSome) : Steady g h := by
  refine steady_of_network a.tree s fun k t hk ht => ?_
  rwa [a.type k (by rintro rfl; simp [hk] at inside)] at ht

theorem Removed.steady {n : NodeId} (x : Removed n g h) : Steady g h := by
  intro k t ht _
  rw [x.type] at ht
  split at ht
  · cases ht
  · exact ht

theorem Renamed.steady {n : NodeId} {new : String} (x : Renamed n (g.exposedPort? n) new g h)
    (w : g.WellFormed) (s : g.Standard) : Steady g h := by
  intro k t ht hc
  obtain ⟨u, hu, -, huc, same⟩ := x.type_old w ht
  cases hk : g.contents? k with
  | none => rw [same hk, hu]
  | some c =>
    rw [huc, s.inert k u hu (by simp [hk])] at hc
    cases hc

theorem computed_of_inert {p : Port} (inert : ∀ t, g.type? p.node = some t → t.compute = none) :
    g.Computed p := by
  intro t c _ ht hc
  rw [inert t ht] at hc
  cases hc

theorem Renumbered.agrees {n : NodeId} {old new : Nat → Nat} (a : Renumbered n old new g h)
    (w : g.WellFormed) {p : Port} (own : p.node = n → h.Computed p)
    (s : g.Agrees (p.moved n old)) : h.Agrees p := by
  have carried (q : Port) : h.value q = g.value (Port.moved n old q) := by
    rw [value, a.held]
    rfl
  refine Alike.agrees (f := Port.moved n old) ?_ (a.wellFormed w) s
  constructor
  case direction => exact a.direction p
  case feeds => exact fun o => a.feeds_old
  case peer => exact fun q => a.peer_old w.linked
  case loose =>
    intro hp hl
    exact hl.of_attr hp (fun i hi => ⟨_, a.feeds_old hi⟩) (by rw [a.attr]) (carried p)
  case type =>
    by_cases hn : p.node = n
    · exact .inl (own hn)
    · refine .inr fun t ht _ => ⟨?_, fun i => moved_of_ne _ hn⟩
      rwa [a.type _ hn] at ht
  case value => exact carried p
  case values => exact fun q _ => carried q

theorem Renumbered.settled {n : NodeId} {old new : Nat → Nat} (a : Renumbered n old new g h)
    (w : g.WellFormed) (own : ∀ p, p.node = n → h.isStale p = false → h.Computed p)
    (s : g.Settled) : h.Settled := by
  intro p hp
  refine a.agrees w (fun hn => own p hn hp) (s _ ?_)
  rwa [← a.isStale]

theorem Unlinked.settled {b t : Port} (a : Unlinked b t g h) (w : h.WellFormed) (s : g.Settled) :
    h.Settled := by
  refine s.of_alike (f := id) w fun p hp => .inr ⟨by rwa [a.isStale] at hp, ?_⟩
  have carried (q : Port) : h.value q = g.value q := by
    rw [value, a.held]
    rfl
  constructor
  case direction => rw [a.direction]; rfl
  case feeds => exact fun o ho => by rwa [a.feeds] at ho
  case peer => exact fun q => a.peer_old
  case loose =>
    intro hp hl
    exact hl.of_attr hp (fun i hi => ⟨i, by rwa [a.feeds] at hi⟩) (by rw [a.attr]; rfl) (carried p)
  case type => exact .inr fun t ht _ => ⟨by rwa [a.type] at ht, fun _ => rfl⟩
  case value => exact carried p
  case values => exact fun q _ => carried q

theorem settled_dropPort {b t : Port} (w : g.WellFormed) (d : g.Standard)
    (hb : g.peer? b = some t) (hf : g.Faces t b) (hc : ¬ g.Connected b) (s : g.Settled) :
    (g.dropPort b).Settled := by
  have inert (u : NodeType) (hu : (g.dropPort b).type? b.node = some u) : u.compute = none := by
    refine (standard_dropPort w hb hf hc d).inert b.node u hu ?_
    rw [(sameTree_dropPort w hb hc).network]
    exact hf.isSome_contents? w.tree
  obtain ⟨g₁, g₂, a, w₁, r, eq⟩ := dropped w hb hc
  have quiet := quiet_emit g₂ (.metadataChanged b.node)
  rw [eq] at inert ⊢
  rw [quiet.frame.type] at inert
  refine quiet.settled (r.settled w₁ (fun p hp _ => computed_of_inert ?_) (a.settled w₁ s))
  rwa [hp]

theorem steady_dropPort {b t : Port} (w : g.WellFormed) (d : g.Standard)
    (hb : g.peer? b = some t) (hf : g.Faces t b) (hc : ¬ g.Connected b) :
    Steady g (g.dropPort b) := by
  refine steady_of_network (sameTree_dropPort w hb hc) d fun n u hn hu => ?_
  obtain ⟨g₁, g₂, a, w₁, r, eq⟩ := dropped w hb hc
  rw [eq, (quiet_emit g₂ _).frame.type, r.type n, a.type] at hu
  · exact hu
  · rintro rfl
    have := hf.isSome_contents? w.tree
    simp [hn] at this

theorem Removed.settled {n : NodeId} (x : Removed n g h) (b : Bare n g) (w : g.WellFormed)
    (s : g.Settled) : h.Settled := by
  have w' := x.wellFormed b w
  have old {p : Port} (hp : p.node ≠ n) : h.value p = g.value p := by
    rw [value, held, x.slot, if_neg hp]
    rfl
  refine s.of_alike (f := id) w' fun p hp => ?_
  by_cases hn : p.node = n
  · left
    refine agrees_of_absent w' ?_
    simp [direction?, x.slot, hn]
  right
  refine ⟨?_, ?_⟩
  · rw [isStale, x.slot, if_neg hn] at hp
    exact hp
  constructor
  case direction => exact x.direction hn
  case feeds => exact fun o => x.feeds_old
  case peer => exact fun q hq => (x.peer_old hq).2
  case loose =>
    intro hp hl
    refine hl.of_attr hp (fun i hi => ⟨i, x.feeds_old hi⟩) ?_ (old hn)
    rw [attr?, x.slot, if_neg hn]
    rfl
  case type => exact .inr fun t ht hc => ⟨x.steady _ _ ht hc, fun _ => rfl⟩
  case value => exact old hn
  case values =>
    intro q hq
    obtain ⟨d, hd⟩ := Option.isSome_iff_exists.1 (hq.isSome_left w')
    exact old (x.direction_old hd).1

theorem Renamed.settled {n : NodeId} {new : String} (x : Renamed n (g.exposedPort? n) new g h)
    (w : g.WellFormed) (w' : h.WellFormed) (d : g.Standard) (s : g.Settled) : h.Settled := by
  refine s.of_alike (f := id) w' fun p hp => .inr ⟨by rwa [x.isStale] at hp, ?_⟩
  have carried (q : Port) : h.value q = g.value q := by
    rw [value, x.held]
    rfl
  constructor
  case direction => rw [x.direction]; rfl
  case feeds => exact fun o ho => by rwa [x.feeds] at ho
  case peer => exact fun q hq => by rwa [x.peer] at hq
  case loose =>
    intro hp hl
    refine hl.of_attr hp (fun i hi => ⟨i, by rwa [x.feeds] at hi⟩) ?_ (carried p)
    simp only [attr?, x.slot]
    cases hs : g.slot? p with
    | none => simp [hs]
    | some t =>
      simp only [id, hs, Option.map_some]
      split <;> rfl
  case type => exact .inr fun t ht hc => ⟨x.steady w d _ _ ht hc, fun _ => rfl⟩
  case value => exact carried p
  case values => exact fun q _ => carried q

theorem Inserted.settled {id parent : NodeId} {t : NodeType} {name : String} {values : Datablock}
    (x : Inserted id parent t name values g h) (a : Insertable id parent t name values g)
    (w : g.WellFormed) (s : g.Settled) : h.Settled := by
  have w' := x.wellFormed a w
  have old {p : Port} (hp : p.node ≠ id) : h.value p = g.value p := by
    rw [value, held, x.slot p hp]
    rfl
  refine s.of_alike (f := fun p => p) w' fun p hp => ?_
  have feeds {o i : Port} (hf : h.Feeds o i) : g.Feeds o i := by rwa [x.feeds a] at hf
  have peer {q r : Port} (hq : h.peer? q = some r) : q.node ≠ id ∧ g.peer? q = some r := by
    rw [x.peer a] at hq
    refine ⟨a.node_ne ?_, hq⟩
    rw [direction?_eq, Option.isSome_map]
    exact isSome_attr?_of_peer? g hq
  by_cases hn : p.node = id
  · -- the outputs of the new node are out of date
    left
    have current : h.direction? p ≠ some .output := by
      intro hd
      obtain ⟨t, ht, htd⟩ := Option.map_eq_some_iff.1 hd
      obtain ⟨v, hv, -⟩ := x.new p t hn ht
      rw [isStale, ht, Option.elim_some, hv] at hp
      simp [newSlot, htd] at hp
    constructor
    · intro o ho
      exact absurd hn (a.node_ne (by simp [(feeds ho).input w.wired]))
    · exact fun q hd _ => absurd hd current
    · exact fun u c hd _ _ => absurd hd current
  right
  refine ⟨?_, ?_⟩
  · rw [isStale, x.slot p hn] at hp
    exact hp
  have source {q : Port} (hq : h.Flows q p) : q.node ≠ id := by
    rcases hq with hq | hq | ⟨-, hq⟩
    · rw [hq.1]
      exact hn
    · exact a.node_ne (by simp [(feeds hq).output w.wired])
    · exact (peer hq).1
  constructor
  case direction => rw [direction?, x.slot p hn]; rfl
  case feeds => exact fun o => feeds
  case peer => exact fun q hq => (peer hq).2
  case loose =>
    intro hp hl
    refine hl.of_attr hp (fun i hi => ⟨i, feeds hi⟩) ?_ (old hn)
    rw [attr?, x.slot p hn]
    rfl
  case type =>
    refine .inr fun u hu _ => ⟨?_, fun _ => rfl⟩
    rwa [x.type, if_neg hn] at hu
  case value => exact old hn
  case values => exact fun q hq => old (source hq)

/-! ### A new wire -/

section Extended
variable {side : Direction} {p : Port} {n : NodeId} (x : Extended side p n g h)
include x

theorem Extended.direction_old {q : Port} {d : Direction} (hq : g.direction? q = some d) :
    h.direction? q = some d := by
  refine x.elim (P := fun k => k.direction? q = some d) hq fun i a k r => ?_
  have fresh : g.direction? ⟨n, i⟩ = none := by simp [direction?, k.fresh]
  rw [k.direction?_eq, if_neg]
  · exact hq
  · rintro rfl
    rw [fresh] at hq
    cases hq

theorem Extended.slot_old {q : Port} (live : (g.direction? q).isSome) :
    h.attr? q = g.attr? q ∧ h.held q = g.held q ∧ h.isStale q = g.isStale q := by
  refine x.elim (P := fun k => k.attr? q = g.attr? q ∧ k.held q = g.held q ∧
    k.isStale q = g.isStale q) ⟨rfl, rfl, rfl⟩ fun i a k r => ?_
  have fresh : g.direction? ⟨n, i⟩ = none := by simp [direction?, k.fresh]
  have old : q ≠ ⟨n, i⟩ := by
    rintro rfl
    simp [fresh] at live
  exact ⟨by rw [k.attr, if_neg old], by rw [k.held, if_neg old], by rw [k.isStale, if_neg old]⟩

theorem Extended.peer_old {q r : Port} (hq : h.peer? q = some r) (live : (g.direction? q).isSome)
    (ne : q ≠ p) : g.peer? q = some r := by
  revert hq
  refine x.elim (P := fun k => k.peer? q = some r → g.peer? q = some r) id fun i a k ready hq => ?_
  rcases (k.peer_eq_some_iff ready q r).1 hq with hq | ⟨rfl, -⟩ | ⟨rfl, -⟩
  · exact hq
  · simp [direction?, k.fresh] at live
  · exact absurd rfl ne

theorem Extended.new {q : Port} {d : Direction} (hq : h.direction? q = some d)
    (fresh : g.direction? q = none) : d = side ∧ (d = .output → h.isStale q = true) := by
  revert hq
  refine x.elim (P := fun k => k.direction? q = some d → d = side ∧ (d = .output → k.isStale q = true))
    (fun hq => ?_) fun i a k r hq => ?_
  · rw [hq] at fresh
    cases fresh
  · rw [k.direction?_eq] at hq
    split at hq
    · next here =>
      cases hq
      refine ⟨rfl, fun hd => ?_⟩
      rw [k.isStale, if_pos here, hd]
      rfl
    · rw [hq] at fresh
      cases fresh

theorem Extended.type_old {k : NodeId} (hk : k ≠ n) : h.type? k = g.type? k :=
  x.elim (P := fun m => m.type? k = g.type? k) rfl fun i a c r => by rw [c.type, if_neg hk]

theorem Extended.influences : h.Influences = g.Influences :=
  x.elim (P := fun m => m.Influences = g.Influences) rfl fun _ _ c _ => c.influences

end Extended

/-- Only an end without a type takes over a value. -/
theorem held_seedEnds_of_typed {e : Edge} {q : Port} (ho : q = e.output → (g.declaredType q).isSome)
    (hi : q = e.input → (g.declaredType q).isSome) : (g.seedEnds e).held q = g.held q := by
  have keep {k : Graph} {p : Port} {v : Value} (untyped : (g.declaredType p).isNone = true)
      (typed : q = p → (g.declaredType q).isSome) : (k.hold p v).held q = k.held q := by
    refine (Stored.hold k p v).held ?_
    rintro rfl
    rw [Option.isNone_iff_eq_none] at untyped
    simp [untyped] at typed
  simp only [seedEnds]
  split <;> split
  · next hin hout => rw [keep (Bool.and_eq_true_iff.1 hout).1 ho, keep hin hi]
  · next hin _ => exact keep hin hi
  · next hout => exact keep (Bool.and_eq_true_iff.1 hout).1 ho
  · rfl

theorem held_seedEnds {e : Edge} {q : Port} (ho : q ≠ e.output) (hi : q ≠ e.input) :
    (g.seedEnds e).held q = g.held q :=
  held_seedEnds_of_typed (absurd · ho) (absurd · hi)

section Drawn
variable {g₁ g₂ g₃ g₄ : Graph} {n : NodeId} {e : Edge} (x : Drawn n e g g₁ g₂ g₃ g₄ h)
include x

theorem Drawn.influences : h.Influences = g.Influences := by
  rw [x.frame₄.influences, x.atInput.influences, x.atOutput.influences, x.frame₂.influences,
    x.wire.influences]

/-- Ports that were there keep what they have, the ends of the wire apart, and nothing comes up to
date. -/
theorem Drawn.slot_old {q : Port} (live : (g.direction? q).isSome) :
    h.attr? q = g.attr? q ∧ (q ≠ e.output → q ≠ e.input → h.value q = g.value q) ∧
      (g.isStale q = true → h.isStale q = true) := by
  have live₂ : (g₂.direction? q).isSome := by rwa [x.frame₂.direction, x.wire.direction]
  obtain ⟨attr₃, held₃, stale₃⟩ := x.atOutput.slot_old live₂
  have live₃ : (g₃.direction? q).isSome := by rwa [direction?_eq, attr₃, ← direction?_eq]
  obtain ⟨attr₄, held₄, stale₄⟩ := x.atInput.slot_old live₃
  refine ⟨?_, fun ho hi => ?_, fun hs => ?_⟩
  · rw [x.frame₄.attr, attr₄, attr₃, x.frame₂.attr]
    simp only [attr?, x.wire.slot]
  · have spread : h.held q = g₄.held q := by
      rw [x.spread, (quiet_emit _ _).held, spreadFrom, held_spread, spreadFrom, held_spread]
    rw [value, spread, held₄, held₃, x.seeds, held_seedEnds ho hi, x.wire.held]
    rfl
  · have old : g₄.isStale q = true := by
      rw [stale₄, stale₃, x.seeds, isStale_seedEnds, x.wire.isStale]
      exact hs
    rw [x.spread, (quiet_emit _ _).isStale]
    exact isStale_spread_of_isStale _ _ _ (isStale_spread_of_isStale _ _ _ old)

theorem Drawn.peer_old {q r : Port} (hq : h.peer? q = some r) (live : (g.direction? q).isSome)
    (ho : q ≠ e.output) (hi : q ≠ e.input) : g.peer? q = some r := by
  have live₂ : (g₂.direction? q).isSome := by rwa [x.frame₂.direction, x.wire.direction]
  have live₃ : (g₃.direction? q).isSome := by
    rwa [direction?_eq, (x.atOutput.slot_old live₂).1, ← direction?_eq]
  rw [x.frame₄.peer] at hq
  have hq₂ := x.atOutput.peer_old (x.atInput.peer_old hq live₃ hi) live₂ ho
  rwa [x.frame₂.peer, x.wire.peer] at hq₂

/-- A new port is either an input or out of date. -/
theorem Drawn.new {q : Port} (fresh : g.direction? q = none) (hs : h.isStale q = false) :
    h.direction? q ≠ some .output := by
  intro hd
  have spread (hk : g₄.isStale q = true) : False := by
    have old : h.isStale q = true := by
      rw [x.spread, (quiet_emit _ _).isStale]
      exact isStale_spread_of_isStale _ _ _ (isStale_spread_of_isStale _ _ _ hk)
    rw [hs] at old
    cases old
  have fresh₂ : g₂.direction? q = none := by rwa [x.frame₂.direction, x.wire.direction]
  rw [x.frame₄.direction] at hd
  cases hd₃ : g₃.direction? q with
  | none => exact spread ((x.atInput.new hd hd₃).2 rfl)
  | some d =>
    have same := x.atInput.direction_old hd₃
    rw [hd, Option.some.injEq] at same
    have stale₃ := (x.atOutput.new hd₃ fresh₂).2 same.symm
    refine spread ?_
    rw [(x.atInput.slot_old (by simp [hd₃])).2.2]
    exact stale₃

end Drawn

theorem Drawn.steady {g₁ g₂ g₃ g₄ : Graph} {n : NodeId} {e : Edge}
    (x : Drawn n e g g₁ g₂ g₃ g₄ h) (d : Drawable n e g) (w : g.WellFormed) (s : g.Standard) :
    Steady g h := by
  refine steady_of_network x.tree s fun k t hk ht => ?_
  have ne : k ≠ n := by
    rintro rfl
    have := isSome_contents?_of_around? w.tree d.inputAround
    simp [hk] at this
  rwa [x.frame₄.type, x.atInput.type_old ne, x.atOutput.type_old ne, x.frame₂.type, x.wire.type] at ht

/-- Both ends of a new wire are out of date. -/
theorem Drawn.ne_ends {g₁ g₂ g₃ g₄ : Graph} {n : NodeId} {e : Edge}
    (x : Drawn n e g g₁ g₂ g₃ g₄ h) (d : Drawable n e g) (w : g.WellFormed) {q : Port}
    (hq : h.isStale q = false) : q ≠ e.output ∧ q ≠ e.input := by
  have w₄ := x.wellFormed₄ d w
  have live {q : Port} {d : Direction} (hd : g.direction? q = some d) :
      (g₄.direction? q).isSome := by
    have live : (g.direction? q).isSome := by simp [hd]
    rw [← x.frame₄.direction, direction?_eq, (x.slot_old live).1, ← direction?_eq]
    exact live
  have input : (g₄.spreadFrom e.input).isStale e.input = true :=
    isStale_spread_of_mem w₄.tree _ _ (by simp) (live d.input)
  have output : ((g₄.spreadFrom e.input).spreadFrom e.output).isStale e.output = true := by
    refine isStale_spread_of_mem ((sameFrame_spread _ _).wellFormed w₄).tree _ _ (by simp) ?_
    rw [(sameFrame_spread _ _).direction]
    exact live d.output
  rw [x.spread, (quiet_emit _ _).isStale] at hq
  constructor <;> rintro rfl
  · rw [output] at hq
    cases hq
  · rw [spreadFrom, isStale_spread_of_isStale _ _ _ input] at hq
    cases hq

theorem Drawn.settled {g₁ g₂ g₃ g₄ : Graph} {n : NodeId} {e : Edge}
    (x : Drawn n e g g₁ g₂ g₃ g₄ h) (d : Drawable n e g) (w : g.WellFormed) (st : g.Standard)
    (c : Closed true g) (s : g.Settled) : h.Settled := by
  have w' := x.wellFormed d w
  have c' := x.closed d w c
  have direction {q : Port} (live : (g.direction? q).isSome) : h.direction? q = g.direction? q := by
    rw [direction?_eq, (x.slot_old live).1, ← direction?_eq]
  refine s.of_alike (f := id) w' fun p hp => ?_
  obtain ⟨ho, hi⟩ := x.ne_ends d w hp
  have feeds {o : Port} (hf : h.Feeds o p) : g.Feeds o p :=
    ((x.feeds o p).1 hf).resolve_right fun he => hi he.2
  cases live : g.direction? p with
  | none =>
    left
    have output := x.new live hp
    refine ⟨fun o hf => ?_, fun q hd => absurd hd output, fun t c hd => absurd hd output⟩
    rw [(feeds hf).input w.wired] at live
    cases live
  | some dir =>
    right
    have live : (g.direction? p).isSome := by simp [live]
    obtain ⟨attr, val, stale⟩ := x.slot_old live
    have flows {q : Port} (hq : h.Flows q p) : g.Flows q p := by
      rcases hq with hq | hq | ⟨hd, hq⟩
      · rw [x.influences] at hq
        exact .inl hq
      · exact .inr (.inl (feeds hq))
      · have back := x.peer_old (w'.linked.back _ _ hq) live ho hi
        have hqg := w.linked.back _ _ back
        have liveq : (g.direction? q).isSome := by
          rw [direction?_eq, Option.isSome_map]
          exact isSome_attr?_of_peer? g hqg
        rw [direction liveq] at hd
        exact .inr (.inr ⟨hd, hqg⟩)
    refine ⟨?_, ?_⟩
    · cases hs : g.isStale p with
      | false => exact hs
      | true => rw [stale hs] at hp; cases hp
    constructor
    case direction => exact direction live
    case feeds => exact fun o => feeds
    case peer => exact fun q hq => x.peer_old hq live ho hi
    case loose =>
      intro hq hl
      refine hl.of_attr hq (fun i hf => ⟨i, ?_⟩) (by rw [attr]; rfl) (val ho hi)
      exact ((x.feeds p i).1 hf).resolve_right fun he => ho he.1
    case type => exact .inr fun t ht hc => ⟨x.steady d w st _ _ ht hc, fun _ => rfl⟩
    case value => exact val ho hi
    case values =>
      intro q hq
      have current : h.isStale q = false := by
        cases hs : h.isStale q with
        | false => rfl
        | true => rw [c'.flow hq hs] at hp; cases hp
      have ends := x.ne_ends d w current
      exact (x.slot_old ((flows hq).isSome_left w)).2.1 ends.1 ends.2

/-! ### Cutting, storing and arranging -/

/-- Every node that computes does so by functions. -/
def Computes (g : Graph) : Prop :=
  ∀ n t, g.type? n = some t → t.compute.isSome → t.Functional

theorem Steady.computes (a : Steady g h) (c : g.Computes) : h.Computes :=
  fun n t ht hc => c n t (a n t ht hc) hc

theorem Computes.isSome_declaredType (c : g.Computes) {p : Port} {t : NodeType}
    (ht : g.type? p.node = some t) (hc : t.compute.isSome) (live : (g.direction? p).isSome) :
    (g.declaredType p).isSome := by
  rw [direction?_eq, Option.isSome_map] at live
  rw [declaredType_eq]
  rw [attr?_eq, ht] at live ⊢
  obtain ⟨a, ha⟩ := Option.isSome_iff_exists.1 live
  rw [ha]
  exact (c _ t ht hc).typed _ a ha

/-- Only an output that stays loose may be reset together with its last wire. -/
theorem held_resetEnds {e : Edge} {q : Port} (hi : q ≠ e.input)
    (ho : q = e.output → (g.declaredType q).isSome ∨ ∃ i, i ∈ g.sinks q) :
    (g.resetEnds e).held q = g.held q := by
  have input : (g.resetInput e.input).held q = g.held q := by
    simp only [resetInput]
    split
    · split
      · exact (Stored.hold _ _ _).held hi
      · rfl
    · rfl
  rw [resetEnds_eq, ← input]
  have frame := g.sameFrame_resetInput e.input
  rw [← frame.sinks, ← frame.declaredType] at ho
  generalize g.resetInput e.input = k at ho
  simp only [resetOutput]
  cases hs : k.slot? e.output with
  | none => rfl
  | some t =>
    simp only
    split
    · next reset =>
      by_cases hq : q = e.output
      · subst hq
        simp only [Bool.and_eq_true, Option.isNone_iff_eq_none, List.isEmpty_iff] at reset
        rcases ho rfl with typed | ⟨i, hi⟩
        · simp [declaredType, hs, reset.1] at typed
        · rw [reset.2] at hi
          cases hi
      · exact (Stored.hold _ _ _).held hq
    · rfl

/-- An output without a type goes back to its default together with its last wire. -/
theorem value_resetEnds {e : Edge} {a : Attribute} (ha : g.attr? e.output = some a)
    (untyped : a.type = none) (free : g.sinks e.output = []) :
    (g.resetEnds e).value e.output = a.default.payload? := by
  have frame := g.sameFrame_resetInput e.input
  rw [resetEnds_eq]
  rw [← frame.attr] at ha
  rw [← frame.sinks] at free
  generalize g.resetInput e.input = k at ha free
  obtain ⟨s, hs, rfl⟩ := Option.map_eq_some_iff.1 ha
  simp only [resetOutput, hs, untyped, free, Option.isNone_none, List.isEmpty_nil, Bool.and_self,
    if_true]
  rw [value_hold _ _ _ _ (by simp [direction?, hs]), if_pos rfl]

theorem steady_sever {m : NodeId} {e : Edge} (w : g.WellFormed) (he : e ∈ g.wires m) :
    Steady g (g.sever e) := steady_of_type (type?_sever w he)

section Sever
variable {m : NodeId} {e : Edge} (w : g.WellFormed) (he : e ∈ g.wires m)
include w he

theorem value_sever {q : Port} (hi : q ≠ e.input)
    (ho : q = e.output → (g.declaredType q).isSome ∨ ∃ i, (g.sever e).Feeds q i) :
    (g.sever e).value q = g.value q := by
  obtain ⟨g₁, a, eq⟩ := severed w he
  have frame : SameFrame g₁ (g.sever e) := by
    rw [eq]
    exact (g₁.sameFrame_resetEnds e).trans (sameFrame_spread _ _)
  have declared : g₁.declaredType = g.declaredType := by
    funext p
    simp only [declaredType, a.slot]
  rw [← declared, frame.feeds] at ho
  have kept := held_resetEnds hi fun hq => (ho hq).imp_right fun ex =>
    ex.imp fun i hf => (mem_sinks_iff (wellFormed_remove a w).wired q i).2 hf
  rw [value, eq, spreadFrom, held_spread, kept, a.held]
  rfl

theorem value_sever_output {a : Attribute} (ha : g.attr? e.output = some a)
    (untyped : a.type = none) (free : ∀ i, ¬ (g.sever e).Feeds e.output i) :
    (g.sever e).value e.output = a.default.payload? := by
  obtain ⟨g₁, x, eq⟩ := severed w he
  have frame : SameFrame g₁ (g.sever e) := by
    rw [eq]
    exact (g₁.sameFrame_resetEnds e).trans (sameFrame_spread _ _)
  have none : g₁.sinks e.output = [] := by
    refine List.eq_nil_iff_forall_not_mem.2 fun i hi => free i ?_
    rw [frame.feeds]
    exact (mem_sinks_iff (wellFormed_remove x w).wired _ i).1 hi
  have attr : g₁.attr? e.output = some a := by
    rw [attr?, x.slot]
    exact ha
  rw [value, eq, spreadFrom, held_spread]
  exact value_resetEnds attr untyped none

theorem isStale_sever {q : Port} (hq : q = e.input ∨ g.isStale q = true) :
    (g.sever e).isStale q = true := by
  obtain ⟨g₁, a, eq⟩ := severed w he
  rw [eq]
  rcases hq with rfl | hq
  · have w₂ := (g₁.sameFrame_resetEnds e).wellFormed (wellFormed_remove a w)
    refine isStale_spread_of_mem w₂.tree _ _ (by simp) ?_
    rw [(g₁.sameFrame_resetEnds e).direction, a.direction, w.wired.input m e he]
    rfl
  · refine isStale_spread_of_isStale _ _ _ ?_
    rw [isStale_resetEnds, a.isStale, hq]

theorem settled_sever (k : g.Computes) (c : Closed true g) (s : g.Settled) :
    (g.sever e).Settled := by
  have w' := wellFormed_sever w he
  have c' := closed_sever w he c
  have output := w.wired.output m e he
  have direction := direction?_sever w he
  refine s.of_alike (f := id) w' fun p hp => ?_
  have hi : p ≠ e.input := by
    rintro rfl
    rw [isStale_sever w he (.inl rfl)] at hp
    cases hp
  have before : g.isStale p = false := by
    cases hs : g.isStale p with
    | false => rfl
    | true =>
      rw [isStale_sever w he (.inr hs)] at hp
      cases hp
  have attr : (g.sever e).attr? = g.attr? := by
    funext q
    rw [attr?_eq, attr?_eq, type?_sever w he]
  have values {q : Port} (hq : (g.sever e).Flows q p) : (g.sever e).value q = g.value q := by
    refine value_sever w he ?_ fun ho => .inr ?_
    · rintro rfl
      rw [c'.flow hq (isStale_sever w he (.inl rfl))] at hp
      cases hp
    · -- an output flows through wires only
      subst ho
      rcases hq with hq | hq | ⟨hd, -⟩
      · have := hq.input w'
        rw [direction, output] at this
        cases this
      · exact ⟨p, hq⟩
      · rw [direction, output] at hd
        cases hd
  by_cases kept : p = e.output → (g.declaredType p).isSome ∨ ∃ i, (g.sever e).Feeds p i
  · right
    refine ⟨before, ?_⟩
    constructor
    case direction => rw [direction]; rfl
    case feeds => exact fun o hf => ((feeds_sever w he o p).1 hf).1
    case peer => exact fun q hq => by rwa [peer?_sever w he] at hq
    case loose =>
      intro hq hl
      exact hl.of_attr hq (fun i hf => ⟨i, ((feeds_sever w he p i).1 hf).1⟩) (by rw [attr]; rfl)
        (value_sever w he hi kept)
    case type => exact .inr fun t ht _ => ⟨by rwa [type?_sever w he] at ht, fun _ => rfl⟩
    case value => exact value_sever w he hi kept
    case values => exact fun q hq => values hq
  · -- the output has been reset, and nothing depends on it
    simp only [Classical.not_imp, not_or, Bool.not_eq_true, Option.isSome_eq_false_iff,
      Option.isNone_iff_eq_none, not_exists] at kept
    obtain ⟨rfl, typed, free⟩ := kept
    left
    constructor
    · intro o hf
      have := hf.input w'.wired
      rw [direction, output] at this
      cases this
    · intro q _ hq
      obtain ⟨a, ha, hd⟩ := Option.map_eq_some_iff.1 ((direction?_eq g _).symm.trans output)
      have untyped : a.type = none := by
        rw [declaredType_eq, ha] at typed
        exact typed
      refine .inl ⟨by simp [hq], free, a, by rwa [attr], hd, untyped, ?_⟩
      exact value_sever_output w he ha untyped free
    · intro t f _ ht hf
      rw [type?_sever w he] at ht
      have := k.isSome_declaredType ht (by simp [hf]) (by simp [output])
      simp [typed] at this

end Sever

section Replace
variable {p : Port} {s : Slot} {v : Value}

/-- Storing a value and what goes with it, before anything is marked. -/
theorem replace_eq : g.replace p s v =
    (if s.stale then (g.hold p v).setCurrent p else g.hold p v).spread
      ((if s.stale then (g.hold p v).setCurrent p else g.hold p v).successors p) := rfl

theorem held_replace {q : Port} (hq : q ≠ p) : (g.replace p s v).held q = g.held q := by
  rw [replace_eq, held_spread]
  split
  · rw [held_setCurrent, (Stored.hold g p v).held hq]
  · rw [(Stored.hold g p v).held hq]

theorem isStale_replace {q : Port} (hq : q ≠ p) (hs : g.isStale q = true) :
    (g.replace p s v).isStale q = true := by
  rw [replace_eq]
  refine isStale_spread_of_isStale _ _ _ ?_
  split
  · rw [isStale_setCurrent, if_neg (Ne.symm hq), isStale_hold, hs]
  · rw [isStale_hold, hs]

theorem settled_replace (w : g.WellFormed) (ok : g.checkAssign p v = .ok s) (st : g.Settled) :
    (g.replace p s v).Settled := by
  obtain ⟨hd, free⟩ := free_of_checkAssign ok
  have frame := g.sameFrame_replace p s v
  have first : SameFrame g (if s.stale then (g.hold p v).setCurrent p else g.hold p v) := by
    split
    · exact (g.sameFrame_hold p v).trans (sameFrame_setCurrent _ p)
    · exact g.sameFrame_hold p v
  have value {q : Port} (hq : q ≠ p) : (g.replace p s v).value q = g.value q := by
    rw [value, held_replace hq]
    rfl
  have next {q : Port} (hf : g.Flows p q) : (g.replace p s v).isStale q = true := by
    have w₁ := first.wellFormed w
    rw [replace_eq]
    refine isStale_spread_of_mem w₁.tree _ q ((mem_successors_iff w₁ p q).2 ?_) ?_
    · rw [first.flows]
      exact hf
    · rw [first.direction]
      exact hf.isSome_right w
  refine st.of_alike (f := id) (frame.wellFormed w) fun q hq => ?_
  by_cases hqp : q = p
  · -- an input without a wire is made from nothing
    subst hqp
    left
    constructor
    · intro o hf
      rw [frame.feeds, ← source?_eq_some_iff w.wired, free] at hf
      cases hf
    · intro r hr
      rw [frame.direction, hd] at hr
      cases hr
    · intro t f hr
      rw [frame.direction, hd] at hr
      cases hr
  · right
    refine ⟨?_, frame.alike (value hqp) fun r hr => value ?_⟩
    · cases hs : g.isStale q with
      | false => exact hs
      | true => rw [isStale_replace hqp hs] at hq; cases hq
    · rintro rfl
      rw [next hr] at hq
      cases hq

end Replace

theorem settled_create (config : Config) (ids : IdSupply) (marks : Nat) (calls : Table Nat Nat) :
    (create config ids marks calls).Settled := by
  have w := (lawful_create config ids marks calls).wellFormed
  exact fun p _ => agrees_of_absent w (by simp [direction?, slot?_create])

theorem computes_create (config : Config) (ids : IdSupply) (marks : Nat) (calls : Table Nat Nat) :
    (create config ids marks calls).Computes := by
  intro n t ht hc
  rw [type?_create _ _ _ _ n t ht] at hc
  cases hc

theorem settled_arrange {n : NodeId} (w : g.WellFormed) (d : g.Standard) (names : List String)
    (inside : (g.contents? n).isSome) (ok : g.arrangeBoundary n names = .ok h) (s : g.Settled) :
    h.Settled ∧ Steady g h := by
  rcases arranged w names ok with rfl | ⟨more, old, new, g₁, r, rfl⟩
  · exact ⟨s, steady_of_type rfl⟩
  · have w₁ := r.wellFormed w
    have quiet := quiet_emit g₁ (.metadataChanged n)
    have inert (t : NodeType) (ht : g₁.type? n = some t) : t.compute = none := by
      refine (r.standard w more d).inert n t ht ?_
      rw [r.tree.network]
      exact inside
    have own (p : Port) (hp : p.node = n) : g₁.Computed p := computed_of_inert (by rwa [hp])
    refine ⟨quiet.settled (r.settled w (fun p hp _ => own p hp) s), fun k t ht => ?_⟩
    rw [quiet.frame.type] at ht
    exact r.steady d inside k t ht

end Edits

/-! ### All edits -/

/-- What the agreement of values rests on. -/
structure Coherent (g : Graph) : Prop where
  standard : g.Standard
  computes : g.Computes
  acyclic : g.Acyclic
  closed : Closed true g
  settled : g.Settled

theorem Inserted.computes {g h : Graph} {id parent : NodeId} {t : NodeType} {name : String}
    {values : Datablock} (x : Inserted id parent t name values g h) (ht : t.Regular) (c : g.Computes) : h.Computes := by
  intro k u hu hc
  rw [x.type] at hu
  split at hu
  · cases hu
    exact ht.functional hc
  · exact c k u hu hc

theorem keptByEdits_coherent : KeptByEdits true (fun t _ => t.Regular) Coherent where
  toKeptByGrowth :=
    { quiet := fun g h a s =>
        ⟨a.frame.standard s.standard, (steady_of_type a.frame.type).computes s.computes,
          a.frame.acyclic s.acyclic, a.closed s.closed, a.settled s.settled⟩
      insert := fun g _ _ _ _ _ attachment w ht a s => by
        have x := inserted g attachment a
        exact ⟨x.standard a ht.toStandard w s.standard, x.computes ht s.computes, x.acyclic a w s.acyclic,
          x.closed a w s.closed, x.settled a w s.settled⟩
      draw := fun _ _ _ lawful d s => by
        have w := lawful.wellFormed
        obtain ⟨g₁, g₂, g₃, g₄, x⟩ := drawn d w
        exact ⟨x.standard d w s.standard, (x.steady d w s.standard).computes s.computes,
          x.acyclic d w s.acyclic, x.closed d w s.closed,
          x.settled d w s.standard s.closed s.settled⟩
      assign := fun g p v t w ok s => by
        have frame := g.sameFrame_replace p t v
        exact ⟨frame.standard s.standard, (steady_of_type frame.type).computes s.computes,
          frame.acyclic s.acyclic, closed_replace w ok s.closed, settled_replace w ok s.settled⟩
      arrange := fun g h n names w t ok s => by
        obtain ⟨settled, steady⟩ := settled_arrange w s.standard names (t rfl) ok s.settled
        have weak : Target false n g := fun h => nomatch h
        exact ⟨keptByEdits_standard.arrange g h n names w weak ok s.standard,
          steady.computes s.computes, acyclic_arrange w s.acyclic names ok,
          (keptByEdits_closed true).arrange g h n names w weak ok s.closed, settled⟩ }
  sever := fun g m e w he s =>
    ⟨keptByCuts_standard.sever g m e w he s.standard, (steady_sever w he).computes s.computes,
      acyclic_sever w he s.acyclic, closed_sever w he s.closed,
      settled_sever w he s.computes s.closed s.settled⟩
  drop := fun _ _ _ w hb hf hc _ s =>
    ⟨standard_dropPort w hb hf hc s.standard,
      (steady_dropPort w s.standard hb hf hc).computes s.computes, acyclic_dropPort w hb hc s.acyclic,
      closed_dropPort w hb hc s.closed, settled_dropPort w s.standard hb hf hc s.settled⟩
  remove := fun _ _ _ w b x s =>
    ⟨x.standard b w s.standard, x.steady.computes s.computes, x.acyclic s.acyclic,
      x.closed b w s.closed, x.settled b w s.settled⟩
  start := fun _ _ _ _ =>
    ⟨standard_create .., computes_create _ _ _ _, acyclic_create _ _ _ _, closed_create ..,
      settled_create _ _ _ _⟩
  rename := fun _ _ _ _ w r x s =>
    ⟨x.standard w s.standard, (x.steady w s.standard).computes s.computes, x.acyclic s.acyclic,
      x.closed s.closed, x.settled w (x.wellFormed r w) s.standard s.settled⟩

end Dataflow.Graph
