import Dataflow.Proofs.Freshness
import Dataflow.Proofs.Settled
import Dataflow.Proofs.Typed
set_option autoImplicit false

/-!
How ports go on holding what suits their types. Main statement: every operation but reads keeps this,
where defaults and supplied values are of the declared types.
-/

namespace Dataflow

/-- Every default is of the declared type. -/
def NodeType.Consistent (t : NodeType) : Prop := ∀ a ∈ t.ports.entries, a.default.portType = a.type

instance (t : NodeType) : Decidable t.Consistent :=
  inferInstanceAs (Decidable (∀ a ∈ t.ports.entries, a.default.portType = a.type))

/-- The values are of the types that the attributes in their places declare. An attribute without a
type starts from null. -/
def Datablock.Suits (values : Datablock) (t : NodeType) : Prop :=
  ∀ i v a, values[i]? = some v → t.ports.get? i = some a → v.portType = a.type

theorem Datablock.suits_ofType {t : NodeType} (c : t.Consistent) : (ofType t).Suits t := by
  intro i v a hv ha
  rw [ofType, List.getElem?_map, Option.map_eq_some_iff] at hv
  obtain ⟨b, hb, rfl⟩ := hv
  obtain rfl : b = a := Option.some.inj (hb.symm.trans ha)
  exact c b (List.mem_of_getElem? hb)

namespace Graph

/-- The port has no wires and holds just what its own type says. -/
def Reset (g : Graph) (p : Port) : Prop :=
  g.heldType p = g.declaredType p ∧ ∀ q, ¬ g.Feeds p q ∧ ¬ g.Feeds q p

/-- The ports of `h` are ports of `g`, as `f` finds them, with all that they have but wires and
peers that are gone. Each holds what it held, or it has been reset, as an input is when it loses its
wire. A port that still has a wire has its peer. -/
structure Carried (f : Port → Port) (g h : Graph) : Prop where
  attr : ∀ p a, h.attr? p = some a → ∃ b, g.attr? (f p) = some b ∧ b.direction = a.direction ∧
    b.type = a.type ∧ b.default = a.default
  each : ∀ p, (h.attr? p).isSome → h.Reset p ∨
    h.heldType p = g.heldType (f p) ∧ (h.isStale p = false → g.isStale (f p) = false)
  feeds : ∀ o i, h.Feeds o i → g.Feeds (f o) (f i)
  peer : ∀ p q, h.peer? p = some q → g.peer? (f p) = some (f q)
  inside : ∀ p, (h.contents? p.node).isSome → (g.contents? (f p).node).isSome
  idle : ∀ t, h.terminal? t = some .input → (∀ i, ¬ h.Feeds t i) → h.heldType t = none
  unfed : ∀ o p, (h.attr? p).isSome → g.Feeds o (f p) → h.Reset p ∨ ∃ o', h.Feeds o' p
  linked : ∀ p c, h.Connected p → g.peer? (f p) = some c → ∃ b, h.peer? p = some b ∧ f b = c

section Bears
variable {g : Graph} (w : g.Wired)
include w

theorem Lends.isSome_attr? {p : Port} {t : DataType} (h : g.Lends p t) : (g.attr? p).isSome := by
  rcases h with h | ⟨-, i, hf, -⟩
  · exact isSome_attr?_of_declaredType h
  · exact (hf.isSome_attr? w).1

theorem Bears.isSome_attr? {p : Port} {t : DataType} (h : g.Bears p t) : (g.attr? p).isSome := by
  rcases h with h | ⟨-, o, hf, -⟩
  · exact h.isSome_attr? w
  · exact (hf.isSome_attr? w).2

end Bears

namespace Carried
variable {f : Port → Port} {g h : Graph} (c : Carried f g h)
include c

theorem declaredType {p : Port} (live : (h.attr? p).isSome) :
    h.declaredType p = g.declaredType (f p) := by
  obtain ⟨a, ha⟩ := Option.isSome_iff_exists.1 live
  obtain ⟨b, hb, -, type, -⟩ := c.attr p a ha
  rw [declaredType_eq, declaredType_eq, ha, hb]
  exact type.symm

theorem direction {p : Port} {d : Direction} (hd : h.direction? p = some d) :
    g.direction? (f p) = some d := by
  obtain ⟨a, ha, rfl⟩ := isSome_attr?_of_direction? hd
  obtain ⟨b, hb, same, -⟩ := c.attr p a ha
  rw [direction?_eq, hb, Option.map_some, same]

theorem declared_old {p : Port} {t : DataType} (ht : h.declaredType p = some t) :
    g.declaredType (f p) = some t := by
  rwa [← c.declaredType (isSome_attr?_of_declaredType ht)]

variable (w : h.Wired)
include w

theorem lends {o : Port} {t : DataType} (ho : h.Lends o t) : g.Lends (f o) t := by
  have own := c.declaredType (ho.isSome_attr? w)
  rcases ho with ho | ⟨free, i, hf, ho⟩
  · exact .inl (c.declared_old ho)
  · refine .inr ⟨own ▸ free, f i, c.feeds o i hf, ?_⟩
    rcases ho with ho | ⟨b, hb, ho⟩
    · exact .inl (c.declared_old ho)
    · exact .inr ⟨f b, c.peer o b hb, c.declared_old ho⟩

theorem bears {p : Port} {t : DataType} (hp : h.Bears p t) : g.Bears (f p) t := by
  have own := c.declaredType (hp.isSome_attr? w)
  rcases hp with hp | ⟨free, o, hf, ho⟩
  · exact .inl (c.lends w hp)
  · exact .inr ⟨own ▸ free, f o, c.feeds o p hf, c.lends w ho⟩

theorem suited (k : g.Suited) : h.Suited := by
  refine ⟨⟨?defaults, ?fits, ?boundary⟩, ?declared, ?seeded, ?idle⟩
  case defaults =>
    intro p a ha
    obtain ⟨b, hb, -, type, default⟩ := c.attr p a ha
    rw [← default, ← type]
    exact k.defaults _ b hb
  case fits =>
    exact fun o i t u hf ho hi => k.fits _ _ t u (c.feeds o i hf) (c.lends w ho) (c.declared_old hi)
  case boundary =>
    intro b t hb inside
    rw [c.declaredType (isSome_attr?_of_peer? h hb)]
    exact k.boundary _ _ (c.peer b t hb) (c.inside b inside)
  case declared =>
    intro p t ht
    rcases c.each p (isSome_attr?_of_declaredType ht) with ⟨held, -⟩ | ⟨held, -⟩
    · rw [held, ht]
    · rw [held]
      exact k.declared _ t (c.declared_old ht)
  case seeded =>
    intro o t ho
    rcases c.each o (ho.isSome_attr? w) with ⟨held, bare⟩ | ⟨held, -⟩
    · rw [held, Bears.declared_of_bare (.inl ho) bare]
      rfl
    · rw [held]
      exact k.seeded _ t (c.lends w ho)
  case idle => exact c.idle

theorem typed (k : g.Typed) : h.Typed := by
  refine ⟨c.suited w k.toSuited, fun p t hs hp => ?_⟩
  rcases c.each p (hp.isSome_attr? w) with ⟨held, bare⟩ | ⟨held, stale⟩
  · rw [held, hp.declared_of_bare bare]
  · rw [held]
    exact k.current _ t (stale hs) (c.bears w hp)

end Carried

/-! ### Edits that carry all ports over -/

section Edits
variable {g h : Graph}

theorem SameFrame.carried (a : SameFrame g h) (k : g.Suited) (each : ∀ p, (h.attr? p).isSome →
    h.Reset p ∨ h.heldType p = g.heldType p ∧ (h.isStale p = false → g.isStale p = false))
    (idle : ∀ t, g.terminal? t = some .input → h.heldType t = g.heldType t) : Carried id g h where
  attr := fun p b hb => ⟨b, by rwa [a.attr] at hb, rfl, rfl, rfl⟩
  each := each
  feeds := fun o i hf => by rwa [a.feeds] at hf
  peer := fun p q hp => by rwa [a.peer] at hp
  inside := fun p hp => by rwa [a.contents] at hp
  idle := fun t ht free => by
    rw [a.terminal] at ht
    rw [idle t ht]
    refine k.idle t ht fun i hf => free i ?_
    rwa [a.feeds]
  unfed := fun o p _ hf => .inr ⟨o, by rwa [a.feeds]⟩
  linked := fun p q _ hq => ⟨q, by rwa [a.peer], rfl⟩

theorem SameFrame.lends (a : SameFrame g h) : h.Lends = g.Lends := by
  funext o t
  simp only [Lends, a.declaredType, a.feeds, a.peer]

theorem SameFrame.bears (a : SameFrame g h) : h.Bears = g.Bears := by
  funext p t
  simp only [Bears, a.lends, a.declaredType, a.feeds]

theorem Quiet.typed (a : Quiet g h) (k : g.Typed) : h.Typed := by
  have frame := a.frame
  have held : h.heldType = g.heldType := by
    funext p
    rw [heldType, a.held]
    rfl
  refine ⟨⟨⟨?_, ?_, ?_⟩, ?_, ?_, ?_⟩, ?_⟩
  · rw [frame.attr]; exact k.defaults
  · rw [frame.feeds, frame.lends, frame.declaredType]; exact k.fits
  · rw [frame.peer, frame.contents, frame.declaredType]; exact k.boundary
  · rw [frame.declaredType, held]; exact k.declared
  · rw [frame.lends, held]; exact k.seeded
  · rw [frame.terminal, frame.feeds, held]; exact k.idle
  · rw [frame.bears, held, a.isStale]; exact k.current

theorem Renumbered.carried {n : NodeId} {old new : Nat → Nat} (a : Renumbered n old new g h)
    (w : g.WellFormed) (k : g.Suited) : Carried (Port.moved n old) g h := by
  have held (p : Port) : h.heldType p = g.heldType (p.moved n old) := by
    rw [heldType, a.held]
    rfl
  constructor
  case attr => exact fun p b hb => ⟨b, by rwa [a.attr] at hb, rfl, rfl, rfl⟩
  case each => exact fun p _ => .inr ⟨held p, by rw [a.isStale]; exact id⟩
  case feeds => exact fun o i => a.feeds_old
  case peer => exact fun p q => a.peer_old w.linked
  case inside =>
    intro p hp
    rw [node_moved, ← a.tree.network]
    exact hp
  case idle =>
    intro t ht free
    have live : (h.slot? t).isSome := by
      have := (terminal?_direction ht).2
      rwa [direction?, Option.isSome_map] at this
    rw [a.terminal] at ht
    rw [held]
    refine k.idle _ ht fun i hf => free (i.moved n new) ?_
    rw [← a.live t live]
    exact (a.feeds_iff _ _).2 ⟨_, i, hf, rfl, rfl⟩
  case unfed =>
    intro o p live hf
    refine .inr ⟨o.moved n new, ?_⟩
    rw [← a.live p (by rwa [isSome_slot?])]
    exact (a.feeds_iff _ _).2 ⟨o, _, hf, rfl, rfl⟩
  case linked =>
    intro p c _ hc
    refine ⟨c.moved n new, by rw [a.peer, hc]; rfl, a.kept c (.inl ?_)⟩
    rw [w.linked.back _ _ hc]
    rfl

theorem Renumbered.typed {n : NodeId} {old new : Nat → Nat} (a : Renumbered n old new g h)
    (w : g.WellFormed) (k : g.Typed) : h.Typed :=
  (a.carried w k.toSuited).typed (a.wellFormed w).wired k

theorem Unlinked.carried {b t : Port} (a : Unlinked b t g h) (hb : ¬ g.Connected b)
    (ht : ¬ g.Connected t) (k : g.Suited) : Carried id g h := by
  have held (p : Port) : h.heldType p = g.heldType p := by rw [heldType, a.held]; rfl
  constructor
  case attr => exact fun p c hc => ⟨c, by rwa [a.attr] at hc, rfl, rfl, rfl⟩
  case each => exact fun p _ => .inr ⟨held p, by rw [a.isStale]; exact id⟩
  case feeds => exact fun o i hf => by rwa [a.feeds] at hf
  case peer => exact fun p q => a.peer_old
  case inside => exact fun p hp => by rwa [a.contents] at hp
  case idle =>
    intro s hs free
    rw [a.terminal] at hs
    rw [held]
    refine k.idle s hs fun i hf => free i ?_
    rwa [a.feeds]
  case unfed => exact fun o p _ hf => .inr ⟨o, by rwa [a.feeds]⟩
  case linked =>
    rintro p c ⟨q, hq⟩ hc
    rw [a.feeds] at hq
    refine ⟨c, ?_, rfl⟩
    rw [peer?, a.slot, if_neg]
    · exact hc
    · rintro (rfl | rfl)
      · exact hb ⟨q, hq⟩
      · exact ht ⟨q, hq⟩

theorem typed_dropPort {b t : Port} (w : g.WellFormed) (hb : g.peer? b = some t)
    (hc : ¬ g.Connected b) (ht : ¬ g.Connected t) (k : g.Typed) : (g.dropPort b).Typed := by
  obtain ⟨g₁, g₂, a, w₁, r, eq⟩ := dropped w hb hc
  have quiet := quiet_emit g₂ (.metadataChanged b.node)
  rw [eq]
  exact quiet.typed (r.typed w₁ ((a.carried hc ht k.toSuited).typed w₁.wired k))

theorem Removed.carried {n : NodeId} (x : Removed n g h) (b : Bare n g) (w : g.WellFormed)
    (k : g.Suited) : Carried id g h := by
  have slot {p : Port} (live : (h.attr? p).isSome) : p.node ≠ n ∧ h.slot? p = g.slot? p := by
    have hp : p.node ≠ n := by
      intro hp
      rw [attr?, x.slot, if_pos hp] at live
      cases live
    exact ⟨hp, by rw [x.slot, if_neg hp]⟩
  have held {p : Port} (live : (h.attr? p).isSome) : h.heldType p = g.heldType p := by
    rw [heldType, Graph.held, (slot live).2]
    rfl
  constructor
  case attr =>
    intro p a ha
    have live : (h.attr? p).isSome := by simp [ha]
    refine ⟨a, ?_, rfl, rfl, rfl⟩
    rwa [attr?, (slot live).2] at ha
  case each =>
    intro p live
    refine .inr ⟨held live, ?_⟩
    rw [isStale, (slot live).2]
    exact id
  case feeds => exact fun o i => x.feeds_old
  case peer => exact fun p q hq => (x.peer_old hq).2
  case inside =>
    intro p hp
    rw [x.contents] at hp
    split at hp
    · cases hp
    · split at hp
      · rwa [Option.isSome_map] at hp
      · exact hp
  case idle =>
    intro t ht free
    have live : (h.attr? t).isSome := by
      rw [← isSome_direction?_iff]
      exact (terminal?_direction ht).2
    rw [x.terminal (slot live).1] at ht
    rw [held live]
    refine k.idle t ht fun i hf => free i ?_
    rwa [x.feeds b w]
  case unfed => exact fun o p _ hf => .inr ⟨o, by rwa [x.feeds b w]⟩
  case linked =>
    rintro p c ⟨q, hq⟩ hc
    have live : (h.attr? p).isSome := by
      have wired := (x.wellFormed b w).wired
      exact hq.elim (fun hq => (hq.isSome_attr? wired).1) fun hq => (hq.isSome_attr? wired).2
    exact ⟨c, by rw [peer?, (slot live).2]; exact hc, rfl⟩

theorem Removed.typed {n : NodeId} (x : Removed n g h) (b : Bare n g) (w : g.WellFormed)
    (k : g.Typed) : h.Typed :=
  (x.carried b w k.toSuited).typed (x.wellFormed b w).wired k

theorem Renamed.carried {n : NodeId} {b? : Option Port} {new : String} (x : Renamed n b? new g h)
    (k : g.Suited) : Carried id g h := by
  have held (p : Port) : h.heldType p = g.heldType p := by rw [heldType, x.held]; rfl
  constructor
  case attr =>
    intro p a ha
    rw [attr?, x.slot, Option.map_map] at ha
    obtain ⟨s, hs, rfl⟩ := Option.map_eq_some_iff.1 ha
    refine ⟨s.attr, by simp [attr?, hs], ?_⟩
    simp only [Function.comp_apply]
    split <;> exact ⟨rfl, rfl, rfl⟩
  case each => exact fun p _ => .inr ⟨held p, by rw [x.isStale]; exact id⟩
  case feeds => exact fun o i hf => by rwa [x.feeds] at hf
  case peer => exact fun p q hq => by rwa [x.peer] at hq
  case inside => exact fun p hp => by rwa [x.contents] at hp
  case idle =>
    intro t ht free
    rw [x.terminal] at ht
    rw [held]
    refine k.idle t ht fun i hf => free i ?_
    rwa [x.feeds]
  case unfed => exact fun o p _ hf => .inr ⟨o, by rwa [x.feeds]⟩
  case linked => exact fun p c _ hc => ⟨c, by rwa [x.peer], rfl⟩

theorem Renamed.typed {n : NodeId} {b? : Option Port} {new : String} (x : Renamed n b? new g h)
    (w : h.WellFormed) (k : g.Typed) : h.Typed := (x.carried k.toSuited).typed w.wired k

theorem heldType_eq_value (g : Graph) (p : Port) :
    g.heldType p = (g.value p).map Payload.dataType := by
  rw [heldType, value]
  cases g.held p <;> rfl

theorem heldType_congr {p q : Port} (same : h.value p = g.value q) :
    h.heldType p = g.heldType q := by
  rw [heldType_eq_value, heldType_eq_value, same]

/-- The ports of input and output nodes have no types of their own. -/
theorem Standard.declaredType_terminal (s : g.Standard) {p : Port} {side : Direction}
    (h : g.terminal? p = some side) : g.declaredType p = none := by
  have index := s.index h
  obtain ⟨t, ht, ⟨-, -, hn⟩ | ⟨-, -, hn⟩⟩ := terminal?_eq_some_iff.1 h
  · rw [declaredType_eq, attr?_eq, ht, s.input _ t ht hn, index]
    rfl
  · rw [declaredType_eq, attr?_eq, ht, s.output _ t ht hn, index]
    rfl

/-! ### Cutting and storing -/

/-- An input that lost its wire holds its default, or it has a type of its own and holds what it
held. -/
theorem held_sever_input {m : NodeId} {e : Edge} (w : g.WellFormed) (he : e ∈ g.wires m)
    {a : Attribute} (ha : g.attr? e.input = some a) :
    (g.sever e).value e.input = a.default.payload? ∨
      a.type.isSome ∧ (g.sever e).value e.input = g.value e.input := by
  obtain ⟨g₁, x, eq⟩ := severed w he
  have live : (g₁.direction? e.input).isSome := by
    rw [x.direction, w.wired.input m e he]
    rfl
  have ne : e.input ≠ e.output := by
    intro h
    have output := w.wired.output m e he
    rw [← h, w.wired.input m e he] at output
    cases output
  have second : ((g₁.resetInput e.input).resetOutput e.output).held e.input =
      (g₁.resetInput e.input).held e.input := by
    simp only [resetOutput]
    split
    · split
      · exact (Stored.hold _ _ _).held ne
      · rfl
    · rfl
  have first : (g.sever e).value e.input = (g₁.resetInput e.input).value e.input := by
    rw [value, eq, spreadFrom, held_spread, resetEnds_eq, second]
    rfl
  rw [first]
  rw [← x.attr] at ha
  obtain ⟨s, hs, rfl⟩ := Option.map_eq_some_iff.1 ha
  simp only [resetInput, hs]
  split
  · left
    rw [value_hold _ _ _ _ live, if_pos rfl]
  · next keeps =>
    right
    simp only [Bool.or_eq_true, not_or, Bool.not_eq_true, Option.isNone_eq_false_iff] at keeps
    refine ⟨keeps.1, ?_⟩
    rw [value, x.held]
    rfl

theorem carried_sever {m : NodeId} {e : Edge} (w : g.WellFormed) (s : g.Standard)
    (he : e ∈ g.wires m) (k : g.Suited) : Carried id g (g.sever e) := by
  have w' := wellFormed_sever w he
  have input := w.wired.input m e he
  have output := w.wired.output m e he
  have direction := direction?_sever w he
  have feeds := feeds_sever w he
  have attr : (g.sever e).attr? = g.attr? := by
    funext q
    rw [attr?_eq, attr?_eq, type?_sever w he]
  have declared (p : Port) : (g.sever e).declaredType p = g.declaredType p := by
    rw [declaredType_eq, declaredType_eq, attr]
  -- what has been reset is without wires
  have reset {p : Port} {a : Attribute} (ha : g.attr? p = some a)
      (bare : ∀ q, ¬ (g.sever e).Feeds p q ∧ ¬ (g.sever e).Feeds q p)
      (held : (g.sever e).value p = a.default.payload?) : (g.sever e).Reset p := by
    refine ⟨?_, bare⟩
    rw [declared, declaredType_eq, ha, Option.bind_some, ← k.defaults p a ha, heldType_eq_value, held]
    cases a.default <;> rfl
  have emptied (free : ∀ i, ¬ (g.sever e).Feeds e.output i) (open_ : g.declaredType e.output = none) :
      (g.sever e).Reset e.output := by
    obtain ⟨a, ha, -⟩ := isSome_attr?_of_direction? output
    have untyped : a.type = none := by
      rw [declaredType_eq, ha] at open_
      exact open_
    refine reset ha (fun q => ⟨free q, ?_⟩) (value_sever_output w he ha untyped free)
    exact not_feeds_of_output w'.wired (by rw [direction, output])
  -- an input that has lost its wire has nothing left of what came by it
  have cut : (g.sever e).Reset e.input := by
    obtain ⟨a, ha, -⟩ := isSome_attr?_of_direction? input
    have bare (q : Port) : ¬ (g.sever e).Feeds e.input q ∧ ¬ (g.sever e).Feeds q e.input :=
      ⟨not_feeds_of_input w'.wired (by rw [direction, input]),
        fun hf => not_connected_sever_input w he ⟨q, .inr hf⟩⟩
    rcases held_sever_input w he ha with held | ⟨typed, held⟩
    · exact reset ha bare held
    · obtain ⟨u, hu⟩ := Option.isSome_iff_exists.1 typed
      have own : g.declaredType e.input = some u := by rw [declaredType_eq, ha]; exact hu
      exact ⟨by rw [heldType_congr held, declared, own, k.declared _ u own], bare⟩
  constructor
  case attr => exact fun p a ha => ⟨a, by rwa [attr] at ha, rfl, rfl, rfl⟩
  case each =>
    intro p live
    have stale : (g.sever e).isStale p = false → g.isStale p = false := by
      cases hs : g.isStale p with
      | false => exact fun _ => rfl
      | true =>
        rw [isStale_sever w he (.inr hs)]
        exact nofun
    by_cases hi : p = e.input
    · exact .inl (hi ▸ cut)
    · by_cases kept : p = e.output → (g.declaredType p).isSome ∨ ∃ i, (g.sever e).Feeds p i
      · exact .inr ⟨heldType_congr (value_sever w he hi kept), stale⟩
      · simp only [Classical.not_imp, not_or, Bool.not_eq_true, Option.isSome_eq_false_iff,
          Option.isNone_iff_eq_none, not_exists] at kept
        obtain ⟨rfl, open_, free⟩ := kept
        exact .inl (emptied free open_)
  case feeds => exact fun o i hf => ((feeds o i).1 hf).1
  case peer => exact fun p q hq => by rwa [peer?_sever w he] at hq
  case inside =>
    intro p hp
    rwa [(sameTree_sever w he).network] at hp
  case idle =>
    intro t ht free
    rw [terminal?_sever w he] at ht
    have open_ := s.declaredType_terminal ht
    by_cases ho : t = e.output
    · subst ho
      rw [(emptied free open_).1, declared]
      exact open_
    · have hi : t ≠ e.input := by
        rintro rfl
        exact (terminal?_direction ht).1 input
      rw [heldType_congr (value_sever w he hi fun h => absurd h ho)]
      exact k.idle t ht fun i hf => free i ((feeds t i).2 ⟨hf, fun h => ho h.1⟩)
  case unfed =>
    intro o p _ hf
    by_cases hi : p = e.input
    · exact .inl (hi ▸ cut)
    · exact .inr ⟨o, (feeds o p).2 ⟨hf, fun h => hi h.2⟩⟩
  case linked => exact fun p c _ hc => ⟨c, by rwa [peer?_sever w he], rfl⟩

theorem typed_sever {m : NodeId} {e : Edge} (w : g.WellFormed) (s : g.Standard)
    (he : e ∈ g.wires m) (k : g.Typed) : (g.sever e).Typed :=
  (carried_sever w s he k.toSuited).typed (wellFormed_sever w he).wired k

theorem effectiveType_of_resolved {p : Port} {t : DataType} (h : g.resolved p = .ok t) :
    g.effectiveType p = some t := by
  simp only [resolved] at h
  split at h
  · next ht =>
    cases h
    exact ht
  · cases h

/-- A value that may be stored is of the type that the input declares. -/
theorem declaredType_of_checkAssign {p : Port} {s : Slot} {v : Value} (w : g.WellFormed)
    (ok : g.checkAssign p v = .ok s) : v.portType = g.declaredType p := by
  obtain ⟨hd, free⟩ := free_of_checkAssign ok
  have known : ∃ t, g.effectiveType p = some t ∧ v.portType = some t := by
    simp only [checkAssign, bind, Except.bind, throw, throwThe, MonadExceptOf.throw] at ok
    split at ok
    · cases ok
    · split at ok
      · cases ok
      · split at ok
        · cases ok
        · split at ok
          · cases ok
          · next t ht =>
            split at ok
            · cases ok
            · next hv => exact ⟨t, effectiveType_of_resolved ht, Classical.not_not.1 hv⟩
  obtain ⟨t, ht, hv⟩ := known
  obtain ⟨q, hq, hu⟩ := List.exists_of_findSome?_eq_some ht
  obtain ⟨a, ha, along⟩ := along_of_mem_walk _ _ _ _ hq
  rw [List.mem_singleton.1 ha] at along
  cases along with
  | here => rw [hv, hu]
  | step hr _ =>
    obtain ⟨-, -, hf | ⟨ho, -⟩⟩ := (mem_typeSources_iff w _ _).1 hr
    · rw [(source?_eq_some_iff w.wired _ _).2 hf] at free
      cases free
    · rw [hd] at ho
      cases ho

theorem value_replace {p : Port} {s : Slot} {v : Value} (live : (g.direction? p).isSome) :
    (g.replace p s v).value p = v.payload? := by
  rw [value, replace_eq, held_spread]
  have stored := value_hold g p p v live
  rw [if_pos rfl] at stored
  split
  · rw [held_setCurrent]
    exact stored
  · exact stored

theorem typed_replace {p : Port} {s : Slot} {v : Value} (w : g.WellFormed)
    (ok : g.checkAssign p v = .ok s) (k : g.Typed) : (g.replace p s v).Typed := by
  obtain ⟨hd, free⟩ := free_of_checkAssign ok
  have frame := g.sameFrame_replace p s v
  have w' := frame.wellFormed w
  have other {q : Port} (hq : q ≠ p) : (g.replace p s v).heldType q = g.heldType q := by
    rw [heldType, held_replace hq]
    rfl
  refine Carried.typed (frame.carried k.toSuited (fun q _ => ?_) fun t ht => other ?_) w'.wired k
  · by_cases hq : q = p
    · subst hq
      refine .inl ⟨?_, fun r => ⟨?_, ?_⟩⟩
      · rw [heldType_eq_value, value_replace (by rw [hd]; rfl), frame.declaredType,
          ← declaredType_of_checkAssign w ok]
        cases v <;> rfl
      · exact not_feeds_of_input w'.wired (by rw [frame.direction, hd])
      · rw [frame.feeds, ← source?_eq_some_iff w.wired, free]
        exact nofun
    · refine .inr ⟨other hq, fun hs => ?_⟩
      cases stale : g.isStale q with
      | false => rfl
      | true =>
        rw [isStale_replace hq stale] at hs
        cases hs
  · rintro rfl
    exact (terminal?_direction ht).1 hd

/-! ### A new node -/

/-- A new port holds what suits its type. -/
theorem Inserted.heldType_new {id parent : NodeId} {t : NodeType} {name : String}
    {values : Datablock} (x : Inserted id parent t name values g h) (suits : values.Suits t)
    {p : Port} (hp : p.node = id) : h.heldType p = h.declaredType p := by
  cases hs : h.slot? p with
  | none => simp [heldType, Graph.held, declaredType, hs, Value.portType]
  | some s =>
    have attr : h.attr? p = some s.attr := by simp [attr?, hs]
    have declared := attr
    rw [attr?_eq, x.type, if_pos hp, Option.bind_some] at declared
    obtain ⟨v, hv, like⟩ := x.new p s hp hs
    obtain ⟨u, hu, huv⟩ := Option.map_eq_some_iff.1 like
    rw [declaredType_eq, attr, Option.bind_some, ← suits _ u s.attr hu declared, heldType, Graph.held,
      hs, u.portType_eq, huv, ← v.portType_eq, Option.elim_some, hv]
    rfl

theorem typed_insert {id parent : NodeId} {t : NodeType} {name : String} {values : Datablock}
    (attachment : Value) (a : Insertable id parent t name values g) (w : g.WellFormed)
    (standard : t.Standard) (consistent : t.Consistent) (suits : values.Suits t) (s : g.Standard)
    (k : g.Typed) : (g.insert id parent t name values attachment).Typed := by
  have x := inserted g attachment a
  generalize g.insert id parent t name values attachment = h at x
  have s' := x.standard a standard w s
  have w' := x.wellFormed a w
  have feeds := x.feeds a
  have attr {p : Port} (hp : p.node ≠ id) : h.attr? p = g.attr? p := by
    rw [attr?, x.slot p hp]
    rfl
  have declared {p : Port} (hp : p.node ≠ id) : h.declaredType p = g.declaredType p := by
    rw [declaredType_eq, attr hp, declaredType_eq]
  have held {p : Port} (hp : p.node ≠ id) : h.heldType p = g.heldType p := by
    rw [heldType, Graph.held, x.slot p hp]
    rfl
  have fed {o i : Port} (hf : h.Feeds o i) : o.node ≠ id ∧ i.node ≠ id := by
    rw [feeds] at hf
    constructor <;> refine a.node_ne ?_
    · rw [hf.output w.wired]
      rfl
    · rw [hf.input w.wired]
      rfl
  have peered {p q : Port} (hp : h.peer? p = some q) : p.node ≠ id := by
    rw [x.peer a] at hp
    refine a.node_ne ?_
    rw [isSome_direction?_iff]
    exact isSome_attr?_of_peer? g hp
  -- a new port has what its own type says, and nothing else to go by
  have new {p : Port} {b : Attribute} (hp : p.node = id) (hb : h.attr? p = some b) :
      b.default.portType = b.type ∧ h.heldType p = h.declaredType p := by
    rw [attr?_eq, x.type, if_pos hp, Option.bind_some] at hb
    exact ⟨consistent b (List.mem_of_getElem? hb), x.heldType_new suits hp⟩
  have lends {o : Port} {u : DataType} (ho : o.node ≠ id) (hl : h.Lends o u) : g.Lends o u := by
    rw [Lends, declared ho, x.peer a, feeds] at hl
    refine hl.imp_right fun lent => ?_
    obtain ⟨free, i, hf, h⟩ := lent
    refine ⟨free, i, hf, ?_⟩
    rcases h with h | ⟨b, hb, h⟩
    · rw [← feeds] at hf
      exact .inl (by rwa [← declared (fed hf).2])
    · refine .inr ⟨b, hb, ?_⟩
      rwa [← declared (peered (by rw [x.peer a]; exact w.linked.back _ _ hb))]
  have own {p : Port} {u : DataType} (hp : p.node = id) (hb : h.Bears p u) :
      h.declaredType p = some u := by
    refine hb.declared_of_bare fun q => ⟨fun hf => (fed hf).1 hp, fun hf => (fed hf).2 hp⟩
  have plain {p : Port} {u : DataType} (hp : p.node = id) (hb : h.declaredType p = some u) :
      h.heldType p = some u := by
    obtain ⟨b, ha⟩ := Option.isSome_iff_exists.1 (isSome_attr?_of_declaredType hb)
    rw [(new hp ha).2, hb]
  refine ⟨⟨⟨?defaults, ?fits, ?boundary⟩, ?declared, ?seeded, ?idle⟩, ?current⟩
  case defaults =>
    intro p b hb
    by_cases hp : p.node = id
    · exact (new hp hb).1
    · exact k.defaults p b (by rwa [← attr hp])
  case fits =>
    intro o i u v hf ho hi
    have ends := fed hf
    rw [feeds] at hf
    exact k.fits o i u v hf (lends ends.1 ho) (by rwa [← declared ends.2])
  case boundary =>
    intro b s hb inside
    have hne := peered hb
    rw [declared hne]
    rw [x.peer a] at hb
    refine k.boundary b s hb ?_
    rw [x.contents, if_neg hne] at inside
    split at inside
    · rwa [Option.isSome_map] at inside
    · exact inside
  case declared =>
    intro p u hu
    by_cases hp : p.node = id
    · exact plain hp hu
    · rw [held hp]
      exact k.declared p u (by rwa [← declared hp])
  case seeded =>
    intro o u hu
    by_cases hp : o.node = id
    · rw [plain hp (own hp (.inl hu))]
      rfl
    · rw [held hp]
      exact k.seeded o u (lends hp hu)
  case idle =>
    intro p hs free
    by_cases hp : p.node = id
    · obtain ⟨b, hb⟩ : ∃ b, h.attr? p = some b := by
        refine Option.isSome_iff_exists.1 ?_
        rw [← isSome_direction?_iff]
        exact (terminal?_direction hs).2
      rw [(new hp hb).2]
      exact s'.declaredType_terminal hs
    · rw [x.terminal_old hp] at hs
      rw [held hp]
      exact k.idle p hs fun i hf => free i (by rwa [feeds])
  case current =>
    intro p u hs hb
    by_cases hp : p.node = id
    · exact plain hp (own hp hb)
    · rw [held hp]
      refine k.current p u ?_ ?_
      · rw [isStale, x.slot p hp] at hs
        exact hs
      · rcases hb with hb | ⟨free, o, hf, hb⟩
        · exact .inl (lends hp hb)
        · have ends := fed hf
          rw [feeds] at hf
          exact .inr ⟨by rwa [← declared hp], o, hf, lends ends.1 hb⟩

end Edits

end Graph
end Dataflow
