import Dataflow.Proofs.Suited
set_option autoImplicit false

/-!
A new wire, and what ports hold. Main statement: after the ends of a wire have been seeded and the
boundary has grown, every port holds what suits its type, and a new network port has the type of what
is wired to its terminal.
-/

namespace Dataflow.Graph

variable {g h : Graph}

/-! ### The wire itself -/

/-- The ends that have no type of their own take over what they are seeded with. -/
theorem heldType_seedEnds {e : Edge} (ho : (g.direction? e.output).isSome)
    (hi : (g.direction? e.input).isSome) (ne : e.output ≠ e.input) :
    (g.seedEnds e).heldType e.input =
      (if g.declaredType e.input = none then g.heldType e.output else g.heldType e.input) ∧
    (g.seedEnds e).heldType e.output =
      if g.declaredType e.output = none ∧ g.heldType e.output = none then
        if g.declaredType e.input = none then none else g.heldType e.input
      else g.heldType e.output := by
  have null (v : Value) : v.isNull = true ↔ v.portType = none := by cases v <;> simp [Value.isNull, Value.portType]
  let g₁ := if (g.declaredType e.input).isNone then g.hold e.input (g.held e.output) else g
  have input₁ : g₁.heldType e.input =
      if g.declaredType e.input = none then g.heldType e.output else g.heldType e.input := by
    simp only [g₁, Option.isNone_iff_eq_none]
    split
    · rw [heldType_eq_value, value_hold _ _ _ _ hi, if_pos rfl, heldType_eq_value]
      rfl
    · rfl
  have output₁ : g₁.held e.output = g.held e.output := by
    simp only [g₁]
    split
    · exact (Stored.hold g e.input _).held ne
    · rfl
  have live₁ : (g₁.direction? e.output).isSome := by
    simp only [g₁]
    split
    · rw [(g.sameFrame_hold _ _).direction]
      exact ho
    · exact ho
  have eq : g.seedEnds e =
      if (g.declaredType e.output).isNone && (g₁.held e.output).isNull then
        g₁.hold e.output (g₁.held e.input) else g₁ := rfl
  have first : g₁.heldType e.output = g.heldType e.output := by rw [heldType, output₁]; rfl
  rw [eq, output₁]
  simp only [Bool.and_eq_true, Option.isNone_iff_eq_none, null]
  change (if g.declaredType e.output = none ∧ g.heldType e.output = none then _ else g₁).heldType _ = _ ∧
    (if g.declaredType e.output = none ∧ g.heldType e.output = none then _ else g₁).heldType _ = _
  by_cases hc : g.declaredType e.output = none ∧ g.heldType e.output = none
  · rw [if_pos hc, if_pos hc]
    constructor
    · rw [heldType, (Stored.hold g₁ e.output _).held ne.symm]
      exact input₁
    · rw [heldType_eq_value, value_hold _ _ _ _ live₁, if_pos rfl]
      have taken : (g₁.held e.input).payload?.map Payload.dataType = g₁.heldType e.input :=
        (heldType_eq_value g₁ e.input).symm
      rw [taken, input₁, hc.2]
  · rw [if_neg hc, if_neg hc]
    exact ⟨input₁, first⟩

/-- An input without a wire goes by its own type. -/
theorem Matching.effectiveType_unfed (k : g.Matching) (w : g.Lawful) {p : Port}
    (hd : g.direction? p = some .input) (unfed : ∀ q, ¬ g.Feeds q p) :
    g.effectiveType p = g.declaredType p := by
  refine Option.ext fun t => ?_
  rw [k.effectiveType_eq_some_iff w]
  constructor
  · intro h
    exact h.declared_of_bare fun q => ⟨not_feeds_of_input w.wellFormed.wired hd, unfed q⟩
  · exact fun h => .inl (.inl h)

/-- What holds of the ends of a wire that passes the check, before it is drawn. -/
structure Matched (e : Edge) (g : Graph) : Prop where
  unfed : ∀ q, ¬ g.Feeds q e.input
  agree : ∀ t u, g.Lends e.output t → g.declaredType e.input = some u → t = u
  known : (∃ t, g.Lends e.output t) ∨ (g.declaredType e.input).isSome

theorem Drawable.matched {n : NodeId} {e : Edge} (d : Drawable n e g) (w : g.Lawful)
    (k : g.Suited) : Matched e g := by
  have wired := w.wellFormed.wired
  have unfed (q : Port) : ¬ g.Feeds q e.input := by
    intro hf
    rw [← source?_eq_some_iff wired, d.free] at hf
    cases hf
  have output (t : DataType) : g.effectiveType e.output = some t ↔ g.Lends e.output t := by
    rw [k.effectiveType_eq_some_iff w, bears_output_iff wired d.output]
  have types := d.types
  rw [k.effectiveType_unfed w d.input unfed] at types
  refine ⟨unfed, fun t u ht hu => ?_, ?_⟩
  · rw [(output t).2 ht, hu] at types
    simp only [checkTypes] at types
    split at types
    · assumption
    · cases types
  · cases hu : g.declaredType e.input with
    | some u => exact .inr rfl
    | none =>
      cases ht : g.effectiveType e.output with
      | some t => exact .inl ⟨t, (output t).1 ht⟩
      | none =>
        rw [ht, hu] at types
        cases types

theorem Drawable.check {n : NodeId} {e : Edge} (d : Drawable n e g) : g.checkConnect e = .ok () := by
  simp [checkConnect, bind, Except.bind, expect_of_direction? d.output,
    expect_of_direction? d.input, d.free, d.acyclic, d.types, d.outputAround, d.inputAround,
    d.boundary]

section Drawn
variable {g₁ g₂ g₃ g₄ : Graph} {n : NodeId} {e : Edge} (x : Drawn n e g g₁ g₂ g₃ g₄ h)
  (d : Drawable n e g) (w : g.Lawful) (k : g.Suited)
include x

theorem Drawn.feeds₂ (o i : Port) :
    g₂.Feeds o i ↔ g.Feeds o i ∨ o = e.output ∧ i = e.input := by
  rw [x.frame₂.feeds, feeds_add x.wire]

theorem Drawn.attr₂ : g₂.attr? = g.attr? := by rw [x.frame₂.attr, x.wire.attr]

theorem Drawn.declaredType₂ (p : Port) : g₂.declaredType p = g.declaredType p := by
  rw [declaredType_eq, x.attr₂, declaredType_eq]

theorem Drawn.peer₂ : g₂.peer? = g.peer? := by rw [x.frame₂.peer, x.wire.peer]

include d

omit x in
theorem Drawable.ends_ne : e.output ≠ e.input := by
  intro h
  have := d.output
  rw [h, d.input] at this
  cases this

theorem Drawn.heldType₂_input : g₂.heldType e.input =
    if g.declaredType e.input = none then g.heldType e.output else g.heldType e.input := by
  have ends := heldType_seedEnds (g := g₁) (e := e) (by rw [x.wire.direction, d.output]; rfl)
    (by rw [x.wire.direction, d.input]; rfl) d.ends_ne
  rw [x.seeds, ends.1]
  simp only [heldType, declaredType_eq, x.wire.attr, x.wire.held]

theorem Drawn.heldType₂_output : g₂.heldType e.output =
    if g.declaredType e.output = none ∧ g.heldType e.output = none then
      if g.declaredType e.input = none then none else g.heldType e.input
    else g.heldType e.output := by
  have ends := heldType_seedEnds (g := g₁) (e := e) (by rw [x.wire.direction, d.output]; rfl)
    (by rw [x.wire.direction, d.input]; rfl) d.ends_ne
  rw [x.seeds, ends.2]
  simp only [heldType, declaredType_eq, x.wire.attr, x.wire.held]

omit d in
theorem Drawn.heldType₂_of_ne {p : Port} (ho : p ≠ e.output) (hi : p ≠ e.input) :
    g₂.heldType p = g.heldType p := by
  rw [heldType, x.seeds, held_seedEnds ho hi, x.wire.held]
  rfl

/-- Ports that hold something, or have types of their own, are not seeded. -/
theorem Drawn.heldType₂_of_isSome {p : Port} (hp : (g.heldType p).isSome)
    (hi : p = e.input → (g.declaredType p).isSome) : g₂.heldType p = g.heldType p := by
  by_cases ho : p = e.output
  · subst ho
    rw [x.heldType₂_output d, if_neg]
    rintro ⟨-, hnone⟩
    simp [hnone] at hp
  · by_cases hpi : p = e.input
    · subst hpi
      rw [x.heldType₂_input d, if_neg]
      intro hnone
      have := hi rfl
      simp [hnone] at this
    · exact x.heldType₂_of_ne ho hpi

include w k

theorem Drawn.lends₂ {o : Port} {t : DataType} (ho : g₂.Lends o t) : g.Lends o t ∨
    o = e.output ∧ g.declaredType o = none ∧ g.declaredType e.input = some t := by
  rw [Lends, x.declaredType₂, x.peer₂] at ho
  rcases ho with ho | ⟨free, i, hf, ho⟩
  · exact .inl (.inl ho)
  · rw [x.declaredType₂] at ho
    rcases ho with ho | ⟨b, hb, ho⟩
    · rcases (x.feeds₂ o i).1 hf with hf | ⟨rfl, rfl⟩
      · exact .inl (.inr ⟨free, i, hf, .inl ho⟩)
      · exact .inr ⟨rfl, free, ho⟩
    · rw [x.declaredType₂] at ho
      have output : g.direction? o = some .output := by
        rcases (x.feeds₂ o i).1 hf with hf | ⟨rfl, rfl⟩
        · exact hf.output w.wellFormed.wired
        · exact d.output
      exact .inl (k.lends_of_joined w.wellFormed w.fitted output (.inr (.inr ⟨free, hb⟩)) ho)

theorem Drawn.suited₂ : g₂.Suited := by
  have m := d.matched w k
  refine ⟨⟨?defaults, ?fits, ?boundary⟩, ?declared, ?seeded, ?idle⟩
  case defaults => rw [x.attr₂]; exact k.defaults
  case fits =>
    intro o i t u hf ho hi
    rw [x.declaredType₂] at hi
    rcases x.lends₂ d w k ho with ho | ⟨rfl, free, ht⟩
    · rcases (x.feeds₂ o i).1 hf with hf | ⟨rfl, rfl⟩
      · exact k.fits o i t u hf ho hi
      · exact m.agree t u ho hi
    · rcases (x.feeds₂ _ i).1 hf with hf | ⟨-, rfl⟩
      · exact (m.agree u t (.inr ⟨free, i, hf, .inl hi⟩) ht).symm
      · rw [ht] at hi
        exact Option.some.inj hi
  case boundary =>
    intro b t hb inside
    rw [x.peer₂] at hb
    rw [x.frame₂.contents, x.wire.tree.network] at inside
    rw [x.declaredType₂]
    exact k.boundary b t hb inside
  case declared =>
    intro p t ht
    rw [x.declaredType₂] at ht
    have held := k.declared p t ht
    rw [x.heldType₂_of_isSome d (by simp [held]) fun _ => by simp [ht], held]
  case seeded =>
    intro o t ho
    rcases x.lends₂ d w k ho with ho | ⟨rfl, free, ht⟩
    · have held := k.seeded o t ho
      rw [x.heldType₂_of_isSome d held fun hi => ?_]
      · exact held
      · rw [Bears.declared_of_bare (.inl ho) fun q => hi ▸
          ⟨not_feeds_of_input w.wellFormed.wired d.input, m.unfed q⟩]
        rfl
    · rw [x.heldType₂_output d]
      split
      · rw [if_neg (by simp [ht]), k.declared _ t ht]
        rfl
      · next hc =>
        rw [Option.isSome_iff_ne_none]
        exact fun hnone => hc ⟨free, hnone⟩
  case idle =>
    intro t ht free
    rw [x.frame₂.terminal, x.wire.terminal] at ht
    have ho : t ≠ e.output := by
      rintro rfl
      exact free e.input ((x.feeds₂ _ _).2 (.inr ⟨rfl, rfl⟩))
    have hi : t ≠ e.input := by
      rintro rfl
      exact (terminal?_direction ht).1 d.input
    rw [x.heldType₂_of_ne ho hi]
    exact k.idle t ht fun i hf => free i ((x.feeds₂ t i).2 (.inl hf))

end Drawn

/-! ### The boundary -/

/-- A new network port has a type, and lends its terminal none that this has not got by its wires. -/
theorem Growth.suited {side : Direction} {t b : Port} {a : Attribute} (c : Growth side t b a g h)
    (r : Growth.Ready side t b a g) (w : g.WellFormed) (typed : a.type.isSome)
    (lent : ∀ u j, a.type = some u → g.Feeds t j → g.Lends t u) (k : g.Suited) : h.Suited := by
  have absent : g.attr? b = none := by simp [attr?, c.fresh]
  have old {p : Port} (live : (g.attr? p).isSome) : p ≠ b := by
    rintro rfl
    simp [absent] at live
  have fed {o i : Port} (hf : g.Feeds o i) : o ≠ b ∧ i ≠ b :=
    ⟨old (hf.isSome_attr? w.wired).1, old (hf.isSome_attr? w.wired).2⟩
  have declared {p : Port} (hp : p ≠ b) : h.declaredType p = g.declaredType p := by
    rw [declaredType_eq, c.attr, if_neg hp, declaredType_eq]
  have own : h.declaredType b = a.type := by
    rw [declaredType_eq, c.attr, if_pos rfl]
    rfl
  have held {p : Port} (hp : p ≠ b) : h.heldType p = g.heldType p := by
    rw [heldType, c.held, if_neg hp]
    rfl
  have held_own : h.heldType b = a.type := by
    rw [heldType, c.held, if_pos rfl, c.typed]
  have lends {o : Port} {u : DataType} (hb : o ≠ b) (ho : h.Lends o u) : g.Lends o u := by
    rw [Lends, declared hb, c.feeds] at ho
    rcases ho with ho | ⟨free, i, hf, ho | ⟨q, hq, ho⟩⟩
    · exact .inl ho
    · exact .inr ⟨free, i, hf, .inl (by rwa [← declared (fed hf).2])⟩
    · rcases (c.peer_eq_some_iff r o q).1 hq with hq | ⟨rfl, -⟩ | ⟨rfl, rfl⟩
      · rw [declared (old (isSome_attr?_of_peer? g (w.linked.back _ _ hq)))] at ho
        exact .inr ⟨free, i, hf, .inr ⟨q, hq, ho⟩⟩
      · exact absurd rfl hb
      · rw [own] at ho
        exact lent u i ho hf
  refine ⟨⟨?defaults, ?fits, ?boundary⟩, ?declared, ?seeded, ?idle⟩
  case defaults =>
    intro p x hx
    rw [c.attr] at hx
    split at hx
    · cases hx
      exact c.typed.symm
    · exact k.defaults p x hx
  case fits =>
    intro o i u v hf ho hi
    rw [c.feeds] at hf
    rw [declared (fed hf).2] at hi
    exact k.fits o i u v hf (lends (fed hf).1 ho) hi
  case boundary =>
    intro p q hp inside
    rw [c.contents] at inside
    rcases (c.peer_eq_some_iff r p q).1 hp with hp | ⟨rfl, -⟩ | ⟨rfl, -⟩
    · rw [declared (old (isSome_attr?_of_peer? g hp))]
      exact k.boundary p q hp inside
    · rw [own]
      exact typed
    · have := contents?_of_terminal? w.tree (p := p) (by simp [r.terminal])
      simp [this] at inside
  case declared =>
    intro p u hu
    by_cases hp : p = b
    · subst hp
      rw [held_own, ← own, hu]
    · rw [held hp]
      exact k.declared p u (by rwa [← declared hp])
  case seeded =>
    intro o u ho
    by_cases hp : o = b
    · subst hp
      rw [held_own]
      exact typed
    · rw [held hp]
      exact k.seeded o u (lends hp ho)
  case idle =>
    intro p hp free
    rw [c.terminal? r w] at hp
    have live := (terminal?_direction hp).2
    rw [isSome_direction?_iff] at live
    rw [held (old live)]
    exact k.idle p hp fun i hf => free i (by rwa [c.feeds])

/-- A network port that comes starts with what its terminal holds, if that holds anything. -/
theorem Extended.first {side : Direction} {p other : Port} {n : NodeId} (x : Extended side p n g h)
    (eq : h = if g.grows side p then g.grow side p other else g) (w : g.WellFormed)
    (full : g.grows side p = true → (g.heldType p).isSome) :
    h = g ∨ ∃ i a, Growth side p ⟨n, i⟩ a g h ∧ Growth.Ready side p ⟨n, i⟩ a g ∧
      a.type = g.heldType p ∧ a.default.payload? = g.value p := by
  rcases x with ⟨-, same⟩ | ⟨i, a, c, r⟩
  · exact .inl same
  · refine .inr ⟨i, a, c, r, ?_⟩
    have grows := grows_iff.2 ⟨r.terminal, r.free⟩
    rw [if_pos grows] at eq
    have inside := r.isSome_contents? w
    have hne : p.node ≠ n := by
      rintro rfl
      have := contents?_of_terminal? w.tree (p := p) (by simp [r.terminal])
      simp [this] at inside
    obtain ⟨a', i', c', payload⟩ := g.growth_grow side p other n r.around (isSome_type?_of_contents? inside) hne
    rw [← eq] at c'
    -- both are the one port that has come
    have place : i' = i := by
      obtain ⟨u, hu, hi⟩ := c.index
      obtain ⟨u', hu', hi'⟩ := c'.index
      rw [hu] at hu'
      cases hu'
      exact hi'.trans hi.symm
    subst place
    have same : a = a' := by
      have here := c.attr ⟨n, i'⟩
      rw [c'.attr, if_pos rfl, if_pos rfl, Option.some.injEq] at here
      exact here.symm
    subst same
    have value : g.firstValue p other = g.held p := by
      have := full grows
      rw [firstValue, if_pos]
      simp only [heldType] at this
      cases hv : g.held p with
      | null => simp [hv, Value.portType] at this
      | data x m => rfl
    rw [value] at payload
    rw [c.typed, heldType_eq_value, Value.portType_eq, payload]
    exact ⟨rfl, rfl⟩

section Drawn
variable {g₁ g₂ g₃ g₄ : Graph} {n : NodeId} {e : Edge} (x : Drawn n e g g₁ g₂ g₃ g₄ h)
  (d : Drawable n e g) (w : g.Lawful) (s : g.Standard) (k : g.Suited)
include x d w s k

/-- A terminal that gets its first wire has the type of the input, and holds a value of it. The new
network port starts with that. -/
theorem Drawn.grown_output : g₃ = g₂ ∨ ∃ i a u, Growth .input e.output ⟨n, i⟩ a g₂ g₃ ∧
    Growth.Ready .input e.output ⟨n, i⟩ a g₂ ∧ a.type = some u ∧ g.declaredType e.input = some u ∧
      a.default.payload? = g₂.value e.output := by
  have bare (grows : g₂.grows .input e.output = true) :
      ∃ u, g.declaredType e.input = some u ∧ g₂.heldType e.output = some u := by
    obtain ⟨terminal, free⟩ := grows_iff.1 grows
    rw [x.frame₂.terminal, x.wire.terminal] at terminal
    rw [x.peer₂] at free
    have open_ := s.declaredType_terminal terminal
    have unwired (i : Port) : ¬ g.Feeds e.output i := by
      intro hf
      have := (w.fitted e.output (by simp [terminal])).2 ⟨i, .inl hf⟩
      simp [free] at this
    have known : (g.declaredType e.input).isSome := by
      rcases (d.matched w k).known with ⟨t, ht | ⟨-, i, hf, -⟩⟩ | known
      · rw [open_] at ht
        cases ht
      · exact absurd hf (unwired i)
      · exact known
    obtain ⟨u, hu⟩ := Option.isSome_iff_exists.1 known
    refine ⟨u, hu, ?_⟩
    rw [x.heldType₂_output d, if_pos ⟨open_, k.idle _ terminal unwired⟩, if_neg (by simp [hu])]
    exact k.declared _ u hu
  have full (grows : g₂.grows .input e.output = true) : (g₂.heldType e.output).isSome := by
    obtain ⟨u, -, held⟩ := bare grows
    simp [held]
  refine (x.atOutput.first x.grown₃ (x.wellFormed₂ d w.wellFormed) full).imp_right ?_
  rintro ⟨i, a, c, r, type, value⟩
  obtain ⟨u, hu, held⟩ := bare (grows_iff.2 ⟨r.terminal, r.free⟩)
  exact ⟨i, a, u, c, r, type.trans held, hu, value⟩

theorem Drawn.suited₃ : g₃.Suited := by
  have k₂ := x.suited₂ d w k
  rcases x.grown_output d w s k with same | ⟨i, a, u, c, r, type, hu, -⟩
  · rw [same]
    exact k₂
  · refine c.suited r (x.wellFormed₂ d w.wellFormed) (by rw [type]; rfl) (fun v j hv hf => ?_) k₂
    rw [type, Option.some.injEq] at hv
    subst hv
    have terminal := r.terminal
    rw [x.frame₂.terminal, x.wire.terminal] at terminal
    refine .inr ⟨?_, e.input, (x.feeds₂ _ _).2 (.inr ⟨rfl, rfl⟩), .inl ?_⟩
    · rw [x.declaredType₂]
      exact s.declaredType_terminal terminal
    · rw [x.declaredType₂]
      exact hu

/-- A terminal that gets its wire takes over what the output holds. The new network port starts with
that. -/
theorem Drawn.grown_input : g₄ = g₃ ∨ ∃ i a t, Growth .output e.input ⟨n, i⟩ a g₃ g₄ ∧
    Growth.Ready .output e.input ⟨n, i⟩ a g₃ ∧ a.type = g.heldType e.output ∧ g.Lends e.output t ∧
      a.default.payload? = g₃.value e.input := by
  have held (grows : g₃.grows .output e.input = true) :
      g₃.heldType e.input = g.heldType e.output ∧ ∃ t, g.Lends e.output t := by
    have terminal := (grows_iff.1 grows).1
    rw [x.atOutput.terminal (x.wellFormed₂ d w.wellFormed), x.frame₂.terminal,
      x.wire.terminal] at terminal
    have open_ := s.declaredType_terminal terminal
    constructor
    · rw [heldType, (x.atOutput.slot_old (by
        rw [x.frame₂.direction, x.wire.direction, d.input]; rfl)).2.1]
      exact (x.heldType₂_input d).trans (if_pos open_)
    · rcases (d.matched w k).known with known | known
      · exact known
      · simp [open_] at known
  have full (grows : g₃.grows .output e.input = true) : (g₃.heldType e.input).isSome := by
    obtain ⟨same, t, ht⟩ := held grows
    rw [same]
    exact k.seeded _ t ht
  refine (x.atInput.first x.grown₄ (x.wellFormed₃ d w.wellFormed) full).imp_right ?_
  rintro ⟨i, a, c, r, type, value⟩
  obtain ⟨same, t, ht⟩ := held (grows_iff.2 ⟨r.terminal, r.free⟩)
  exact ⟨i, a, t, c, r, type.trans same, ht, value⟩

theorem Drawn.suited₄ : g₄.Suited := by
  have w₃ := x.wellFormed₃ d w.wellFormed
  have k₃ := x.suited₃ d w s k
  rcases x.grown_input d w s k with same | ⟨i, a, t, c, r, type, ht, -⟩
  · rw [same]
    exact k₃
  · refine c.suited r w₃ ?_ (fun v j _ hf => ?_) k₃
    · rw [type]
      exact k.seeded _ t ht
    · refine absurd hf (not_feeds_of_input w₃.wired ?_)
      exact x.atOutput.direction_old (by rw [x.frame₂.direction, x.wire.direction, d.input])

theorem Drawn.suited : h.Suited := by
  have frame := x.frame₄
  have k₄ := x.suited₄ d w s k
  have held (p : Port) : h.heldType p = g₄.heldType p := by
    rw [heldType, x.spread, (quiet_emit _ _).held, spreadFrom, held_spread, spreadFrom, held_spread]
    rfl
  refine Carried.suited (frame.carried k₄ (fun p _ => .inr ⟨held p, fun hs => ?_⟩) fun t _ => held t)
    (x.wellFormed d w.wellFormed).wired k₄
  cases stale : g₄.isStale p with
  | false => rfl
  | true =>
    rw [x.spread, (quiet_emit _ _).isStale, spreadFrom, isStale_spread_of_isStale] at hs
    · cases hs
    · exact isStale_spread_of_isStale _ _ _ stale

omit k in
theorem Drawn.typed (c : Closed false g) (k : g.Typed) : h.Typed := by
  have wf := w.wellFormed
  have w' := x.wellFormed d wf
  have k' := x.suited d w s k.toSuited
  have c' := x.closed d wf c
  refine ⟨k', fun p t hs hb => ?_⟩
  obtain ⟨ho, hi⟩ := x.ne_ends d wf hs
  have declared {q : Port} (live : (g.attr? q).isSome) : h.declaredType q = g.declaredType q := by
    rw [← isSome_direction?_iff] at live
    rw [declaredType_eq, (x.slot_old live).1, declaredType_eq]
  have lends {q : Port} (live : (g.attr? q).isSome) (hq : q ≠ e.output) (hqi : q ≠ e.input)
      (hl : h.Lends q t) : g.Lends q t := by
    rw [Lends, declared live] at hl
    refine hl.imp_right fun lent => ?_
    obtain ⟨free, i, hf, hl⟩ := lent
    have hf := ((x.feeds q i).1 hf).resolve_right fun he => hq he.1
    refine ⟨free, i, hf, ?_⟩
    rcases hl with hl | ⟨b, hb, hl⟩
    · exact .inl (by rwa [← declared (hf.isSome_attr? wf.wired).2])
    · have hb := x.peer_old hb ((isSome_direction?_iff g q).2 live) hq hqi
      rw [declared (isSome_attr?_of_peer? g (wf.linked.back _ _ hb))] at hl
      exact .inr ⟨b, hb, hl⟩
  cases live : g.attr? p with
  | none =>
    -- a new port goes by its own type
    have unfed {o i : Port} (hf : h.Feeds o i) : (g.attr? o).isSome ∧ (g.attr? i).isSome := by
      rcases (x.feeds o i).1 hf with hf | ⟨rfl, rfl⟩
      · exact hf.isSome_attr? wf.wired
      · exact ⟨(isSome_direction?_iff g _).1 (by rw [d.output]; rfl),
          (isSome_direction?_iff g _).1 (by rw [d.input]; rfl)⟩
    refine k'.declared p t (hb.declared_of_bare fun q => ⟨fun hf => ?_, fun hf => ?_⟩)
    · have := (unfed hf).1
      simp [live] at this
    · have := (unfed hf).2
      simp [live] at this
  | some a =>
    have live : (g.attr? p).isSome := by simp [live]
    have old := x.slot_old ((isSome_direction?_iff g p).2 live)
    rw [heldType_congr (old.2.1 ho hi)]
    refine k.current p t ?_ ?_
    · cases stale : g.isStale p with
      | false => rfl
      | true =>
        rw [old.2.2 stale] at hs
        cases hs
    · rcases hb with hb | ⟨free, o, hf, hb⟩
      · exact .inl (lends live ho hi hb)
      · have hfg := ((x.feeds o p).1 hf).resolve_right fun he => hi he.2
        have output := hfg.output wf.wired
        refine .inr ⟨by rwa [← declared live], o, hfg, lends (hfg.isSome_attr? wf.wired).1 ?_ ?_ hb⟩
        · -- what the new wire's output feeds is out of date with it
          rintro rfl
          have stale : h.isStale e.output = true := by
            cases stale : h.isStale e.output with
            | true => rfl
            | false => exact absurd rfl (x.ne_ends d wf stale).1
          rw [c'.wire hf stale] at hs
          cases hs
        · rintro rfl
          rw [d.input] at output
          cases output

end Drawn

/-! ### All edits -/

/-- What the typing of values rests on. -/
structure Sorted (g : Graph) : Prop where
  standard : g.Standard
  closed : Closed false g
  typed : g.Typed

theorem sorted_create (config : Config) (ids : IdSupply) (marks : Nat) (calls : Table Nat Nat) :
    (create config ids marks calls).Sorted := by
  have w := (lawful_create config ids marks calls).wellFormed.wired
  have absent (p : Port) : (create config ids marks calls).attr? p = none := by
    simp [attr?, slot?_create]
  have dead {p : Port} : ¬ ((create config ids marks calls).attr? p).isSome := by simp [absent]
  refine ⟨standard_create .., closed_create .., ⟨⟨⟨?_, ?_, ?_⟩, ?_, ?_, ?_⟩, ?_⟩⟩
  · intro p a ha
    simp [absent] at ha
  · exact fun o i t u hf => absurd (hf.isSome_attr? w).1 dead
  · exact fun b t hb => absurd (isSome_attr?_of_peer? _ hb) dead
  · exact fun p t ht => absurd (isSome_attr?_of_declaredType ht) dead
  · exact fun o t ho => absurd (ho.isSome_attr? w) dead
  · intro t ht
    have := (terminal?_direction ht).2
    rw [isSome_direction?_iff] at this
    exact absurd this dead
  · exact fun p t _ hp => absurd (hp.isSome_attr? w) dead

/-- The types of new nodes are standard, and defaults and first values are of the declared types. -/
structure Fits (t : NodeType) (values : Datablock) : Prop where
  standard : t.Standard
  consistent : t.Consistent
  suits : values.Suits t

theorem Quiet.sorted (a : Quiet g h) (s : g.Sorted) : h.Sorted :=
  ⟨a.frame.standard s.standard, a.closed s.closed, a.typed s.typed⟩

theorem keptByEdits_sorted : KeptByEdits false Fits Sorted where
  toKeptByGrowth :=
    { quiet := fun _ _ a s => a.sorted s
      insert := fun g _ _ _ _ _ attachment w ht a s => by
        have x := inserted g attachment a
        exact ⟨x.standard a ht.standard w s.standard, x.closed a w s.closed,
          typed_insert attachment a w ht.standard ht.consistent ht.suits s.standard s.typed⟩
      draw := fun _ _ _ w d s => by
        obtain ⟨g₁, g₂, g₃, g₄, x⟩ := drawn d w.wellFormed
        exact ⟨x.standard d w.wellFormed s.standard, x.closed d w.wellFormed s.closed,
          x.typed d w s.standard s.closed s.typed⟩
      assign := fun g p v t w ok s =>
        ⟨(g.sameFrame_replace p t v).standard s.standard, closed_replace w ok s.closed,
          typed_replace w ok s.typed⟩
      arrange := fun g h n names w t ok s => by
        have standard := keptByEdits_standard.arrange g h n names w t ok s.standard
        have closed := (keptByEdits_closed false).arrange g h n names w t ok s.closed
        refine ⟨standard, closed, ?_⟩
        rcases arranged w names ok with rfl | ⟨-, old, new, g₁, r, rfl⟩
        · exact s.typed
        · exact (quiet_emit _ _).typed (r.typed w s.typed) }
  sever := fun _ _ _ w he s =>
    ⟨keptByCuts_standard.sever _ _ _ w he s.standard, closed_sever w he s.closed,
      typed_sever w s.standard he s.typed⟩
  drop := fun _ _ _ w hb hf hc ht s =>
    ⟨standard_dropPort w hb hf hc s.standard, closed_dropPort w hb hc s.closed,
      typed_dropPort w hb hc ht s.typed⟩
  remove := fun _ _ _ w b x s =>
    ⟨x.standard b w s.standard, x.closed b w s.closed, x.typed b w s.typed⟩
  start := sorted_create
  rename := fun _ _ _ _ w r x s =>
    ⟨x.standard w s.standard, x.closed s.closed, x.typed (x.wellFormed r w) s.typed⟩

end Dataflow.Graph
