import Dataflow.Proofs.Primed
set_option autoImplicit false

/-!
What ports start with, before anything is stored at them from outside. A default is where it begins.
From there it goes with the first wires and through boundaries, to the ports that have no types of their
own and to those of networks. Main statements: a port starts with one thing at most, a graph that grows
keeps what its ports start with, and where a new wire changes what a port holds, it puts there what the
port then starts with.
-/

namespace Dataflow.Graph
variable {g h : Graph}

/-- The port starts with that: by its own default, by that of what it is first wired to, or by what
its terminal starts with. -/
inductive Starts (g : Graph) : Port → Payload → Prop where
  | own {p : Port} {a : Attribute} {x : Payload} (leaf : g.contents? p.node = none)
    (attr : g.attr? p = some a) (default : a.default.payload? = some x) : Starts g p x
  | input {o p : Port} {x : Payload} (free : g.declaredType p = none) (fed : g.Feeds o p)
    (source : Starts g o x) : Starts g p x
  | output {o i : Port} {x : Payload} (free : g.declaredType o = none)
    (first : (g.sinks o).head? = some i) (sink : Starts g i x) : Starts g o x
  | boundary {b t : Port} {x : Payload} (inside : (g.contents? b.node).isSome)
    (peer : g.peer? b = some t) (terminal : Starts g t x) : Starts g b x

theorem isSome_attr?_of_value {p : Port} {y : Payload} (hy : g.value p = some y) :
    (g.attr? p).isSome := by
  cases ha : g.attr? p with
  | none =>
    rw [value_eq_none ha] at hy
    cases hy
  | some a => rfl

theorem feeds_of_head? (w : g.Wired) {o i : Port} (h : (g.sinks o).head? = some i) : g.Feeds o i :=
  (mem_sinks_iff w o i).1 (List.mem_of_mem_head? h)

/-- A port without a type of its own has no default. -/
theorem Matching.default_of_free (k : g.Matching) {p : Port} {a : Attribute} (ha : g.attr? p = some a)
    (free : g.declaredType p = none) : a.default.payload? = none := by
  have type := k.defaults p a ha
  rw [declaredType_eq, ha, Option.bind_some] at free
  rw [free] at type
  cases hv : a.default with
  | null => rfl
  | data x m => simp [hv, Value.portType] at type

/-- A port starts with one thing at most. -/
theorem Matching.starts_unique (k : g.Matching) (w : g.Wired) {p : Port} {x y : Payload}
    (hx : g.Starts p x) (hy : g.Starts p y) : x = y := by
  have boundary {b t : Port} (inside : (g.contents? b.node).isSome) (hb : g.peer? b = some t) :
      g.declaredType b ≠ none := fun free => by
    have := k.boundary b t hb inside
    simp [free] at this
  have default {p : Port} {a : Attribute} {x : Payload} (ha : g.attr? p = some a)
      (hx : a.default.payload? = some x) : g.declaredType p ≠ none := fun free => by
    rw [k.default_of_free ha free] at hx
    cases hx
  induction hx with
  | own leaf ha hx =>
    cases hy with
    | own _ hb hy =>
      rw [ha, Option.some.injEq] at hb
      rw [← hb, hx, Option.some.injEq] at hy
      exact hy
    | input free => exact absurd free (default ha hx)
    | output free => exact absurd free (default ha hx)
    | boundary inside => simp [leaf] at inside
  | input free fed _ ih =>
    cases hy with
    | own _ hb hy => exact absurd free (default hb hy)
    | input _ fed' hy =>
      rw [fed'.unique w fed] at hy
      exact ih hy
    | output _ first =>
      exact absurd (feeds_of_head? w first) (not_feeds_of_input w (fed.input w))
    | boundary inside peer => exact absurd free (boundary inside peer)
  | output free first _ ih =>
    cases hy with
    | own _ hb hy => exact absurd free (default hb hy)
    | input _ fed =>
      exact absurd (feeds_of_head? w first) (not_feeds_of_input w (fed.input w))
    | output _ first' hy =>
      rw [first, Option.some.injEq] at first'
      exact ih (first' ▸ hy)
    | boundary inside peer => exact absurd free (boundary inside peer)
  | boundary inside peer _ ih =>
    cases hy with
    | own leaf => simp [leaf] at inside
    | input free => exact absurd free (boundary inside peer)
    | output free => exact absurd free (boundary inside peer)
    | boundary _ peer' hy =>
      rw [peer, Option.some.injEq] at peer'
      exact ih (peer' ▸ hy)

/-- What a typed port of a node that is no network starts with is its own default. -/
theorem Starts.default {p : Port} {x : Payload} (s : g.Starts p x) (leaf : g.contents? p.node = none)
    (typed : (g.declaredType p).isSome) : ∃ a, g.attr? p = some a ∧ a.default.payload? = some x := by
  cases s with
  | own _ ha hx => exact ⟨_, ha, hx⟩
  | input free => simp [free] at typed
  | output free => simp [free] at typed
  | boundary inside => simp [leaf] at inside

/-- All begins with a default. -/
theorem Starts.exists_default {p : Port} {x : Payload} (s : g.Starts p x) :
    ∃ q a, g.attr? q = some a ∧ a.default.payload? = some x := by
  induction s with
  | own _ ha hx => exact ⟨_, _, ha, hx⟩
  | input _ _ _ ih => exact ih
  | output _ _ _ ih => exact ih
  | boundary _ _ _ ih => exact ih

/-! ### Graphs in one another -/

/-- The ports in `D` are found in `h`, by `f`, with all that tells what they start with. -/
structure Planted (D : Port → Prop) (f : Port → Port) (g h : Graph) : Prop where
  leaf : ∀ p a, D p → g.contents? p.node = none → g.attr? p = some a →
    h.contents? (f p).node = none ∧ h.attr? (f p) = some a
  network : ∀ p, D p → (g.contents? p.node).isSome → (h.contents? (f p).node).isSome
  free : ∀ p, D p → (g.attr? p).isSome → g.declaredType p = none → h.declaredType (f p) = none
  source : ∀ o p, D p → g.Feeds o p → D o ∧ h.Feeds (f o) (f p)
  first : ∀ o i, D o → (g.sinks o).head? = some i → D i ∧ (h.sinks (f o)).head? = some (f i)
  peer : ∀ b t, D b → (g.contents? b.node).isSome → g.peer? b = some t →
    D t ∧ h.peer? (f b) = some (f t)

theorem Planted.starts {D : Port → Prop} {f : Port → Port} (a : Planted D f g h) (w : g.Wired)
    {p : Port} {x : Payload} (s : g.Starts p x) (hp : D p) : h.Starts (f p) x := by
  induction s with
  | own leaf ha hx =>
    obtain ⟨leaf', ha'⟩ := a.leaf _ _ hp leaf ha
    exact .own leaf' ha' hx
  | input free fed _ ih =>
    obtain ⟨ho, fed'⟩ := a.source _ _ hp fed
    exact .input (a.free _ hp (fed.isSome_attr? w).2 free) fed' (ih ho)
  | output free first _ ih =>
    obtain ⟨hi, first'⟩ := a.first _ _ hp first
    exact .output (a.free _ hp ((feeds_of_head? w first).isSome_attr? w).1 free) first' (ih hi)
  | boundary inside peer _ ih =>
    obtain ⟨ht, peer'⟩ := a.peer _ _ hp inside peer
    exact .boundary (a.network _ hp inside) peer' (ih ht)

theorem SameFrame.starts (a : SameFrame g h) {p : Port} {x : Payload} (s : g.Starts p x) :
    h.Starts p x := by
  induction s with
  | own leaf attr default => exact .own (by rwa [a.contents]) (by rwa [a.attr]) default
  | input free fed _ ih => exact .input (by rwa [a.declaredType]) (by rwa [a.feeds]) ih
  | output free first _ ih => exact .output (by rwa [a.declaredType]) (by rwa [a.sinks]) ih
  | boundary inside peer _ ih => exact .boundary (by rwa [a.contents]) (by rwa [a.peer]) ih

section Inserted
variable {id parent : NodeId} {t : NodeType} {name : String} {values : Datablock}
  (x : Inserted id parent t name values g h) (a : Insertable id parent t name values g)
include x

theorem Inserted.network_old {m : NodeId} (hm : m ≠ id) :
    (h.contents? m).isSome = (g.contents? m).isSome := by
  rw [x.contents, if_neg hm]
  split
  · rw [Option.isSome_map]
  · rfl

include a

theorem Inserted.planted (w : g.WellFormed) : Planted (fun p => p.node ≠ id) (fun p => p) g h := by
  have attr {p : Port} (hp : p.node ≠ id) : h.attr? p = g.attr? p := by
    rw [attr?, x.slot p hp]
    rfl
  have old {p : Port} (hp : (g.attr? p).isSome) : p.node ≠ id :=
    a.node_ne ((isSome_direction?_iff g p).2 hp)
  refine ⟨fun p b hp leaf ha => ⟨?_, by rwa [attr hp]⟩, fun p hp inside => by rwa [x.network_old hp],
    fun p hp _ free => by rwa [x.declaredType_old hp], fun o p _ fed => ?_,
    fun o i hp first => ?_, fun b t hb _ peer => ?_⟩
  · rw [← Option.not_isSome_iff_eq_none, x.network_old hp, leaf]
    simp
  · exact ⟨old (fed.isSome_attr? w.wired).1, by rwa [x.feeds a]⟩
  · have fed := feeds_of_head? w.wired first
    refine ⟨old (fed.isSome_attr? w.wired).2, ?_⟩
    rwa [Graph.sinks, wiresAround_eq, x.around, if_neg hp, x.wires a, ← wiresAround_eq]
  · exact ⟨old (isSome_attr?_of_peer? g (w.linked.back _ _ peer)), by rwa [x.peer a]⟩

/-- The ports of a new node hold what they start with. -/
theorem Inserted.starts_new (same : values = .ofType t) (s : h.Standard) {p : Port} {y : Payload}
    (hp : p.node = id) (hy : h.value p = some y) : h.Starts p y := by
  subst same
  cases hs : h.slot? p with
  | none => simp [value, held, hs, Value.payload?] at hy
  | some slot =>
    have attr : h.attr? p = some slot.attr := by simp [attr?, hs]
    have leaf : h.contents? p.node = none := by
      -- the ports of networks have peers, and the new ports have none
      by_contra inside
      have peer := s.projected p (Option.isSome_iff_ne_none.2 inside) (by rw [attr]; rfl)
      rw [x.peer a, Option.isSome_iff_exists] at peer
      obtain ⟨q, hq⟩ := peer
      exact a.node_ne ((isSome_direction?_iff g p).2 (isSome_attr?_of_peer? g hq)) hp
    obtain ⟨v, hv, like⟩ := x.new p slot hp hs
    refine .own leaf attr ?_
    rw [attr?_eq, x.type, if_pos hp, Option.bind_some] at attr
    have default : (Datablock.ofType t)[p.index]? = some slot.attr.default := by
      rw [Datablock.ofType, List.getElem?_map]
      exact congrArg (Option.map Attribute.default) attr
    rw [default, Option.map_some, Option.some.injEq] at like
    rw [like, ← hy, value, held, hs, hv]
    rfl

end Inserted

theorem Renumbered.sinks {n : NodeId} {old new : Nat → Nat} (a : Renumbered n old new g h)
    (w : g.WellFormed) {o i : Port} (fed : g.Feeds o i) :
    h.sinks (o.moved n new) = (g.sinks o).map (Port.moved n new) := by
  obtain ⟨m, hm⟩ := fed
  have around := w.wired.outputAround m _ hm
  rw [Graph.sinks, Graph.sinks, node_moved, wiresAround_of_around? (a.tree.around ▸ around),
    wiresAround_of_around? around, a.wires, Wiring.sinks, Wiring.sinks, List.filter_map,
    List.map_map, List.map_map]
  refine congrArg (List.map _) (List.filter_congr fun e he => ?_)
  simp only [Function.comp_apply, Edge.mapPorts, beq_eq_beq]
  refine ⟨fun same => ?_, fun same => by rw [same]⟩
  rw [← a.kept_output ⟨m, hm⟩, ← same, a.kept_output ⟨m, he⟩]

theorem Renumbered.planted {n : NodeId} {old new : Nat → Nat} (a : Renumbered n old new g h)
    (w : g.WellFormed) :
    Planted (fun p => (p.moved n new).moved n old = p) (Port.moved n new) g h := by
  have network (p : Port) :
      (h.contents? (p.moved n new).node).isSome = (g.contents? p.node).isSome := by
    rw [node_moved, a.tree.network]
  have attr {p : Port} (hp : (p.moved n new).moved n old = p) :
      h.attr? (p.moved n new) = g.attr? p := by rw [a.attr, hp]
  refine ⟨fun p b hp leaf ha => ⟨?_, by rwa [attr hp]⟩, fun p _ inside => by rwa [network],
    fun p hp _ free => by rwa [declaredType_eq, attr hp, ← declaredType_eq], fun o p _ fed => ?_,
    fun o i hp first => ?_, fun b t hb _ peer => ?_⟩
  · rw [← Option.not_isSome_iff_eq_none, network, leaf]
    simp
  · exact ⟨a.kept_output fed, (a.feeds_iff _ _).2 ⟨o, p, fed, rfl, rfl⟩⟩
  · refine ⟨a.kept_input (feeds_of_head? w.wired first), ?_⟩
    rw [a.sinks w (feeds_of_head? w.wired first), List.head?_map, first]
    rfl
  · have back := w.linked.back _ _ peer
    exact ⟨a.kept t (.inl (by rw [back]; rfl)), by rw [a.peer, hb, peer]; rfl⟩

/-! ### A new wire -/

/-- The ends of a wire that hold something of their own, or none that could be taken over, are not
seeded. -/
theorem value_seedEnds {e : Edge} {p : Port} {y : Payload} (ho : (g.direction? e.output).isSome)
    (hi : (g.direction? e.input).isSome) (hy : (g.seedEnds e).value p = some y) :
    g.value p = some y ∨
    p = e.input ∧ g.declaredType p = none ∧ g.value e.output = some y ∨
    p = e.output ∧ g.declaredType p = none ∧ g.value p = none ∧ g.value e.input = some y := by
  have null {v : Value} (hv : v.isNull = true) : v.payload? = none := by
    cases v with
    | null => rfl
    | data x m => cases hv
  have first (q : Port) {f : Graph} (hf : f = if (g.declaredType e.input).isNone then
      g.hold e.input (g.held e.output) else g) : f.value q =
        if g.declaredType e.input = none ∧ e.input = q then g.value e.output else g.value q := by
    subst hf
    split
    · next free =>
      rw [value_hold _ _ _ _ hi]
      simp only [Option.isNone_iff_eq_none.1 free, true_and]
      rfl
    · next typed =>
      rw [if_neg fun h => typed (Option.isNone_iff_eq_none.2 h.1)]
  generalize hf : (if (g.declaredType e.input).isNone then g.hold e.input (g.held e.output) else g) = f
    at first
  have eq : g.seedEnds e = if (g.declaredType e.output).isNone && (f.held e.output).isNull then
      f.hold e.output (f.held e.input) else f := by
    rw [← hf]
    rfl
  have frame : SameFrame g f := by
    rw [← hf]
    split
    · exact g.sameFrame_hold _ _
    · exact .refl g
  have afterFirst (hy : f.value p = some y) : g.value p = some y ∨
      p = e.input ∧ g.declaredType p = none ∧ g.value e.output = some y := by
    rw [first p rfl] at hy
    split at hy
    · next own => exact .inr ⟨own.2.symm, own.2 ▸ own.1, hy⟩
    · exact .inl hy
  rw [eq] at hy
  split at hy
  · next open_ =>
    rw [Bool.and_eq_true, Option.isNone_iff_eq_none] at open_
    have none₁ : f.value e.output = none := null open_.2
    rw [value_hold _ _ _ _ (by rwa [frame.direction])] at hy
    split at hy
    · next own =>
      subst own
      change f.value e.input = some y at hy
      rw [first _ rfl] at hy none₁
      split at hy
      · next free =>
        split at none₁
        · rw [none₁] at hy
          cases hy
        · rw [none₁] at hy
          cases hy
      · next typed =>
        split at none₁
        · next own => exact absurd ⟨own.1, rfl⟩ typed
        · exact .inr (.inr ⟨rfl, open_.1, none₁, hy⟩)
    · exact (afterFirst hy).imp_right .inl
  · exact (afterFirst hy).imp_right .inl

section Drawn
variable {g₁ g₂ g₃ g₄ : Graph} {n : NodeId} {e : Edge} (x : Drawn n e g g₁ g₂ g₃ g₄ h)
include x

theorem Drawn.sinks (d : Drawable n e g) (o : Port) :
    h.sinks o = if e.output = o then g.sinks o ++ [e.input] else g.sinks o := by
  rw [Graph.sinks, Graph.sinks, wiresAround_eq, wiresAround_eq, x.tree.around]
  cases ho : g.around? o.node with
  | none =>
    rw [if_neg]
    · rfl
    · rintro rfl
      rw [d.outputAround] at ho
      cases ho
  | some m =>
    simp only [Option.elim_some, x.wires]
    by_cases hm : m = n
    · rw [if_pos hm, Wiring.sinks_add]
    · rw [if_neg hm, if_neg]
      rintro rfl
      rw [d.outputAround, Option.some.injEq] at ho
      exact hm ho.symm

theorem Drawn.planted (d : Drawable n e g) (w : g.WellFormed) :
    Planted (fun p => (g.attr? p).isSome) (fun p => p) g h := by
  have attr {p : Port} (live : (g.attr? p).isSome) : h.attr? p = g.attr? p :=
    (x.slot_old ((isSome_direction?_iff g p).2 live)).1
  refine ⟨fun p b live leaf ha => ⟨?_, by rwa [attr live]⟩, fun p _ inside => by rwa [x.tree.network],
    fun p live _ free => by rwa [declaredType_eq, attr live, ← declaredType_eq], fun o p _ fed => ?_,
    fun o i _ first => ?_, fun b t _ _ peer => ?_⟩
  · rw [← Option.not_isSome_iff_eq_none, x.tree.network, leaf]
    simp
  · exact ⟨(fed.isSome_attr? w.wired).1, (x.feeds o p).2 (.inl fed)⟩
  · refine ⟨((feeds_of_head? w.wired first).isSome_attr? w.wired).2, ?_⟩
    rw [x.sinks d]
    split
    · rw [List.head?_append, first]
      rfl
    · exact first
  · exact ⟨isSome_attr?_of_peer? g (w.linked.back _ _ peer), x.peer_kept peer⟩

/-- A port holds what it held, or it has taken over what an end of the wire held and now starts with
what that end starts with. -/
theorem Drawn.value_cases (d : Drawable n e g) (w : LawfulWith Neat g) {p : Port} {y : Payload}
    (hy : h.value p = some y) :
    (g.attr? p).isSome ∧ g.value p = some y ∨
    ∃ q, (q = e.output ∨ q = e.input) ∧ g.value q = some y ∧ ∀ z, h.Starts q z → h.Starts p z := by
  have wf := w.lawful.wellFormed
  have standard := w.holds.standard
  have suited := w.holds.typed.toSuited
  have attr {q : Port} (live : (g.attr? q).isSome) : h.attr? q = g.attr? q :=
    (x.slot_old ((isSome_direction?_iff g q).2 live)).1
  have free {q : Port} (live : (g.attr? q).isSome) (hq : g.declaredType q = none) :
      h.declaredType q = none := by rwa [declaredType_eq, attr live, ← declaredType_eq]
  have live {q : Port} {dir : Direction} (hq : g.direction? q = some dir) : (g.attr? q).isSome := by
    rw [← isSome_direction?_iff, hq]
    rfl
  have fed : h.Feeds e.output e.input := (x.feeds _ _).2 (.inr ⟨rfl, rfl⟩)
  -- after the ends have been seeded
  have seeded {q : Port} (hq : g₂.value q = some y) : g.value q = some y ∨
      ∃ q', (q' = e.output ∨ q' = e.input) ∧ g.value q' = some y ∧
        ∀ z, h.Starts q' z → h.Starts q z := by
    rw [x.seeds] at hq
    have at₁ {q : Port} : g₁.value q = g.value q := by
      rw [value, x.wire.held]
      rfl
    have type₁ {q : Port} : g₁.declaredType q = g.declaredType q := by
      rw [declaredType_eq, x.wire.attr, ← declaredType_eq]
    rcases value_seedEnds (by rw [x.wire.direction, d.output]; rfl)
      (by rw [x.wire.direction, d.input]; rfl) hq with old | ⟨rfl, open_, old⟩ | ⟨rfl, open_, bare, old⟩
    · exact .inl (at₁ ▸ old)
    · rw [type₁] at open_
      exact .inr ⟨e.output, .inl rfl, at₁ ▸ old, fun z => .input (free (live d.input) open_) fed⟩
    · rw [type₁] at open_
      rw [at₁] at bare
      refine .inr ⟨e.input, .inr rfl, at₁ ▸ old, fun z => .output (free (live d.output) open_) ?_⟩
      -- the output has no other wire
      have none : g.heldType e.output = none := by rw [heldType_eq_value, bare]; rfl
      have unwired : g.sinks e.output = [] := by
        rcases w.holds.primed e.output d.output open_ with ⟨t, -, held⟩ | ⟨bare, -⟩
        · rw [none] at held
          cases held
        · exact List.eq_nil_iff_forall_not_mem.2 fun i hi => bare i ((mem_sinks_iff wf.wired _ _).1 hi)
      rw [x.sinks d, if_pos rfl, unwired]
      rfl
  -- a new network port
  have through {q t : Port} (ends : t = e.output ∨ t = e.input) (hq : q.node = n)
      (peer : h.peer? q = some t) (ht : g₂.value t = some y) :
      ∃ q', (q' = e.output ∨ q' = e.input) ∧ g.value q' = some y ∧
        ∀ z, h.Starts q' z → h.Starts q z := by
    have inside : (h.contents? q.node).isSome := by
      rw [hq, x.tree.network]
      exact isSome_contents?_of_around? wf.tree d.outputAround
    rcases seeded ht with old | ⟨q', ends', old, starts⟩
    · exact ⟨t, ends, old, fun z => .boundary inside peer⟩
    · exact ⟨q', ends', old, fun z hz => .boundary inside peer (starts z hz)⟩
  by_cases old : (g.direction? p).isSome
  · rw [value, x.held₂ old] at hy
    exact (seeded hy).imp_left fun same => ⟨(isSome_direction?_iff g p).1 old, same⟩
  · refine .inr ?_
    have last : h.value p = g₄.value p := by
      rw [value, x.spread, (quiet_emit _ _).held, spreadFrom, held_spread, spreadFrom, held_spread]
      rfl
    have dead : g₂.attr? p = none := by
      rw [x.attr₂, ← Option.not_isSome_iff_eq_none, ← isSome_direction?_iff]
      exact old
    have input₃ : g₃.value e.input = g₂.value e.input := by
      rw [value, (x.atOutput.slot_old (q := e.input) ?_).2.1]
      · rfl
      · rw [direction?_eq, x.attr₂, ← direction?_eq, d.input]
        rfl
    have at₃ (h₃ : g₃.value p = some y) : p.node = n ∧ g₃.peer? p = some e.output ∧
        g₂.value e.output = some y := by
      rcases x.grown_output d w.lawful standard suited with same | ⟨i, a, u, c, ready, -, -, value⟩
      · rw [same, value_eq_none dead] at h₃
        cases h₃
      · rw [Graph.value, c.held] at h₃
        split at h₃
        · next new =>
          subst new
          exact ⟨rfl, by rw [c.peer ready, if_pos rfl], value ▸ h₃⟩
        · have := value_eq_none dead
          rw [Graph.value] at this
          rw [this] at h₃
          cases h₃
    rw [last] at hy
    rcases x.grown_input d w.lawful standard suited with same | ⟨i, a, t, c, ready, -, -, value⟩
    · rw [same] at hy
      obtain ⟨hn, peer, held⟩ := at₃ hy
      exact through (.inl rfl) hn (by rw [x.frame₄.peer, same]; exact peer) held
    · by_cases new : p = ⟨n, i⟩
      · subst new
        rw [Graph.value, c.held, if_pos rfl, value, input₃] at hy
        exact through (.inr rfl) rfl (by rw [x.frame₄.peer, c.peer ready, if_pos rfl]) hy
      · rw [Graph.value, c.held, if_neg new] at hy
        obtain ⟨hn, peer, held⟩ := at₃ hy
        refine through (.inl rfl) hn ?_ held
        rw [x.frame₄.peer]
        exact (c.peer_eq_some_iff ready _ _).2 (.inl peer)

end Drawn

/-! ### What is carried on -/

/-- What a port of `h` holds is what it starts with, or it was held in `g` by a port of the same
network or of the network `n`. What that port started with the port of `h` starts with. -/
def Carries (n : NodeId) (g h : Graph) : Prop :=
  ∀ p y, h.value p = some y → h.Starts p y ∨ ∃ q, g.value q = some y ∧
    (g.around? q.node = h.around? p.node ∨ g.around? q.node = some n) ∧
    ∀ x, g.Starts q x → h.Starts p x

section Carries
variable {n : NodeId}

theorem Inserted.carries {id : NodeId} {t : NodeType} {name : String}
    (x : Inserted id n t name (.ofType t) g h) (a : Insertable id n t name (.ofType t) g)
    (w : g.WellFormed) (s : h.Standard) : Carries n g h := by
  intro p y hy
  by_cases hp : p.node = id
  · exact .inl (x.starts_new a rfl s hp hy)
  · refine .inr ⟨p, ?_, .inl (by rw [x.around, if_neg hp]), fun z hz =>
      (x.planted a w).starts w.wired hz hp⟩
    rw [← hy, value, value, held, held, x.slot p hp]

theorem Drawn.carries {g₁ g₂ g₃ g₄ : Graph} {e : Edge} (x : Drawn n e g g₁ g₂ g₃ g₄ h)
    (d : Drawable n e g) (w : LawfulWith Neat g) : Carries n g h := by
  intro p y hy
  have wf := w.lawful.wellFormed
  have grows := x.planted d wf
  rcases x.value_cases d w hy with ⟨live, old⟩ | ⟨q, ends, old, starts⟩
  · exact .inr ⟨p, old, .inl (by rw [x.tree.around]), fun z hz => grows.starts wf.wired hz live⟩
  · refine .inr ⟨q, old, .inr ?_, fun z hz =>
      starts z (grows.starts wf.wired hz (isSome_attr?_of_value old))⟩
    rcases ends with rfl | rfl
    · exact d.outputAround
    · exact d.inputAround

theorem Renumbered.carries {old new : Nat → Nat} (a : Renumbered n old new g h) (w : g.WellFormed) :
    Carries n g h := by
  intro p y hy
  have back : (p.moved n old).moved n new = p := by
    refine a.live p ?_
    rw [isSome_slot?]
    exact isSome_attr?_of_value hy
  refine .inr ⟨p.moved n old, ?_, .inl (by rw [a.tree.around, node_moved]), fun z hz => ?_⟩
  · rw [← hy, value, value, a.held]
  · have := (a.planted w).starts w.wired hz (by rw [back])
    rwa [back] at this

end Carries

theorem Carries.refl (n : NodeId) (g : Graph) : Carries n g g :=
  fun p _ hy => .inr ⟨p, hy, .inl rfl, fun _ hz => hz⟩

theorem Carries.quiet {n : NodeId} {k : Graph} (c : Carries n g k) (a : Quiet k h) : Carries n g h := by
  intro p y hy
  rw [a.value] at hy
  rw [a.frame.around]
  refine (c p y hy).imp a.frame.starts ?_
  rintro ⟨q, hq, around, starts⟩
  exact ⟨q, hq, around, fun z hz => a.frame.starts (starts z hz)⟩

/-- Nothing has been stored from outside at nodes that stand in no network but those of `stack`. -/
def Unset (stack : List NodeId) (g : Graph) : Prop :=
  ∀ p y, (∀ m, g.around? p.node = some m → m ∈ stack) → g.value p = some y → g.Starts p y

section Unset
variable {n : NodeId} {stack : List NodeId}

theorem Unset.carry (u : Unset stack g) (c : Carries n g h) (hn : n ∈ stack) : Unset stack h := by
  intro p y hp hy
  rcases c p y hy with starts | ⟨q, hq, around, starts⟩
  · exact starts
  · refine starts y (u q y (fun m hm => ?_) hq)
    rcases around with around | around <;> rw [around] at hm
    · exact hp m hm
    · exact Option.some.inj hm ▸ hn

/-- Ports in the networks of `stack` hold what they held. -/
theorem Unset.same (u : Unset stack g) (a : SameFrame g h)
    (held : ∀ p, (∀ m, g.around? p.node = some m → m ∈ stack) → h.value p = g.value p) :
    Unset stack h := by
  intro p y hp hy
  rw [a.around] at hp
  rw [held p hp] at hy
  exact a.starts (u p y hp hy)

theorem Unset.pop (u : Unset (n :: stack) g) : Unset stack g :=
  fun p y hp => u p y fun m hm => List.mem_cons_of_mem _ (hp m hm)

/-- There is nothing in a new node. -/
theorem Unset.insert {c : NodeId} {t : NodeType} {name : String}
    (x : Inserted c n t name (.ofType t) g h) (a : Insertable c n t name (.ofType t) g)
    (w : g.WellFormed) (s : h.Standard) (u : Unset stack g) : Unset (c :: stack) h := by
  intro p y hp hy
  by_cases hc : p.node = c
  · exact x.starts_new a rfl s hc hy
  · rw [x.around, if_neg hc] at hp
    refine (x.planted a w).starts w.wired (u p y (fun m hm => ?_) ?_) hc
    · refine (List.mem_cons.1 (hp m hm)).resolve_left ?_
      rintro rfl
      exact a.around?_ne w.tree p.node hm
    · rwa [value, held, x.slot p hc] at hy

end Unset
end Dataflow.Graph
