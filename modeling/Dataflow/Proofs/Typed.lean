import Dataflow.Proofs.Typing
set_option autoImplicit false

/-!
Types that fit together. An output lends its type to the inputs it feeds: its own, or the one that
these inputs or its peer have. Main statements: where the types at wires fit and network ports have
types of their own, the type by which a port goes is the one it bears in this way, and the ends of a
wire go by the same type.
-/

namespace Dataflow.Graph

/-- The type of what a port holds. -/
def heldType (g : Graph) (p : Port) : PortType := (g.held p).portType

/-- The output `o` is of type `t`, by itself or by what it is joined to while it has a wire. -/
def Lends (g : Graph) (o : Port) (t : DataType) : Prop :=
  g.declaredType o = some t ∨ g.declaredType o = none ∧ ∃ i, g.Feeds o i ∧
    (g.declaredType i = some t ∨ ∃ b, g.peer? o = some b ∧ g.declaredType b = some t)

/-- The port `p` is of type `t`, or it is an input that takes this type from its source. -/
def Bears (g : Graph) (p : Port) (t : DataType) : Prop :=
  g.Lends p t ∨ g.declaredType p = none ∧ ∃ o, g.Feeds o p ∧ g.Lends o t

/-- Types fit where they meet. -/
structure Matching (g : Graph) : Prop where
  defaults : ∀ p a, g.attr? p = some a → a.default.portType = a.type
  fits : ∀ o i t u, g.Feeds o i → g.Lends o t → g.declaredType i = some u → t = u
  /-- The ports of networks have types of their own. -/
  boundary : ∀ b t, g.peer? b = some t → (g.contents? b.node).isSome → (g.declaredType b).isSome

/-- Moreover what ports hold suits their types, whether it is up to date or not. -/
structure Suited (g : Graph) : Prop extends Matching g where
  declared : ∀ p t, g.declaredType p = some t → g.heldType p = some t
  seeded : ∀ o t, g.Lends o t → (g.heldType o).isSome
  idle : ∀ t, g.terminal? t = some .input → (∀ i, ¬ g.Feeds t i) → g.heldType t = none

/-- Moreover what is up to date is of the type that the port bears. -/
structure Typed (g : Graph) : Prop extends Suited g where
  current : ∀ p t, g.isStale p = false → g.Bears p t → g.heldType p = some t

section Ends
variable {g : Graph}

theorem isSome_attr?_of_declaredType {p : Port} {t : DataType} (h : g.declaredType p = some t) :
    (g.attr? p).isSome := by
  rw [declaredType_eq] at h
  cases ha : g.attr? p with
  | none => simp [ha] at h
  | some a => rfl

theorem Feeds.isSome_attr? (w : g.Wired) {o i : Port} (h : g.Feeds o i) :
    (g.attr? o).isSome ∧ (g.attr? i).isSome := by
  have output := h.output w
  have input := h.input w
  rw [direction?_eq] at output input
  exact ⟨by simpa using congrArg Option.isSome output, by simpa using congrArg Option.isSome input⟩

/-- An output with a wire is no input that is fed. -/
theorem not_feeds_of_output (w : g.Wired) {o p : Port} (h : g.direction? p = some .output) :
    ¬ g.Feeds o p := by
  intro hf
  rw [hf.input w] at h
  cases h

theorem not_feeds_of_input (w : g.Wired) {p i : Port} (h : g.direction? p = some .input) :
    ¬ g.Feeds p i := by
  intro hf
  rw [hf.output w] at h
  cases h

/-- Without wires a port has only the type of its own. -/
theorem Bears.declared_of_bare {p : Port} {t : DataType} (h : g.Bears p t)
    (free : ∀ q, ¬ g.Feeds p q ∧ ¬ g.Feeds q p) : g.declaredType p = some t := by
  rcases h with (h | ⟨-, i, hf, -⟩) | ⟨-, o, hf, -⟩
  · exact h
  · exact absurd hf (free i).1
  · exact absurd hf (free o).2

variable (k : g.Matching)
include k

theorem Matching.lends_unique {o : Port} {t u : DataType} (ht : g.Lends o t) (hu : g.Lends o u) :
    t = u := by
  rcases hu with hu | ⟨free, i, hf, hi | ⟨b, hb, hu⟩⟩
  · rcases ht with ht | ⟨free, -⟩
    · rw [ht] at hu
      exact Option.some.inj hu
    · rw [free] at hu
      cases hu
  · exact k.fits o i t u hf ht hi
  · rcases ht with ht | ⟨-, j, hj, ht | ⟨c, hc, ht⟩⟩
    · rw [free] at ht
      cases ht
    · exact (k.fits o j u t hj (.inr ⟨free, i, hf, .inr ⟨b, hb, hu⟩⟩) ht).symm
    · rw [hb] at hc
      cases hc
      rw [ht] at hu
      exact Option.some.inj hu

/-- An input bears what its source lends. -/
theorem Matching.bears_input_iff (w : g.Wired) {o i : Port} (hf : g.Feeds o i) (t : DataType) :
    g.Bears i t ↔ g.Lends o t := by
  have input := hf.input w
  constructor
  · rintro ((hi | ⟨-, j, hj, -⟩) | ⟨-, o', hf', ho⟩)
    · cases own : g.declaredType o with
      | none => exact .inr ⟨own, i, hf, .inl hi⟩
      | some u =>
        obtain rfl := k.fits o i u t hf (.inl own) hi
        exact .inl own
    · exact absurd hj (not_feeds_of_input w input)
    · rwa [hf.unique w hf']
  · intro ho
    cases own : g.declaredType i with
    | none => exact .inr ⟨own, o, hf, ho⟩
    | some u =>
      obtain rfl := k.fits o i t u hf ho own
      exact .inl (.inl own)

omit k in
theorem bears_output_iff (w : g.Wired) {p : Port} (hd : g.direction? p = some .output)
    (t : DataType) : g.Bears p t ↔ g.Lends p t :=
  ⟨fun h => h.resolve_right fun ⟨_, _, hf, _⟩ => not_feeds_of_output w hd hf, .inl⟩

theorem Matching.bears_unique (w : g.Wired) {p : Port} {t u : DataType} (ht : g.Bears p t)
    (hu : g.Bears p u) : t = u := by
  rcases ht with ht | ⟨-, o, hf, ht⟩
  · rcases hu with hu | ⟨free, o, hf, hu⟩
    · exact k.lends_unique ht hu
    · rcases ht with ht | ⟨-, i, hi, -⟩
      · rw [free] at ht
        cases ht
      · exact absurd hi (not_feeds_of_input w (hf.input w))
  · exact k.lends_unique ht ((k.bears_input_iff w hf u).1 hu)

end Ends

/-! ### The type by which a port goes -/

section EffectiveType
variable {g : Graph}

/-- An output, what it feeds, and the peer that an output without a type has. -/
def Joined (g : Graph) (o p : Port) : Prop :=
  p = o ∨ g.Feeds o p ∨ g.declaredType o = none ∧ g.peer? o = some p

theorem mem_typeSources_iff (w : g.WellFormed) (p q : Port) :
    q ∈ g.typeSources p ↔ (g.attr? p).isSome ∧ g.declaredType p = none ∧
      (g.Feeds q p ∨ g.direction? p = some .output ∧ (g.peer? p = some q ∨ g.Feeds p q)) := by
  rw [typeSources_eq, declaredType_eq, direction?_eq]
  cases ha : g.attr? p with
  | none => simp
  | some a =>
    have hd : g.direction? p = some a.direction := by rw [direction?_eq, ha]; rfl
    cases ht : a.type with
    | some t => simp [ht]
    | none =>
      cases hdir : a.direction with
      | input => simp [ht, hdir, source?_eq_some_iff w.wired]
      | output =>
        rw [hdir] at hd
        simp [ht, hdir, mem_sinks_iff w.wired, not_feeds_of_output w.wired hd]

variable (k : g.Matching) (w : g.WellFormed)
include k w

/-- The peer of an output without a type is the port of a network. -/
theorem Matching.declared_peer {o b : Port} (hb : g.peer? o = some b)
    (free : g.declaredType o = none) : (g.declaredType b).isSome := by
  have back := w.linked.back o b hb
  rcases w.linked.faces o b hb with hf | hf
  · exact k.boundary b o back (hf.isSome_contents? w.tree)
  · have := k.boundary o b hb (hf.isSome_contents? w.tree)
    simp [free] at this

theorem Matching.joined_of_mem {o p q : Port} (ho : g.direction? o = some .output)
    (hp : g.Joined o p) (hq : q ∈ g.typeSources p) : g.Joined o q := by
  obtain ⟨-, free, hq⟩ := (mem_typeSources_iff w p q).1 hq
  rcases hp with rfl | hp | ⟨open_, hp⟩
  · rcases hq with hq | ⟨-, hq | hq⟩
    · exact absurd hq (not_feeds_of_output w.wired ho)
    · exact .inr (.inr ⟨free, hq⟩)
    · exact .inr (.inl hq)
  · rcases hq with hq | ⟨hd, -⟩
    · exact .inl (hq.unique w.wired hp)
    · rw [hp.input w.wired] at hd
      cases hd
  · have := k.declared_peer w hp open_
    simp [free] at this

theorem Matching.joined_of_along {o p q : Port} (ho : g.direction? o = some .output)
    (hp : g.Joined o p) (hq : Along g.typeSources p q) : g.Joined o q := by
  induction hq with
  | here => exact hp
  | step hb _ ih => exact ih (k.joined_of_mem w ho hp hb)

theorem Matching.lends_of_joined {o q : Port} {t : DataType} (fitted : ∀ t, g.Fitted t)
    (ho : g.direction? o = some .output) (hq : g.Joined o q) (ht : g.declaredType q = some t) :
    g.Lends o t := by
  rcases hq with rfl | hq | ⟨free, hq⟩
  · exact .inl ht
  · exact (k.bears_input_iff w.wired hq t).1 (.inl (.inl ht))
  · -- the output is a terminal with a peer, so it has a wire
    have inside : ¬ (g.contents? o.node).isSome := by
      intro hc
      have := k.boundary o q hq hc
      simp [free] at this
    have terminal : (g.terminal? o).isSome := by
      rcases w.linked.faces o q hq with hf | hf
      · exact hf.isSome_terminal?
      · exact absurd (hf.isSome_contents? w.tree) inside
    obtain ⟨i, hi | hi⟩ := (fitted o terminal).1 (by simp [hq])
    · exact .inr ⟨free, i, hi, .inr ⟨q, hq, ht⟩⟩
    · exact absurd hi (not_feeds_of_output w.wired ho)

theorem Matching.bears_of_along (fitted : ∀ t, g.Fitted t) {p q : Port} {t : DataType}
    (hq : Along g.typeSources p q) (ht : g.declaredType q = some t) : g.Bears p t := by
  cases hq with
  | here => exact .inl (.inl ht)
  | @step _ r _ hr hq =>
    obtain ⟨-, -, hs⟩ := (mem_typeSources_iff w p r).1 hr
    rcases hs with hs | ⟨hd, -⟩
    · have ho := hs.output w.wired
      have joined := k.joined_of_along w ho (.inl rfl) hq
      exact (k.bears_input_iff w.wired hs t).2 (k.lends_of_joined w fitted ho joined ht)
    · have joined := k.joined_of_along w hd (k.joined_of_mem w hd (.inl rfl) hr) hq
      exact .inl (k.lends_of_joined w fitted hd joined ht)

omit k in
/-- From a port that bears a type one gets to a port that has it. -/
theorem exists_along_of_bears {p : Port} {t : DataType} (h : g.Bears p t) :
    ∃ q, Along g.typeSources p q ∧ g.declaredType q = some t := by
  have lends {o : Port} (h : g.Lends o t) : ∃ q, Along g.typeSources o q ∧ g.declaredType q = some t := by
    rcases h with h | ⟨free, i, hf, h | ⟨b, hb, h⟩⟩
    · exact ⟨o, .here o, h⟩
    all_goals
      have known := (hf.isSome_attr? w.wired).1
      have output := hf.output w.wired
    · exact ⟨i, .step ((mem_typeSources_iff w o i).2 ⟨known, free, .inr ⟨output, .inr hf⟩⟩) (.here i), h⟩
    · exact ⟨b, .step ((mem_typeSources_iff w o b).2 ⟨known, free, .inr ⟨output, .inl hb⟩⟩) (.here b), h⟩
  rcases h with h | ⟨free, o, hf, h⟩
  · exact lends h
  · obtain ⟨q, hq, ht⟩ := lends h
    have known := (hf.isSome_attr? w.wired).2
    exact ⟨q, .step ((mem_typeSources_iff w p o).2 ⟨known, free, .inl hf⟩) hq, ht⟩

end EffectiveType

theorem isSome_direction?_iff (g : Graph) (p : Port) :
    (g.direction? p).isSome ↔ (g.attr? p).isSome := by rw [direction?_eq, Option.isSome_map]

/-- A port goes by the type that it bears. -/
theorem Matching.effectiveType_eq_some_iff {g : Graph} (k : g.Matching) (w : g.Lawful) (p : Port)
    (t : DataType) : g.effectiveType p = some t ↔ g.Bears p t := by
  have wf := w.wellFormed
  have found {u : DataType} (h : g.effectiveType p = some u) : g.Bears p u := by
    obtain ⟨q, hq, hu⟩ := List.exists_of_findSome?_eq_some h
    obtain ⟨a, ha, along⟩ := along_of_mem_walk _ _ _ _ hq
    rw [List.mem_singleton.1 ha] at along
    exact k.bears_of_along wf w.fitted along hu
  refine ⟨found, fun h => ?_⟩
  obtain ⟨q, along, hq⟩ := exists_along_of_bears wf h
  -- everything on the way is a port of the graph
  have known {r s : Port} (hs : s ∈ g.typeSources r) : s ∈ g.ports := by
    rw [mem_ports_iff wf.tree, isSome_direction?_iff]
    obtain ⟨-, -, hf | ⟨-, hp | hf⟩⟩ := (mem_typeSources_iff wf r s).1 hs
    · exact (hf.isSome_attr? wf.wired).1
    · exact isSome_attr?_of_peer? g (wf.linked.back _ _ hp)
    · exact (hf.isSome_attr? wf.wired).2
  have start : p ∈ g.ports := by
    rw [mem_ports_iff wf.tree, isSome_direction?_iff]
    cases along with
    | here => exact isSome_attr?_of_declaredType hq
    | step hr _ => exact ((mem_typeSources_iff wf _ _).1 hr).1
  have here := mem_walk_of_mem g.typeSources g.ports [p] p (by simp) start
  have reached := mem_walk_of_along g.typeSources g.ports [p] p q here along fun _ _ _ => known
  have some : (g.effectiveType p).isSome := by
    rw [effectiveType, List.findSome?_isSome_iff]
    exact ⟨q, reached, by simp [hq]⟩
  obtain ⟨u, hu⟩ := Option.isSome_iff_exists.1 some
  rw [hu, k.bears_unique wf.wired (found hu) h]

/-- Both ends of a wire go by one type. -/
theorem Matching.effectiveType_ends {g : Graph} (k : g.Matching) (w : g.Lawful) {o i : Port}
    (hf : g.Feeds o i) : g.effectiveType o = g.effectiveType i := by
  have wired := w.wellFormed.wired
  refine Option.ext fun t => ?_
  rw [k.effectiveType_eq_some_iff w, k.effectiveType_eq_some_iff w,
    k.bears_input_iff wired hf, bears_output_iff wired (hf.output wired)]

end Dataflow.Graph
