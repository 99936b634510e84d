import Dataflow.Proofs.Tended
set_option autoImplicit false

/-!
Inputs without wires. Main statements: where nothing goes, such an input is up to date, and one that
has no type of its own holds nothing, whatever is added and whatever is stored elsewhere.
-/

namespace Dataflow.Graph
variable {g h : Graph}

/-- Inputs are out of date only while they have wires. -/
def Awake (g : Graph) : Prop :=
  ∀ p, g.direction? p = some .input → g.isStale p = true → ∃ o, g.Feeds o p

/-- An input without a type of its own holds nothing while it has no wire. -/
def Blank (g : Graph) : Prop :=
  ∀ p, g.direction? p = some .input → g.declaredType p = none → (∀ o, ¬ g.Feeds o p) →
    g.heldType p = none

/-! ### Values -/

/-- Only inputs with wires are marked on the way. -/
theorem Awake.spread (k : g.Awake) (w : g.WellFormed) {starts : List Port}
    (fed : ∀ p ∈ starts, g.direction? p = some .input → ∃ o, g.Feeds o p) : (g.spread starts).Awake := by
  intro p input stale
  have frame := g.sameFrame_spread starts
  rw [frame.direction] at input
  rw [frame.feeds]
  rcases (isStale_spread_iff w.tree starts p).1 stale with stale | reached
  · exact k p input stale
  · obtain ⟨s, hs, along⟩ := along_of_mem_walk _ _ _ _ reached
    rw [along_iff w] at along
    rcases along.cases_tail with rfl | ⟨q, -, last⟩
    · exact fed p hs input
    · rcases last with last | last | ⟨hq, last⟩
      · rw [last.output w] at input
        cases input
      · exact ⟨q, last⟩
      · rw [peer_direction w last hq] at input
        cases input

theorem Stored.awake {p : Port} (a : Stored p g h) (k : g.Awake) : h.Awake := by
  rw [Awake, a.frame.direction, a.isStale, a.frame.feeds]
  exact k

theorem Quiet.awake (a : Quiet g h) (k : g.Awake) : h.Awake :=
  (Stored.of_quiet (p := ⟨g.root, 0⟩) a).awake k

theorem awake_replace {p : Port} {s : Slot} {v : Value} (w : g.WellFormed)
    (ok : g.checkAssign p v = .ok s) (k : g.Awake) : (g.replace p s v).Awake := by
  have input := (free_of_checkAssign ok).1
  have held := (Stored.hold g p v).awake k
  have frame := g.sameFrame_hold p v
  have first : SameFrame g (if s.stale then (g.hold p v).setCurrent p else g.hold p v) ∧
      Awake (if s.stale then (g.hold p v).setCurrent p else g.hold p v) := by
    split
    · refine ⟨frame.trans (sameFrame_setCurrent _ p), fun q hq stale => ?_⟩
      rw [(sameFrame_setCurrent _ p).direction] at hq
      rw [isStale_setCurrent] at stale
      split at stale
      · cases stale
      · rw [(sameFrame_setCurrent _ p).feeds]
        exact held q hq stale
    · exact ⟨frame, held⟩
  have w₁ := first.1.wellFormed w
  rw [replace_eq]
  refine first.2.spread w₁ fun q hq input' => ?_
  rcases (mem_successors_iff w₁ p q).1 hq with hq | hq | ⟨hp, hq⟩
  · rw [hq.output w₁] at input'
    cases input'
  · exact ⟨p, hq⟩
  · rw [peer_direction w₁ hq hp] at input'
    cases input'

theorem SameFrame.blank (a : SameFrame g h) (held : ∀ p, g.direction? p = some .input →
    g.declaredType p = none → (∀ o, ¬ g.Feeds o p) → h.heldType p = g.heldType p)
    (k : g.Blank) : h.Blank := by
  intro p input free unfed
  rw [a.direction] at input
  rw [a.declaredType] at free
  rw [a.feeds] at unfed
  rw [held p input free unfed]
  exact k p input free unfed

theorem Quiet.blank (a : Quiet g h) (k : g.Blank) : h.Blank :=
  a.frame.blank (fun p _ _ _ => by rw [heldType, a.held]; rfl) k

/-- A value is stored only where the port has a type of its own. -/
theorem blank_replace {p : Port} {s : Slot} {v : Value} (w : g.WellFormed)
    (ok : g.checkAssign p v = .ok s) (k : g.Blank) : (g.replace p s v).Blank := by
  refine (g.sameFrame_replace p s v).blank (fun q input free unfed => ?_) k
  by_cases hq : q = p
  · subst hq
    have type := declaredType_of_checkAssign w ok
    rw [heldType_eq_value, value_replace (by rw [input]; rfl), k q input free unfed]
    rw [free] at type
    cases v with
    | null => rfl
    | data x m => cases type
  · rw [heldType, held_replace hq]
    rfl

/-! ### A new node -/

section Inserted
variable {id parent : NodeId} {t : NodeType} {name : String} {values : Datablock}
  (x : Inserted id parent t name values g h) (a : Insertable id parent t name values g)
include x

theorem Inserted.declaredType_old {p : Port} (hp : p.node ≠ id) :
    h.declaredType p = g.declaredType p := by
  rw [declaredType, x.slot p hp]
  rfl

include a

theorem Inserted.awake (k : g.Awake) : h.Awake := by
  intro p input stale
  rw [x.feeds a]
  by_cases hp : p.node = id
  · obtain ⟨s, hs, hd⟩ := Option.map_eq_some_iff.1 input
    obtain ⟨v, hv, -⟩ := x.new p s hp hs
    rw [isStale, hs, hv] at stale
    simp [newSlot, hd] at stale
  · rw [direction?, x.slot p hp] at input
    rw [isStale, x.slot p hp] at stale
    exact k p input stale

theorem Inserted.blank (suits : values.Suits t) (k : g.Blank) : h.Blank := by
  intro p input free unfed
  rw [x.feeds a] at unfed
  by_cases hp : p.node = id
  · rw [x.heldType_new suits hp, free]
  · rw [direction?, x.slot p hp] at input
    rw [x.declaredType_old hp] at free
    rw [heldType, held, x.slot p hp]
    exact k p input free unfed

end Inserted

/-! ### New places -/

section Renumbered
variable {n : NodeId} {old new : Nat → Nat} (a : Renumbered n old new g h)
include a

theorem Renumbered.declaredType (p : Port) : h.declaredType p = g.declaredType (p.moved n old) := by
  rw [declaredType_eq, a.attr, declaredType_eq]

theorem Renumbered.awake (k : g.Awake) : h.Awake := by
  intro p input stale
  have there : (p.moved n old).moved n new = p := by
    refine a.live p ?_
    rw [isSome_slot?, ← isSome_direction?_iff, input]
    rfl
  rw [a.direction] at input
  rw [a.isStale] at stale
  obtain ⟨o, ho⟩ := k _ input stale
  exact ⟨_, (a.feeds_iff _ _).2 ⟨o, _, ho, rfl, there.symm⟩⟩

theorem Renumbered.blank (k : g.Blank) : h.Blank := by
  intro p input free unfed
  have there : (p.moved n old).moved n new = p := by
    refine a.live p ?_
    rw [isSome_slot?, ← isSome_direction?_iff, input]
    rfl
  rw [a.direction] at input
  rw [a.declaredType] at free
  rw [heldType, a.held]
  refine k _ input free fun o ho => unfed (o.moved n new) ?_
  exact (a.feeds_iff _ _).2 ⟨o, _, ho, rfl, there.symm⟩

end Renumbered

/-! ### A new wire -/

theorem Growth.awake {side : Direction} {t b : Port} {a : Attribute} (c : Growth side t b a g h)
    (k : g.Awake) : h.Awake := by
  intro p input stale
  rw [c.feeds]
  rw [c.direction?_eq] at input
  rw [c.isStale] at stale
  by_cases hp : p = b
  · rw [if_pos hp, Option.some.injEq] at input
    rw [if_pos hp, input] at stale
    cases stale
  · rw [if_neg hp] at input stale
    exact k p input stale

theorem Extended.awake {side : Direction} {p : Port} {n : NodeId} (x : Extended side p n g h)
    (k : g.Awake) : h.Awake := x.elim (P := Awake) k fun _ _ c _ => c.awake k

section Drawn
variable {g₁ g₂ g₃ g₄ : Graph} {n : NodeId} {e : Edge} (x : Drawn n e g g₁ g₂ g₃ g₄ h)
include x

theorem Drawn.held₂ {p : Port} (live : (g.direction? p).isSome) : h.held p = g₂.held p := by
  have live₂ : (g₂.direction? p).isSome := by rwa [x.frame₂.direction, x.wire.direction]
  have live₃ : (g₃.direction? p).isSome := by
    obtain ⟨d, hd⟩ := Option.isSome_iff_exists.1 live₂
    rw [x.atOutput.direction_old hd]
    rfl
  rw [x.spread, (quiet_emit _ _).held, spreadFrom, held_spread, spreadFrom, held_spread,
    (x.atInput.slot_old live₃).2.1, (x.atOutput.slot_old live₂).2.1]

/-- A port that is not at an end of the wire keeps its value. -/
theorem Drawn.value_off {p : Port} (live : (g.direction? p).isSome) (ho : p ≠ e.output)
    (hi : p ≠ e.input) : h.value p = g.value p := by
  rw [value, x.held₂ live, x.seeds, held_seedEnds ho hi, x.wire.held]
  rfl

/-- The ports of networks have types of their own, so a port without one was there before. -/
theorem Drawn.live_of_free (d : Drawable n e g) (w : g.Lawful) (k : g.Sorted) {p : Port}
    (live : (h.attr? p).isSome) (free : h.declaredType p = none) : (g.attr? p).isSome := by
  have wf := w.wellFormed
  by_cases hn : p.node = n
  · have inside := isSome_contents?_of_around? wf.tree d.inputAround
    have network : (h.contents? p.node).isSome := by rwa [x.tree.network, hn]
    have standard := x.standard d wf k.standard
    obtain ⟨b, hb⟩ := Option.isSome_iff_exists.1 (standard.projected p network live)
    have := (x.suited d w k.standard k.typed.toSuited).boundary p b hb network
    simp [free] at this
  · have same : h.attr? p = g.attr? p := by rw [attr?_eq, x.type_old hn, attr?_eq]
    rwa [same] at live

theorem Drawn.awake (d : Drawable n e g) (w : g.WellFormed) (k : g.Awake) : h.Awake := by
  have w₄ := x.wellFormed₄ d w
  have k₂ : g₂.Awake := by
    intro p input stale
    rw [x.frame₂.direction, x.wire.direction] at input
    rw [x.seeds, isStale_seedEnds, x.wire.isStale] at stale
    obtain ⟨o, ho⟩ := k p input stale
    exact ⟨o, (x.feeds₂ o p).2 (.inl ho)⟩
  have k₄ : g₄.Awake := x.atInput.awake (x.atOutput.awake k₂)
  have fed : g₄.Feeds e.output e.input := by
    rw [x.atInput.feeds, x.atOutput.feeds]
    exact (x.feeds₂ _ _).2 (.inr ⟨rfl, rfl⟩)
  have frame := g₄.sameFrame_spread [e.input]
  rw [x.spread]
  refine (quiet_emit _ _).awake ?_
  refine (k₄.spread w₄ fun p hp _ => ?_).spread (frame.wellFormed w₄) fun p hp input => ?_
  · rw [List.mem_singleton.1 hp]
    exact ⟨_, fed⟩
  · rw [List.mem_singleton.1 hp] at input
    change (g₄.spread [e.input]).direction? e.output = some .input at input
    rw [frame.direction, fed.output w₄.wired] at input
    cases input

theorem Drawn.blank (d : Drawable n e g) (w : g.Lawful) (s : g.Sorted) (k : g.Blank) : h.Blank := by
  intro p input free unfed
  have live := x.live_of_free d w s ((isSome_direction?_iff h p).1 (by rw [input]; rfl)) free
  have direct := (isSome_direction?_iff g p).2 live
  have attr := (x.slot_old direct).1
  rw [direction?_eq, attr, ← direction?_eq] at input
  rw [declaredType_eq, attr, ← declaredType_eq] at free
  have ho : p ≠ e.output := by
    rintro rfl
    rw [d.output] at input
    cases input
  have hi : p ≠ e.input := by
    rintro rfl
    exact unfed e.output ((x.feeds _ _).2 (.inr ⟨rfl, rfl⟩))
  rw [heldType_eq_value, x.value_off direct ho hi, ← heldType_eq_value]
  exact k p input free fun o hf => unfed o ((x.feeds o p).2 (.inl hf))

end Drawn
end Dataflow.Graph
