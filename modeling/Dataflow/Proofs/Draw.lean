import Dataflow.Proofs.Growth
import Dataflow.Proofs.Rewire
set_option autoImplicit false

/-!
Drawing a wire. Main statements: a wire that passes the check is drawn in steps that are known, a
lawful graph stays lawful, an acyclic one acyclic, and a wire is refused for a cycle just where it
would close one.
-/

namespace Dataflow.Graph

/-! ### What the check finds out -/

/-- What holds of a wire that passes the check. -/
structure Drawable (n : NodeId) (e : Edge) (g : Graph) : Prop where
  output : g.direction? e.output = some .output
  input : g.direction? e.input = some .input
  outputAround : g.around? e.output.node = some n
  inputAround : g.around? e.input.node = some n
  free : g.source? e.input = none
  acyclic : g.leadsTo e.input e.output = false
  types : checkTypes (g.effectiveType e.output) (g.effectiveType e.input) = .ok ()
  boundary : g.checkBoundary e = .ok ()

section Check
variable {g : Graph}

theorem expect_ok {d : Direction} {p : Port} (h : g.expect d p = .ok ()) :
    g.direction? p = some d := by
  simp only [expect, slot, node, slot?, direction?, bind, Except.bind, Option.bind] at *
  cases hn : g.node? p.node with
  | none => simp [hn] at h
  | some m =>
    simp only [hn] at h ⊢
    cases hs : m.ports.get? p.index with
    | none => simp [hs] at h
    | some s =>
      simp only [hs] at h
      split at h
      · next hd => simp [hd]
      · cases h

theorem expect_of_direction? {d : Direction} {p : Port} (h : g.direction? p = some d) :
    g.expect d p = .ok () := by
  simp only [expect, slot, node, slot?, direction?, bind, Except.bind, Option.bind] at *
  cases hn : g.node? p.node with
  | none => simp [hn] at h
  | some m =>
    simp only [hn] at h ⊢
    cases hs : m.ports.get? p.index with
    | none => simp [hs] at h
    | some s =>
      simp only [hs, Option.map_some, Option.some.injEq] at h
      simp [h]

theorem checkConnect_ok {e : Edge} (h : g.checkConnect e = .ok ()) : ∃ n, Drawable n e g := by
  simp only [checkConnect, bind, Except.bind, throw, throwThe, MonadExceptOf.throw] at h
  cases ho : g.expect .output e.output with
  | error x => simp [ho] at h
  | ok u =>
    cases hi : g.expect .input e.input with
    | error x => simp [ho, hi] at h
    | ok v =>
      simp only [ho, hi] at h
      split at h
      · cases h
      · next free =>
        split at h
        · cases h
        · next acyclic =>
          cases types : checkTypes (g.effectiveType e.output) (g.effectiveType e.input) with
          | error x => simp [types] at h
          | ok u =>
            simp only [types] at h
            split at h
            · cases h
            · next around =>
              simp only [Bool.or_eq_true, not_or, bne_iff_ne, ne_eq, Classical.not_not,
                Option.isNone_iff_eq_none] at around
              obtain ⟨n, hn⟩ := Option.ne_none_iff_exists'.1 around.1
              exact ⟨n, expect_ok ho, expect_ok hi, hn, around.2 ▸ hn, by simpa using free,
                by simpa using acyclic, types, h⟩

theorem node_error {n : NodeId} {x : Error} (h : g.node n = .error x) : x = .nodeNotFound n := by
  simp only [node] at h
  split at h
  · cases h
  · cases h
    rfl

theorem checkTypes_error {t u : PortType} {x : Error} (h : checkTypes t u = .error x) :
    ∃ a b, x = .typeMismatch a b := by
  simp only [checkTypes] at h
  split at h
  · cases h
    exact ⟨_, _, rfl⟩
  · split at h
    · cases h
    · cases h
      exact ⟨_, _, rfl⟩
  · cases h

theorem checkGrowth_error {side : Direction} {p : Port} {x : Error}
    (h : g.checkGrowth side p = .error x) :
    (∃ n, x = .nodeNotFound n) ∨ ∃ s, x = .duplicateName s := by
  simp only [checkGrowth, bind, Except.bind] at h
  split at h
  · cases hm : g.node p.node with
    | error y =>
      simp only [hm, Except.error.injEq] at h
      exact .inl ⟨_, h ▸ node_error hm⟩
    | ok m =>
      simp only [hm] at h
      split at h
      · next n _ =>
        cases hn : g.node n with
        | error y =>
          simp only [hn, Except.error.injEq] at h
          exact .inl ⟨_, h ▸ node_error hn⟩
        | ok k =>
          simp only [hn] at h
          split at h
          · cases h
            exact .inr ⟨_, rfl⟩
          · cases h
      · cases h
  · cases h

theorem checkBoundary_error {e : Edge} {x : Error} (h : g.checkBoundary e = .error x) :
    (∃ n, x = .nodeNotFound n) ∨ ∃ s, x = .duplicateName s := by
  simp only [checkBoundary, bind, Except.bind] at h
  cases hx : g.checkGrowth .input e.output with
  | error y =>
    simp only [hx, Except.error.injEq] at h
    exact checkGrowth_error (h ▸ hx)
  | ok u =>
    simp only [hx] at h
    exact checkGrowth_error h

/-- The flow is asked about before types, networks and names are compared, so no other error hides
a cycle. -/
theorem checkConnect_cycle_iff {e : Edge} (ho : g.direction? e.output = some .output)
    (hi : g.direction? e.input = some .input) (free : g.source? e.input = none) :
    g.checkConnect e = .error (.cyclicDependency e.output e.input) ↔
      g.leadsTo e.input e.output = true := by
  simp only [checkConnect, bind, Except.bind, throw, throwThe, MonadExceptOf.throw,
    expect_of_direction? ho, expect_of_direction? hi, free, Option.isSome_none,
    Bool.false_eq_true, if_false]
  constructor
  · intro h
    split at h
    · assumption
    · cases ht : checkTypes (g.effectiveType e.output) (g.effectiveType e.input) with
      | error x =>
        simp only [ht, Except.error.injEq] at h
        obtain ⟨a, b, hx⟩ := checkTypes_error ht
        rw [hx] at h
        cases h
      | ok u =>
        simp only [ht] at h
        split at h
        · cases h
        · rcases checkBoundary_error h with ⟨n, hx⟩ | ⟨s, hx⟩ <;> cases hx
  · intro h
    rw [if_pos h]

end Check

/-! ### Growth where a wire calls for it -/

/-- No port of `n` is named after the node `k`. -/
def Unnamed (g : Graph) (n k : NodeId) : Prop :=
  ∀ u m, g.type? n = some u → g.name? k = some m → m ∉ u.ports.entries.map Attribute.name

/-- The boundary of `n` has grown by a peer for `p` if it had to. -/
def Extended (side : Direction) (p : Port) (n : NodeId) (g h : Graph) : Prop :=
  g.grows side p = false ∧ h = g ∨
    ∃ i a, Growth side p ⟨n, i⟩ a g h ∧ Growth.Ready side p ⟨n, i⟩ a g

section Extend
variable {g h : Graph} {side : Direction} {p : Port} {n : NodeId}

theorem grows_iff : g.grows side p = true ↔ g.terminal? p = some side ∧ g.peer? p = none := by
  simp [grows]

theorem unnamed_of_checkGrowth (hc : g.checkGrowth side p = .ok ()) (hg : g.grows side p = true)
    (ha : g.around? p.node = some n) : g.Unnamed n p.node := by
  intro u m hu hm
  simp only [around?, type?, name?, Option.bind_eq_some_iff, Option.map_eq_some_iff] at ha hu hm
  obtain ⟨t, ht, hparent⟩ := ha
  obtain ⟨k, hk, rfl⟩ := hu
  obtain ⟨t', ht', rfl⟩ := hm
  obtain rfl : t = t' := Option.some.inj (ht.symm.trans ht')
  simp only [checkGrowth, hg, if_true, node, ht, hparent, hk, bind, Except.bind] at hc
  split at hc
  · cases hc
  · next free =>
    rw [← NodeType.indexOf?_eq_none_iff]
    simpa using free

theorem extended (w : g.WellFormed) (other : Port) (ha : g.around? p.node = some n)
    (hn : g.grows side p = true → g.Unnamed n p.node) :
    Extended side p n g (if g.grows side p then g.grow side p other else g) := by
  cases hg : g.grows side p with
  | false => exact .inl ⟨hg, rfl⟩
  | true =>
    obtain ⟨ht, free⟩ := grows_iff.1 hg
    have inside := isSome_contents?_of_around? w.tree ha
    have hne : p.node ≠ n := by
      rintro rfl
      have := contents?_of_terminal? w.tree (p := p) (by simp [ht])
      simp [this] at inside
    obtain ⟨a, i, c, -⟩ := g.growth_grow side p other n ha (isSome_type?_of_contents? inside) hne
    exact .inr ⟨i, a, c, ht, ha, free, fun u hu => hn hg u _ hu c.name⟩

theorem Extended.elim {P : Graph → Prop} (x : Extended side p n g h) (same : P g)
    (grown : ∀ i a, Growth side p ⟨n, i⟩ a g h → Growth.Ready side p ⟨n, i⟩ a g → P h) : P h := by
  rcases x with ⟨-, rfl⟩ | ⟨i, a, c, r⟩
  · exact same
  · exact grown i a c r

variable (x : Extended side p n g h)
include x

theorem Extended.tree : SameTree g h := x.elim (.refl g) fun _ _ c _ => c.tree

theorem Extended.contents : h.contents? = g.contents? :=
  x.elim (P := fun k => k.contents? = g.contents?) rfl fun _ _ c _ => c.contents

theorem Extended.feeds : h.Feeds = g.Feeds :=
  x.elim (P := fun k => k.Feeds = g.Feeds) rfl fun _ _ c _ => c.feeds

theorem Extended.connected : h.Connected = g.Connected :=
  x.elim (P := fun k => k.Connected = g.Connected) rfl fun _ _ c _ => c.connected

theorem Extended.free {q : Port} (hq : h.peer? q = none) : g.peer? q = none := by
  rcases x with ⟨-, rfl⟩ | ⟨i, a, c, r⟩
  · exact hq
  · cases hr : g.peer? q with
    | none => rfl
    | some k =>
      rw [(c.peer_eq_some_iff r q k).2 (.inl hr)] at hq
      cases hq

theorem Extended.wellFormed (w : g.WellFormed) : h.WellFormed :=
  x.elim w fun _ _ c r => c.wellFormed r w

theorem Extended.acyclic (w : g.WellFormed) (ha : g.Acyclic) : h.Acyclic :=
  x.elim ha fun _ _ c r => c.acyclic r w ha

theorem Extended.terminal (w : g.WellFormed) : h.terminal? = g.terminal? :=
  x.elim (P := fun k => k.terminal? = g.terminal?) rfl fun _ _ c r => c.terminal? r w

theorem Extended.fitted (w : g.WellFormed) {q : Port} (hq : q ≠ p) (hf : g.Fitted q) :
    h.Fitted q :=
  x.elim (P := fun k => k.Fitted q) hf fun _ _ c r => c.fitted r w hq hf

/-- With a wire a terminal gets a peer, unless it has one. -/
theorem Extended.fitted_terminal (hs : ∀ s, g.terminal? p = some s → s = side)
    (hc : g.Connected p) : h.Fitted p := by
  rcases x with ⟨hg, rfl⟩ | ⟨i, a, c, r⟩
  · intro ht
    obtain ⟨s, hs'⟩ := Option.isSome_iff_exists.1 ht
    obtain rfl := hs s hs'
    have hp : h.peer? p ≠ none := by
      intro hp
      have := grows_iff.2 ⟨hs', hp⟩
      rw [hg] at this
      cases this
    simpa [hc] using Option.isSome_iff_ne_none.2 hp
  · exact c.fitted_terminal r hc

end Extend

/-! ### The steps -/

/-- How a wire is drawn: the wire itself, what its ends hold, the boundary at either end, and news. -/
structure Drawn (n : NodeId) (e : Edge) (g g₁ g₂ g₃ g₄ h : Graph) : Prop where
  added : g₁ = g.modifyWiresAround e.input.node fun w => w.add e
  wire : Rewired n (·.add e) g g₁
  seeds : g₂ = g₁.seedEnds e
  atOutput : Extended .input e.output n g₂ g₃
  atInput : Extended .output e.input n g₃ g₄
  grown₃ : g₃ = if g₂.grows .input e.output then g₂.grow .input e.output e.input else g₂
  grown₄ : g₄ = if g₃.grows .output e.input then g₃.grow .output e.input e.output else g₃
  spread : h = ((g₄.spreadFrom e.input).spreadFrom e.output).emit (.connected e.output e.input)

section Draw
variable {g g₁ g₂ g₃ g₄ h : Graph} {n : NodeId} {e : Edge}

theorem Unnamed.of_sameFrame (a : SameFrame g h) {k : NodeId} (hu : g.Unnamed n k) :
    h.Unnamed n k := by
  simp only [Unnamed, a.type, a.name] at *
  exact hu

/-- The two terminals at the ends of a wire are different nodes, so they have different names. -/
theorem Unnamed.of_growth {t b p : Port} {a : Attribute} {side : Direction}
    (c : Growth side t b a g h) (w : g.WellFormed) (ht : g.around? t.node = some b.node)
    (hp : g.around? p.node = some b.node) (hne : t.node ≠ p.node)
    (hu : g.Unnamed b.node p.node) : h.Unnamed b.node p.node := by
  intro u m hum hm
  rw [c.type, if_pos rfl, Option.map_eq_some_iff] at hum
  obtain ⟨v, hv, rfl⟩ := hum
  rw [c.tree.name] at hm
  simp only [NodeType.declare, Layout.declare, List.map_append, List.map_cons, List.map_nil,
    List.mem_append, List.mem_singleton, not_or]
  refine ⟨hu v m hv hm, ?_⟩
  rintro rfl
  have same : g.name? t.node = g.name? p.node := by rw [c.name, hm]
  exact hne (w.tree.distinct b.node _ _ ((w.tree.child _ _).2 ht) ((w.tree.child _ _).2 hp) same)

theorem Drawable.rewired (d : Drawable n e g) (w : g.WellFormed) :
    Rewired n (·.add e) g (g.modifyWiresAround e.input.node fun w => w.add e) :=
  g.rewired_modifyWiresAround _ n _ d.inputAround (isSome_contents?_of_around? w.tree d.inputAround)

theorem Drawable.wellFormed (d : Drawable n e g) (w : g.WellFormed)
    (a : Rewired n (·.add e) g g₁) : g₁.WellFormed := by
  refine wellFormed_add a w d.output d.input d.outputAround d.inputAround fun o ho => ?_
  have := (source?_eq_some_iff w.wired o e.input).2 ho
  rw [d.free] at this
  cases this

theorem drawn (d : Drawable n e g) (w : g.WellFormed) :
    ∃ g₁ g₂ g₃ g₄, Drawn n e g g₁ g₂ g₃ g₄ (g.drawWire e) := by
  let g₁ := g.modifyWiresAround e.input.node fun w => w.add e
  let g₂ := g₁.seedEnds e
  let g₃ := if g₂.grows .input e.output then g₂.grow .input e.output e.input else g₂
  let g₄ := if g₃.grows .output e.input then g₃.grow .output e.input e.output else g₃
  have wire : Rewired n (·.add e) g g₁ := d.rewired w
  have w₁ : g₁.WellFormed := d.wellFormed w wire
  have frame : SameFrame g₁ g₂ := g₁.sameFrame_seedEnds e
  have w₂ : g₂.WellFormed := frame.wellFormed w₁
  have around₂ (k : NodeId) : g₂.around? k = g.around? k := by rw [frame.around, wire.tree.around]
  have unnamed₂ (k : NodeId) (hu : g.Unnamed n k) : g₂.Unnamed n k := by
    refine Unnamed.of_sameFrame frame ?_
    simp only [Unnamed, wire.type, wire.tree.name]
    exact hu
  have grows₂ (side : Direction) (p : Port) : g₂.grows side p = g.grows side p := by
    simp only [grows, frame.terminal, frame.peer, wire.terminal, wire.peer]
  have checks := d.boundary
  simp only [checkBoundary, bind, Except.bind] at checks
  split at checks
  · cases checks
  · next check₁ =>
    have atOutput : Extended .input e.output n g₂ g₃ := by
      refine extended w₂ e.input ((around₂ _).trans d.outputAround) fun hg => unnamed₂ _ ?_
      exact unnamed_of_checkGrowth check₁ (grows₂ _ _ ▸ hg) d.outputAround
    have atInput : Extended .output e.input n g₃ g₄ := by
      have around₃ : g₃.around? e.input.node = some n := by
        rw [atOutput.tree.around, around₂, d.inputAround]
      refine extended (atOutput.wellFormed w₂) e.output around₃ fun hg => ?_
      have grows : g.grows .output e.input = true := by
        rw [← grows₂, grows_iff]
        have ht := (grows_iff.1 hg).1
        have hp := (grows_iff.1 hg).2
        rw [atOutput.terminal w₂] at ht
        refine ⟨ht, ?_⟩
        exact atOutput.free hp
      have unnamed := unnamed_of_checkGrowth checks grows d.inputAround
      refine atOutput.elim (P := fun k => k.Unnamed n e.input.node) (unnamed₂ _ unnamed) ?_
      intro i a c r
      refine Unnamed.of_growth c w₂ r.around ((around₂ _).trans d.inputAround) ?_ (unnamed₂ _ unnamed)
      -- the type name of a node makes it an input or an output, not both
      intro same
      obtain ⟨t, ht, hk⟩ := terminal?_eq_some_iff.1 (grows_iff.1 grows).1
      obtain ⟨u, hu, hl⟩ := terminal?_eq_some_iff.1 r.terminal
      rw [frame.type, wire.type, same, ht] at hu
      obtain rfl := Option.some.inj hu
      rcases hk with ⟨h, -⟩ | ⟨-, -, hk⟩
      · cases h
      · rcases hl with ⟨-, -, hl⟩ | ⟨h, -⟩
        · rw [hl] at hk
          exact absurd hk (by decide)
        · cases h
    exact ⟨g₁, g₂, g₃, g₄, rfl, wire, rfl, atOutput, atInput, rfl, rfl, rfl⟩

variable (x : Drawn n e g g₁ g₂ g₃ g₄ h) (d : Drawable n e g)
include x

theorem Drawn.frame₂ : SameFrame g₁ g₂ := by
  rw [x.seeds]
  exact g₁.sameFrame_seedEnds e

theorem Drawn.frame₄ : SameFrame g₄ h := by
  rw [x.spread]
  exact ((g₄.sameFrame_spread _).trans (sameFrame_spread _ _)).trans (sameFrame_emit _ _)

theorem Drawn.feeds (o i : Port) : h.Feeds o i ↔ g.Feeds o i ∨ o = e.output ∧ i = e.input := by
  rw [x.frame₄.feeds, x.atInput.feeds, x.atOutput.feeds, x.frame₂.feeds, feeds_add x.wire]

theorem Drawn.tree : SameTree g h :=
  ((((x.wire.tree.trans (.of_sameFrame x.frame₂)).trans x.atOutput.tree).trans
    x.atInput.tree).trans (.of_sameFrame x.frame₄))

include d
variable (w : g.WellFormed)
include w

theorem Drawn.wellFormed₂ : g₂.WellFormed := x.frame₂.wellFormed (d.wellFormed w x.wire)

theorem Drawn.wellFormed₃ : g₃.WellFormed := x.atOutput.wellFormed (x.wellFormed₂ d w)

theorem Drawn.wellFormed₄ : g₄.WellFormed := x.atInput.wellFormed (x.wellFormed₃ d w)

theorem Drawn.wellFormed : h.WellFormed := x.frame₄.wellFormed (x.wellFormed₄ d w)

theorem Drawn.acyclic₂ (ha : g.Acyclic) : g₂.Acyclic := by
  refine x.frame₂.acyclic (ha.of_step e.output e.input (fun p q hf => ?_) ?_)
  · simp only [Flows, x.wire.influences, feeds_add x.wire, x.wire.direction, x.wire.peer] at hf
    rcases hf with hf | (hf | hf) | hf
    · exact .inl (.inl hf)
    · exact .inl (.inr (.inl hf))
    · exact .inr hf
    · exact .inl (.inr (.inr hf))
  · rw [← along_iff w, ← leadsTo_iff w _ _ (by simp [d.input]), d.acyclic]
    simp

theorem Drawn.acyclic (ha : g.Acyclic) : h.Acyclic :=
  x.frame₄.acyclic (x.atInput.acyclic (x.wellFormed₃ d w)
    (x.atOutput.acyclic (x.wellFormed₂ d w) (x.acyclic₂ d w ha)))

theorem Drawn.fitted (hf : ∀ t, g.Fitted t) (t : Port) : h.Fitted t := by
  have dir₂ (p : Port) : g₂.direction? p = g.direction? p := by
    rw [x.frame₂.direction, x.wire.direction]
  have side {p : Port} {dir : Direction} (hp : g.direction? p = some dir) {s : Direction}
      (hs : g₂.terminal? p = some s) : s ≠ dir := by
    rintro rfl
    exact (terminal?_direction hs).1 ((dir₂ p).trans hp)
  have connected₂ (p : Port) : g₂.Connected p ↔ g.Connected p ∨ p = e.output ∨ p = e.input := by
    simp only [Connected, x.frame₂.feeds, feeds_add x.wire]
    constructor
    · rintro ⟨q, (h | ⟨h, -⟩) | (h | ⟨-, h⟩)⟩
      · exact .inl ⟨q, .inl h⟩
      · exact .inr (.inl h)
      · exact .inl ⟨q, .inr h⟩
      · exact .inr (.inr h)
    · rintro (⟨q, h | h⟩ | rfl | rfl)
      · exact ⟨q, .inl (.inl h)⟩
      · exact ⟨q, .inr (.inl h)⟩
      · exact ⟨e.input, .inl (.inr ⟨rfl, rfl⟩)⟩
      · exact ⟨e.output, .inr (.inr ⟨rfl, rfl⟩)⟩
  have ne : e.input ≠ e.output := by
    intro h
    have := d.output
    rw [← h, d.input] at this
    cases this
  rw [x.frame₄.fitted]
  by_cases hi : t = e.input
  · subst hi
    refine x.atInput.fitted_terminal (fun s hs => ?_) ?_
    · rw [x.atOutput.terminal (x.wellFormed₂ d w)] at hs
      have := side d.input hs
      cases s <;> simp_all
    · rw [x.atOutput.connected, connected₂]
      exact .inr (.inr rfl)
  · refine x.atInput.fitted (x.wellFormed₃ d w) hi ?_
    by_cases ho : t = e.output
    · subst ho
      refine x.atOutput.fitted_terminal (fun s hs => ?_) ?_
      · have := side d.output hs
        cases s <;> simp_all
      · rw [connected₂]
        exact .inr (.inl rfl)
    · refine x.atOutput.fitted (x.wellFormed₂ d w) ho ?_
      intro ht
      rw [x.frame₂.terminal, x.wire.terminal] at ht
      rw [connected₂, x.frame₂.peer, x.wire.peer]
      simpa [ho, hi] using hf t ht

end Draw
end Dataflow.Graph
