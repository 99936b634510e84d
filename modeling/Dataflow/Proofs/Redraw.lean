import Dataflow.Proofs.Draft
import Dataflow.Proofs.Fair
set_option autoImplicit false

/-!
Drawing the wires of a graph anew, in a copy. Main statement: where every output without a type of its
own feeds first of all an input that has one, each wire passes the check once those before it are there,
and network ports come with the types that they have in the model.
-/

namespace Dataflow.Graph
variable {g k h : Graph} {r n : NodeId} {stack : List NodeId}

/-- An output without a type of its own has its first wire to an input that has one. -/
def Leading (g : Graph) : Prop :=
  ∀ o i, g.declaredType o = none → (g.sinks o).head? = some i → (g.declaredType i).isSome

/-- A graph of which a copy can be built. -/
structure Buildable (g : Graph) : Prop extends Suited g where
  lawful : g.Lawful
  standard : g.Standard
  acyclic : g.Acyclic
  mirrored : g.Mirrored

/-- A terminal with a wire has a peer, and that has a type of its own. -/
theorem Buildable.peered (b : g.Buildable) {p : Port} {side : Direction}
    (ht : g.terminal? p = some side) (connected : g.Connected p) :
    ∃ c u, g.peer? p = some c ∧ g.direction? c = some side ∧ g.declaredType c = some u := by
  have w := b.lawful.wellFormed
  obtain ⟨c, hc⟩ := Option.isSome_iff_exists.1 ((b.lawful.fitted p (by rw [ht]; rfl)).2 connected)
  have faces := faces_of_terminal? w hc (by rw [ht]; rfl)
  obtain ⟨u, hu⟩ := Option.isSome_iff_exists.1
    (b.boundary c p (w.linked.back _ _ hc) (faces.isSome_contents? w.tree))
  obtain ⟨side', ht', hd, -⟩ := faces
  rw [ht, Option.some.injEq] at ht'
  exact ⟨c, u, hc, by rw [hd, ht'], hu⟩

theorem Nest.child_not_mem (a : Nest k (n :: stack)) (w : k.Tree) {c : NodeId}
    (hc : k.around? c = some n) : c ∉ n :: stack := fun hm => a.not_mem w (a.up w hm hc)

section Types
variable (b : g.Buildable) (s : Sketch g r stack k)
include s

/-- Wires are only between finished nodes. -/
theorem Sketch.fed {o i : Port} (hf : k.Feeds o i) : ∃ m, k.around? o.node = some m ∧
    k.around? i.node = some m ∧ o.node ∉ stack ∧ i.node ∉ stack := by
  obtain ⟨m, hm⟩ := hf
  have ho := s.wellFormed.wired.outputAround m _ hm
  have hi := s.wellFormed.wired.inputAround m _ hm
  have done {c : NodeId} (hc : k.around? c = some m) : c ∉ stack := by
    intro hs
    rw [s.waiting m (s.nest.up s.tree hs hc)] at hm
    cases hm
  exact ⟨m, ho, hi, done ho, done hi⟩

include b

/-- A finished node of the copy has all that tells what its ports start with. -/
theorem Sketch.planted :
    Planted (fun p => (∃ m, k.around? p.node = some m) ∧ p.node ∉ stack) (fun p => p) k g where
  leaf := fun p a ⟨⟨m, hm⟩, _⟩ leaf ha => by
    refine ⟨?_, by rw [attr?_eq, ← (s.twin _ _ hm).leaf leaf, ← attr?_eq, ha]⟩
    rw [← Option.not_isSome_iff_eq_none, ← s.origin_child hm,
      ← s.isSome_contents? b.lawful (isSome_type?_of_around? hm), leaf]
    simp
  network := fun p ⟨⟨m, hm⟩, _⟩ inside => by
    have := (s.isSome_contents? b.lawful (isSome_type?_of_around? hm)).1 inside
    rwa [s.origin_child hm] at this
  free := fun p ⟨⟨m, hm⟩, done⟩ _ free => by rw [← s.declaredType b.lawful b.standard hm done, free]
  source := fun o p _ hf => by
    obtain ⟨m, ho, -, done, -⟩ := s.fed hf
    exact ⟨⟨⟨m, ho⟩, done⟩, s.feeds hf⟩
  first := fun o i _ first => by
    obtain ⟨m, ho, hi, -, done⟩ := s.fed (feeds_of_head? s.wellFormed.wired first)
    refine ⟨⟨⟨m, hi⟩, done⟩, ?_⟩
    obtain ⟨rest, more⟩ := s.drawn m
    rw [Graph.sinks, wiresAround_of_around? ho] at first
    rw [Graph.sinks, wiresAround_of_around? (s.placed _ _ ho), ← more, Wiring.sinks,
      List.filter_append, List.map_append, List.head?_append]
    change ((k.wires m).sinks o).head?.or _ = _
    rw [first]
    rfl
  peer := fun c t ⟨⟨m, hm⟩, done⟩ inside peer => by
    have there := (s.peer_there b.lawful inside done peer).1
    rw [s.originPort_child hm] at there
    obtain ⟨-, -, -, around, -⟩ := s.faces b.lawful inside peer
    exact ⟨⟨⟨_, around⟩, fun ht => done (List.mem_of_mem_tail (s.nest.up s.tree ht around))⟩, there⟩

/-- What is lent in the copy is lent in the model. -/
theorem Sketch.lends {o : Port} {t : DataType} {m : NodeId} (ho : k.around? o.node = some m)
    (done : o.node ∉ stack) (lent : k.Lends o t) : g.Lends o t := by
  have w := b.lawful
  have declared := s.declaredType w b.standard ho done
  rw [Lends, declared] at lent
  refine lent.imp id ?_
  rintro ⟨free, i, hf, lent⟩
  obtain ⟨m', -, hi, -, done'⟩ := s.fed hf
  refine ⟨free, i, s.feeds hf, lent.imp (fun own => ?_) ?_⟩
  · rwa [← s.declaredType w b.standard hi done']
  · rintro ⟨p, hp, own⟩
    have back := s.wellFormed.linked.back _ _ hp
    have inside : (k.contents? p.node).isSome := by
      rcases s.wellFormed.linked.faces _ _ back with f | f
      · have typed := s.neat.holds.typed.boundary o p hp (f.isSome_contents? s.tree)
        simp [declared, free] at typed
      · exact f.isSome_contents? s.tree
    obtain ⟨c, hc, type, -⟩ := s.boundary p o inside back
    exact ⟨c, hc, type ▸ own⟩

end Types

/-! ### The check -/

section Wire
variable (b : g.Buildable) (s : Sketch g r (n :: stack) k) (inside : (k.contents? n).isSome)
  (children : k.children n = g.children (g.origin r n)) {e : Edge} {rest : Wiring}
  (next : g.wires (g.origin r n) = k.wires n ++ e :: rest)
include b s children next

omit b s children in
theorem feeds_next : g.Feeds e.output e.input := ⟨_, by rw [next]; simp⟩

theorem Sketch.around_next :
    k.around? e.output.node = some n ∧ k.around? e.input.node = some n := by
  have there : e ∈ g.wires (g.origin r n) := by rw [next]; simp
  have wired := b.lawful.wellFormed.wired
  have tree := b.lawful.wellFormed.tree
  constructor <;> rw [← s.tree.child, children, tree.child]
  · exact wired.outputAround _ e there
  · exact wired.inputAround _ e there

theorem Sketch.unfed_next (o : Port) : ¬ k.Feeds o e.input := by
  rintro ⟨m, hm⟩
  have around := s.wellFormed.wired.inputAround m _ hm
  rw [(s.around_next b children next).2, Option.some.injEq] at around
  subst around
  have single := b.lawful.wellFormed.wired.single (g.origin r n)
  rw [next, List.map_append, List.map_cons] at single
  exact (List.nodup_append.1 single).2.2 _ (List.mem_map_of_mem hm) _ List.mem_cons_self rfl

/-- The first wire of an output without a type of its own gives it one. -/
theorem Sketch.typed_next (leading : g.Leading) (free : g.declaredType e.input = none) :
    ∃ t, k.Lends e.output t := by
  obtain ⟨ho, -⟩ := s.around_next b children next
  have done := s.nest.child_not_mem s.tree ho
  have declared := s.declaredType b.lawful b.standard ho done
  cases own : k.declaredType e.output with
  | some t => exact ⟨t, .inl own⟩
  | none =>
    have around : g.around? e.output.node = some (g.origin r n) := s.placed _ _ ho
    have sinks : g.sinks e.output =
        (k.wires n).sinks e.output ++ Wiring.sinks (e :: rest) e.output := by
      rw [Graph.sinks, wiresAround_of_around? around, next, Wiring.sinks, Wiring.sinks,
        Wiring.sinks, List.filter_append, List.map_append]
    cases first : (k.wires n).sinks e.output with
    | nil =>
      have := leading e.output e.input (by rw [← declared, own]) (by
        rw [sinks, first, Wiring.sinks]
        simp)
      simp [free] at this
    | cons i l =>
      have fed : k.Feeds e.output i := ⟨n, (Wiring.mem_sinks _ _ _).1 (by rw [first]; simp)⟩
      obtain ⟨m, -, hi, -, done'⟩ := s.fed fed
      have typed := leading e.output i (by rw [← declared, own]) (by rw [sinks, first]; rfl)
      obtain ⟨t, ht⟩ := Option.isSome_iff_exists.1 typed
      refine ⟨t, .inr ⟨own, i, fed, .inl ?_⟩⟩
      rw [s.declaredType b.lawful b.standard hi done', ht]

include inside

/-- The next wire of the model passes the check in the copy. -/
theorem Sketch.drawable (leading : g.Leading) : Drawable n e k := by
  obtain ⟨ho, hi⟩ := s.around_next b children next
  have w := b.lawful
  have fed := feeds_next next
  have doneOut := s.nest.child_not_mem s.tree ho
  have doneIn := s.nest.child_not_mem s.tree hi
  have output : k.direction? e.output = some .output := by
    rw [s.direction w b.standard ho doneOut]
    exact fed.output w.wellFormed.wired
  have input : k.direction? e.input = some .input := by
    rw [s.direction w b.standard hi doneIn]
    exact fed.input w.wellFormed.wired
  have unfed := s.unfed_next b children next
  have typed := s.neat.holds.typed
  have lawful := s.neat.lawful
  refine ⟨output, input, ho, hi, ?free, ?acyclic, ?types, ?boundary⟩
  case free =>
    cases hs : k.source? e.input with
    | none => rfl
    | some o => exact absurd ((source?_eq_some_iff s.wellFormed.wired o _).1 hs) (unfed o)
  case acyclic =>
    cases cycle : k.leadsTo e.input e.output with
    | false => rfl
    | true =>
      rw [leadsTo_iff s.wellFormed _ _ (by rw [input]; rfl), along_iff s.wellFormed] at cycle
      have root : r ∈ n :: stack := s.root ▸ s.nest.root_mem
      have networks (m : NodeId) (hm : m ∈ n :: stack) : (k.contents? m).isSome := by
        rcases List.mem_cons.1 hm with rfl | hm
        · exact inside
        · exact s.nest.isSome_contents? s.tree hm
      have path := s.reaches w b.standard root networks doneIn doneOut cycle
      exact absurd (Relation.TransGen.tail' path (.inr (.inl fed))) (b.acyclic e.input)
  case types =>
    rw [typed.effectiveType_unfed lawful input unfed, s.declaredType w b.standard hi doneIn]
    have lent {t : DataType} (ht : k.effectiveType e.output = some t) : g.Lends e.output t := by
      rw [typed.effectiveType_eq_some_iff lawful, bears_output_iff s.wellFormed.wired output] at ht
      exact s.lends b ho doneOut ht
    cases hu : g.declaredType e.input with
    | none =>
      obtain ⟨t, ht⟩ := s.typed_next b children next leading hu
      rw [(typed.effectiveType_eq_some_iff lawful _ t).2 (.inl ht)]
      rfl
    | some u =>
      cases ht : k.effectiveType e.output with
      | none => rfl
      | some t => simp [checkTypes, b.fits _ _ t u fed (lent ht) hu]
  case boundary =>
    rw [checkBoundary, checkGrowth_of_standard lawful s.standard]
    exact checkGrowth_of_standard lawful s.standard _ _

end Wire

/-! ### What comes with a wire -/

/-- The ports of `n` that `k` has are those of the model, though in another order. -/
def Bordered (g : Graph) (n : NodeId) (k : Graph) : Prop :=
  ∀ p t, p.node = n → k.peer? p = some t → ∃ c, g.peer? t = some c ∧ k.declaredType p = g.declaredType c

theorem SameFrame.bordered (a : SameFrame k h) (s : Bordered g n k) : Bordered g n h := by
  rw [Bordered, a.peer, a.declaredType]
  exact s

theorem Growth.bordered {side : Direction} {t p : Port} {a : Attribute} (c : Growth side t p a k h)
    (ready : Growth.Ready side t p a k) (w : k.WellFormed) (hn : (k.contents? n).isSome)
    (new : ∃ q, g.peer? t = some q ∧ a.type = g.declaredType q) (s : Bordered g n k) :
    Bordered g n h := by
  intro q t' hq ht
  rcases (c.peer_eq_some_iff ready q t').1 ht with ht | ⟨rfl, rfl⟩ | ⟨rfl, -⟩
  · obtain ⟨q', hq', type⟩ := s q t' hq ht
    refine ⟨q', hq', ?_⟩
    rw [declaredType_eq, c.attr, if_neg, ← declaredType_eq, type]
    rintro rfl
    have := isSome_attr?_of_peer? k ht
    simp [attr?, c.fresh] at this
  · obtain ⟨q', hq', type⟩ := new
    refine ⟨q', hq', ?_⟩
    rw [declaredType_eq, c.attr, if_pos rfl]
    exact type
  · have := contents?_of_terminal? w.tree (p := q) (by rw [ready.terminal]; rfl)
    rw [hq] at this
    simp [this] at hn

section Draw
variable (b : g.Buildable) (s : Draft g r (n :: stack) k) (inside : (k.contents? n).isSome)
  (children : k.children n = g.children (g.origin r n)) {e : Edge} {rest : Wiring}
  (next : g.wires (g.origin r n) = k.wires n ++ e :: rest)
include b s inside children next

theorem Draft.bordered_draw {g₁ g₂ g₃ g₄ : Graph} (d : Drawable n e k)
    (x : Drawn n e k g₁ g₂ g₃ g₄ h) : Bordered g n h := by
  have w := b.lawful
  have wf := s.wellFormed
  have neat := s.neat.holds
  have fed := feeds_next next
  obtain ⟨ho, hi⟩ := s.around_next b children next
  have declared {p : Port} (hp : k.around? p.node = some n) :=
    s.declaredType w b.standard hp (s.nest.child_not_mem s.tree hp)
  have s₀ : Bordered g n k := by
    intro p t hp ht
    obtain ⟨c, hc, type, -⟩ := s.boundary p t (hp ▸ inside) ht
    exact ⟨c, hc, type⟩
  have s₂ : Bordered g n g₂ := by
    refine x.frame₂.bordered fun p t hp ht => ?_
    rw [x.wire.peer] at ht
    rw [declaredType_eq, x.wire.attr, ← declaredType_eq]
    exact s₀ p t hp ht
  have inside₂ : (g₂.contents? n).isSome := by
    rwa [x.frame₂.contents, x.wire.tree.network]
  have s₃ : Bordered g n g₃ := by
    rcases x.grown_output d s.neat.lawful neat.standard neat.typed.toSuited with
      same | ⟨i, a, u, c, ready, type, hu, -⟩
    · rw [same]
      exact s₂
    · refine c.bordered ready (x.wellFormed₂ d wf) inside₂ ?_ s₂
      have terminal := ready.terminal
      rw [x.frame₂.terminal, x.wire.terminal, s.terminal w ho] at terminal
      obtain ⟨q, v, hq, -, hv⟩ := b.peered terminal ⟨_, .inl fed⟩
      have free := b.standard.declaredType_terminal terminal
      refine ⟨q, hq, ?_⟩
      rw [type, hv, b.lends_unique (.inr ⟨free, _, fed, .inl ((declared hi).symm.trans hu)⟩)
        (.inr ⟨free, _, fed, .inr ⟨q, hq, hv⟩⟩)]
  have s₄ : Bordered g n g₄ := by
    rcases x.grown_input d s.neat.lawful neat.standard neat.typed.toSuited with
      same | ⟨i, a, t, c, ready, type, lent, -⟩
    · rw [same]
      exact s₃
    · refine c.bordered ready (x.wellFormed₃ d wf) (by rwa [x.atOutput.contents]) ?_ s₃
      have terminal := ready.terminal
      rw [x.atOutput.terminal (x.wellFormed₂ d wf), x.frame₂.terminal, x.wire.terminal,
        s.terminal w hi] at terminal
      obtain ⟨q, v, hq, direction, hv⟩ := b.peered terminal ⟨_, .inr fed⟩
      have free := b.standard.declaredType_terminal terminal
      have lent' := s.lends b ho (s.nest.child_not_mem s.tree ho) lent
      have mirror := b.mirrored q _ direction (w.wellFormed.linked.back _ _ hq)
      rw [effectiveType_of_declared w.wellFormed.tree hv,
        (b.effectiveType_eq_some_iff w e.input t).2 (.inr ⟨free, _, fed, lent'⟩)] at mirror
      exact ⟨q, hq, by rw [type, neat.heldType_of_lends d.output lent, hv, mirror]⟩
  exact x.frame₄.bordered s₄

/-- The next wire of the model, if it can be drawn, leads from draft to draft. -/
theorem Draft.draw (d : Drawable n e k) : Draft g r (n :: stack) (k.drawWire e) ∧
    Tended n k (k.drawWire e) ∧ (k.drawWire e).wires n = k.wires n ++ [e] := by
  have wf := s.wellFormed
  obtain ⟨g₁, g₂, g₃, g₄, x⟩ := drawn d wf
  have ok : k.connect e.output e.input = .ok (k.drawWire e) := by
    simp [connect, d.check, bind, Except.bind]
  have tended := x.tended d wf rfl
  have neat := s.neat.connect (fun n e => keptByGrowth_neat.draw k n e) ok
  have wires : (k.drawWire e).wires n = k.wires n ++ [e] := (x.wires n).trans (if_pos rfl)
  refine ⟨s.tend tended (s.toSketch.tend tended inside neat ?_ ?_) (x.carries d s.neat)
    (keptByEdits_coherent.draw k n e s.neat.lawful d), tended, wires⟩
  · rw [wires, next]
    exact ⟨rest, by simp⟩
  · exact s.bordered_draw b inside children next d x

/-- The next wire can be drawn, or some output without a type of its own feeds none first that has one. -/
theorem Draft.connect : (∃ h, k.connect e.output e.input = .ok h ∧ Draft g r (n :: stack) h ∧
    Tended n k h ∧ h.wires n = k.wires n ++ [e]) ∨
    (∃ x, k.connect e.output e.input = .error x) ∧ ¬ g.Leading := by
  cases eq : k.connect e.output e.input with
  | ok h =>
    obtain ⟨m, d, rfl⟩ := drawable_of_connect eq
    obtain rfl : m = n := by
      have := d.outputAround
      rwa [(s.around_next b children next).1, Option.some.injEq, eq_comm] at this
    exact .inl ⟨_, rfl, s.draw b inside children next d⟩
  | error x =>
    refine .inr ⟨⟨x, rfl⟩, fun leading => ?_⟩
    have d := s.drawable b inside children next leading
    rw [Graph.connect, d.check] at eq
    cases eq

end Draw
end Dataflow.Graph
