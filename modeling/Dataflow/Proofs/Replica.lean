import Dataflow.Proofs.Recoverable
import Dataflow.Proofs.Reload
set_option autoImplicit false

/-!
What copies are read as. Main statements: a port of a finished copy has the same value from scratch as
the port that it stands for, if the inputs without wires hold the same, and those do so just where
nothing is held that the document has no place for.
-/

namespace Dataflow.Graph
variable {g k : Graph} {r n : NodeId}

/-! ### Ports and what they stand for -/

/-- A node that is no network stands in one, under its own number and with its own type. -/
theorem Draft.stands (s : Draft g r [] k) {c : NodeId} (live : (k.type? c).isSome)
    (leaf : k.contents? c = none) : ∃ n, k.around? c = some n ∧ k.type? c = g.type? c := by
  obtain ⟨n, hn⟩ := (s.root_or_child live).resolve_left fun root => by
    have := s.tree.rootNetwork
    rw [s.root, ← root, leaf] at this
    cases this
  exact ⟨n, hn, (s.twin _ _ hn).leaf leaf⟩

section Replica
variable (b : g.Buildable) (s : Draft g r [] k)
include b s

section Live
variable {p : Port} (live : (k.type? p.node).isSome)
include live

theorem Draft.direction_origin : k.direction? p = g.direction? (g.originPort r p) := by
  have same := congrArg (Option.map Attribute.direction)
    (s.face b.lawful b.standard live List.not_mem_nil)
  rw [Option.map_map, Option.map_map] at same
  rw [direction?_eq, direction?_eq]
  exact same

theorem Draft.declaredType_origin : k.declaredType p = g.declaredType (g.originPort r p) := by
  have bind (o : Option Attribute) : o.bind Attribute.type = (o.map Attribute.face).bind Attribute.type := by
    cases o <;> rfl
  rw [declaredType_eq, declaredType_eq, bind, s.face b.lawful b.standard live List.not_mem_nil, ← bind]

theorem Draft.unfed_origin :
    (∀ o, ¬ k.Feeds o p) ↔ ∀ o, ¬ g.Feeds o (g.originPort r p) := by
  rcases s.root_or_child live with root | ⟨n, hn⟩
  · -- no wire leads to the whole graph
    refine iff_of_true (fun o ⟨m, hm⟩ => ?_) fun o ⟨m, hm⟩ => ?_
    · have around := s.wellFormed.wired.inputAround m _ hm
      rw [root, ← s.root, s.tree.root] at around
      cases around
    · have around := b.lawful.wellFormed.wired.inputAround m _ hm
      rw [originPort, root, origin_self, b.lawful.wellFormed.tree.root] at around
      cases around
  · rw [s.originPort_child hn]
    exact forall_congr' fun o => not_congr (s.feeds_child b hn)

/-- Peers stand for peers. -/
theorem Draft.peer_origin : (k.peer? p).map (g.originPort r) = g.peer? (g.originPort r p) := by
  have w := b.lawful
  have wf := w.wellFormed
  cases hq : k.peer? p with
  | some q =>
    rw [Option.map_some]
    have back := s.wellFormed.linked.back _ _ hq
    rcases s.wellFormed.linked.faces p q hq with faces | faces
    · obtain ⟨there, -⟩ := s.peer_there w (faces.isSome_contents? s.tree) List.not_mem_nil back
      obtain ⟨-, -, -, around⟩ := faces
      rw [s.originPort_child around]
      exact (wf.linked.back _ _ there).symm
    · obtain ⟨there, -⟩ := s.peer_there w (faces.isSome_contents? s.tree) List.not_mem_nil hq
      obtain ⟨-, -, -, around⟩ := faces
      rw [s.originPort_child around, there]
  | none =>
    rw [Option.map_none]
    symm
    by_contra other
    obtain ⟨c, hc⟩ := Option.ne_none_iff_exists'.1 other
    cases leaf : k.contents? p.node with
    | some x =>
      have here := s.peer_here w (by rw [leaf]; rfl) List.not_mem_nil hc
      simp [hq] at here
    | none =>
      obtain ⟨n, hn, -⟩ := s.stands live leaf
      rw [s.originPort_child hn] at hc
      -- a terminal has its peer on the network around it
      have outside : ¬ (g.contents? p.node).isSome := by
        rw [← s.isSome_contents?_child b hn, leaf]
        simp
      rcases wf.linked.faces p c hc with faces | faces
      · obtain ⟨-, -, -, around⟩ := faces
        rw [s.placed _ _ hn, Option.some.injEq] at around
        have place : g.originPort r ⟨n, c.index⟩ = c := by
          rw [originPort, around]
        have here := s.peer_here w (b := ⟨n, c.index⟩) (isSome_contents?_of_around? s.tree hn)
          List.not_mem_nil (by rw [place]; exact wf.linked.back _ _ hc)
        rw [s.wellFormed.linked.back _ _ here] at hq
        cases hq
      · exact outside (faces.isSome_contents? wf.tree)

end Live

end Replica

/-! ### Values from scratch -/

/-- Inputs without wires hold in the copy what they hold in its model. -/
def Conveys (g : Graph) (r : NodeId) (k : Graph) : Prop :=
  ∀ p, k.direction? p = some .input → (∀ o, ¬ k.Feeds o p) → k.value p = g.value (g.originPort r p)

theorem Draft.fromScratch (b : g.Buildable) (s : Draft g r [] k) (rec : g.Recoverable)
    (rec' : k.Recoverable) (conveys : Conveys g r k) {p : Port} {x : Option Payload}
    (hx : k.FromScratch p x) : g.FromScratch (g.originPort r p) x := by
  have wf := b.lawful.wellFormed
  have live {p : Port} {d : Direction} (hd : k.direction? p = some d) : (k.type? p.node).isSome := by
    obtain ⟨t, ht⟩ := exists_type?_of_direction? hd
    rw [ht]
    rfl
  have peer {p : Port} {d : Direction} (hd : k.direction? p = some d) := s.peer_origin b (live hd)
  induction hx with
  | @given p hd hs =>
    have unfed := (source?_eq_none_iff s.wellFormed.wired p).1 hs
    rw [conveys p hd unfed]
    refine .given (by rw [← s.direction_origin b (live hd), hd]) ?_
    exact (source?_eq_none_iff wf.wired _).2 ((s.unfed_origin b (live hd)).1 unfed)
  | @wired p q x hd hs _ ih =>
    have hf := (source?_eq_some_iff s.wellFormed.wired _ _).1 hs
    obtain ⟨m, ho, hi, -⟩ := s.fed hf
    rw [s.originPort_child ho] at ih
    refine .wired (by rw [← s.direction_origin b (live hd), hd]) ?_ ih
    rw [s.originPort_child hi, source?_eq_some_iff wf.wired]
    exact s.feeds hf
  | @linked p q x hd hp _ ih =>
    refine .linked (by rw [← s.direction_origin b (live hd), hd]) ?_ ih
    rw [← peer hd, hp]
    rfl
  | @inert p t hd hp ht hc =>
    obtain ⟨n, hn, type⟩ := s.stands (live hd) (s.standard.leaf_of_bare hd hp)
    have hp' : g.peer? (g.originPort r p) = none := by rw [← peer hd, hp]; rfl
    have hd' : g.direction? (g.originPort r p) = some .output := by
      rw [← s.direction_origin b (live hd), hd]
    rw [s.originPort_child hn] at hp' hd' ⊢
    rw [type] at ht
    -- neither of the two holds anything
    rw [rec'.value_of_inert s.neat.lawful s.standard s.neat.holds.typed.toSuited hd hp (type.trans ht) hc,
      ← rec.value_of_inert b.lawful b.standard b.toSuited hd' hp' ht hc]
    exact .inert hd' hp' ht hc
  | @computed p t c inputs hd hp ht hc _ ih =>
    obtain ⟨n, hn, type⟩ := s.stands (live hd) (s.standard.leaf_of_bare hd hp)
    have hp' : g.peer? (g.originPort r p) = none := by rw [← peer hd, hp]; rfl
    have hd' : g.direction? (g.originPort r p) = some .output := by
      rw [← s.direction_origin b (live hd), hd]
    rw [s.originPort_child hn] at hp' hd' ⊢
    refine .computed hd' hp' (type.symm.trans ht) hc fun i hi => ?_
    have own := ih i hi
    rwa [s.originPort_child (p := ⟨p.node, i⟩) hn] at own

/-! ### What documents have no place for -/

/-- Nothing is held that the document of the graph has no place for: the inputs of the whole graph hold
what they start with, and so does any other input, if what it holds agrees with that. -/
structure Documented (g : Graph) : Prop where
  root : ∀ i y, g.direction? ⟨g.root, i⟩ = some .input → g.value ⟨g.root, i⟩ = some y →
    g.Starts ⟨g.root, i⟩ y
  kept : ∀ p x y, g.Kept p → g.value p = some y → g.Starts p x → x.agrees y = true → x = y

section Documented
variable (b : g.Buildable) (s : Draft g r [] k)
include b s

/-- A port of the copied whole starts with what that of the model starts with. -/
theorem Draft.starts_root {i : Nat} {y : Payload} (start : k.Starts ⟨r, i⟩ y) :
    g.Starts ⟨g.root, i⟩ y := by
  have network := s.tree.rootNetwork
  rw [s.root] at network
  have own : g.originPort r ⟨r, i⟩ = ⟨g.root, i⟩ := by rw [originPort, origin_self]
  generalize hp : (⟨r, i⟩ : Port) = p at start
  cases start with
  | own leaf =>
    subst hp
    simp [leaf] at network
  | input _ fed =>
    subst hp
    obtain ⟨m, -, around, -⟩ := s.fed fed
    exact absurd rfl (s.ne_root around)
  | output _ first =>
    subst hp
    obtain ⟨m, around, -⟩ := s.fed (feeds_of_head? s.wellFormed.wired first)
    exact absurd rfl (s.ne_root around)
  | boundary inside peer terminal =>
    subst hp
    have there := (s.peer_there b.lawful inside List.not_mem_nil peer).1
    rw [own] at there
    obtain ⟨-, -, -, around, -⟩ := s.faces b.lawful inside peer
    refine .boundary b.lawful.wellFormed.tree.rootNetwork there ?_
    exact (s.planted b).starts s.wellFormed.wired terminal ⟨⟨_, around⟩, List.not_mem_nil⟩

/-- The inputs of the copied whole hold what they start with. -/
theorem Draft.exists_value_root {i : Nat} (input : k.direction? ⟨r, i⟩ = some .input) :
    ∃ y, k.value ⟨r, i⟩ = some y ∧ g.Starts ⟨g.root, i⟩ y := by
  have network := s.tree.rootNetwork
  rw [s.root] at network
  obtain ⟨q, hq⟩ := Option.isSome_iff_exists.1
    (s.standard.projected ⟨r, i⟩ network ((isSome_direction?_iff k _).1 (by simp [input])))
  have typed := s.neat.holds.typed
  obtain ⟨t, ht⟩ := Option.isSome_iff_exists.1 (typed.boundary _ q hq network)
  have held := typed.declared _ t ht
  rw [heldType_eq_value, Option.map_eq_some_iff] at held
  obtain ⟨y, hy, -⟩ := held
  refine ⟨y, hy, s.starts_root b (s.unset _ y (fun m hm => ?_) hy)⟩
  exact absurd rfl (s.ne_root hm)

/-- What stands in a network stands in its copy. -/
theorem Draft.around_of {c n : NodeId} (live : (k.type? n).isSome)
    (hc : g.around? c = some (g.origin r n)) : k.around? c = some n := by
  have tree := b.lawful.wellFormed.tree
  have inside := (s.isSome_contents? b.lawful live).2 (isSome_contents?_of_around? tree hc)
  rw [← s.tree.child, s.children n inside List.not_mem_nil, tree.child, hc]

/-- Every node has been copied, as those around it have been. -/
theorem Draft.exists_origin {m : NodeId} (live : (g.type? m).isSome) :
    ∃ n, (k.type? n).isSome ∧ g.origin r n = m := by
  have way := inside_root b.lawful.wellFormed.tree m live
  induction way using Relation.ReflTransGen.head_induction_on with
  | refl =>
    refine ⟨r, ?_, origin_self g r⟩
    have := isSome_type?_of_contents? s.tree.rootNetwork
    rwa [s.root] at this
  | @head m p hm _ ih =>
    obtain ⟨n, live', rfl⟩ := ih (isSome_type?_of_contents?
      (isSome_contents?_of_around? b.lawful.wellFormed.tree hm))
    have around := s.around_of b live' hm
    exact ⟨m, isSome_type?_of_around? around, s.origin_child around⟩

theorem Draft.exists_around {c : NodeId} (live : (g.type? c).isSome) (ne : c ≠ g.root) :
    ∃ n, k.around? c = some n := by
  obtain ⟨m, live', rfl⟩ := s.exists_origin b live
  rcases s.root_or_child live' with rfl | ⟨n, hn⟩
  · exact absurd (origin_self g m) ne
  · rw [s.origin_child hn]
    exact ⟨n, hn⟩

omit b in
theorem Draft.unfed_root (i : Nat) (o : Port) : ¬ k.Feeds o ⟨r, i⟩ := fun hf => by
  obtain ⟨m, -, around, -⟩ := s.fed hf
  exact absurd rfl (s.ne_root around)

omit s in
/-- The inputs that documents keep are all that have types and no wires. -/
theorem Buildable.kept (rec : g.Recoverable) {p : Port} {t : DataType}
    (input : g.direction? p = some .input) (ht : g.declaredType p = some t)
    (unfed : ∀ o, ¬ g.Feeds o p) : g.Kept p := by
  obtain ⟨a, ha, hd⟩ := isSome_attr?_of_direction? input
  refine ⟨input, ?_, by rw [ht]; rfl, (source?_eq_none_iff b.lawful.wellFormed.wired p).2 unfed⟩
  rw [ha, Option.map_some, Option.some.injEq]
  cases leaf : g.contents? p.node with
  | some x => exact b.standard.serial p a (by rw [leaf]; rfl) ha
  | none =>
    obtain ⟨u, hu⟩ := exists_type?_of_direction? input
    rcases rec.terminal_or b.standard leaf ha hu with ⟨side, terminal, -⟩ | ⟨rec, mem⟩
    · rw [b.standard.declaredType_terminal terminal] at ht
      cases ht
    · exact rec.serial a mem hd

omit b s in
theorem originPort_root (g : Graph) (r : NodeId) (i : Nat) : g.originPort r ⟨r, i⟩ = ⟨g.root, i⟩ := by
  rw [originPort, origin_self]

theorem Draft.direction_root (i : Nat) : k.direction? ⟨r, i⟩ = g.direction? ⟨g.root, i⟩ := by
  have live : (k.type? r).isSome := by
    have := isSome_type?_of_contents? s.tree.rootNetwork
    rwa [s.root] at this
  rw [s.direction_origin b (p := ⟨r, i⟩) live, originPort_root]

/-- A copy that holds the same tells that nothing is missing from the document. -/
theorem Draft.documented (conveys : Conveys g r k) : g.Documented := by
  have wf := b.lawful.wellFormed
  have root (i : Nat) (y : Payload) (input : g.direction? ⟨g.root, i⟩ = some .input)
      (hy : g.value ⟨g.root, i⟩ = some y) : g.Starts ⟨g.root, i⟩ y := by
    rw [← s.direction_root b] at input
    obtain ⟨z, hz, start⟩ := s.exists_value_root b input
    have same := conveys ⟨r, i⟩ input (s.unfed_root i)
    rw [hz, originPort_root, hy, Option.some.injEq] at same
    exact same ▸ start
  refine ⟨root, fun p x y kept hy hx agrees => ?_⟩
  by_cases hn : p.node = g.root
  · obtain ⟨m, i⟩ := p
    subst hn
    exact b.starts_unique wf.wired hx (root i y kept.input hy)
  · obtain ⟨t, ht⟩ := exists_type?_of_direction? kept.input
    obtain ⟨n, around⟩ := s.exists_around b (by rw [ht]; rfl) hn
    obtain ⟨z, y', hz, hy', held⟩ := s.kept p n List.not_mem_nil around kept
    rw [hy, Option.some.injEq] at hy'
    subst hy'
    have input : k.direction? p = some .input := by
      rw [s.direction_origin b (isSome_type?_of_around? around), s.originPort_child around, kept.input]
    have same := conveys p input fun o ho =>
      (source?_eq_none_iff wf.wired p).1 kept.free o (s.feeds ho)
    rw [b.starts_unique wf.wired hz hx, if_pos agrees] at held
    rw [held, s.originPort_child around, hy, Option.some.injEq] at same
    exact same

section Conveys
variable (documented : g.Documented) {i : Nat}
include documented

theorem Draft.conveys_root (input : k.direction? ⟨r, i⟩ = some .input) :
    k.value ⟨r, i⟩ = g.value (g.originPort r ⟨r, i⟩) := by
  have wf := b.lawful.wellFormed
  obtain ⟨y, hy, start⟩ := s.exists_value_root b input
  rw [s.direction_root b] at input
  obtain ⟨q, hq⟩ := Option.isSome_iff_exists.1 (b.standard.projected ⟨g.root, i⟩
    wf.tree.rootNetwork ((isSome_direction?_iff g _).1 (by simp [input])))
  obtain ⟨t, ht⟩ := Option.isSome_iff_exists.1 (b.boundary _ q hq wf.tree.rootNetwork)
  have held := b.declared _ t ht
  rw [heldType_eq_value, Option.map_eq_some_iff] at held
  obtain ⟨z, hz, -⟩ := held
  rw [hy, originPort_root, hz, b.starts_unique wf.wired start (documented.root i z input hz)]

theorem Draft.conveys_child (ground : g.Grounded) {m n : NodeId} (around : k.around? m = some n)
    (input : k.direction? ⟨m, i⟩ = some .input) (unfed : ∀ o, ¬ k.Feeds o ⟨m, i⟩) :
    k.value ⟨m, i⟩ = g.value (g.originPort r ⟨m, i⟩) := by
  have live := isSome_type?_of_around? around
  have free := (s.unfed_origin b (p := ⟨m, i⟩) live).1 unfed
  have input' := input
  rw [s.direction_origin b (p := ⟨m, i⟩) live] at input'
  have type := s.declaredType_origin b (p := ⟨m, i⟩) live
  rw [s.originPort_child (p := ⟨m, i⟩) around] at free input' type ⊢
  cases ht : g.declaredType ⟨m, i⟩ with
  | none =>
    have blank := s.neat.holds.blank _ input (type.trans ht) unfed
    have blank' := ground.anchored.blank _ input' ht free
    rw [heldType_eq_value, Option.map_eq_none_iff] at blank blank'
    rw [blank, blank']
  | some t =>
    have kept := b.kept ground.recoverable input' ht free
    obtain ⟨x, y, hx, hy, held⟩ := s.kept ⟨m, i⟩ n List.not_mem_nil around kept
    rw [held, hy]
    split
    · next agrees => rw [documented.kept _ x y kept hy hx agrees]
    · rfl

end Conveys

/-- The inputs of a copy hold what those of its model hold, just if nothing is held that the document
has no place for. -/
theorem Draft.conveys_iff (ground : g.Grounded) : Conveys g r k ↔ g.Documented := by
  refine ⟨s.documented b, fun documented => ?_⟩
  rintro ⟨m, i⟩ input unfed
  obtain ⟨t, ht⟩ := exists_type?_of_direction? input
  rcases s.root_or_child (by rw [ht]; rfl) with rfl | ⟨n, hn⟩
  · exact s.conveys_root b documented input
  · exact s.conveys_child b documented ground hn input unfed

end Documented
end Dataflow.Graph
