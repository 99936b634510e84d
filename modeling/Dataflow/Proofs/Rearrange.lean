import Dataflow.Proofs.Redraw
set_option autoImplicit false

/-!
Bringing the boundary of a copied network into the order of the model. Main statement: once a network
has all its nodes and wires, putting its ports in the order of the names in the model completes it.
-/

namespace Dataflow.Graph
variable {g k h : Graph} {r n : NodeId} {stack : List NodeId}

/-! ### Names of ports -/

/-- A network port is named after the node of its peer, in the copy as in the model. -/
theorem Sketch.name_of_peer (s : Sketch g r stack k) (w : g.Lawful) (d : g.Standard) {p t c : Port}
    (inside : (k.contents? p.node).isSome) (hp : k.peer? p = some t) (hc : g.peer? t = some c) :
    c.node = g.origin r p.node ∧
      (k.attr? p).map Attribute.name = (g.attr? c).map Attribute.name := by
  obtain ⟨-, -, -, around, -⟩ := s.faces w inside hp
  have node := s.node_of_peer w inside hp hc
  have there : (g.contents? c.node).isSome := by
    rw [node]
    exact (s.isSome_contents? w (isSome_type?_of_contents? inside)).1 inside
  refine ⟨node, ?_⟩
  rw [s.standard.named p t hp inside, s.name_of_child around,
    d.named c t (w.wellFormed.linked.back _ _ hc) there]

theorem Sketch.mem_portNames_iff (s : Sketch g r stack k) (w : g.Lawful) (d : g.Standard)
    (inside : (k.contents? n).isSome) (children : k.children n = g.children (g.origin r n))
    (wires : k.wires n = g.wires (g.origin r n)) (name : String) :
    name ∈ k.portNames n ↔ name ∈ g.portNames (g.origin r n) := by
  rw [Graph.mem_portNames_iff, Graph.mem_portNames_iff]
  constructor
  · rintro ⟨i, hi⟩
    have live : (k.attr? ⟨n, i⟩).isSome := by
      rw [← Option.isSome_map (f := Attribute.name), hi]
      rfl
    obtain ⟨t, ht⟩ := Option.isSome_iff_exists.1 (s.standard.projected _ inside live)
    obtain ⟨⟨m, j⟩, hc, -⟩ := s.boundary ⟨n, i⟩ t inside ht
    obtain ⟨rfl, same⟩ := s.name_of_peer w d inside ht hc
    exact ⟨j, same ▸ hi⟩
  · rintro ⟨j, hj⟩
    have live : (g.attr? ⟨g.origin r n, j⟩).isSome := by
      rw [← Option.isSome_map (f := Attribute.name), hj]
      rfl
    have there := (s.isSome_contents? w (isSome_type?_of_contents? inside)).1 inside
    obtain ⟨t, ht⟩ := Option.isSome_iff_exists.1 (d.projected _ there live)
    obtain ⟨i, hi⟩ := s.peer_of_wired w inside children wires ht
    exact ⟨i, (s.name_of_peer w d inside hi (w.wellFormed.linked.back _ _ ht)).2.trans hj⟩

/-! ### The order -/

theorem Tended.quiet {h' : Graph} (a : Tended n k h) (q : Quiet h h') (note : h'.note? = h.note?) :
    Tended n k h' where
  tree := a.tree.trans (.of_sameFrame q.frame)
  note := note.trans a.note
  wires := fun m hm => by rw [q.frame.wires, a.wires m hm]
  type := fun m hm => by rw [q.frame.type, a.type m hm]
  peer := fun p hp far => by rw [q.frame.peer, a.peer p hp far]
  value := fun p hp far => by rw [q.value, a.value p hp far]

/-- The ports of a network after they have been brought into order. -/
structure Sorting (n : NodeId) (names : List String) (k h : Graph) : Prop where
  tended : Tended n k h
  wires : h.wires = k.wires
  name : ∀ i, (h.attr? ⟨n, i⟩).map Attribute.name = names[i]?
  moved : ∀ i, ∃ j, h.attr? ⟨n, i⟩ = k.attr? ⟨n, j⟩ ∧ h.peer? ⟨n, i⟩ = k.peer? ⟨n, j⟩
  carries : Carries n k h

theorem Sketch.sorting (s : Sketch g r (n :: stack) k) (inside : (k.contents? n).isSome)
    {names : List String} (all : ∀ name, name ∈ k.portNames n ↔ name ∈ names)
    (distinct : names.Nodup) (ok : k.arrangeBoundary n names = .ok h) : Sorting n names k h := by
  have wf := s.wellFormed
  obtain ⟨t, order, ht, rfl, cases⟩ := reordered wf names ok
  have attributes : k.portNames n = t.ports.entries.map Attribute.name := by rw [portNames, ht]; rfl
  rw [← attributes] at cases
  have place := getElem?_oldPlace all distinct (nodup_portNames wf n)
  rcases cases with ⟨rfl, same⟩ | ⟨-, g₁, a, rfl⟩
  · refine ⟨(Quiet.refl h).tended rfl, rfl, fun i => ?_, fun i => ⟨i, rfl, rfl⟩, .refl n h⟩
    rw [← getElem?_portNames, ← place i, same, oldPlace]
    cases hi : (List.range (boundaryOrder (h.portNames n) names).length)[i]? with
    | none => rfl
    | some j =>
      obtain ⟨low, hj⟩ := List.getElem?_eq_some_iff.1 hi
      rw [List.getElem_range] at hj
      rw [← hj]
      rfl
  · have quiet := quiet_emit g₁ (.metadataChanged n)
    have note : (g₁.emit (.metadataChanged n)).note? = k.note? := (Aside.arrangeBoundary ok).note
    have bare (m : NodeId) (e : Edge) (he : e ∈ k.wires m) : e.output.node ≠ n ∧ e.input.node ≠ n := by
      obtain ⟨-, -, -, ho, hi⟩ := s.fed ⟨m, he⟩
      exact ⟨fun h => ho (h ▸ List.mem_cons_self), fun h => hi (h ▸ List.mem_cons_self)⟩
    have own (f : Nat → Nat) (i : Nat) : (⟨n, i⟩ : Port).moved n f = ⟨n, f i⟩ := if_pos rfl
    refine ⟨(a.tended wf inside note bare).quiet quiet rfl, ?_, fun i => ?_, fun i => ?_,
      (a.carries wf).quiet quiet⟩
    · rw [quiet.frame.wires, a.wires_of_bare bare]
    · rw [quiet.frame.attr, a.attr, own, ← getElem?_portNames, place]
    · refine ⟨oldPlace (boundaryOrder (k.portNames n) names) i, ?_, ?_⟩
      · rw [quiet.frame.attr, a.attr, own]
      · rw [quiet.frame.peer, a.peer, own]
        cases hq : k.peer? ⟨n, oldPlace (boundaryOrder (k.portNames n) names) i⟩ with
        | none => rfl
        | some q => rw [Option.map_some, moved_of_ne _ (peer_node_ne wf hq).symm]

theorem arrangeBoundary_ok (live : (k.type? n).isSome) (names : List String) :
    ∃ h, k.arrangeBoundary n names = .ok h := by
  obtain ⟨t, ht⟩ := Option.isSome_iff_exists.1 live
  obtain ⟨m, hm, -⟩ := Option.map_eq_some_iff.1 ht
  simp only [arrangeBoundary, node, hm, bind, Except.bind]
  split
  · exact ⟨_, rfl⟩
  · exact ⟨_, rfl⟩

section Arrange
variable (b : g.Buildable) (s : Draft g r (n :: stack) k) (inside : (k.contents? n).isSome)
  (children : k.children n = g.children (g.origin r n))
  (wires : k.wires n = g.wires (g.origin r n))
include b s inside children wires

/-- The order of the model completes a network that has all wires. -/
theorem Draft.arrange : ∃ h, k.arrangeBoundary n (g.portNames (g.origin r n)) = .ok h ∧
    Draft g r (n :: stack) h ∧ Tended n k h ∧ Complete g r n h := by
  have w := b.lawful
  obtain ⟨h, ok⟩ := arrangeBoundary_ok (isSome_type?_of_contents? inside) (g.portNames (g.origin r n))
  have sorting := s.toSketch.sorting inside
    (s.mem_portNames_iff w b.standard inside children wires) (nodup_portNames w.wellFormed _) ok
  have tended := sorting.tended
  have neat := s.neat.arrange (fun wf ok k' => keptByGrowth_neat.arrange k h n _ wf nofun ok k') ok
  have sketch : Sketch g r (n :: stack) h := by
    refine s.toSketch.tend tended inside neat ?_ ?_
    · rw [sorting.wires]
      exact s.drawn n
    · rintro ⟨m, i⟩ t rfl hb
      obtain ⟨j, attr, peer⟩ := sorting.moved i
      rw [peer] at hb
      obtain ⟨c, hc, type, -⟩ := s.boundary ⟨m, j⟩ t inside hb
      exact ⟨c, hc, by rw [declaredType_eq, attr, ← declaredType_eq, type]⟩
  have inside' : (h.contents? n).isSome := by rwa [tended.tree.network]
  have coherent := keptByEdits_coherent.arrange k h n _ s.wellFormed (fun _ => inside) ok
  refine ⟨h, ok, s.tend tended sketch sorting.carries coherent, tended, ⟨?_, ?_, ?_⟩⟩
  · rw [tended.tree.children, children]
  · rw [sorting.wires, wires]
  · rintro ⟨m, i⟩ t ⟨m', j⟩ rfl hb hc
    obtain ⟨rfl, same⟩ := sketch.name_of_peer w b.standard inside' hb hc
    have live := isSome_attr?_of_peer? g (w.wellFormed.linked.back _ _ hc)
    obtain ⟨a, ha⟩ := Option.isSome_iff_exists.1 live
    rw [sorting.name, getElem?_portNames, ha] at same
    exact index_of_name w.wellFormed (by rw [ha]; rfl) same

end Arrange
end Dataflow.Graph
