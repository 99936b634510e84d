import Mathlib
import Dataflow.Proofs.Cycles
import Dataflow.Proofs.Standard
set_option autoImplicit false

/-!
The boundary of a network as the image of what is in it. Main statement: in every graph of a run, the
ports of a network are in one-to-one correspondence with the wired terminals in it, by peers, names
and sides, no other port has a peer, and no wire is refused for the sake of a boundary.
-/

namespace Dataflow.Graph

/-- Graphs of runs with standard node types. -/
abbrev StandardRun (g : Graph) : Prop := Reachable (fun _ o => o.Uses NodeType.Standard) g

theorem standard_of_run {g : Graph} (r : StandardRun g) : LawfulWith Standard g := by
  refine r.lawfulWith keptByEdits_standard (fun _ _ h => h.sound) (fun _ _ h => h.makes)
    (fun g o _ => aimed_false g o) ?_
  intro g o _ ho w
  have a := (calmer_reads ho g).frame
  exact w.of_sameFrame a (a.standard w.holds)

theorem grown_of_standard {g : Graph} (r : StandardRun g) : Grown g := by
  refine r.mono fun _ o uses => ?_
  cases o with
  | addNode | addNetwork => exact uses.sound
  | loadInto | restore => exact fun name t h => (uses name t h).sound
  | _ => trivial

section Projection
variable {g : Graph}

/-- The port `k` of the network `n` stands for the node `c`, and knows it as it is known to it. -/
structure StandsFor (g : Graph) (n : NodeId) (k : Nat) (c : NodeId) : Prop where
  child : c ∈ g.children n
  wired : (g.wiresAround c).isConnected ⟨c, 0⟩ = true
  name : (g.attr? ⟨n, k⟩).map Attribute.name = g.name? c
  side : (g.terminal? ⟨c, 0⟩).isSome ∧ g.terminal? ⟨c, 0⟩ = g.direction? ⟨n, k⟩
  outward : g.peer? ⟨c, 0⟩ = some ⟨n, k⟩
  inward : g.peer? ⟨n, k⟩ = some ⟨c, 0⟩

theorem standsFor_of_peer? (w : g.Lawful) (s : g.Standard) {n : NodeId} {k : Nat} {t : Port}
    (hn : (g.contents? n).isSome) (h : g.peer? ⟨n, k⟩ = some t) : g.StandsFor n k t.node := by
  have faces := faces_of_contents? w.wellFormed h hn
  have back := w.wellFormed.linked.back _ _ h
  obtain ⟨side, ht, hd, ha⟩ := faces
  have here : t = ⟨t.node, 0⟩ := by rw [← s.index ht]
  rw [here] at ht back h
  constructor
  case child => exact (w.wellFormed.tree.child n _).2 ha
  case wired =>
    refine (isConnected_iff w.wellFormed.wired ⟨t.node, 0⟩).2 ?_
    exact (w.fitted ⟨t.node, 0⟩ (by simp [ht])).1 (by simp [back])
  case name => exact s.named ⟨n, k⟩ ⟨t.node, 0⟩ h hn
  case side => exact ⟨by simp [ht], by rw [ht, hd]⟩
  case outward => exact back
  case inward => exact h

theorem checkGrowth_of_standard (w : g.Lawful) (s : g.Standard) (side : Direction) (p : Port) :
    g.checkGrowth side p = .ok () := by
  have wf := w.wellFormed
  rw [checkGrowth]
  split
  · next hg =>
    obtain ⟨ht, free⟩ := grows_iff.1 hg
    obtain ⟨t, htype, -⟩ := terminal?_eq_some_iff.1 ht
    obtain ⟨m, hm, -⟩ := Option.map_eq_some_iff.1 htype
    simp only [node, hm, bind, Except.bind]
    cases hp : m.parent with
    | none => rfl
    | some n =>
      have around : g.around? p.node = some n := by simp [around?, hm, hp]
      obtain ⟨c, hc⟩ := Option.isSome_iff_exists.1 (isSome_contents?_of_around? wf.tree around)
      obtain ⟨k, hk, -⟩ := Option.bind_eq_some_iff.1 hc
      simp only [hk]
      -- a port of that name would be the peer of this very terminal
      have unused : k.type.indexOf? m.name = none := by
        rw [NodeType.indexOf?_eq_none_iff]
        intro used
        obtain ⟨a, ha, hname⟩ := List.mem_map.1 used
        obtain ⟨i, hi⟩ := List.mem_iff_getElem?.1 ha
        have attr : g.attr? ⟨n, i⟩ = some a := by
          rw [attr?_eq, type?, hk]
          exact hi
        obtain ⟨q, hq⟩ := Option.isSome_iff_exists.1
          (s.projected ⟨n, i⟩ (by simp [hc]) (by simp [attr]))
        have stands := standsFor_of_peer? w s (by simp [hc]) hq
        have same : q.node = p.node := by
          refine wf.tree.distinct n _ _ stands.child ((wf.tree.child n _).2 around) ?_
          rw [← stands.name, attr, Option.map_some, hname, name?, hm]
          rfl
        have here : p = ⟨q.node, 0⟩ := by rw [same, ← s.index ht]
        rw [here, stands.outward] at free
        cases free
      simp [unused]
  · rfl

end Projection

/-- The ports of a network and the wired terminals in it stand for each other one by one, under one
name and on one side. No two ports of a network have one name. All other ports are without a peer,
and so no wire can be refused for the port that it would add to a boundary. -/
theorem boundary_is_projection {g : Graph} (r : StandardRun g) :
    (∀ n, (g.contents? n).isSome →
      (∀ k, (g.attr? ⟨n, k⟩).isSome → ∃ c, g.StandsFor n k c) ∧
      (∀ c, c ∈ g.children n → (g.terminal? ⟨c, 0⟩).isSome →
        (g.wiresAround c).isConnected ⟨c, 0⟩ = true → ∃ k, g.StandsFor n k c) ∧
      (∀ k l c, g.StandsFor n k c → g.StandsFor n l c → k = l) ∧
      (∀ k c d, g.StandsFor n k c → g.StandsFor n k d → c = d) ∧
      (∀ t, g.type? n = some t → (t.ports.entries.map Attribute.name).Nodup)) ∧
    (∀ p q, g.peer? p = some q →
      g.StandsFor p.node p.index q.node ∨ g.StandsFor q.node q.index p.node) ∧
    ∀ e, g.checkBoundary e = .ok () := by
  obtain ⟨w, s⟩ := standard_of_run r
  have wf := w.wellFormed
  refine ⟨fun n hn => ⟨?_, ?_, ?_, ?_, ?_⟩, ?_, ?_⟩
  · intro k hk
    obtain ⟨t, ht⟩ := Option.isSome_iff_exists.1 (s.projected ⟨n, k⟩ hn hk)
    exact ⟨t.node, standsFor_of_peer? w s hn ht⟩
  · intro c hc ht wired
    have connected := (isConnected_iff wf.wired ⟨c, 0⟩).1 wired
    obtain ⟨b, hb⟩ := Option.isSome_iff_exists.1 ((w.fitted _ ht).2 connected)
    obtain ⟨side, -, -, ha⟩ := faces_of_terminal? wf hb ht
    have hbn : b.node = n := by
      have := (wf.tree.child n c).1 hc
      rw [this, Option.some.injEq] at ha
      exact ha.symm
    subst hbn
    exact ⟨b.index, standsFor_of_peer? w s hn (wf.linked.back _ _ hb)⟩
  · intro k l c hk hl
    have := hk.outward.symm.trans hl.outward
    simpa using this
  · intro k c d hc hd
    have := hc.inward.symm.trans hd.inward
    simpa using this
  · exact fun t ht => (wf.sound n t ht).names
  · intro p q hp
    rcases wf.linked.faces p q hp with hf | hf
    · exact .inr (standsFor_of_peer? w s (hf.isSome_contents? wf.tree) (wf.linked.back p q hp))
    · exact .inl (standsFor_of_peer? w s (hf.isSome_contents? wf.tree) hp)
  · intro e
    simp only [checkBoundary, checkGrowth_of_standard w s, bind, Except.bind]

/-- A network `n` with an input node `x` that feeds a relay. -/
def inputRelay : Graph :=
  let g := (Action.addNetwork ⟨1⟩ "n").after (create .standard .start 0 [])
  let g := (Action.addNode ⟨2⟩ .networkInput "x" .standard).after g
  let g := (Action.addNode ⟨2⟩ relay "a" .standard).after g
  (Action.connect ⟨⟨3⟩, 0⟩ ⟨⟨4⟩, 0⟩).after g

theorem standardRun_inputRelay : StandardRun inputRelay := by
  have relay := NodeType.Standard.of_name sound_relay (by decide) (by decide) (by decide)
  exact .step (.step (.step (.step (.start ..) NodeType.standard_network)
    NodeType.standard_networkInput) relay) trivial

/-- The one port of the network stands for the input node in it. -/
theorem inputRelay_is_projection :
    (inputRelay.attr? ⟨⟨2⟩, 0⟩).map Attribute.name = some "x" ∧
      ∃ c, inputRelay.StandsFor ⟨2⟩ 0 c := by
  have name : (inputRelay.attr? ⟨⟨2⟩, 0⟩).map Attribute.name = some "x" := by cbv
  have ports := ((boundary_is_projection standardRun_inputRelay).1 ⟨2⟩ (by cbv)).1
  refine ⟨name, ports 0 ?_⟩
  obtain ⟨a, ha, -⟩ := Option.map_eq_some_iff.1 name
  simp [ha]

end Dataflow.Graph
