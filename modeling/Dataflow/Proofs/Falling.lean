import Dataflow.Proofs.Remnant
set_option autoImplicit false

/-!
What falls with a wire. A network port goes when its terminal has lost its last wire, and then the
wires at the port go as well, and so on outwards. Main statement: this is what the removal of a wire
takes, the other wires stay in their order, and the ports that stay keep what they had, the ends of
the wires that fell apart.
-/

namespace Dataflow.Graph

/-- The wire falls with `e`: it is `e`, or at one of its ends is a network port that stands for a
terminal of which all wires fall. -/
inductive Falls (g : Graph) (e : Edge) : Edge → Prop where
  | asked : Falls g e e
  | behind {d : Edge} {b t : Port} (wire : g.Feeds d.output d.input) (ends : d.endsAt b = true)
      (hosts : g.Hosts b t)
      (all : ∀ f : Edge, g.Feeds f.output f.input → f.endsAt t = true → Falls g e f) : Falls g e d

/-- The network port goes with `e`: the terminal for which it stands is left without a wire. -/
def Goes (g : Graph) (e : Edge) (b : Port) : Prop :=
  ∃ t, g.Hosts b t ∧ ∀ f : Edge, g.Feeds f.output f.input → f.endsAt t = true → g.Falls e f

/-- Both ends of a wire lie in its network. -/
theorem around?_of_endsAt {g : Graph} (w : g.Wired) {e : Edge} {n : NodeId} (he : e ∈ g.wires n)
    {p : Port} (ends : e.endsAt p = true) : g.around? p.node = some n := by
  simp only [Edge.endsAt, Bool.or_eq_true, beq_iff_eq] at ends
  rcases ends with rfl | rfl
  · exact w.outputAround n e he
  · exact w.inputAround n e he

section Survive
variable {old : Port → Port} {lost : Edge → Prop} {g h : Graph} {e d : Edge} {t : Port}
  (x : Remnant old lost g h) (w : g.WellFormed) (w' : h.WellFormed)
include x w w'

/-- A wire that is left is one that stays. -/
theorem Remnant.survives {o i : Port} (hf : h.Feeds o i) : Survives g h ⟨old o, old i⟩ :=
  ⟨⟨o, i⟩, hf, (x.namesake_iff w).2 ⟨hf.isSome_output w'.wired, rfl⟩,
    (x.namesake_iff w).2 ⟨hf.isSome_input w'.wired, rfl⟩⟩

/-- The wires that do not stay are lost. -/
theorem Remnant.lost_iff (hd : g.Feeds d.output d.input) : lost d ↔ ¬ Survives g h d := by
  constructor
  · rintro hl ⟨f, hf, output, input⟩
    refine x.gone f hf ?_
    rwa [Edge.mapPorts, ((x.namesake_iff w).1 output).2, ((x.namesake_iff w).1 input).2]
  · intro gone
    by_contra hl
    obtain ⟨f, hf, rfl⟩ := x.stays d hd hl
    exact gone (x.survives w w' hf)

/-- A terminal has a wire as long as one of its wires stays. -/
theorem Remnant.connected_iff (leaf : g.contents? t.node = none) :
    h.Connected t ↔ ∃ f : Edge, g.Feeds f.output f.input ∧ f.endsAt t = true ∧ Survives g h f := by
  have still := x.fixed t leaf
  constructor
  · rintro ⟨q, hf | hf⟩
    · exact ⟨⟨old t, old q⟩, x.feeds hf, by simp [Edge.endsAt, still], x.survives w w' hf⟩
    · exact ⟨⟨old q, old t⟩, x.feeds hf, by simp [Edge.endsAt, still], x.survives w w' hf⟩
  · rintro ⟨f, -, ends, d, hd, same⟩
    obtain ⟨q, hq, namesake⟩ := Kin.endsAt' same ends
    have here : q = t := by
      have := ((x.namesake_iff w).1 namesake).2
      rwa [x.fixed q (by rw [namesake.node, leaf])] at this
    subst here
    simp only [Edge.endsAt, Bool.or_eq_true, beq_iff_eq] at hq
    rcases hq with rfl | rfl
    · exact ⟨_, .inl hd⟩
    · exact ⟨_, .inr hd⟩

end Survive

section Falls
variable {g : Graph} {e d : Edge}

theorem Falls.feeds (f : g.Falls e d) (he : g.Feeds e.output e.input) :
    g.Feeds d.output d.input := by
  cases f with
  | asked => exact he
  | behind wire _ _ _ => exact wire

variable (w : g.Lawful) (he : g.Feeds e.output e.input)
include w he

theorem Falls.not_survives (f : g.Falls e d) : ¬ Survives g (g.cut e) d := by
  have wf := w.wellFormed
  have x := remains_cut wf he
  obtain ⟨old, lost, remnant⟩ := x.remnant
  induction f with
  | asked => exact not_survives_cut wf (.self wf.wired he)
  | behind wire ends hosts all ih =>
    intro survives
    have connected := survives.upheld x.trimmed (lawful_cut w e) _ _ ends hosts
    obtain ⟨f, hf, hft, stays⟩ :=
      (remnant.connected_iff wf x.wellFormed (hosts.contents? wf)).1 connected
    exact ih f hf hft stays

/-- By induction from the inside out. -/
theorem falls_of_not_survives (hd : g.Feeds d.output d.input)
    (gone : ¬ Survives g (g.cut e) d) : g.Falls e d := by
  have wf := w.wellFormed
  have x := remains_cut wf he
  obtain ⟨old, lost, remnant⟩ := x.remnant
  obtain ⟨m, hm⟩ := hd
  induction hk : g.nodes.length - g.rank m using Nat.strong_induction_on generalizing d m with
  | _ k ih =>
    rcases x.trimmed.lost d ⟨m, hm⟩ with survives | rfl | ⟨b, t, ends, hosts, bare⟩
    · exact absurd survives gone
    · exact .asked
    · refine .behind ⟨m, hm⟩ ends hosts fun f ⟨n, hn⟩ hft => ?_
      -- the wires of the terminal are in the network that has the port
      obtain ⟨-, -, -, inside⟩ := hosts.faces wf
      obtain rfl : b.node = n :=
        Option.some.inj (inside.symm.trans (around?_of_endsAt wf.wired hn hft))
      have deeper := rank_lt wf.tree (around?_of_endsAt wf.wired hm ends)
      have bound := rank_lt_length (isSome_type?_of_contents? hosts.2)
      refine ih (g.nodes.length - g.rank b.node) (by omega) (fun survives => bare ?_) _ hn rfl
      exact (remnant.connected_iff wf x.wellFormed (hosts.contents? wf)).2
        ⟨f, ⟨_, hn⟩, hft, survives⟩

theorem falls_iff (hd : g.Feeds d.output d.input) :
    g.Falls e d ↔ ¬ Survives g (g.cut e) d :=
  ⟨fun f => f.not_survives w he, falls_of_not_survives w he hd⟩

/-- What is lost on the way is what falls. -/
theorem Remnant.lost_iff_falls {old : Port → Port} {lost : Edge → Prop}
    (x : Remnant old lost g (g.cut e)) : lost d ↔ g.Falls e d := by
  have wf := w.wellFormed
  have wf' := (remains_cut wf he).wellFormed
  constructor
  · intro hl
    have hd := x.real d hl
    rwa [falls_iff w he hd, ← x.lost_iff wf wf' hd]
  · intro falls
    have hd := falls.feeds he
    rwa [x.lost_iff wf wf' hd, ← falls_iff w he hd]

/-- A network port stays just if it does not go with the wire. -/
theorem stays_iff {p : Port} (hp : (g.attr? p).isSome) :
    (∃ q, Namesake g (g.cut e) p q) ↔ ¬ g.Goes e p := by
  have wf := w.wellFormed
  have x := remains_cut wf he
  obtain ⟨old, lost, remnant⟩ := x.remnant
  constructor
  · rintro ⟨q, namesake⟩ ⟨t, hosts, all⟩
    have there := (x.trimmed.hosts p q t namesake).1 hosts
    have connected : (g.cut e).Connected t := by
      refine ((lawful_cut w e).fitted t (there.faces x.wellFormed).isSome_terminal?).1 ?_
      rw [x.wellFormed.linked.back _ _ there.1]
      rfl
    obtain ⟨f, hf, hft, survives⟩ :=
      (remnant.connected_iff wf x.wellFormed (hosts.contents? wf)).1 connected
    exact (all f hf hft).not_survives w he survives
  · intro stays
    rcases remnant.ports p hp with ⟨q, hq, eq⟩ | ⟨t, hosts, bare⟩
    · exact ⟨q, (remnant.namesake_iff wf).2 ⟨hq, eq⟩⟩
    · refine absurd ⟨t, hosts, fun f hf hft => ?_⟩ stays
      refine falls_of_not_survives w he hf fun survives => bare ?_
      exact (remnant.connected_iff wf x.wellFormed (hosts.contents? wf)).2 ⟨f, hf, hft, survives⟩

/-- The wires that stay do so in their order. -/
theorem wires_cut (n : NodeId) : ∃ l, l.Sublist (g.wires n) ∧
    (∀ d ∈ g.wires n, d ∈ l ↔ ¬ g.Falls e d) ∧
    List.Forall₂ (Kin g (g.cut e)) l ((g.cut e).wires n) := by
  have wf := w.wellFormed
  have x := remains_cut wf he
  obtain ⟨old, lost, remnant⟩ := x.remnant
  refine ⟨((g.cut e).wires n).map (Edge.mapPorts old), remnant.wires n, fun d hd => ?_, ?_⟩
  · rw [falls_iff w he ⟨n, hd⟩, not_not, List.mem_map]
    constructor
    · rintro ⟨f, hf, rfl⟩
      exact remnant.survives wf x.wellFormed ⟨n, hf⟩
    · rintro ⟨f, ⟨k, hk⟩, output, input⟩
      have around := x.wellFormed.wired.outputAround k f hk
      rw [remnant.tree.around, output.node, wf.wired.outputAround n d hd] at around
      obtain rfl := Option.some.inj around
      refine ⟨f, hk, ?_⟩
      rw [Edge.mapPorts, ((remnant.namesake_iff wf).1 output).2,
        ((remnant.namesake_iff wf).1 input).2]
  · rw [List.forall₂_map_left_iff, List.forall₂_same]
    intro f hf
    have hf : (g.cut e).Feeds f.output f.input := ⟨n, hf⟩
    exact ⟨(remnant.namesake_iff wf).2 ⟨hf.isSome_output x.wellFormed.wired, rfl⟩,
      (remnant.namesake_iff wf).2 ⟨hf.isSome_input x.wellFormed.wired, rfl⟩⟩

end Falls

theorem disconnect_of_feeds {g : Graph} (w : g.WellFormed) {o i : Port} (wire : g.Feeds o i) :
    g.disconnect o i = .ok (g.cut ⟨o, i⟩) := by
  obtain ⟨s, hs, -⟩ := slot_of_direction? (wire.output w.wired)
  obtain ⟨t, ht, -⟩ := slot_of_direction? (wire.input w.wired)
  have has : (g.wiresAround i.node).has ⟨o, i⟩ = true := by
    rw [Wiring.has, List.contains_iff_mem]
    exact (mem_wiresAround_iff w.wired ⟨o, i⟩).2 wire
  simp only [disconnect, hs, ht, bind, Except.bind, has, if_true]

/-- The removal of a wire takes the wires that fall with it and the network ports that go, and
leaves the other wires in their order. A port that stays keeps its attribute, its peer if that
stays, and what it holds, unless it is the end of a wire that falls and goes back to its default,
which is null where an output has no type. What is out of date stays so. -/
theorem disconnect_exactly {g : Graph} (r : StandardRun g) {o i : Port} (wire : g.Feeds o i) :
    ∃ h, g.disconnect o i = .ok h ∧ SameTree g h ∧
      (∀ n, ∃ l, l.Sublist (g.wires n) ∧ (∀ d ∈ g.wires n, d ∈ l ↔ ¬ g.Falls ⟨o, i⟩ d) ∧
        List.Forall₂ (Kin g h) l (h.wires n)) ∧
      (∀ p, (g.attr? p).isSome → ((∃ q, Namesake g h p q) ↔ ¬ g.Goes ⟨o, i⟩ p)) ∧
      (∀ q, (h.attr? q).isSome → ∃ p, Namesake g h p q) ∧
      ∀ p q, Namesake g h p q → h.attr? q = g.attr? p ∧
        (∀ s, h.peer? q = some s ↔ ∃ t, g.peer? p = some t ∧ Namesake g h t s) ∧
        ((∀ d, g.Falls ⟨o, i⟩ d → ¬ h.Yields d p q) → h.held q = g.held p) ∧
        (∀ a d, h.attr? q = some a → g.Falls ⟨o, i⟩ d → h.Yields d p q →
          h.value q = a.default.payload? ∧ (a.default.portType = none → h.value q = none)) ∧
        (g.isStale p = true → h.isStale q = true) := by
  have w := (standard_of_run r).lawful
  have wf := w.wellFormed
  have x := remains_cut (e := ⟨o, i⟩) wf wire
  obtain ⟨old, lost, remnant⟩ := x.remnant
  have gone {d : Edge} : lost d ↔ g.Falls ⟨o, i⟩ d := remnant.lost_iff_falls w wire
  refine ⟨g.cut ⟨o, i⟩, disconnect_of_feeds wf wire, remnant.tree, fun n => wires_cut w wire n,
    fun p hp => stays_iff w wire hp, fun q hq => ⟨old q, (remnant.namesake_iff wf).2 ⟨hq, rfl⟩⟩, ?_⟩
  intro p q same
  obtain ⟨live, rfl⟩ := (remnant.namesake_iff wf).1 same
  refine ⟨remnant.attr q live, fun s => ?_, fun untouched => ?_, fun a d ha falls yields => ?_,
    remnant.stale q live⟩
  · rw [remnant.peer q s live]
    constructor
    · rintro ⟨hs, peer⟩
      exact ⟨_, peer, (remnant.namesake_iff wf).2 ⟨hs, rfl⟩⟩
    · rintro ⟨t, peer, same⟩
      obtain ⟨hs, rfl⟩ := (remnant.namesake_iff wf).1 same
      exact ⟨hs, peer⟩
  · exact remnant.keeps q live fun d hl => untouched d (gone.1 hl)
  · have reset := remnant.resets q a d ha (gone.2 falls) yields
    refine ⟨reset, fun untyped => ?_⟩
    rw [reset]
    cases hv : a.default with
    | null => rfl
    | _ => simp [hv, Value.portType] at untyped

/-- A network with an input node that feeds a relay, and a relay outside that feeds the network. -/
def fedRelay : Graph :=
  let g := (Action.addNode ⟨1⟩ relay "s" .standard).after inputRelay
  (Action.connect ⟨⟨5⟩, 1⟩ ⟨⟨2⟩, 0⟩).after g

theorem standardRun_fedRelay : StandardRun fedRelay :=
  .step (.step standardRun_inputRelay (.of_name sound_relay (by decide) (by decide) (by decide)))
    trivial

/-- Without the wire inside, the port of the network and the wire outside go. -/
theorem fedRelay_disconnect : ∃ h, fedRelay.disconnect ⟨⟨3⟩, 0⟩ ⟨⟨4⟩, 0⟩ = .ok h ∧
    fedRelay.Feeds ⟨⟨3⟩, 0⟩ ⟨⟨4⟩, 0⟩ ∧ fedRelay.Feeds ⟨⟨5⟩, 1⟩ ⟨⟨2⟩, 0⟩ ∧ h.wires ⟨1⟩ = [] ∧
    ¬ ∃ q, Namesake fedRelay h ⟨⟨2⟩, 0⟩ q := by
  have known : (fedRelay.wires ⟨1⟩, fedRelay.wires ⟨2⟩, fedRelay.peer? ⟨⟨2⟩, 0⟩,
      fedRelay.around? ⟨3⟩) = ([⟨⟨⟨5⟩, 1⟩, ⟨⟨2⟩, 0⟩⟩], [⟨⟨⟨3⟩, 0⟩, ⟨⟨4⟩, 0⟩⟩], some ⟨⟨3⟩, 0⟩, some ⟨2⟩) := by cbv
  have live : (fedRelay.contents? ⟨2⟩).isSome ∧ (fedRelay.attr? ⟨⟨2⟩, 0⟩).isSome := by cbv
  simp only [Prod.mk.injEq] at known
  obtain ⟨outside, inside, peer, around⟩ := known
  have wired := (standard_of_run standardRun_fedRelay).lawful.wellFormed.wired
  have inner : fedRelay.Feeds ⟨⟨3⟩, 0⟩ ⟨⟨4⟩, 0⟩ := ⟨⟨2⟩, by simp [inside]⟩
  have outer : fedRelay.Feeds ⟨⟨5⟩, 1⟩ ⟨⟨2⟩, 0⟩ := ⟨⟨1⟩, by simp [outside]⟩
  have all (f : Edge) (hf : fedRelay.Feeds f.output f.input) (ends : f.endsAt ⟨⟨3⟩, 0⟩ = true) :
      fedRelay.Falls ⟨⟨⟨3⟩, 0⟩, ⟨⟨4⟩, 0⟩⟩ f := by
    obtain ⟨n, hn⟩ := hf
    obtain rfl : ⟨2⟩ = n := Option.some.inj (around.symm.trans (around?_of_endsAt wired hn ends))
    rw [inside] at hn
    have same : f = ⟨⟨⟨3⟩, 0⟩, ⟨⟨4⟩, 0⟩⟩ := List.mem_singleton.1 hn
    rw [same]
    exact .asked
  obtain ⟨h, ok, -, wires, ports, -⟩ := disconnect_exactly standardRun_fedRelay inner
  refine ⟨h, ok, inner, outer, ?_, fun stays => ?_⟩
  · obtain ⟨l, sub, members, kin⟩ := wires ⟨1⟩
    rw [outside] at sub members
    have falls : fedRelay.Falls ⟨⟨⟨3⟩, 0⟩, ⟨⟨4⟩, 0⟩⟩ ⟨⟨⟨5⟩, 1⟩, ⟨⟨2⟩, 0⟩⟩ :=
      .behind outer (by decide) ⟨peer, live.1⟩ all
    have none : l = [] := by
      refine List.eq_nil_iff_forall_not_mem.2 fun d hd => ?_
      obtain rfl := List.mem_singleton.1 (sub.subset hd)
      exact (members _ (by simp)).1 hd falls
    subst none
    cases hw : h.wires ⟨1⟩ with
    | nil => rfl
    | cons => rw [hw] at kin; cases kin
  · exact (ports _ live.2).1 stays ⟨_, ⟨peer, live.1⟩, all⟩

end Dataflow.Graph
