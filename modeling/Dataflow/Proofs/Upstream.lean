import Dataflow.Proofs.Falling
import Dataflow.Proofs.Counterpart
import Dataflow.Proofs.Projection
set_option autoImplicit false

/-!
What lies before an output of which a wire is cut. All that falls with the wire carries only what is
made from the output. Main statement: what the output is made from then is in every respect what it
was, so that it reads the same.
-/

namespace Dataflow

/-- Where things are renamed one by one, a walk takes the same way under the new names. -/
theorem walk_map {α β : Type} [DecidableEq α] [DecidableEq β] {V : α → Prop} {f : α → β}
    {next : α → List α} {next' : β → List β} (injective : ∀ a b, V a → V b → f a = f b → a = b)
    (closed : ∀ a b, V a → b ∈ next a → V b) (renamed : ∀ a, V a → next' (f a) = (next a).map f)
    {free todo : List α} {free' : List β} (nodup : free.Nodup) (nodup' : free'.Nodup)
    (same : ∀ a, V a → (f a ∈ free' ↔ a ∈ free)) (start : ∀ a ∈ todo, V a) :
    walk next' free' (todo.map f) = (walk next free todo).map f := by
  fun_induction walk next free todo generalizing free' with
  | case1 => simp [walk]
  | case2 free a rest ha ih =>
    have hV := start a (by simp)
    rw [List.map_cons, walk, if_pos ((same a hV).2 ha), List.map_cons, renamed a hV,
      ← List.map_append]
    refine congrArg _ (ih (nodup.erase a) (nodup'.erase _) (fun b hb => ?_) fun b hb => ?_)
    · rw [nodup.mem_erase_iff, nodup'.mem_erase_iff, same b hb, Ne, Ne]
      exact and_congr_left fun _ => not_congr ⟨injective b a hb hV, congrArg f⟩
    · rcases List.mem_append.1 hb with hb | hb
      · exact closed a b hV hb
      · exact start b (by simp [hb])
  | case3 free a rest ha ih =>
    have hV := start a (by simp)
    rw [List.map_cons, walk, if_neg (mt (same a hV).1 ha)]
    exact ih nodup nodup' same fun b hb => start b (by simp [hb])

namespace Graph

/-! ### What computations and clients have left -/

namespace Aside

theorem resetEnds (g : Graph) (e : Edge) : Aside g (g.resetEnds e) := by
  have input (g : Graph) (p : Port) : Aside g (g.resetInput p) := by
    rw [resetInput]
    split
    · split
      · exact .hold g _ _
      · exact .refl g
    · exact .refl g
  have output (g : Graph) (p : Port) : Aside g (g.resetOutput p) := by
    rw [resetOutput]
    split
    · split
      · exact .hold g _ _
      · exact .refl g
    · exact .refl g
  rw [resetEnds_eq]
  exact (input g e.input).trans (output _ e.output)

theorem dropPort (g : Graph) (b : Port) : Aside g (g.dropPort b) := by
  rw [Graph.dropPort]
  refine (((Aside.trans ?_ (modifyNode _ _ _ ?_ ?_)).trans (readdress _ _ _)).trans
    (modifyWiresAround _ _ _)).trans (emit _ _)
  · split
    · exact setPeer g _ _
    · exact .refl g
  all_goals exact fun _ => rfl

theorem cutWithin (levels : Nat) (g : Graph) (e : Edge) : Aside g (cutWithin levels g e) := by
  induction levels generalizing g e with
  | zero => exact .refl g
  | succ levels ih =>
    have atEnd (g : Graph) (t : Port) : Aside g (shrinkAt (Graph.cutWithin levels) g t) := by
      rw [shrinkAt]
      split
      · rw [dropBoundary_eq]
        exact (foldl ih _ g).trans (dropPort _ _)
      · exact .refl g
    have either (c : Prop) [Decidable c] (g : Graph) (t : Port) :
        Aside g (if c then shrinkAt (Graph.cutWithin levels) g t else g) := by
      split
      · exact atEnd g t
      · exact .refl g
    have shrunk (g : Graph) : Aside g (shrinkBoundary (Graph.cutWithin levels) g e) := by
      rw [shrinkBoundary_eq]
      exact (either _ g e.output).trans (either _ _ e.input)
    rw [Graph.cutWithin]
    split
    · exact ((((modifyWiresAround g _ _).trans (resetEnds _ e)).trans (spread _ _)).trans
        (shrunk _)).trans (emit _ _)
    · exact .refl g

end Aside

/-! ### What falls -/

/-- A wire that falls with one at an output without a peer is this one, or it starts at a port of a
network that is made from the output. -/
theorem Falls.past {g : Graph} {e d : Edge} (w : g.Lawful) (unlinked : g.peer? e.output = none)
    (f : g.Falls e d) :
    d = e ∨ (g.contents? d.output.node).isSome ∧ Relation.TransGen g.Flows e.output d.output := by
  have wf := w.wellFormed
  induction f with
  | asked => exact .inl rfl
  | @behind d b t wire ends hosts all ih =>
    have faces := hosts.faces wf
    have back := wf.linked.back _ _ hosts.1
    obtain ⟨q, hf⟩ := (w.fitted t faces.isSome_terminal?).1 (by rw [back]; rfl)
    refine .inr ?_
    rcases hf with hf | hf
    · -- no terminal has the wire, and no port of a network is one
      rcases ih ⟨t, q⟩ hf (by simp [Edge.endsAt]) with rfl | ⟨network, -⟩
      · rw [back] at unlinked
        cases unlinked
      · rw [hosts.contents? wf] at network
        cases network
    · have input := hf.input wf.wired
      have way : Relation.TransGen g.Flows e.output t := by
        rcases ih ⟨q, t⟩ hf (by simp [Edge.endsAt]) with rfl | ⟨-, way⟩
        · exact .single (.inr (.inl hf))
        · exact way.tail (.inr (.inl hf))
      have here : d.output = b := by
        simp only [Edge.endsAt, Bool.or_eq_true, beq_iff_eq] at ends
        refine ends.resolve_right ?_
        rintro rfl
        exact faces.direction_ne (input.trans (wire.input wf.wired).symm)
      rw [here]
      exact ⟨hosts.2, way.tail (.inr (.inr ⟨input, back⟩))⟩

theorem feeds_of_flows {g : Graph} (w : g.WellFormed) {p q : Port}
    (hd : g.direction? p = some .output) (hf : g.Flows p q) : g.Feeds p q := by
  rcases hf with hf | hf | ⟨hi, -⟩
  · rw [hf.input w] at hd
    cases hd
  · exact hf
  · rw [hi] at hd
    cases hd

/-! ### What stays as it was -/

/-- The graph `h` is what is left of `g` without the wires in `lost`, which carry only what is made
from `o`. -/
structure Shorn (old : Port → Port) (lost : Edge → Prop) (o : Port) (g h : Graph) : Prop where
  remnant : Remnant old lost g h
  before : g.WellFormed
  after : h.WellFormed
  standard : g.Standard
  acyclic : g.Acyclic
  even : Even g h
  behind : ∀ d, lost d → Relation.ReflTransGen g.Flows o d.output

/-- The port, which is left, has stood where `o` was made from it. -/
def Upstream (old : Port → Port) (o : Port) (g h : Graph) (p : Port) : Prop :=
  (h.attr? p).isSome ∧ Relation.TransGen g.Flows (old p) o

/-- The port is upstream, or it is an input that has its value from upstream. -/
def Nearby (old : Port → Port) (o : Port) (g h : Graph) (p : Port) : Prop :=
  Upstream old o g h p ∨ ∃ q, Upstream old o g h q ∧ h.Feeds q p

namespace Shorn
variable {old : Port → Port} {lost : Edge → Prop} {o : Port} {g h : Graph}
  (s : Shorn old lost o g h) {p q : Port}
include s

/-- Nothing upstream has its value from a wire that is gone. -/
theorem apart {d : Edge} (hl : lost d) : ¬ Relation.ReflTransGen g.Flows d.input o :=
  fun path => s.acyclic o
    (.trans_right (s.behind d hl) (.head' (.inr (.inl (s.remnant.real d hl))) path))

/-- Nor does it feed such a wire. -/
theorem ahead {d : Edge} (hl : lost d) : ¬ Relation.TransGen g.Flows d.output o :=
  fun path => s.acyclic o (.trans_right (s.behind d hl) path)

theorem closed (hp : Upstream old o g h p) (hq : q ∈ h.predecessors p) : Upstream old o g h q := by
  have flows := flows_of_predecessor s.after hq
  exact ⟨(isSome_direction?_iff h q).1 (flows.isSome_left s.after),
    .head (s.remnant.flows q p flows) hp.2⟩

theorem live (hp : Nearby old o g h p) : (h.attr? p).isSome := by
  rcases hp with hp | ⟨q, -, hf⟩
  · exact hp.1
  · exact hf.isSome_input s.after.wired

theorem injective (hp : Nearby old o g h p) (hq : Nearby old o g h q) (same : old p = old q) :
    p = q :=
  s.remnant.injective s.after (s.live hp) (s.live hq) same

theorem direction (hp : (h.attr? p).isSome) : g.direction? (old p) = h.direction? p := by
  rw [direction?_eq, direction?_eq, s.remnant.attr p hp]

/-- A nearby output is upstream. -/
theorem upstream (hp : Nearby old o g h p) (hd : h.direction? p = some .output) :
    Upstream old o g h p := by
  rcases hp with hp | ⟨q, -, hf⟩
  · exact hp
  · rw [hf.input s.after.wired] at hd
    cases hd

/-- What is nearby has its value from where it had it. -/
theorem source (hp : Nearby old o g h p) : g.source? (old p) = (h.source? p).map old := by
  have w := s.before.wired
  have w' := s.after.wired
  cases hq : h.source? p with
  | some q =>
    have fed := (source?_eq_some_iff w' q p).1 hq
    exact (source?_eq_some_iff w _ _).2 (s.remnant.feeds fed)
  | none =>
    rw [Option.map_none, Option.eq_none_iff_forall_ne_some]
    intro r hr
    have hf := (source?_eq_some_iff w r _).1 hr
    rcases hp with hp | ⟨q, -, hf⟩
    · have kept : ¬ lost ⟨r, old p⟩ := fun hl => s.apart hl hp.2.to_reflTransGen
      obtain ⟨⟨q, j⟩, hd, eq⟩ := s.remnant.stays ⟨r, old p⟩ hf kept
      have input := s.remnant.injective s.after (hd.isSome_input w') hp.1 (congrArg Edge.input eq)
      rw [show j = p from input, ← source?_eq_some_iff w', hq] at hd
      cases hd
    · rw [← source?_eq_some_iff w', hq] at hf
      cases hf

/-- No wire from a port upstream is gone. -/
theorem stays (hp : Upstream old o g h p) {i : Port} (hf : g.Feeds (old p) i) :
    ∃ j, h.Feeds p j ∧ old j = i := by
  have kept : ¬ lost ⟨old p, i⟩ := fun hl => s.ahead hl hp.2
  obtain ⟨⟨q, j⟩, hd, eq⟩ := s.remnant.stays ⟨old p, i⟩ hf kept
  have output := s.remnant.injective s.after (hd.isSome_output s.after.wired) hp.1
    (congrArg Edge.output eq)
  rw [show q = p from output] at hd
  exact ⟨j, hd, congrArg Edge.input eq⟩

theorem sinks (hp : Upstream old o g h p) :
    g.sinks (old p) = (h.sinks p).map old := by
  have w' := s.after.wired
  rw [Graph.sinks, Graph.sinks, s.remnant.node, wiresAround_eq, wiresAround_eq,
    s.remnant.tree.around]
  cases hn : g.around? p.node with
  | none => rfl
  | some n =>
    have same : ∀ d ∈ h.wires n, (old d.output == old p) = (d.output == p) := fun d hd => by
      have hf : h.Feeds d.output d.input := ⟨n, hd⟩
      rw [Bool.eq_iff_iff, beq_iff_eq, beq_iff_eq]
      exact ⟨s.remnant.injective s.after (hf.isSome_output w') hp.1, congrArg old⟩
    have listed : ((h.wires n).filter fun d => d.output == p).map (Edge.mapPorts old) =
        (g.wires n).filter fun d => d.output == old p := by
      have sub := (s.remnant.wires n).filter fun d => d.output == old p
      rw [List.filter_map, List.filter_congr (q := fun d => d.output == p) same] at sub
      refine sub.eq_of_length_le (List.Subperm.length_le ?_)
      refine List.subperm_of_subset ((nodup_wires s.before.wired n).filter _) fun e he => ?_
      obtain ⟨he, output⟩ := List.mem_filter.1 he
      rw [beq_iff_eq] at output
      obtain ⟨j, ⟨m, hj⟩, input⟩ := s.stays hp (output ▸ ⟨n, he⟩ : g.Feeds (old p) e.input)
      obtain rfl : n = m := by
        have around := w'.outputAround m _ hj
        rw [s.remnant.tree.around, hn] at around
        exact Option.some.inj around
      refine List.mem_map.2 ⟨_, List.mem_filter.2 ⟨hj, beq_self_eq_true p⟩, ?_⟩
      rw [Edge.mapPorts, ← output, input]
    simp only [Option.elim_some, Wiring.sinks, ← listed, List.map_map]
    rfl

theorem peer (hp : Upstream old o g h p) (hd : h.direction? p = some .output) :
    g.peer? (old p) = (h.peer? p).map old := by
  cases hq : h.peer? p with
  | some q => exact ((s.remnant.peer p q hp.1).1 hq).2
  | none =>
    rw [Option.map_none, Option.eq_none_iff_forall_ne_some]
    intro r hr
    have back := s.before.linked.back _ _ hr
    rcases s.remnant.ports r (isSome_attr?_of_peer? g back) with ⟨q, hq', rfl⟩ | ⟨t, hosts, bare⟩
    · rw [(s.remnant.peer p q hp.1).2 ⟨hq', hr⟩] at hq
      cases hq
    · -- the terminal has kept its wires
      have here : old p = t := Option.some.inj (back.symm.trans hosts.1)
      have leaf : g.contents? p.node = none := by
        rw [← s.remnant.node, here]
        exact hosts.contents? s.before
      obtain ⟨i, flows, -⟩ := Relation.TransGen.head'_iff.1 hp.2
      obtain ⟨j, hf, -⟩ := s.stays hp (feeds_of_flows s.before (by rw [s.direction hp.1, hd]) flows)
      rw [← here, s.remnant.fixed p leaf] at bare
      exact bare ⟨j, .inl hf⟩

theorem isStale (hp : Upstream old o g h p) : g.isStale (old p) = h.isStale p := by
  rw [Bool.eq_iff_iff]
  refine ⟨s.remnant.stale p hp.1, fun stale => (s.remnant.spread p stale).resolve_right ?_⟩
  rintro ⟨d, hl, path⟩
  exact s.apart hl (path.trans hp.2.to_reflTransGen)

theorem held (hp : Upstream old o g h p) : g.held (old p) = h.held p := by
  refine (s.remnant.keeps p hp.1 ?_).symm
  rintro d hl ⟨a, -, ⟨input, -⟩ | ⟨output, -⟩⟩
  · exact s.apart hl (input ▸ hp.2.to_reflTransGen)
  · exact s.ahead hl (output ▸ hp.2)

theorem declared (hp : (h.attr? p).isSome) : g.declaredType (old p) = h.declaredType p := by
  rw [declaredType_eq, declaredType_eq, s.remnant.attr p hp]

theorem typeSources (hp : Nearby old o g h p) :
    g.typeSources (old p) = (h.typeSources p).map old := by
  obtain ⟨a, ha⟩ := Option.isSome_iff_exists.1 (s.live hp)
  have ha' : g.attr? (old p) = some a := by rw [← s.remnant.attr p (s.live hp), ha]
  have source := s.source hp
  rw [typeSources_eq, typeSources_eq, ha, ha']
  cases ht : a.type with
  | some t => simp only [ht, List.map_nil]
  | none =>
    cases hd : a.direction with
    | input => simp only [ht, hd, source, Option.toList_map]
    | output =>
      have output : h.direction? p = some .output := by rw [direction?_eq, ha, Option.map_some, hd]
      have hp := s.upstream hp output
      simp only [ht, hd, s.peer hp output, s.sinks hp, List.map_append, Option.toList_map]

/-- Where a nearby port looks for a type is nearby as well. -/
theorem typeSources_nearby (hp : Nearby old o g h p) (hq : q ∈ h.typeSources p) :
    Nearby old o g h q := by
  obtain ⟨-, -, fed | ⟨hd, linked | feeds⟩⟩ := (mem_typeSources_iff s.after p q).1 hq
  · rcases hp with hp | ⟨r, hr, hf⟩
    · have copied : q ∈ h.predecessors p := (mem_predecessors_iff h p q).2
        (.inl (.inl ⟨fed.input s.after.wired, (source?_eq_some_iff s.after.wired q p).2 fed⟩))
      exact .inl (s.closed hp copied)
    · rw [fed.unique s.after.wired hf]
      exact .inl hr
  · have copied : q ∈ h.predecessors p := (mem_predecessors_iff h p q).2 (.inl (.inr ⟨hd, linked⟩))
    exact .inl (s.closed (s.upstream hp hd) copied)
  · exact .inr ⟨p, s.upstream hp hd, feeds⟩

theorem effectiveType (hp : Nearby old o g h p) : g.effectiveType (old p) = h.effectiveType p := by
  have way : walk g.typeSources g.ports [old p] = (walk h.typeSources h.ports [p]).map old := by
    have start : ∀ q ∈ [p], Nearby old o g h q := by simpa using hp
    refine walk_map (fun _ _ => s.injective) (fun _ _ => s.typeSources_nearby)
      (fun _ => s.typeSources) (nodup_portsWhere s.after.tree _) (nodup_portsWhere s.before.tree _)
      (fun q hq => ?_) start
    change old q ∈ g.ports ↔ q ∈ h.ports
    rw [mem_ports_iff s.before.tree, mem_ports_iff s.after.tree, s.direction (s.live hq)]
  have declared (q : Port) (hq : q ∈ walk h.typeSources h.ports [p]) :
      (g.declaredType ∘ old) q = h.declaredType q := by
    have live := mem_free_of_mem_walk _ _ _ _ hq
    rw [mem_ports_iff s.after.tree, isSome_direction?_iff] at live
    exact s.declared live
  rw [Graph.effectiveType, Graph.effectiveType, way, List.findSome?_map, ← List.head?_filterMap,
    ← List.head?_filterMap, List.filterMap_congr declared]

theorem fallback (hp : Upstream old o g h p) : g.fallback? (old p) = h.fallback? p := by
  have attrs : (g.sinks (old p)).filterMap g.attr? = (h.sinks p).filterMap h.attr? := by
    rw [s.sinks hp, List.filterMap_map]
    refine List.filterMap_congr fun q hq => ?_
    have hf := (mem_sinks_iff s.after.wired p q).1 hq
    exact (s.remnant.attr q (hf.isSome_input s.after.wired)).symm
  rw [fallback?_eq, fallback?_eq, attrs, s.remnant.attr p hp.1]

theorem leaf (hp : Upstream old o g h p) (hd : h.direction? p = some .output)
    (hq : h.peer? p = none) : g.contents? p.node = none := by
  rw [← s.remnant.node, ← Option.not_isSome_iff_eq_none]
  intro network
  have peer := s.standard.projected (old p) network (s.remnant.live hp.1)
  simp [s.peer hp hd, hq] at peer

theorem fellow (hp : Upstream old o g h p) (hd : h.direction? p = some .output)
    (hq : h.peer? p = none) (function : ∀ t, h.type? p.node = some t → t.Scoped) :
    Fellow old h g p := by
  have leaf := s.leaf hp hd hq
  have here := s.remnant.fixed p leaf
  have nearby (q : Port) (influence : h.Influences q p) : old q = q ∧ Nearby old o g h q :=
    ⟨s.remnant.fixed q (by rw [influence.1, leaf]),
      .inl (s.closed hp ((mem_predecessors_of_made hd hq q).2 influence))⟩
  refine ⟨here, (s.remnant.type p.node leaf).symm, ?_, fun q influence => ?_, ?_, function⟩
  · have same := s.effectiveType (.inl hp)
    rwa [here] at same
  · obtain ⟨fixed, hq⟩ := nearby q influence
    have same := s.effectiveType hq
    rw [fixed] at same
    exact ⟨fixed, same⟩
  · have same := s.fallback hp
    rwa [here] at same

/-- What is upstream reads as it did. -/
theorem counterparts (function : ∀ q t, Relation.TransGen g.Flows q o → g.Computing q →
    g.type? q.node = some t → t.Scoped) : Counterparts (Upstream old o g h) (fun _ => False) old h g where
  wellFormed := s.after
  sound := s.before
  config := s.remnant.tree.config.symm
  closed := fun _ _ => s.closed
  injective := fun _ _ hp hq => s.injective (.inl hp) (.inl hq)
  live := fun p hp => (isSome_direction?_iff h p).2 hp.1
  direction := fun _ hp => s.direction hp.1
  source := fun _ hp _ => s.source (.inl hp)
  peer := fun _ hp hd => s.peer hp hd
  made := fun p hp hd hq => s.fellow hp hd hq fun t ht => by
    cases hc : t.compute with
    | none => exact NodeType.scoped_of_inert hc
    | some c =>
      have leaf := s.leaf hp hd hq
      have here := s.remnant.fixed p leaf
      have hd' := s.direction hp.1
      have hq' := s.peer hp hd
      rw [here, hd] at hd'
      rw [here, hq] at hq'
      rw [s.remnant.type p.node leaf] at ht
      exact function p t (here ▸ hp.2) ⟨hd', hq', t, ht, by rw [hc]; rfl⟩ ht
  replaced := fun _ _ => False.elim
  note := s.even.note.symm
  calls := s.even.calls.symm
  stale := fun _ hp => s.isStale hp
  value := fun p hp _ => congrArg Value.payload? (s.held hp)

end Shorn

/-- So it is when a wire of an output without a peer is cut. -/
theorem shorn_cut {g : Graph} (r : StandardRun g) {o i : Port} (wire : g.Feeds o i)
    (unlinked : g.peer? o = none) :
    ∃ old lost, Shorn old lost o g (g.cut ⟨o, i⟩) ∧ ∀ d, lost d ↔ g.Falls ⟨o, i⟩ d := by
  have w := standard_of_run r
  have wf := w.lawful.wellFormed
  have remains := remains_cut (e := ⟨o, i⟩) wf wire
  obtain ⟨old, lost, x⟩ := remains.remnant
  have falls {d : Edge} := x.lost_iff_falls (d := d) w.lawful wire
  have acyclic := (acyclic_of_grown (grown_of_standard r)).holds
  refine ⟨old, lost, ⟨x, wf, remains.wellFormed, w.holds, acyclic, (Aside.cutWithin _ g _).even, ?_⟩,
    fun _ => falls⟩
  intro d hl
  rcases (falls.1 hl).past w.lawful unlinked with rfl | ⟨-, path⟩
  · exact .refl
  · exact path.to_reflTransGen

end Graph
end Dataflow
