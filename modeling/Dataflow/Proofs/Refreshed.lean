import Dataflow.Proofs.Cycles
import Dataflow.Proofs.Propagation
import Dataflow.Proofs.Turn
set_option autoImplicit false

/-!
Bringing a whole graph up to date. Main statement: after a pass over the graph every port that is
still out of date waits, through ports that are out of date as well, for an output without a type
whose own computation has failed in the pass and found no default. If there is none, all is up to
date after one run of each computation that was called for, whatever the depth of the graph.
-/

namespace Dataflow.Graph

theorem nodup_stalePorts {g : Graph} (w : g.Tree) : g.stalePorts.Nodup :=
  (List.mergeSort_perm _ _).nodup_iff.2 (nodup_portsWhere w _)

theorem SameFrame.mem_predecessors {g h : Graph} (a : SameFrame g h) (p q : Port) :
    q ∈ h.predecessors p ↔ q ∈ g.predecessors p := by
  rw [mem_predecessors_iff, mem_predecessors_iff, a.copies, a.direction, a.peer, a.influences]

/-- Since `g₀` the computation of `p` has run, and it fails. -/
def Broken (g₀ g : Graph) (p : Port) : Prop :=
  g.Failing p ∧ ∃ l, g.computings = l ++ g₀.computings ∧ p ∈ l

/-- How far a pass that started from `g₀` has come when the ports in `rest` are still to be read. -/
structure Underway (g₀ : Graph) (rest : List Port) (g : Graph) : Prop where
  frame : SameFrame g₀ g
  waiting : ∀ p ∈ rest, g.isStale p = true ∧ g₀.isStale p = true
  above : ∀ p ∉ rest, g.isStale p = true → ∀ q ∈ g₀.predecessors p, q ∉ rest
  stuck : ∀ p ∉ rest, g.isStale p = true → ∃ k, Stuck (· ∉ rest) g p k
  cause : ∀ p ∉ rest, g.isStale p = true →
    (∃ q ∈ g₀.predecessors p, g.isStale q = true) ∨ Broken g₀ g p
  runs : ∃ l, g.computings = l ++ g₀.computings
  once : (∀ p ∉ rest, g.isStale p = false) → ∃ l, g.computings = l ++ g₀.computings ∧ l.Nodup ∧
    ∀ p, p ∈ l ↔ p ∉ rest ∧ g₀.isStale p = true ∧ g₀.Computing p

section Pass
variable {g₀ g : Graph} {p : Port} {rest : List Port}

theorem SameFrame.computing (a : SameFrame g₀ g) : g.Computing = g₀.Computing := by
  funext p
  simp only [Computing, a.direction, a.peer, a.type]

/-- Before the pass nothing has run, and what is not to be read is up to date. -/
theorem underway_start (rest : List Port) (all : ∀ p, p ∈ rest ↔ g₀.isStale p = true) :
    Underway g₀ rest g₀ := by
  have current (p : Port) (hp : p ∉ rest) (hs : g₀.isStale p = true) : False := hp ((all p).2 hs)
  constructor
  case frame => exact .refl g₀
  case waiting => exact fun p hp => ⟨(all p).1 hp, (all p).1 hp⟩
  case above | stuck | cause => exact fun p hp hs => (current p hp hs).elim
  case runs => exact ⟨[], rfl⟩
  case once =>
    refine fun _ => ⟨[], rfl, .nil, fun p => ?_⟩
    simp only [List.not_mem_nil, false_iff]
    exact fun h => current p h.1 h.2.1

section Step
variable {h : Graph} (u : Underway g₀ (p :: rest) g) (w : g₀.Tree)
include u

include w in
/-- What is behind stays as it is while the other ports that have been read do. -/
theorem Underway.kept (same : SameOn (· ∉ p :: rest) g h) (runs : ∃ l, h.computings = l ++ g.computings)
    {q : Port} (hq : q ∉ p :: rest) (hs : g.isStale q = true) :
    (∃ k, Stuck (· ∉ rest) h q k) ∧
      ((∃ r ∈ g₀.predecessors q, h.isStale r = true) ∨ Broken g₀ h q) := by
  have above := u.above q hq hs
  constructor
  · obtain ⟨k, s⟩ := u.stuck q hq hs
    exact ⟨k, s.of_sameOn same (fun r hr hmem => hr (by simp [hmem])) (by rw [same.stale q hq, hs])⟩
  · rcases u.cause q hq hs with ⟨r, hr, hrs⟩ | ⟨failing, l, hl, hm⟩
    · exact .inl ⟨r, hr, by rw [same.stale r (above r hr), hrs]⟩
    · obtain ⟨l', hl'⟩ := runs
      have w' := (SameTree.of_sameFrame u.frame).tree w
      refine .inr ⟨failing.of_sameOn same w' fun r hr => ?_, l' ++ l, ?_, by simp [hm]⟩
      · exact above r ((u.frame.mem_predecessors q r).1 hr)
      · rw [hl', hl, List.append_assoc]

variable (fresh : p ∉ rest) (order : ∀ q ∈ g₀.predecessors p, q ∉ p :: rest)

theorem Underway.runs_after (runs : ∃ l, h.computings = l ++ g.computings) :
    ∃ l, h.computings = l ++ g₀.computings := by
  obtain ⟨l, hl⟩ := u.runs
  obtain ⟨l', hl'⟩ := runs
  exact ⟨l' ++ l, by rw [hl', hl, List.append_assoc]⟩

include w fresh order

/-- A read that succeeds brings the pass one port further. -/
theorem Underway.current (turned : Turned p g h) (runs : ∃ l, h.computings = l ++ g.computings)
    (once : (∀ q ∈ g.predecessors p, g.isStale q = false) →
      ¬ g.Computing p ∧ h.computings = g.computings ∨
        g.Computing p ∧ h.computings = p :: g.computings) : Underway g₀ rest h := by
  have same : SameOn (· ∉ p :: rest) g h := turned.same.mono fun q hq => by
    rintro rfl
    simp at hq
  -- what has been read and is out of date was so before
  have before (q : Port) (hq : q ∉ rest) (hs : h.isStale q = true) :
      q ∉ p :: rest ∧ g.isStale q = true := by
    have ne : q ≠ p := by
      rintro rfl
      rw [turned.current] at hs
      cases hs
    exact ⟨by simp [ne, hq], by rw [← turned.same.stale q ne, hs]⟩
  constructor
  case frame => exact u.frame.trans turned.same.frame
  case waiting =>
    intro q hq
    have ne : q ≠ p := by
      rintro rfl
      exact fresh hq
    rw [turned.same.stale q ne]
    exact u.waiting q (by simp [hq])
  case above =>
    intro q hq hs r hr hmem
    obtain ⟨hq', hs'⟩ := before q hq hs
    exact u.above q hq' hs' r hr (by simp [hmem])
  case stuck =>
    intro q hq hs
    obtain ⟨hq', hs'⟩ := before q hq hs
    exact (u.kept w same runs hq' hs').1
  case cause =>
    intro q hq hs
    obtain ⟨hq', hs'⟩ := before q hq hs
    exact (u.kept w same runs hq' hs').2
  case runs => exact u.runs_after runs
  case once =>
    intro all
    have current (q : Port) (hq : q ∉ p :: rest) : g.isStale q = false := by
      rw [← same.stale q hq]
      exact all q fun hmem => hq (by simp [hmem])
    obtain ⟨l, hl, nodup, members⟩ := u.once current
    have new : p ∉ l := fun hp => ((members p).1 hp).1 (by simp)
    have stale := (u.waiting p (by simp)).2
    have computing := congrFun u.frame.computing p
    have above : ∀ q ∈ g.predecessors p, g.isStale q = false :=
      fun q hq => current q (order q ((u.frame.mem_predecessors p q).1 hq))
    rcases once above with ⟨inert, hr⟩ | ⟨computes, hr⟩
    · refine ⟨l, by rw [hr, hl], nodup, fun q => ?_⟩
      rw [computing] at inert
      rw [members]
      constructor
      · exact fun h => ⟨fun hmem => h.1 (by simp [hmem]), h.2⟩
      · rintro ⟨hq, hs, hc⟩
        refine ⟨?_, hs, hc⟩
        simp only [List.mem_cons, hq, or_false]
        rintro rfl
        exact inert hc
    · refine ⟨p :: l, by rw [hr, hl]; rfl, List.nodup_cons.2 ⟨new, nodup⟩, fun q => ?_⟩
      rw [computing] at computes
      rw [List.mem_cons, members]
      by_cases hq : q = p
      · subst hq
        simp [fresh, stale, computes]
      · simp [hq]

/-- So does one that fails, and the port stays behind. -/
theorem Underway.behind {k : Nat} (idle : Idle g h) (s : Stuck (· ∉ p :: rest) g p k)
    (cause : (∃ q ∈ g.predecessors p, g.isStale q = true) ∨
      g.Failing p ∧ h.computings = p :: g.computings) : Underway g₀ rest h := by
  have same : SameOn (· ∉ p :: rest) g h := idle.same.mono fun _ _ => trivial
  have stale (q : Port) : h.isStale q = g.isStale q := idle.same.stale q trivial
  have hp : h.isStale p = true := by rw [stale, s.stale]
  have other (q : Port) (hq : q ∉ rest) (ne : q ≠ p) : q ∉ p :: rest := by simp [ne, hq]
  constructor
  case frame => exact u.frame.trans idle.same.frame
  case waiting =>
    intro q hq
    rw [stale]
    exact u.waiting q (by simp [hq])
  case above =>
    intro q hq hs r hr hmem
    by_cases ne : q = p
    · subst ne
      exact order r hr (by simp [hmem])
    · rw [stale] at hs
      exact u.above q (other q hq ne) hs r hr (by simp [hmem])
  case stuck =>
    intro q hq hs
    by_cases ne : q = p
    · subst ne
      exact ⟨k, s.of_sameOn same (fun r hr hmem => hr (by simp [hmem])) hp⟩
    · rw [stale] at hs
      exact (u.kept w same idle.runs (other q hq ne) hs).1
  case cause =>
    intro q hq hs
    by_cases ne : q = p
    · subst ne
      rcases cause with ⟨r, hr, hrs⟩ | ⟨failing, hr⟩
      · exact .inl ⟨r, (u.frame.mem_predecessors q r).1 hr, by rw [stale, hrs]⟩
      · obtain ⟨l, hl⟩ := u.runs
        have w' := (SameTree.of_sameFrame u.frame).tree w
        refine .inr ⟨failing.of_sameOn idle.same w' fun _ _ => trivial, q :: l, ?_, by simp⟩
        rw [hr, hl]
        rfl
    · rw [stale] at hs
      exact (u.kept w same idle.runs (other q hq ne) hs).2
  case runs => exact u.runs_after idle.runs
  case once =>
    intro all
    rw [all p fresh] at hp
    cases hp

end Step

section Run
variable (w : g₀.WellFormed) (deep : 1 ≤ g₀.config.maxDepth)
  (confined : ∀ n t, g₀.type? n = some t → t.Confined)
include w deep confined

/-- One read of the pass. What has been read before is marked as it was. -/
theorem Underway.step (u : Underway g₀ (p :: rest) g) (fresh : p ∉ rest)
    (order : ∀ q ∈ g₀.predecessors p, q ∉ p :: rest) : ∃ x h,
    (readWithin (g.config.maxDepth + 1) p).apply g = (x, h) ∧ Underway g₀ rest h ∧
      (∀ q ∉ p :: rest, h.isStale q = g.isStale q) ∧
      ((∃ v, x = .ok v) ∨ (∃ e, x = .error e) ∧ h.isStale p = true) := by
  have frame := u.frame
  have order' : ∀ q ∈ g.predecessors p, q ∉ p :: rest :=
    fun q hq => order q ((frame.mem_predecessors p q).1 hq)
  have hp := (u.waiting p (by simp)).1
  have live : (g.direction? p).isSome := by
    rw [isStale] at hp
    rw [direction?, Option.isSome_map]
    cases hs : g.slot? p with
    | none => simp [hs] at hp
    | some s => rfl
  have read := turn (P := (· ∉ p :: rest)) (frame.wellFormed w) (by rwa [frame.config]) live hp
    (by rwa [frame.type]) order' fun q hq hs => u.stuck q (order' q hq) hs
  cases hx : (readWithin (g.config.maxDepth + 1) p).apply g with
  | mk x h =>
    rw [hx] at read
    refine ⟨x, h, rfl, ?_⟩
    cases read with
    | current turned runs once =>
      refine ⟨u.current w.tree fresh order turned runs once, fun q hq => ?_, .inl ⟨_, rfl⟩⟩
      refine turned.same.stale q ?_
      rintro rfl
      simp at hq
    | stuck idle s cause =>
      have stale (q : Port) : h.isStale q = g.isStale q := idle.same.stale q trivial
      exact ⟨u.behind w.tree fresh order idle s cause, fun q _ => stale q,
        .inr ⟨⟨_, rfl⟩, by rw [stale, s.stale]⟩⟩

/-- The pass as a whole. It keeps no error if all is up to date at the end. -/
theorem Underway.run (u : Underway g₀ rest g) (nodup : rest.Nodup)
    (order : rest.Pairwise fun a b => b ∉ g₀.predecessors a)
    (apart : ∀ a ∈ rest, a ∉ g₀.predecessors a) (first : Option Error) : ∃ x h,
    (readEach rest first).apply g = (.ok x, h) ∧ Underway g₀ [] h ∧
      (∀ q ∉ rest, h.isStale q = g.isStale q) ∧
      ((∀ q, h.isStale q = false) → x = first) := by
  induction rest generalizing g first with
  | nil => exact ⟨first, g, rfl, u, fun _ _ => rfl, fun _ => rfl⟩
  | cons p rest ih =>
    obtain ⟨fresh, nodup'⟩ := List.nodup_cons.1 nodup
    obtain ⟨later, order'⟩ := List.pairwise_cons.1 order
    have before : ∀ q ∈ g₀.predecessors p, q ∉ p :: rest := by
      intro q hq hmem
      rcases List.mem_cons.1 hmem with rfl | hmem
      · exact apart q (by simp) hq
      · exact later q hmem hq
    obtain ⟨x, g₁, eq, u₁, same, ends⟩ := u.step w deep confined fresh before
    have apart' : ∀ a ∈ rest, a ∉ g₀.predecessors a := fun a ha => apart a (by simp [ha])
    obtain ⟨y, h, eq', done, same', calm⟩ := ih u₁ nodup' order' apart' (match x with
      | .ok _ => first
      | .error e => first.or (some e))
    refine ⟨y, h, ?_, done, fun q hq => ?_, fun all => ?_⟩
    · rw [readEach, Edit.apply_bind, Edit.apply_get]
      simp only [(u.waiting p (by simp)).1, if_true]
      rw [Edit.apply_bind, Edit.apply_get]
      simp only
      rw [Edit.apply_bind, Edit.apply_outcome, eq]
      cases x <;> exact eq'
    · rw [same' q fun hmem => hq (by simp [hmem]), same q hq]
    · rcases ends with ⟨v, rfl⟩ | ⟨⟨e, rfl⟩, stale⟩
      · exact calm all
      · rw [← same' p fresh, all p] at stale
        cases stale

end Run
end Pass

/-- The port `p` is out of date, and so is `q`, from which it is made. -/
def Awaits (g : Graph) (p q : Port) : Prop :=
  g.isStale p = true ∧ q ∈ g.predecessors p ∧ g.isStale q = true

section Refresh
variable {g : Graph}

theorem predecessors_wellFounded (w : g.WellFormed) (s : g.Standard) (a : g.Acyclic) :
    WellFounded fun q p => q ∈ g.predecessors p :=
  Subrelation.wf (fun h => flows_of_mem_predecessors w s h) (a.wellFounded w)

theorem refresh_spec (r : StandardRun g) (deep : 1 ≤ g.config.maxDepth)
    (confined : ∀ n t, g.type? n = some t → t.Confined) : ∃ x h,
    refresh.apply g = ((match x with | some e => .error e | none => .ok ()), h) ∧
      Underway g [] h ∧ ((∀ p, h.isStale p = false) → x = none) := by
  have w := (standard_of_run r).lawful.wellFormed
  have founded := predecessors_wellFounded w (standard_of_run r).holds
    (acyclic_of_grown (grown_of_standard r)).holds
  have order := schedule_perm g.predecessors g.stalePorts
  have start : Underway g (schedule g.predecessors g.stalePorts) g :=
    underway_start _ fun p => by rw [order.mem_iff, mem_stalePorts_iff w.tree]
  have apart (p : Port) : p ∉ g.predecessors p := fun h => founded.asymmetric p p h h
  obtain ⟨x, h, eq, done, -, calm⟩ := start.run w deep confined
    (order.nodup_iff.2 (nodup_stalePorts w.tree))
    (schedule_pairwise founded (nodup_stalePorts w.tree)) (fun p _ => apart p) none
  refine ⟨x, h, ?_, done, calm⟩
  rw [refresh, Edit.apply_bind, Edit.apply_get]
  simp only
  rw [Edit.apply_bind, eq]
  cases x <;> rfl

end Refresh

/-- After a pass a port that is still out of date awaits, directly or not, an output without a type
whose computation has failed in the pass. If there is no such output then the pass ends without an
error, everything is up to date, and the computations that have run are those of the outputs that
were out of date, each once. -/
theorem refreshed_or_awaiting {g : Graph} (r : StandardRun g) (deep : 1 ≤ g.config.maxDepth)
    (confined : ∀ n t, g.type? n = some t → t.Confined) :
    (∀ p, (Action.refresh.after g).isStale p = true →
      ∃ q, Relation.ReflTransGen (Action.refresh.after g).Awaits p q ∧
        (Action.refresh.after g).isStale q = true ∧ Broken g (Action.refresh.after g) q) ∧
    ((∀ q, ¬ Broken g (Action.refresh.after g) q) →
      (refresh.apply g).1 = .ok () ∧ (∀ p, (Action.refresh.after g).isStale p = false) ∧
        ∃ l, (Action.refresh.after g).computings = l ++ g.computings ∧ l.Nodup ∧
          ∀ p, p ∈ l ↔ g.isStale p = true ∧ g.Computing p) := by
  have w := (standard_of_run r).lawful.wellFormed
  have founded := predecessors_wellFounded w (standard_of_run r).holds
    (acyclic_of_grown (grown_of_standard r)).holds
  obtain ⟨x, h, eq, done, calm⟩ := refresh_spec r deep confined
  have after : Action.refresh.after g = h := by rw [Action.after, Action.edit, eq]
  rw [after]
  have awaits (p : Port) : h.isStale p = true → ∃ q, Relation.ReflTransGen h.Awaits p q ∧
      h.isStale q = true ∧ Broken g h q := by
    induction p using founded.induction with
    | _ p ih =>
      intro hp
      rcases done.cause p (by simp) hp with ⟨q, hq, hs⟩ | broken
      · obtain ⟨b, chain, behind, broken⟩ := ih q hq hs
        exact ⟨b, .head ⟨hp, (done.frame.mem_predecessors p q).2 hq, hs⟩ chain, behind, broken⟩
      · exact ⟨p, .refl, hp, broken⟩
  refine ⟨awaits, fun none => ?_⟩
  have current (p : Port) : h.isStale p = false := by
    cases hp : h.isStale p with
    | false => rfl
    | true =>
      obtain ⟨q, -, -, broken⟩ := awaits p hp
      exact absurd broken (none q)
  refine ⟨?_, current, ?_⟩
  · rw [eq, calm current]
  · simpa using done.once fun p _ => current p

/-- Writes its input to its output. -/
def repeater : NodeType :=
  ⟨"repeater", relay.ports, some ⟨0, fun _ => .read 0 fun
    | .ok v => .write 1 v fun _ => .done (.ok .empty)
    | .error e => .done (.error e.message)⟩⟩

theorem index_of_output_relay {i : Nat}
    (hd : (relay.ports.get? i).map Attribute.direction = some .output) : i = 1 := by
  cases i with
  | zero => cases hd
  | succ i =>
    cases i with
    | zero => rfl
    | succ i => simp [relay, Layout.get?] at hd

theorem confined_repeater : repeater.Confined where
  ends := by
    intro c p count type answers hc hd
    cases hc
    rw [NodeType.verdict, index_of_output_relay hd, show repeater.ports.inputsOf 1 = [0] by decide]
    simp only [Task.result, List.mem_singleton, if_true]
    cases answers.value 0 <;> rfl
  same := by
    intro c p count count' type answers hc
    cases hc
    rfl

/-- Three repeaters in a row, in a graph that allows one read in another. -/
def repeated : Graph :=
  let g := (Action.addNode ⟨1⟩ repeater "a" .standard).after (create ⟨1, true⟩ .start 0 [])
  let g := (Action.addNode ⟨1⟩ repeater "b" .standard).after g
  let g := (Action.addNode ⟨1⟩ repeater "c" .standard).after g
  let g := (Action.connect ⟨⟨2⟩, 1⟩ ⟨⟨3⟩, 0⟩).after g
  (Action.connect ⟨⟨3⟩, 1⟩ ⟨⟨4⟩, 0⟩).after g

theorem standardRun_repeated : StandardRun repeated := by
  have standard : repeater.Standard :=
    .of_name ⟨by decide, by decide, by decide⟩ (by decide) (by decide) (by decide)
  exact .step (.step (.step (.step (.step (.start ..) standard) standard) standard) trivial) trivial

/-- A pass gets to the end of a row that is too long for a read. -/
theorem repeated_refreshed : ((read ⟨⟨4⟩, 1⟩).apply repeated).1 = .error (.evaluationTooDeep 1) ∧
    (refresh.apply repeated).1 = .ok () ∧ ∀ p, (Action.refresh.after repeated).isStale p = false := by
  have known : (repeated.nodes.keys, repeated.type? ⟨1⟩, repeated.type? ⟨2⟩, repeated.type? ⟨3⟩,
      repeated.type? ⟨4⟩, repeated.config.maxDepth) =
      ([⟨1⟩, ⟨2⟩, ⟨3⟩, ⟨4⟩], some .network, some repeater, some repeater, some repeater, 1) := by cbv
  simp only [Prod.mk.injEq] at known
  obtain ⟨keys, h1, h2, h3, h4, depth⟩ := known
  have types (n : NodeId) (t : NodeType) (ht : repeated.type? n = some t) :
      t = .network ∨ t = repeater := by
    have live := (isSome_type?_iff repeated n).1 (by simp [ht])
    rw [keys] at live
    simp only [List.mem_cons, List.not_mem_nil, or_false] at live
    rcases live with rfl | rfl | rfl | rfl
    · exact .inl (Option.some.inj (ht.symm.trans h1))
    · exact .inr (Option.some.inj (ht.symm.trans h2))
    · exact .inr (Option.some.inj (ht.symm.trans h3))
    · exact .inr (Option.some.inj (ht.symm.trans h4))
  have confined (n : NodeId) (t : NodeType) (ht : repeated.type? n = some t) : t.Confined := by
    rcases types n t ht with rfl | rfl
    · exact NodeType.confined_of_inert rfl
    · exact confined_repeater
  -- no output of these types is without a type
  have typed (p : Port) (hd : repeated.direction? p = some .output)
      (untyped : repeated.declaredType p = none) : False := by
    obtain ⟨a, ha, -⟩ := isSome_attr?_of_direction? hd
    obtain ⟨t, ht⟩ := exists_type?_of_direction? hd
    rw [declaredType_eq, ha, Option.bind_some] at untyped
    rw [attr?_eq, ht, Option.bind_some] at ha
    have declared := List.mem_of_getElem? ha
    rcases types p.node t ht with rfl | rfl
    · cases declared
    · simp only [repeater, relay, List.mem_cons, List.not_mem_nil, or_false] at declared
      rcases declared with rfl | rfl <;> cases untyped
  have frame := (calmer_reads (o := .refresh) rfl repeated).frame
  obtain ⟨ended, current, -⟩ := (refreshed_or_awaiting standardRun_repeated (by rw [depth]) confined).2
    fun q broken => typed q (by rw [← frame.direction, broken.1.output])
      (by rw [← frame.declaredType, broken.1.untyped])
  exact ⟨by cbv, ended, current⟩

end Dataflow.Graph
