import Dataflow.Proofs.Confined
import Dataflow.Proofs.Scratch
set_option autoImplicit false

/-!
Ports that no read brings up to date. Reading such a port fails however much else has been brought up
to date meanwhile, and it fails by depth just if fewer levels are left than the failure is away. Main
statements: a copy of a stuck port is stuck, and reading inputs stops at the first one that is stuck.
-/

namespace Dataflow.Graph

/-- The frame is the same, and the ports in `P` are still out of date or hold what they held. -/
structure SameOn (P : Port → Prop) (g h : Graph) : Prop where
  frame : SameFrame g h
  stale : ∀ p, P p → h.isStale p = g.isStale p
  held : ∀ p, P p → g.isStale p = false → h.held p = g.held p

namespace SameOn
variable {P Q : Port → Prop} {g h k : Graph}

theorem refl (g : Graph) : SameOn P g g := ⟨.refl g, fun _ _ => rfl, fun _ _ _ => rfl⟩

theorem trans (a : SameOn P g h) (b : SameOn P h k) : SameOn P g k :=
  ⟨a.frame.trans b.frame, fun p hp => (b.stale p hp).trans (a.stale p hp),
    fun p hp hs => (b.held p hp (by rw [a.stale p hp, hs])).trans (a.held p hp hs)⟩

theorem mono (a : SameOn Q g h) (sub : ∀ p, P p → Q p) : SameOn P g h :=
  ⟨a.frame, fun p hp => a.stale p (sub p hp), fun p hp => a.held p (sub p hp)⟩

theorem of_quiet (a : Quiet g h) : SameOn P g h :=
  ⟨a.frame, fun p _ => by rw [a.isStale], fun p _ _ => by rw [a.held]⟩

theorem of_stored {p : Port} (a : Stored p g h) (hp : g.isStale p = true) : SameOn P g h := by
  refine ⟨a.frame, fun q _ => by rw [a.isStale], fun q _ hq => a.held ?_⟩
  rintro rfl
  rw [hp] at hq
  cases hq

end SameOn

/-- Nothing has changed but what ports hold that are out of date, and computations may have run. -/
structure Idle (g h : Graph) : Prop where
  same : SameOn (fun _ => True) g h
  runs : ∃ l, h.computings = l ++ g.computings

namespace Idle
variable {g h k : Graph}

theorem refl (g : Graph) : Idle g g := ⟨.refl g, [], rfl⟩

theorem trans (a : Idle g h) (b : Idle h k) : Idle g k := by
  obtain ⟨l, hl⟩ := a.runs
  obtain ⟨l', hl'⟩ := b.runs
  exact ⟨a.same.trans b.same, l' ++ l, by rw [hl', hl, List.append_assoc]⟩

theorem setStatus (g : Graph) (n : NodeId) (s : Status) : Idle g (g.setStatus n s) := by
  refine ⟨⟨g.sameFrame_setStatus n s, fun p _ => isStale_setStatus g n s p, fun p _ _ => ?_⟩, [], ?_⟩
  · rw [Graph.held, slot?_setStatus]
    rfl
  · exact computings_setStatus g n s

end Idle

/-- Every read of `p` fails, and by depth just if at most `k` levels are left, as long as the ports in
`P` stay what they are. -/
structure Stuck (P : Port → Prop) (g : Graph) (p : Port) (k : Nat) : Prop where
  stale : g.isStale p = true
  fails : ∀ h, SameOn P g h → h.isStale p = true → ∀ levels ≤ g.config.maxDepth + 1,
    ∃ e h', (readWithin levels p).apply h = (.error e, h') ∧ Idle h h' ∧ (TooDeep e ↔ levels ≤ k)

theorem Stuck.of_sameOn {P Q : Port → Prop} {g h : Graph} {p : Port} {k : Nat} (s : Stuck P g p k)
    (a : SameOn P g h) (sub : ∀ q, P q → Q q) (hp : h.isStale p = true) : Stuck Q h p k := by
  refine ⟨hp, fun h' b stale levels hl => ?_⟩
  rw [a.frame.config] at hl
  exact s.fails h' (a.trans (b.mono sub)) stale levels hl

theorem tooDeep_zero (p : Port) (g : Graph) :
    (readWithin 0 p).apply g = (.error (.evaluationTooDeep g.config.maxDepth), g) := by
  rw [readWithin, Edit.apply_bind, Edit.apply_get]
  rfl

/-- It is enough to look at reads that have a level for the port itself. -/
theorem Stuck.of_freshen {P : Port → Prop} {g : Graph} {p : Port} {k : Nat}
    (stale : g.isStale p = true)
    (fails : ∀ h, SameOn P g h → h.isStale p = true → ∀ levels ≤ g.config.maxDepth, ∃ e h',
      (freshen (readWithin levels) p).apply h = (.error e, h') ∧ Idle h h' ∧
        (TooDeep e ↔ levels + 1 ≤ k)) : Stuck P g p k := by
  refine ⟨stale, fun h a hp levels hl => ?_⟩
  cases levels with
  | zero => exact ⟨_, h, tooDeep_zero p h, .refl h, by simp [TooDeep]⟩
  | succ levels => exact fails h a hp levels (by omega)

/-! ### Copies -/

/-- The value of `p` is a copy of the value of `q`. -/
def Copies (g : Graph) (p q : Port) : Prop :=
  g.direction? p = some .input ∧ g.source? p = some q ∨
    g.direction? p = some .output ∧ g.peer? p = some q

theorem SameFrame.copies {g h : Graph} (a : SameFrame g h) : h.Copies = g.Copies := by
  funext p q
  simp only [Copies, a.direction, a.source, a.peer]

section Copies
variable {g h : Graph} {p q : Port}

theorem freshen_of_copies {below : Port → Edit Value} (c : g.Copies p q)
    (hp : g.isStale p = true) : (freshen below p).apply g = (copyFrom below p q).apply g := by
  rcases c with ⟨hd, hq⟩ | ⟨hd, hq⟩ <;>
    refine freshen_cases (motive := fun r => r = (copyFrom below p q).apply g) ?_ ?_ ?_ ?_ ?_ ?_ <;>
    intros <;> simp_all

theorem mem_predecessors_iff (g : Graph) (p q : Port) : q ∈ g.predecessors p ↔
    g.Copies p q ∨ g.direction? p = some .output ∧ g.peer? p = none ∧ g.Influences q p := by
  cases hm : g.node? p.node with
  | none => simp [predecessors, Copies, direction?, slot?, hm]
  | some m =>
    have inputs := mem_inputs_iff hm q
    cases hs : m.ports.get? p.index with
    | none => simp [predecessors, Copies, direction?, slot?, hm, hs]
    | some s =>
      have hd : g.direction? p = some s.attr.direction := by simp [direction?, slot?, hm, hs]
      have hp : g.peer? p = s.peer := by simp [peer?, slot?, hm, hs]
      simp only [predecessors, Copies, hm, hs, hd, hp]
      cases s.attr.direction with
      | input => simp [eq_comm]
      | output => cases s.peer <;> simp [← inputs, eq_comm]

/-- Whatever a port is made from flows into it. -/
theorem flows_of_mem_predecessors (w : g.WellFormed) (s : g.Standard) (h : q ∈ g.predecessors p) :
    g.Flows q p := by
  rcases (mem_predecessors_iff g p q).1 h with (⟨hd, hq⟩ | ⟨hd, hq⟩) | ⟨-, -, hi⟩
  · exact (flows_input_iff w hd).2 hq
  · exact (s.flows_iff w hd hq).2 rfl
  · exact .inl hi

theorem copyFrom_error {below : Port → Edit Value} {e : Error}
    (failed : (below q).apply g = (.error e, h)) :
    (copyFrom below p q).apply g = (.error e, h) := by
  rw [copyFrom, Edit.apply_bind, failed]

theorem copyFrom_ok {below : Port → Edit Value} {v : Value}
    (read : (below q).apply g = (.ok v, h)) :
    (copyFrom below p q).apply g = (.ok v, (h.hold p v).setCurrent p) := by
  rw [copyFrom, Edit.apply_bind, read]
  rfl

/-- What is copied from a stuck port is stuck, one level further away. -/
theorem Stuck.copied {P : Port → Prop} {k : Nat} (s : Stuck P g q k) (hq : P q)
    (c : g.Copies p q) (hp : g.isStale p = true) : Stuck P g p (k + 1) := by
  refine .of_freshen hp fun h a stale levels hl => ?_
  have c' : h.Copies p q := by
    rw [a.frame.copies]
    exact c
  have stale' : h.isStale q = true := by rw [a.stale q hq, s.stale]
  obtain ⟨e, h', eq, idle, deep⟩ := s.fails h a stale' levels (by omega)
  refine ⟨e, h', ?_, idle, by rw [deep]; omega⟩
  rw [freshen_of_copies c' stale, copyFrom_error eq]

end Copies

/-! ### Ports that are brought up to date -/

/-- The port `p` has been brought up to date, and other ports are what they were. -/
structure Turned (p : Port) (g h : Graph) : Prop where
  same : SameOn (· ≠ p) g h
  current : h.isStale p = false

section Turned
variable {g h : Graph} {p q : Port}

theorem Idle.turned (a : Idle g h) : Turned p g (h.setCurrent p) := by
  refine ⟨⟨a.same.frame.trans (h.sameFrame_setCurrent p), fun q hq => ?_, fun q _ hs => ?_⟩, ?_⟩
  · rw [isStale_setCurrent, if_neg (Ne.symm hq), a.same.stale q trivial]
  · rw [held_setCurrent, a.same.held q trivial hs]
  · rw [isStale_setCurrent, if_pos rfl]

theorem Turned.quiet (a : Turned p g h) {k : Graph} (b : Quiet h k) : Turned p g k :=
  ⟨a.same.trans (.of_quiet b), by rw [b.isStale, a.current]⟩

theorem Idle.settled (a : Idle g h) : Turned p g (h.settled p) := a.turned.quiet (quiet_emit _ _)

/-- A copy of a port that is up to date. -/
theorem turned_copy (c : g.Copies p q) (hp : g.isStale p = true) (hq : g.isStale q = false)
    (live : (g.direction? q).isSome) (levels : Nat) :
    ∃ v h, (freshen (readWithin (levels + 1)) p).apply g = (.ok v, h) ∧ Turned p g h ∧
      h.computings = g.computings := by
  have read : (readWithin (levels + 1) q).apply g = (.ok (g.held q), g) :=
    freshen_of_current live hq
  refine ⟨g.held q, (g.hold p (g.held q)).setCurrent p, ?_, ?_, rfl⟩
  · rw [freshen_of_copies c hp, copyFrom_ok read]
  · exact Idle.turned ⟨.of_stored (.hold g p _) hp, [], rfl⟩

/-- An input without a wire. -/
theorem turned_given (hd : g.direction? p = some .input) (hp : g.isStale p = true)
    (hs : g.source? p = none) (below : Port → Edit Value) :
    (freshen below p).apply g = (.ok ((g.setCurrent p).held p), g.setCurrent p) := by
  refine freshen_cases
    (motive := fun r => r = (.ok ((g.setCurrent p).held p), g.setCurrent p)) ?_ ?_ ?_ ?_ ?_ ?_ <;>
    intros <;> simp_all

theorem freshen_of_made {below : Port → Edit Value} (hd : g.direction? p = some .output)
    (hp : g.isStale p = true) (hq : g.peer? p = none) :
    (freshen below p).apply g = (compute below p).apply g := by
  refine freshen_cases (motive := fun r => r = (compute below p).apply g) ?_ ?_ ?_ ?_ ?_ ?_ <;>
    intros <;> simp_all

end Turned

/-! ### Reading the inputs of a computation -/

section Inputs
variable {g : Graph}

theorem readAll_of_current {ps : List Port} (levels : Nat)
    (current : ∀ q ∈ ps, (g.direction? q).isSome ∧ g.isStale q = false) :
    (readAll (readWithin (levels + 1)) ps).apply g = (.ok (.ok ()), g) := by
  induction ps with
  | nil => rfl
  | cons q ps ih =>
    obtain ⟨live, hq⟩ := current q (by simp)
    have read : (readWithin (levels + 1) q).apply g = (.ok (g.held q), g) :=
      freshen_of_current live hq
    rw [readAll, Edit.apply_bind, Edit.apply_outcome, read]
    exact ih fun r hr => current r (by simp [hr])

/-- Reading stops at the first input that is stuck, wherever that is. -/
theorem readAll_of_stuck {P : Port → Prop} (ps : List Port)
    (known : ∀ q ∈ ps, (g.direction? q).isSome ∧ P q ∧
      (g.isStale q = true → ∃ k, Stuck P g q k))
    (stale : ∃ q ∈ ps, g.isStale q = true) :
    ∃ k, ∀ h, SameOn P g h → ∀ levels ≤ g.config.maxDepth, ∃ x h',
      (readAll (readWithin levels) ps).apply h = (x, h') ∧ Idle h h' ∧
        (levels ≤ k ∧ (∃ d, x = .error (.evaluationTooDeep d)) ∨
          k < levels ∧ ∃ m, x = .ok (.error m)) := by
  induction ps with
  | nil => simp at stale
  | cons q ps ih =>
    obtain ⟨live, hP, stuck⟩ := known q (by simp)
    cases hq : g.isStale q with
    | true =>
      obtain ⟨k, s⟩ := stuck hq
      refine ⟨k, fun h a levels hl => ?_⟩
      obtain ⟨e, h', eq, idle, deep⟩ := s.fails h a (by rw [a.stale q hP, hq]) levels (by omega)
      rw [readAll, Edit.apply_bind, Edit.apply_outcome, eq]
      by_cases hk : levels ≤ k
      · obtain ⟨d, rfl⟩ := deep.2 hk
        exact ⟨_, h', rfl, idle, .inl ⟨hk, d, rfl⟩⟩
      · have shallow : ¬ TooDeep e := fun he => hk (deep.1 he)
        refine ⟨.ok (.error e.message), h', ?_, idle, .inr ⟨by omega, _, rfl⟩⟩
        cases e with
        | evaluationTooDeep d => exact absurd ⟨d, rfl⟩ shallow
        | _ => rfl
    | false =>
      obtain ⟨r, hr, hs⟩ := stale
      have later : r ∈ ps := by
        rcases List.mem_cons.1 hr with rfl | hr
        · rw [hq] at hs
          cases hs
        · exact hr
      obtain ⟨k, spec⟩ := ih (fun r hr => known r (by simp [hr])) ⟨r, later, hs⟩
      refine ⟨k, fun h a levels hl => ?_⟩
      rw [readAll, Edit.apply_bind, Edit.apply_outcome]
      cases levels with
      | zero => exact ⟨_, h, by rw [tooDeep_zero]; rfl, .refl h, .inl ⟨by omega, _, rfl⟩⟩
      | succ levels =>
        have read : (readWithin (levels + 1) q).apply h = (.ok (h.held q), h) :=
          freshen_of_current (by rw [a.frame.direction]; exact live) (by rw [a.stale q hP, hq])
        rw [read]
        exact spec h a (levels + 1) hl

end Inputs
end Dataflow.Graph
