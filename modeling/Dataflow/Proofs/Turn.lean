import Dataflow.Proofs.Stuck
set_option autoImplicit false

/-!
One read of a pass over the graph. All that the port is made from had its turn before. Main statement:
if each of those is up to date or stuck, the read brings the port up to date, with one run of the
computation at most, or the port is stuck as well, behind a stuck port or by a failure of its own.
-/

namespace Dataflow.Graph

/-! ### Computations -/

/-- The output `p` is computed by its node. -/
def Computing (g : Graph) (p : Port) : Prop :=
  g.direction? p = some .output ∧ g.peer? p = none ∧
    ∃ t, g.type? p.node = some t ∧ t.compute.isSome

/-- The computation for an output without a type fails on inputs that are all up to date, and there is
no default to fall back on. -/
structure Failing (g : Graph) (p : Port) : Prop where
  output : g.direction? p = some .output
  unlinked : g.peer? p = none
  untyped : g.declaredType p = none
  bare : g.fallback? p = none
  current : ∀ q ∈ g.predecessors p, g.isStale q = false
  fails : ∃ t c message, g.type? p.node = some t ∧ t.compute = some c ∧
    ∀ count, t.verdict c p count (g.effectiveType p) (g.told p) = some (.error message)

section Compute
variable {g h : Graph} {p : Port}

theorem mem_predecessors_of_made (hd : g.direction? p = some .output) (hq : g.peer? p = none)
    (q : Port) : q ∈ g.predecessors p ↔ g.Influences q p := by
  rw [mem_predecessors_iff]
  simp [Copies, hd, hq]

theorem verdict_congr (a : SameFrame g h) (w : g.Tree) {t : NodeType}
    (ht : g.type? p.node = some t) (held : ∀ q, g.Influences q p → h.held q = g.held q)
    (c : Computation) (count : Nat) :
    t.verdict c p count (h.effectiveType p) (h.told p) =
      t.verdict c p count (g.effectiveType p) (g.told p) := by
  rw [a.effectiveType w]
  refine Task.result_congr (fun i hi => ?_) ?_ _ _ _
  · simp only [told, a.resolved w, held _ (influences_of_mem ht hi)]
  · simp only [told, a.attr, a.effectiveType w]

theorem declaredType_of_fallback (bare : g.fallback? p = none) : g.declaredType p = none := by
  simp only [fallback?, declaredType] at *
  cases hs : g.slot? p with
  | none => rfl
  | some s =>
    cases ht : s.attr.type with
    | none => simp [ht]
    | some t => simp [hs, ht] at bare

/-- Inputs that are up to date can be relied on while their output is computed. -/
theorem offers_of_current (w : g.WellFormed) (hd : g.direction? p = some .output) (a : Quiet g h)
    (current : ∀ q, g.Influences q p → g.isStale q = false) {levels : Nat}
    (reach : (∃ q, g.Influences q p) → levels ≠ 0) {i : Nat} (influence : g.Influences ⟨p.node, i⟩ p) :
    Offers (readWithin levels) h p i := by
  have input := influence.input w
  refine ⟨by rw [a.frame.direction, input], fun k s => ?_⟩
  have other : (⟨p.node, i⟩ : Port) ≠ p := by
    intro same
    rw [same, hd] at input
    cases input
  obtain ⟨levels, rfl⟩ := Nat.exists_eq_succ_of_ne_zero (reach ⟨_, influence⟩)
  rw [← s.held other]
  refine freshen_of_current ?_ ?_
  · rw [s.frame.direction, a.frame.direction, input]
    rfl
  · rw [s.isStale, a.isStale]
    exact current _ influence

variable (w : g.WellFormed) (hd : g.direction? p = some .output) {m : Node}
  (hm : g.node? p.node = some m) {levels : Nat}
  (reads : (readAll (readWithin levels) ((m.ports.inputsOf p.index).map (Port.mk p.node))).apply g =
    (.ok (.ok ()), g))
include hm reads

theorem compute_of_inert (hc : m.compute = none) :
    (compute (readWithin levels) p).apply g = (settle p (.ok .empty)).apply g := by
  rw [compute_eq, Edit.apply_bind, Edit.apply_look]
  simp only [node, hm]
  rw [Edit.apply_bind, reads]
  simp only [hc]
  rfl

include w hd

/-- A confined computation whose inputs are up to date runs once and ends as it does apart. -/
theorem compute_of_confined {c : Computation} (hc : m.compute = some c) (k : m.type.Confined)
    (current : ∀ q, g.Influences q p → g.isStale q = false)
    (reach : (∃ q, g.Influences q p) → levels ≠ 0) :
    ∃ result h, (∀ count, m.type.verdict c p count (g.effectiveType p) (g.told p) = some result) ∧
      (compute (readWithin levels) p).apply g = (settle p result).apply h ∧
      Stored p g h ∧ h.computings = p :: g.computings := by
  have ht : g.type? p.node = some m.type := by simp [type?, hm]
  have quiet : Quiet g (g.noted c p) := .of_nodes rfl rfl rfl
  -- what it is told does not change by its being noted
  have told : m.type.verdict c p (g.runs c) ((g.noted c p).effectiveType p) ((g.noted c p).told p) =
      m.type.verdict c p (g.runs c) (g.effectiveType p) (g.told p) :=
    verdict_congr quiet.frame w.tree ht (fun q _ => by rw [quiet.held]) c _
  have output : (m.type.ports.get? p.index).map Attribute.direction = some .output := by
    rw [direction?_eq, attr?_eq, ht] at hd
    exact hd
  obtain ⟨result, hr⟩ := Option.isSome_iff_exists.1
    (k.ends c p (g.runs c) (g.effectiveType p) (g.told p) hc output)
  have offers (i : Nat) (hi : i ∈ m.type.ports.inputsOf p.index) :=
    offers_of_current w hd quiet current reach (influences_of_mem ht hi)
  obtain ⟨h, performed, stored, runs⟩ := perform_result ((SameTree.of_sameFrame quiet.frame).tree w.tree)
    (by rw [quiet.frame.direction, hd]) offers (.refl _) _ (told.trans hr)
  refine ⟨result, h, fun count => ?_, ?_, (Stored.of_quiet quiet).trans stored, runs⟩
  · rw [k.same c p count (g.runs c) _ _ hc]
    exact hr
  · rw [compute_eq, Edit.apply_bind, Edit.apply_look]
    simp only [node, hm]
    rw [Edit.apply_bind, reads]
    simp only [hc, attempt]
    rw [Edit.apply_bind, invoke_apply, performed]

end Compute

/-! ### One turn -/

/-- How the read of `p` ends if all that `p` is made from is up to date or stuck. -/
inductive Turn (P : Port → Prop) (p : Port) (g : Graph) : Except Error Value × Graph → Prop where
  | current {v : Value} {h : Graph} (turned : Turned p g h)
    (runs : ∃ l, h.computings = l ++ g.computings)
    (once : (∀ q ∈ g.predecessors p, g.isStale q = false) →
      ¬ g.Computing p ∧ h.computings = g.computings ∨
        g.Computing p ∧ h.computings = p :: g.computings) : Turn P p g (.ok v, h)
  | stuck {e : Error} {h : Graph} {k : Nat} (idle : Idle g h) (stuck : Stuck P g p k)
    (cause : (∃ q ∈ g.predecessors p, g.isStale q = true) ∨
      g.Failing p ∧ h.computings = p :: g.computings) : Turn P p g (.error e, h)

section Turn
variable {P : Port → Prop} {p : Port} {g : Graph}

theorem Failing.of_sameOn {h : Graph} (f : g.Failing p) (a : SameOn P g h) (w : g.Tree)
    (known : ∀ q ∈ g.predecessors p, P q) : h.Failing p := by
  have predecessors (q : Port) : q ∈ h.predecessors p ↔ q ∈ g.predecessors p := by
    rw [mem_predecessors_iff, mem_predecessors_iff, a.frame.copies, a.frame.direction,
      a.frame.peer, a.frame.influences]
  obtain ⟨t, c, message, ht, hc, fails⟩ := f.fails
  constructor
  case output => rw [a.frame.direction, f.output]
  case unlinked => rw [a.frame.peer, f.unlinked]
  case untyped => rw [a.frame.declaredType, f.untyped]
  case bare => rw [a.frame.fallback, f.bare]
  case current =>
    intro q hq
    have old := (predecessors q).1 hq
    rw [a.stale q (known q old), f.current q old]
  case fails =>
    refine ⟨t, c, message, by rw [a.frame.type, ht], hc, fun count => ?_⟩
    rw [verdict_congr a.frame w ht (fun q hq => ?_), fails]
    have made := (mem_predecessors_of_made f.output f.unlinked q).2 hq
    exact a.held q (known q made) (f.current q made)

theorem readAll_inputs (w : g.WellFormed) {m : Node} (hm : g.node? p.node = some m)
    (current : ∀ q, g.Influences q p → g.isStale q = false) (levels : Nat)
    (reach : (∃ q, g.Influences q p) → levels ≠ 0) :
    (readAll (readWithin levels) ((m.ports.inputsOf p.index).map (Port.mk p.node))).apply g =
      (.ok (.ok ()), g) := by
  cases levels with
  | succ levels =>
    refine readAll_of_current levels fun q hq => ?_
    have influence := (mem_inputs_iff hm q).1 hq
    exact ⟨by rw [influence.input w]; rfl, current q influence⟩
  | zero =>
    cases hl : (m.ports.inputsOf p.index).map (Port.mk p.node) with
    | nil => rfl
    | cons q l => exact absurd rfl (reach ⟨q, (mem_inputs_iff hm q).1 (by simp [hl])⟩)

/-- Without a level for the inputs the read of an output that has some fails by depth. -/
theorem freshen_zero (hd : g.direction? p = some .output) (hp : g.isStale p = true)
    (hq : g.peer? p = none) (inputs : ∃ q, g.Influences q p) :
    (freshen (readWithin 0) p).apply g = (.error (.evaluationTooDeep g.config.maxDepth), g) := by
  obtain ⟨t, ht⟩ := exists_type?_of_direction? hd
  obtain ⟨m, hm, -⟩ := Option.map_eq_some_iff.1 ht
  obtain ⟨q, influence⟩ := inputs
  have member := (mem_inputs_iff hm q).2 influence
  rw [freshen_of_made hd hp hq, compute_eq, Edit.apply_bind, Edit.apply_look]
  simp only [node, hm]
  cases hl : (m.ports.inputsOf p.index).map (Port.mk p.node) with
  | nil => simp [hl] at member
  | cons r l =>
    rw [Edit.apply_bind, readAll, Edit.apply_bind, Edit.apply_outcome, tooDeep_zero]
    rfl

section Failing
variable (f : g.Failing p) (w : g.WellFormed) (hp : g.isStale p = true)
  (confined : ∀ n t, g.type? n = some t → t.Confined)
include f w hp confined

/-- A failing computation fails where its inputs can be read. -/
theorem Failing.read (levels : Nat) (reach : (∃ q, g.Influences q p) → levels ≠ 0) :
    ∃ message h, (freshen (readWithin levels) p).apply g =
      (.error (.computeFailure p.node message), h) ∧ Idle g h ∧
        h.computings = p :: g.computings := by
  obtain ⟨t, c, message, ht, hc, fails⟩ := f.fails
  obtain ⟨m, hm, rfl⟩ := Option.map_eq_some_iff.1 ht
  have current (q : Port) (hq : g.Influences q p) : g.isStale q = false :=
    f.current q ((mem_predecessors_of_made f.output f.unlinked q).2 hq)
  obtain ⟨result, k, verdict, computed, stored, runs⟩ := compute_of_confined w f.output hm
    (readAll_inputs w hm current levels reach) hc (confined p.node _ ht) current reach
  obtain rfl : .error message = result := Option.some.inj ((fails 0).symm.trans (verdict 0))
  rw [settle_error_of_none k p message (by rw [stored.frame.fallback, f.bare])] at computed
  refine ⟨message, k.setStatus p.node (.failed message), ?_, ?_, ?_⟩
  · rw [freshen_of_made f.output hp f.unlinked, computed]
  · exact Idle.trans ⟨.of_stored stored hp, [p], runs⟩ (.setStatus k _ _)
  · rw [computings_setStatus, runs]

/-- It fails again whenever the port is read. -/
theorem Failing.stuck (known : ∀ q ∈ g.predecessors p, P q) : ∃ k, Stuck P g p k := by
  by_cases inputs : ∃ q, g.Influences q p
  · refine ⟨1, .of_freshen hp fun h a stale levels hl => ?_⟩
    have f' := f.of_sameOn a w.tree known
    cases levels with
    | zero =>
      have inputs' : ∃ q, h.Influences q p := by rwa [a.frame.influences]
      exact ⟨_, h, freshen_zero f'.output stale f'.unlinked inputs', .refl h, by simp [TooDeep]⟩
    | succ levels =>
      obtain ⟨message, h', eq, idle, -⟩ := f'.read (a.frame.wellFormed w) stale
        (by rwa [a.frame.type]) (levels + 1) (fun _ => Nat.succ_ne_zero levels)
      exact ⟨_, h', eq, idle, by simp [TooDeep]⟩
  · refine ⟨0, .of_freshen hp fun h a stale levels hl => ?_⟩
    have f' := f.of_sameOn a w.tree known
    obtain ⟨message, h', eq, idle, -⟩ := f'.read (a.frame.wellFormed w) stale
      (by rwa [a.frame.type]) levels (by rw [a.frame.influences]; exact (absurd · inputs))
    exact ⟨_, h', eq, idle, by simp [TooDeep]⟩

end Failing

theorem Stored.idle {h : Graph} (a : Stored p g h) (hp : g.isStale p = true)
    (runs : ∃ l, h.computings = l ++ g.computings) : Idle g h := ⟨.of_stored a hp, runs⟩

/-- An output whose inputs are up to date is settled, with one run of its computation, unless that
fails and there is no default. -/
theorem compute_of_current (w : g.WellFormed) (hd : g.direction? p = some .output)
    (hq : g.peer? p = none) (confined : ∀ n t, g.type? n = some t → t.Confined)
    (current : ∀ q, g.Influences q p → g.isStale q = false) {levels : Nat}
    (reach : (∃ q, g.Influences q p) → levels ≠ 0) :
    (∃ v h, (compute (readWithin levels) p).apply g = (.ok v, h.settled p) ∧ Stored p g h ∧
      (¬ g.Computing p ∧ h.computings = g.computings ∨
        g.Computing p ∧ h.computings = p :: g.computings)) ∨
    ∃ e h, (compute (readWithin levels) p).apply g = (.error e, h) ∧ Stored p g h ∧
      g.Failing p ∧ h.computings = p :: g.computings := by
  obtain ⟨t, ht⟩ := exists_type?_of_direction? hd
  obtain ⟨m, hm, rfl⟩ := Option.map_eq_some_iff.1 ht
  have reads := readAll_inputs w hm current levels reach
  cases hc : m.compute with
  | none =>
    have inert : ¬ g.Computing p := by
      rintro ⟨-, -, t, ht', computes⟩
      rw [ht] at ht'
      obtain rfl := Option.some.inj ht'
      simp [Node.type, hc] at computes
    rw [compute_of_inert hm reads hc, settle_ok]
    exact .inl ⟨_, _, rfl, .setStatus g p.node .empty, .inl ⟨inert, computings_setStatus g _ _⟩⟩
  | some c =>
    have computing : g.Computing p := ⟨hd, hq, _, ht, by simp [Node.type, hc]⟩
    obtain ⟨result, k, verdict, computed, stored, runs⟩ := compute_of_confined w hd hm reads hc
      (confined p.node _ ht) current reach
    rw [computed]
    cases result with
    | ok s =>
      rw [settle_ok]
      refine .inl ⟨_, _, rfl, stored.trans (.setStatus k p.node s), .inr ⟨computing, ?_⟩⟩
      rw [computings_setStatus, runs]
    | error message =>
      cases hv : k.fallback? p with
      | some v =>
        rw [settle_error_of_some k p message hv]
        refine .inl ⟨_, _, rfl, (stored.trans (.put k p v)).trans (.setStatus _ p.node _),
          .inr ⟨computing, ?_⟩⟩
        rw [computings_setStatus, computings_put, runs]
      | none =>
        have bare : g.fallback? p = none := by rw [← stored.frame.fallback, hv]
        have failing : g.Failing p :=
          ⟨hd, hq, declaredType_of_fallback bare, bare,
            fun q h => current q ((mem_predecessors_of_made hd hq q).1 h),
            _, c, message, ht, hc, verdict⟩
        rw [settle_error_of_none k p message hv]
        refine .inr ⟨_, _, rfl, stored.trans (.setStatus k p.node _), failing, ?_⟩
        rw [computings_setStatus, runs]

/-- An output whose inputs are up to date is brought up to date, unless its computation fails and it
has no default. -/
theorem turn_of_current (w : g.WellFormed) (hd : g.direction? p = some .output)
    (hp : g.isStale p = true) (hq : g.peer? p = none)
    (confined : ∀ n t, g.type? n = some t → t.Confined) (known : ∀ q ∈ g.predecessors p, P q)
    (current : ∀ q, g.Influences q p → g.isStale q = false) (levels : Nat) :
    Turn P p g ((freshen (readWithin (levels + 1)) p).apply g) := by
  rw [freshen_of_made hd hp hq]
  rcases compute_of_current w hd hq confined current (fun _ => Nat.succ_ne_zero levels) with
    ⟨v, h, computed, stored, runs⟩ | ⟨e, h, computed, stored, failing, runs⟩
  · rw [computed]
    have noted : ∃ l, h.computings = l ++ g.computings :=
      runs.elim (fun r => ⟨[], r.2⟩) fun r => ⟨[p], r.2⟩
    exact .current (stored.idle hp noted).settled noted fun _ => runs
  · rw [computed]
    obtain ⟨n, stuck⟩ := failing.stuck w hp confined known
    exact .stuck (stored.idle hp ⟨[p], runs⟩) stuck (.inr ⟨failing, runs⟩)

/-- An output with a stuck input takes its default, if it has one and the failure lies within reach.
Otherwise it is stuck. -/
theorem turn_of_stuck (w : g.WellFormed) (hd : g.direction? p = some .output)
    (hp : g.isStale p = true) (hq : g.peer? p = none) (known : ∀ q ∈ g.predecessors p, P q)
    (stuck : ∀ q ∈ g.predecessors p, g.isStale q = true → ∃ k, Stuck P g q k)
    (stale : ∃ q ∈ g.predecessors p, g.isStale q = true) :
    Turn P p g ((freshen (readWithin g.config.maxDepth) p).apply g) := by
  obtain ⟨t, ht⟩ := exists_type?_of_direction? hd
  obtain ⟨m, hm, rfl⟩ := Option.map_eq_some_iff.1 ht
  have inputs (q : Port) : q ∈ (m.ports.inputsOf p.index).map (Port.mk p.node) ↔
      q ∈ g.predecessors p := by rw [mem_inputs_iff hm, mem_predecessors_of_made hd hq]
  obtain ⟨k, unread⟩ := readAll_of_stuck (g := g) (P := P)
    ((m.ports.inputsOf p.index).map (Port.mk p.node))
    (fun q h => ⟨by rw [((mem_inputs_iff hm q).1 h).input w]; rfl, known q ((inputs q).1 h),
      stuck q ((inputs q).1 h)⟩)
    (by obtain ⟨q, h, hs⟩ := stale; exact ⟨q, (inputs q).2 h, hs⟩)
  -- how a read ends, by the levels that are left
  have ends (h : Graph) (a : SameOn P g h) (hs : h.isStale p = true) (levels : Nat)
      (hl : levels ≤ g.config.maxDepth) : ∃ h', Idle h h' ∧
      (levels ≤ k ∧ (∃ d, (freshen (readWithin levels) p).apply h =
          (.error (.evaluationTooDeep d), h')) ∨
        k < levels ∧ ∃ message, (freshen (readWithin levels) p).apply h =
          (settle p (.error message)).apply h') := by
    obtain ⟨m', hm', same⟩ := Option.map_eq_some_iff.1
      (show h.type? p.node = some m.type by rw [a.frame.type, ht])
    have ports : m'.ports.inputsOf p.index = m.ports.inputsOf p.index := by
      have := congrArg (fun t => t.ports.inputsOf p.index) same
      exact this
    obtain ⟨x, h', eq, idle, cases⟩ := unread h a levels hl
    refine ⟨h', idle, ?_⟩
    rw [freshen_of_made (by rw [a.frame.direction, hd]) hs (by rw [a.frame.peer, hq]), compute_eq,
      Edit.apply_bind, Edit.apply_look]
    simp only [node, hm', ports]
    rw [Edit.apply_bind, eq]
    rcases cases with ⟨hk, d, rfl⟩ | ⟨hk, message, rfl⟩
    · exact .inl ⟨hk, d, rfl⟩
    · exact .inr ⟨hk, message, rfl⟩
  have stuck_if (h : g.fallback? p = none ∨ g.config.maxDepth ≤ k) : Stuck P g p (k + 1) := by
    refine .of_freshen hp fun h' a hs levels hl => ?_
    obtain ⟨h'', idle, ⟨hk, d, eq⟩ | ⟨hk, message, eq⟩⟩ := ends h' a hs levels hl
    · exact ⟨_, h'', eq, idle, iff_of_true ⟨d, rfl⟩ (by omega)⟩
    · have bare : h''.fallback? p = none := by
        rw [(a.frame.trans idle.same.frame).fallback]
        exact h.resolve_right (by omega)
      rw [settle_error_of_none h'' p message bare] at eq
      exact ⟨_, _, eq, idle.trans (.setStatus h'' _ _), iff_of_false (by simp [TooDeep]) (by omega)⟩
  obtain ⟨h, idle, ⟨hk, d, eq⟩ | ⟨hk, message, eq⟩⟩ := ends g (.refl g) hp _ le_rfl
  · rw [eq]
    exact .stuck idle (stuck_if (.inr hk)) (.inl stale)
  · rw [eq]
    cases hv : h.fallback? p with
    | some v =>
      rw [settle_error_of_some h p message hv]
      have hs : h.isStale p = true := by rw [idle.same.stale p trivial, hp]
      have put := (idle.trans ((Stored.put h p v).idle hs ⟨[], rfl⟩)).trans
        (.setStatus _ p.node (.failed message))
      refine .current put.settled put.runs fun current => ?_
      obtain ⟨q, hq, hs⟩ := stale
      rw [current q hq] at hs
      cases hs
    | none =>
      have bare : g.fallback? p = none := by rw [← idle.same.frame.fallback, hv]
      rw [settle_error_of_none h p message hv]
      exact .stuck (idle.trans (.setStatus h _ _)) (stuck_if (.inl bare)) (.inl stale)

/-- A copy of a port that is up to date or stuck. -/
theorem turn_of_copies (w : g.WellFormed) {q : Port} (c : g.Copies p q) (hp : g.isStale p = true)
    (known : ∀ q ∈ g.predecessors p, P q)
    (stuck : ∀ q ∈ g.predecessors p, g.isStale q = true → ∃ k, Stuck P g q k) (levels : Nat)
    (hl : levels + 1 ≤ g.config.maxDepth + 1) :
    Turn P p g ((freshen (readWithin (levels + 1)) p).apply g) := by
  have copied : q ∈ g.predecessors p := (mem_predecessors_iff g p q).2 (.inl c)
  have inert : ¬ g.Computing p := by
    rintro ⟨hd, hpeer, -⟩
    rcases c with ⟨hi, -⟩ | ⟨-, hq⟩ <;> simp_all
  cases hq : g.isStale q with
  | true =>
    obtain ⟨k, s⟩ := stuck q copied hq
    obtain ⟨e, h, eq, idle, -⟩ := s.fails g (.refl g) hq (levels + 1) hl
    rw [freshen_of_copies c hp, copyFrom_error eq]
    exact .stuck idle (s.copied (known q copied) c hp) (.inl ⟨q, copied, hq⟩)
  | false =>
    have live : (g.direction? q).isSome := by
      rcases c with ⟨hd, hq⟩ | ⟨hd, hq⟩
      · rw [((source?_eq_some_iff w.wired q p).1 hq).output w.wired]
        rfl
      · rw [direction?_eq, Option.isSome_map]
        exact isSome_attr?_of_peer? g (w.linked.back _ _ hq)
    obtain ⟨v, h, eq, turned, runs⟩ := turned_copy c hp hq live levels
    rw [eq]
    exact .current turned ⟨[], runs⟩ fun _ => .inl ⟨inert, runs⟩

/-- Where all that a port is made from is up to date or stuck, a read from the outside brings the
port up to date, or the port is stuck. -/
theorem turn (w : g.WellFormed) (deep : 1 ≤ g.config.maxDepth) (live : (g.direction? p).isSome)
    (hp : g.isStale p = true) (confined : ∀ n t, g.type? n = some t → t.Confined)
    (known : ∀ q ∈ g.predecessors p, P q)
    (stuck : ∀ q ∈ g.predecessors p, g.isStale q = true → ∃ k, Stuck P g q k) :
    Turn P p g ((readWithin (g.config.maxDepth + 1) p).apply g) := by
  obtain ⟨levels, hl⟩ := Nat.exists_eq_add_of_le' deep
  obtain ⟨d, hd⟩ := Option.isSome_iff_exists.1 live
  rw [readWithin]
  cases d with
  | input =>
    cases hs : g.source? p with
    | some q =>
      rw [hl]
      exact turn_of_copies w (.inl ⟨hd, hs⟩) hp known stuck levels (by omega)
    | none =>
      rw [turned_given hd hp hs]
      refine .current (Idle.refl g).turned ⟨[], rfl⟩ fun _ => .inl ⟨?_, rfl⟩
      rintro ⟨hd', -⟩
      rw [hd] at hd'
      cases hd'
  | output =>
    cases hq : g.peer? p with
    | some q =>
      rw [hl]
      exact turn_of_copies w (.inr ⟨hd, hq⟩) hp known stuck levels (by omega)
    | none =>
      by_cases stale : ∃ q ∈ g.predecessors p, g.isStale q = true
      · exact turn_of_stuck w hd hp hq known stuck stale
      · rw [hl]
        refine turn_of_current w hd hp hq confined known (fun q hi => ?_) levels
        by_contra hs
        exact stale ⟨q, (mem_predecessors_of_made hd hq q).2 hi, by simpa using hs⟩

end Turn
end Dataflow.Graph
