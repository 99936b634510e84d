import Dataflow.Proofs.Needed
set_option autoImplicit false

/-!
The limit on how deep reads may stand in one another. Main statement: a read that does not fail for
its depth is the same under every higher limit, it fails for its depth only if there is a chain of
ports out of date that is longer than the limit, and where it fails so, what was up to date still is
as it was, and the port itself is as it was.
-/

namespace Dataflow.Graph

/-- The graph with another limit. -/
def limited (d : Nat) (g : Graph) : Graph := { g with config := { g.config with maxDepth := d } }

/-- A read has failed for its depth. -/
def DepthReached {α : Type} (x : Except Error α) : Prop := ∃ d, x = .error (.evaluationTooDeep d)

/-- To read `p`, which is out of date, means to read `q` first. -/
def Pulls (g : Graph) (p q : Port) : Prop := g.isStale p = true ∧ q ∈ g.predecessors p

section Limited
variable {g h : Graph} {p : Port} (d : Nat)

theorem SameFrame.limited (a : SameFrame g h) : SameFrame (g.limited d) (h.limited d) where
  keys := a.keys
  root := a.root
  config := congrArg (fun c : Config => { c with maxDepth := d }) a.config
  around := a.around
  contents := a.contents
  type := a.type
  name := a.name
  peer := a.peer

theorem Stored.limited (s : Stored p g h) : Stored p (g.limited d) (h.limited d) :=
  ⟨s.frame.limited d, s.slot, s.stale⟩

theorem WellFormed.limited (w : g.WellFormed) : (g.limited d).WellFormed where
  tree := ⟨w.tree.keys, w.tree.root, w.tree.rootNetwork, w.tree.orphan, w.tree.child, w.tree.order,
    w.tree.nodup, w.tree.distinct, w.tree.kind⟩
  wired := ⟨w.wired.output, w.wired.input, w.wired.outputAround, w.wired.inputAround, w.wired.single⟩
  linked := ⟨w.linked.back, w.linked.faces⟩
  sound := w.sound

theorem Tractable.limited (t : g.Tractable) : (g.limited d).Tractable :=
  ⟨t.wellFormed.limited d, t.acyclic, t.confined⟩

end Limited

theorem freshen_of_absent {g : Graph} {p : Port} {below : Port → Edit Value}
    (hd : g.direction? p = none) : (freshen below p).apply g = (.error (.noPort p), g) := by
  refine freshen_cases (motive := fun r => r = (.error (.noPort p), g)) (fun _ => rfl) ?_ ?_ ?_ ?_ ?_ <;>
    intros <;> simp_all

/-! ### Higher limits -/

/-- Where `x` does not fail for its depth, `y` comes to the same in the graph with the limit `d`. -/
def Deepens {α : Type} (d : Nat) (x y : Edit α) (g : Graph) : Prop :=
  ¬ DepthReached (x.apply g).1 → y.apply (g.limited d) = ((x.apply g).1, (x.apply g).2.limited d)

section Deepens
variable {α β : Type} {d : Nat} {x y : Edit α} {g : Graph}

theorem Deepens.of_eq (same : y.apply (g.limited d) = ((x.apply g).1, (x.apply g).2.limited d)) :
    Deepens d x y g := fun _ => same

theorem deepens_change {f : Graph → Graph} (same : f (g.limited d) = (f g).limited d) :
    Deepens d (Edit.change f) (Edit.change f) g := .of_eq (by simp [Edit.apply_change, same])

theorem Deepens.bind {f f' : α → Edit β} (first : Deepens d x y g)
    (rest : ∀ a h, x.apply g = (.ok a, h) → Deepens d (f a) (f' a) h) :
    Deepens d (x >>= f) (y >>= f') g := by
  intro done
  rw [Edit.apply_bind] at done ⊢
  rw [Edit.apply_bind]
  rcases hx : x.apply g with ⟨e | a, h⟩
  · rw [hx] at done
    have same := first (by rw [hx]; exact fun deep => done (deep.imp fun _ h => by cases h; rfl))
    rw [same, hx]
  · rw [hx] at done
    have same := first (by rw [hx]; rintro ⟨_, ⟨⟩⟩)
    rw [same, hx]
    exact rest a h hx done

theorem deepens_look {f : Graph → Except Error α} (same : f (g.limited d) = f g) :
    Deepens d (Edit.look f) (Edit.look f) g := .of_eq (by simp [Edit.apply_look, same])

/-- Looking at the graph itself. -/
theorem Deepens.get_bind {f f' : Graph → Edit β} (rest : Deepens d (f g) (f' (g.limited d)) g) :
    Deepens d (get >>= f) (get >>= f') g := rest

end Deepens

section Perform
variable {g h : Graph} {p : Port} {d : Nat} {below below' : Port → Edit Value}

theorem limited_setStatus (n : NodeId) (s : Status) :
    (g.limited d).setStatus n s = (g.setStatus n s).limited d := by
  have same : (g.limited d).node? n = g.node? n := rfl
  rw [setStatus, setStatus, same]
  cases g.node? n with
  | none => rfl
  | some m =>
    simp only
    split <;> rfl

theorem deepens_settle (result : Except String Status) :
    Deepens d (settle p result) (settle p result) g := by
  refine .of_eq ?_
  cases result with
  | ok s =>
    rw [settle_ok, settle_ok, limited_setStatus]
    rfl
  | error message =>
    have same : (g.limited d).fallback? p = g.fallback? p := rfl
    cases hv : g.fallback? p with
    | some v =>
      have put : (g.limited d).put p v = (g.put p v).limited d := rfl
      rw [settle_error_of_some g p message hv, settle_error_of_some _ p message (same.trans hv), put,
        limited_setStatus]
      rfl
    | none =>
      rw [settle_error_of_none g p message hv, settle_error_of_none _ p message (same.trans hv),
        limited_setStatus]

/-- A task whose inputs are offered under both limits. -/
theorem perform_limited {α : Type} {reads : List Nat} (w : g.WellFormed)
    (hd : g.direction? p = some .output) (offers : ∀ i ∈ reads, Offers below g p i)
    (offers' : ∀ i ∈ reads, Offers below' (g.limited d) p i) (s : Stored p g h) (t : Task α) {a : α}
    (eq : t.result reads p.index (g.effectiveType p) (g.told p) = some a) :
    (t.perform below' p.node).apply (h.limited d) =
      (((t.perform below p.node).apply h).1, ((t.perform below p.node).apply h).2.limited d) := by
  have w' := w.limited d
  induction t generalizing h with
  | done b => rfl
  | read i next ih =>
    simp only [Task.result] at eq
    split at eq
    · next hi =>
      rw [perform_read, Edit.apply_bind, Edit.apply_outcome,
        readFor_offered w'.tree (offers' i hi) (s.limited d), perform_read, Edit.apply_bind,
        Edit.apply_outcome, readFor_offered w.tree (offers i hi) s]
      exact ih _ s eq
    · cases eq
  | write i v next ih =>
    simp only [Task.result] at eq
    split at eq
    · next hi =>
      subst hi
      have written : (writeFor p v).apply (h.limited d) = (((writeFor p v).apply h).1,
          ((writeFor p v).apply h).2.limited d) := by
        rw [writeFor_eq_accept w'.tree hd (s.limited d), writeFor_eq_accept w.tree hd s,
          apply_ite (Graph.limited d)]
        rfl
      rw [perform_write, Edit.apply_bind, Edit.apply_outcome, written, perform_write, Edit.apply_bind,
        Edit.apply_outcome, writeFor_eq_accept w.tree hd s]
      simp only
      refine ih _ ?_ eq
      split
      · exact s
      · exact s.trans (.hold h p v)
    · cases eq
  | typeOf i next ih =>
    rw [Task.perform, Edit.apply_bind, typeFor_told w'.tree hd (s.limited d), Task.perform,
      Edit.apply_bind, typeFor_told w.tree hd s]
    exact ih _ s eq
  | attachment next ih => cases eq

end Perform

section Deeper
variable {g : Graph} {p : Port} {d levels levels' : Nat}

/-- A confined computation reads nothing but inputs that have been read before it. -/
theorem deepens_attempt (t : g.Tractable) (hd : g.direction? p = some .output) {m : Node}
    (ht : g.type? p.node = some m.type) {inputs : Except String Unit}
    (current : inputs = .ok () → ∀ q, g.Influences q p → g.isStale q = false)
    (reach : inputs = .ok () → (∃ q, g.Influences q p) → levels ≠ 0 ∧ levels' ≠ 0) :
    Deepens d (attempt (readWithin levels) p m.compute inputs)
      (attempt (readWithin levels') p m.compute inputs) g := by
  cases inputs with
  | error message => exact .of_eq rfl
  | ok u =>
    cases hc : m.compute with
    | none => exact .of_eq rfl
    | some c =>
      have w := t.wellFormed
      have quiet : Quiet g (g.noted c p) := .of_nodes rfl rfl rfl
      have output : (m.type.ports.get? p.index).map Attribute.direction = some .output := by
        rw [direction?_eq, attr?_eq, ht] at hd
        exact hd
      obtain ⟨result, hr⟩ := Option.isSome_iff_exists.1 ((t.confined p.node m.type ht).ends c p
        (g.runs c) ((g.noted c p).effectiveType p) ((g.noted c p).told p) hc output)
      have quiet' : Quiet (g.limited d) ((g.noted c p).limited d) := .of_nodes rfl rfl rfl
      have offers (i : Nat) (hi : i ∈ m.type.ports.inputsOf p.index) :=
        offers_of_current w hd quiet (current rfl) (fun fed => (reach rfl fed).1)
          (influences_of_mem ht hi)
      have offers' (i : Nat) (hi : i ∈ m.type.ports.inputsOf p.index) :=
        offers_of_current (w.limited d) hd quiet' (current rfl) (fun fed => (reach rfl fed).2)
          (influences_of_mem ht hi)
      refine .of_eq ?_
      rw [attempt, attempt, invoke_apply, invoke_apply]
      exact perform_limited (quiet.frame.wellFormed w) (by rw [quiet.frame.direction, hd]) offers offers'
        (.refl _) _ hr

/-- Reads within `levels'` levels go as those within `levels` levels, unless these fail for their
depth. -/
def Deeper (d levels levels' : Nat) : Prop :=
  ∀ p g, g.Tractable → Deepens d (readWithin levels p) (readWithin levels' p) g

variable (deeper : Deeper d levels levels') (le : levels ≤ levels')
include deeper

theorem deepens_readAll (t : g.Tractable) (ps : List Port) :
    Deepens d (readAll (readWithin levels) ps) (readAll (readWithin levels') ps) g := by
  induction ps generalizing g with
  | nil => exact .of_eq rfl
  | cons p ps ih =>
    intro done
    rw [readAll, Edit.apply_bind, Edit.apply_outcome] at done ⊢
    rw [readAll, Edit.apply_bind, Edit.apply_outcome]
    have frame := (leads_readWithin levels p g).frame
    rcases hx : (readWithin levels p).apply g with ⟨x, h⟩
    rw [hx] at done frame
    have shallow : ¬ DepthReached x := by
      rintro ⟨e, rfl⟩
      exact done ⟨e, rfl⟩
    have same := deeper p g t (by rwa [hx])
    rw [same, hx]
    cases x with
    | ok v => exact ih (frame.tractable t) done
    | error e => cases e <;> rfl

theorem deepens_copyFrom (t : g.Tractable) (p q : Port) :
    Deepens d (copyFrom (readWithin levels) p q) (copyFrom (readWithin levels') p q) g := by
  refine (deeper q g t).bind fun v h _ => ?_
  have stored : ((h.limited d).hold p v).setCurrent p = ((h.hold p v).setCurrent p).limited d := rfl
  exact (deepens_change stored).bind fun _ _ _ => .of_eq rfl

include le

/-- What is left of a computation once its inputs have been read does not depend on the limit. -/
theorem deepens_compute (t : g.Tractable) (hd : g.direction? p = some .output) :
    Deepens d (compute (readWithin levels) p) (compute (readWithin levels') p) g := by
  obtain ⟨type, ht⟩ := exists_type?_of_direction? hd
  obtain ⟨m, hm, rfl⟩ := Option.map_eq_some_iff.1 ht
  rw [compute_eq, compute_eq]
  refine (deepens_look rfl).bind fun m' g' hm' => ?_
  rw [Edit.apply_look_ok (node_eq_ok_iff.2 hm), Prod.mk.injEq, Except.ok.injEq] at hm'
  obtain ⟨rfl, rfl⟩ := hm'
  refine (deepens_readAll deeper t _).bind fun inputs h hr => ?_
  have frame : SameFrame g h := by
    have calm := leads_readAll Calmer.steps ((m.ports.inputsOf p.index).map (Port.mk p.node))
      (fun q _ => leads_readWithin levels q) g
    rw [hr] at calm
    exact calm.frame
  refine (deepens_attempt (frame.tractable t) (by rw [frame.direction, hd]) (by rw [frame.type, ht])
    ?_ ?_).bind fun result k _ => deepens_settle result
  · rintro rfl q influence
    rw [frame.influences] at influence
    exact current_readAll hr q ((mem_inputs_iff hm q).2 influence)
  · rintro - ⟨q, influence⟩
    rw [frame.influences] at influence
    have ne := reach_of_readAll hr ((mem_inputs_iff hm q).2 influence)
    exact ⟨ne, fun zero => ne (Nat.le_zero.1 (zero ▸ le))⟩

theorem deepens_freshen (t : g.Tractable) (p : Port) :
    Deepens d (freshen (readWithin levels) p) (freshen (readWithin levels') p) g := by
  unfold Deepens
  refine freshen_cases (motive := fun r => ¬ DepthReached r.1 →
    (freshen (readWithin levels') p).apply (g.limited d) = (r.1, r.2.limited d))
    ?absent ?current ?wired ?given ?linked ?made
  case absent =>
    intro hd _
    exact freshen_of_absent (g := g.limited d) hd
  case current => exact fun live hp _ => freshen_of_current (g := g.limited d) live hp
  case wired =>
    intro q hd hp hq done
    have c : (g.limited d).Copies p q := .inl ⟨hd, hq⟩
    rw [freshen_of_copies c hp]
    exact deepens_copyFrom deeper t p q done
  case given =>
    intro hd hp hs _
    exact turned_given (g := g.limited d) hd hp hs _
  case linked =>
    intro q hd hp hq done
    have c : (g.limited d).Copies p q := .inr ⟨hd, hq⟩
    rw [freshen_of_copies c hp]
    exact deepens_copyFrom deeper t p q done
  case made =>
    intro hd hp hq done
    rw [freshen_of_made (g := g.limited d) hd hp hq]
    exact deepens_compute deeper le t hd done

end Deeper

theorem deeper_of_le (d : Nat) {levels levels' : Nat} (le : levels ≤ levels') :
    Deeper d levels levels' := by
  induction levels generalizing levels' with
  | zero =>
    intro p g _ done
    rw [tooDeep_zero] at done
    exact absurd ⟨_, rfl⟩ done
  | succ levels ih =>
    obtain ⟨levels', rfl⟩ := Nat.exists_eq_add_one.2 (Nat.lt_of_lt_of_le (Nat.succ_pos _) le)
    exact fun p g t => deepens_freshen (ih (Nat.le_of_succ_le_succ le)) (Nat.le_of_succ_le_succ le) t p

/-! ### Chains -/

section Chains
variable {g h : Graph} {p q : Port}

theorem Calmer.pulls (a : Calmer g h) (x : h.Pulls p q) : g.Pulls p q := by
  obtain ⟨hp, hq⟩ := x
  exact ⟨a.stale p hp, (a.frame.mem_predecessors p q).1 hq⟩

/-- The links that a read of `p` may have to follow are at most `k` in a row. -/
def Within (g : Graph) (k : Nat) (p : Port) : Prop :=
  ∀ l, List.IsChain g.Pulls (p :: l) → l.length ≤ k

theorem Within.calmer {k : Nat} (x : g.Within k p) (a : Calmer g h) : h.Within k p :=
  fun l hl => x l (hl.imp fun _ _ => a.pulls)

theorem Within.next {k : Nat} (x : g.Within k p) (hq : g.Pulls p q) :
    ∃ k', k = k' + 1 ∧ g.Within k' q := by
  have one := x [q] (.cons_cons hq (.singleton q))
  obtain ⟨k', rfl⟩ := Nat.exists_eq_add_one.2 one
  refine ⟨k', rfl, fun l hl => ?_⟩
  exact Nat.le_of_succ_le_succ (x (q :: l) (.cons_cons hq hl))

theorem not_depthReached_readAll {levels : Nat} (ps : List Port)
    (shallow : ∀ q ∈ ps, ∀ h, Calmer g h → ¬ DepthReached ((readWithin levels q).apply h).1) :
    ∃ x, ((readAll (readWithin levels) ps).apply g).1 = .ok x := by
  induction ps generalizing g with
  | nil => exact ⟨_, rfl⟩
  | cons p ps ih =>
    rw [readAll, Edit.apply_bind, Edit.apply_outcome]
    have first := shallow p List.mem_cons_self g (.refl g)
    have calm := leads_readWithin levels p g
    rcases hx : (readWithin levels p).apply g with ⟨x, h⟩
    rw [hx] at first calm
    cases x with
    | ok v =>
      exact ih fun q hq k a => shallow q (List.mem_cons_of_mem _ hq) k (calm.trans a)
    | error e =>
      cases e with
      | evaluationTooDeep d => exact absurd ⟨d, rfl⟩ first
      | _ => exact ⟨_, rfl⟩

theorem not_depthReached_settle (p : Port) (result : Except String Status) :
    ¬ DepthReached ((settle p result).apply g).1 := by
  rintro ⟨d, hd⟩
  cases result with
  | ok s =>
    rw [settle_ok] at hd
    cases hd
  | error message =>
    cases hv : g.fallback? p with
    | some v =>
      rw [settle_error_of_some g p message hv] at hd
      cases hd
    | none =>
      rw [settle_error_of_none g p message hv] at hd
      cases hd

theorem not_depthReached_copyFrom {below : Port → Edit Value}
    (shallow : ¬ DepthReached ((below q).apply g).1) :
    ¬ DepthReached ((copyFrom below p q).apply g).1 := by
  rcases hx : (below q).apply g with ⟨e | v, h⟩
  · rw [copyFrom_error hx]
    rwa [hx] at shallow
  · rw [copyFrom_ok hx]
    rintro ⟨_, ⟨⟩⟩

/-- As many levels as there are links in a row, and one more, are enough. -/
theorem not_depthReached_readWithin {k : Nat} (within : g.Within k p) :
    ¬ DepthReached ((readWithin (k + 1) p).apply g).1 := by
  induction k using Nat.strong_induction_on generalizing g p with
  | _ k ih =>
    have next {q : Port} (hq : g.Pulls p q) (h : Graph) (a : Calmer g h) :
        ¬ DepthReached ((readWithin k q).apply h).1 := by
      obtain ⟨k', rfl, within'⟩ := within.next hq
      exact ih k' (Nat.lt_succ_self k') (within'.calmer a)
    refine freshen_cases (motive := fun r => ¬ DepthReached r.1)
      ?absent ?current ?wired ?given ?linked ?made
    case absent =>
      rintro - ⟨_, ⟨⟩⟩
    case current =>
      rintro - - ⟨_, ⟨⟩⟩
    case given =>
      rintro - - - ⟨_, ⟨⟩⟩
    case wired =>
      intro q hd hp hq
      have c : g.Copies p q := .inl ⟨hd, hq⟩
      exact not_depthReached_copyFrom (next ⟨hp, (mem_predecessors_of_copies c q).2 rfl⟩ g (.refl g))
    case linked =>
      intro q hd hp hq
      have c : g.Copies p q := .inr ⟨hd, hq⟩
      exact not_depthReached_copyFrom (next ⟨hp, (mem_predecessors_of_copies c q).2 rfl⟩ g (.refl g))
    case made =>
      intro hd hp hq
      obtain ⟨type, ht⟩ := exists_type?_of_direction? hd
      obtain ⟨m, hm, rfl⟩ := Option.map_eq_some_iff.1 ht
      have shallow (q : Port) (hq' : q ∈ (m.ports.inputsOf p.index).map (Port.mk p.node)) :
          ∀ h, Calmer g h → ¬ DepthReached ((readWithin k q).apply h).1 := by
        refine next ⟨hp, ?_⟩
        rwa [mem_predecessors_of_made hd hq, ← mem_inputs_iff hm]
      obtain ⟨x, hx⟩ := not_depthReached_readAll _ shallow
      refine compute_cases hm (motive := fun r => ¬ DepthReached r.1) (fun e h hr => ?_)
        fun inputs h result j _ _ => not_depthReached_settle p result
      rw [hr] at hx
      cases hx

end Chains

/-! ### What is left after a failure by depth -/

section Failed
variable {g : Graph} {p : Port}

/-- Only what the port is made from has been touched. -/
theorem touched_of_depthReached {levels : Nat} (t : g.Tractable)
    (deep : DepthReached ((readWithin (levels + 1) p).apply g).1) : g.isStale p = true ∧
      Touched (fun q => ∃ r ∈ g.predecessors p, g.Needs r q) g
        ((readWithin (levels + 1) p).apply g).2 := by
  have serving := serving_readWithin levels
  have copied {q : Port} (c : g.Copies p q) (hp : g.isStale p = true)
      (deep : DepthReached ((copyFrom (readWithin levels) p q).apply g).1) : g.isStale p = true ∧
      Touched (fun q => ∃ r ∈ g.predecessors p, g.Needs r q) g
        ((copyFrom (readWithin levels) p q).apply g).2 := by
    have touched := (serving q g t (Copies.live t.wellFormed c)).touched
    rcases hx : (readWithin levels q).apply g with ⟨e | v, h⟩
    · rw [copyFrom_error hx]
      rw [hx] at touched
      exact ⟨hp, touched.mono fun r n => ⟨q, (mem_predecessors_of_copies c q).2 rfl, n⟩⟩
    · rw [copyFrom_ok hx] at deep
      obtain ⟨_, ⟨⟩⟩ := deep
  revert deep
  refine freshen_cases (motive := fun r => DepthReached r.1 → g.isStale p = true ∧
    Touched (fun q => ∃ r ∈ g.predecessors p, g.Needs r q) g r.2)
    ?absent ?current ?wired ?given ?linked ?made
  case absent =>
    rintro - ⟨_, ⟨⟩⟩
  case current =>
    rintro - - ⟨_, ⟨⟩⟩
  case given =>
    rintro - - - ⟨_, ⟨⟩⟩
  case wired => exact fun q hd hp hq => copied (.inl ⟨hd, hq⟩) hp
  case linked => exact fun q hd hp hq => copied (.inr ⟨hd, hq⟩) hp
  case made =>
    intro hd hp hq
    obtain ⟨type, ht⟩ := exists_type?_of_direction? hd
    obtain ⟨m, hm, rfl⟩ := Option.map_eq_some_iff.1 ht
    have inputs (q : Port) : q ∈ (m.ports.inputsOf p.index).map (Port.mk p.node) ↔
        q ∈ g.predecessors p := by rw [mem_inputs_iff hm, mem_predecessors_of_made hd hq]
    have touched := (readAll_serves serving ((m.ports.inputsOf p.index).map (Port.mk p.node)) t
      fun q hq => by rw [((mem_inputs_iff hm q).1 hq).input t.wellFormed]; rfl).1.touched
    simp only [inputs] at touched
    refine compute_cases hm (motive := fun r => DepthReached r.1 → g.isStale p = true ∧
      Touched (fun q => ∃ r ∈ g.predecessors p, g.Needs r q) g r.2) (fun e h hr _ => ?_)
      fun inputs h result j _ _ deep => absurd deep (not_depthReached_settle p result)
    rw [hr] at touched
    exact ⟨hp, touched⟩

end Failed

theorem read_of_absent {g : Graph} {p : Port} (hd : g.direction? p = none) :
    ¬ DepthReached ((read p).apply g).1 := by
  have absent : g.slot? p = none := by simpa [direction?] using hd
  rintro ⟨d, h⟩
  rw [read, Edit.apply_bind, Edit.apply_look] at h
  cases hs : g.slot p with
  | ok s =>
    rw [slot_eq_ok_iff.1 hs] at absent
    cases absent
  | error e =>
    rw [hs] at h
    obtain rfl : e = .evaluationTooDeep d := Except.error.inj h
    simp only [slot, node, bind, Except.bind] at hs
    cases hm : g.node? p.node with
    | none => simp [hm] at hs
    | some m =>
      rw [hm] at hs
      cases hi : m.ports.get? p.index <;> simp [hi, Error.noPort] at hs

/-- The limit on the depth of reads is nothing but a limit. A read that comes to its end does so under
every higher limit, with the same result and in the same graph. It comes to an end if no chain of
ports out of date from the port on is longer than the limit. Where it fails for its depth, the port
is as it was, and so are all ports that were up to date. -/
theorem read_depth {g : Graph} (r : Grown g) (confined : ∀ n t, g.type? n = some t → t.Confined)
    (p : Port) :
    (∀ m n x h, m ≤ n → (read p).apply (g.limited m) = (x, h) → ¬ DepthReached x →
      (read p).apply (g.limited n) = (x, h.limited n)) ∧
    (∀ m, (∀ l, List.IsChain g.Pulls (p :: l) → l.length ≤ m) →
      ¬ DepthReached ((read p).apply (g.limited m)).1) ∧
    (∀ m x h, (read p).apply (g.limited m) = (x, h) → DepthReached x →
      h.isStale p = true ∧ h.held p = g.held p ∧
      ∀ q, g.isStale q = false → h.isStale q = false ∧ h.held q = g.held q) := by
  have t := tractable_of_grown r confined
  refine ⟨fun m n x h le eq done => ?_, fun m within => ?_, fun m x h eq deep => ?_⟩
  · have deepens : Deepens n (read p) (read p) (g.limited m) := by
      refine (deepens_look rfl).bind fun s k hk => Deepens.get_bind ?_
      rw [Edit.apply_look] at hk
      obtain rfl := (Prod.mk.inj hk).2
      exact deeper_of_le n (Nat.succ_le_succ le) p _ (t.limited m)
    rw [Deepens, eq] at deepens
    exact deepens done
  · cases hd : g.direction? p with
    | none => exact read_of_absent (g := g.limited m) hd
    | some d =>
      rw [read_apply (g := g.limited m) (Option.isSome_iff_exists.2 ⟨d, hd⟩)]
      exact not_depthReached_readWithin (g := g.limited m) within
  · cases hd : g.direction? p with
    | none =>
      have absent := read_of_absent (g := g.limited m) hd
      rw [eq] at absent
      exact absurd deep absent
    | some d =>
      have live : ((g.limited m).direction? p).isSome := Option.isSome_iff_exists.2 ⟨d, hd⟩
      rw [read_apply live] at eq
      change (readWithin (m + 1) p).apply (g.limited m) = (x, h) at eq
      obtain ⟨stale, touched⟩ := touched_of_depthReached (t.limited m) (by rw [eq]; exact deep)
      rw [eq] at touched
      have own : h.slot? p = g.slot? p := touched.slot p fun n => (t.limited m).apart n rfl
      refine ⟨?_, ?_, fun q current => ?_⟩
      · rw [isStale, own]
        exact stale
      · rw [held, own]
        rfl
      · have other : h.slot? q = g.slot? q := by
          refine touched.slot q ?_
          rintro ⟨r, -, needs⟩
          exact absurd (current.symm.trans needs.1) (by simp)
        exact ⟨by rw [isStale, other]; exact current, by rw [held, other]; rfl⟩

theorem within_halfRead : halfRead.Within 2 ⟨⟨3⟩, 1⟩ := by
  have stale : halfRead.isStale ⟨⟨2⟩, 1⟩ = false := by cbv
  have made : halfRead.predecessors ⟨⟨3⟩, 1⟩ = [⟨⟨3⟩, 0⟩] := by cbv
  have wired : halfRead.predecessors ⟨⟨3⟩, 0⟩ = [⟨⟨2⟩, 1⟩] := by cbv
  intro l chain
  rcases l with _ | ⟨q, _ | ⟨r, _ | ⟨s, l⟩⟩⟩
  · simp
  · simp
  · simp
  · simp only [List.isChain_cons_cons, Pulls] at chain
    obtain ⟨⟨-, hq⟩, ⟨-, hr⟩, ⟨hs, -⟩, -⟩ := chain
    rw [made, List.mem_singleton] at hq
    rw [hq, wired, List.mem_singleton] at hr
    rw [hr, stale] at hs
    cases hs

/-- Two links are enough for the second repeater, and one is not. -/
theorem halfRead_depth : ∃ x h, (read ⟨⟨3⟩, 1⟩).apply (halfRead.limited 2) = (x, h) ∧
    ¬ DepthReached x ∧ (read ⟨⟨3⟩, 1⟩).apply (halfRead.limited 9) = (x, h.limited 9) ∧
    ∃ k, (read ⟨⟨3⟩, 1⟩).apply (halfRead.limited 1) = (.error (.evaluationTooDeep 1), k) ∧
      k.isStale ⟨⟨3⟩, 1⟩ = true ∧ k.isStale ⟨⟨2⟩, 1⟩ = false := by
  have confined (n : NodeId) (t : NodeType) (ht : halfRead.type? n = some t) : t.Confined := by
    rcases type_halfRead ht with rfl | rfl
    · exact NodeType.confined_of_inert rfl
    · exact confined_repeater
  obtain ⟨more, enough, failed⟩ :=
    read_depth (grown_of_standard standardRun_halfRead) confined ⟨⟨3⟩, 1⟩
  have shallow := enough 2 within_halfRead
  have deep : ((read ⟨⟨3⟩, 1⟩).apply (halfRead.limited 1)).1.map Value.payload? =
    .error (.evaluationTooDeep 1) := by cbv
  rcases eq : (read ⟨⟨3⟩, 1⟩).apply (halfRead.limited 2) with ⟨x, h⟩
  rcases eq' : (read ⟨⟨3⟩, 1⟩).apply (halfRead.limited 1) with ⟨y, k⟩
  rw [eq] at shallow
  rw [eq'] at deep
  obtain rfl : y = .error (.evaluationTooDeep 1) := by
    cases y with
    | ok v => cases deep
    | error e => exact congrArg _ (Except.error.inj deep)
  obtain ⟨stale, -, clean⟩ := failed 1 _ k eq' ⟨1, rfl⟩
  exact ⟨x, h, rfl, shallow, more 2 9 x h (by decide) eq shallow, k, rfl, stale,
    (clean ⟨⟨2⟩, 1⟩ (by cbv)).1⟩

end Dataflow.Graph
