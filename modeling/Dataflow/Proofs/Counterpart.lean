import Dataflow.Proofs.Course
import Dataflow.Proofs.Needed
set_option autoImplicit false

/-!
Graphs that read alike. Each port of one graph has a counterpart in the other, which is made in the
same way from the counterparts of what the port is made from. Main statement: if both are out of date
alike and what is up to date carries the same, then a port and its counterpart read the same, and if
they cannot be read, then for the same reason.
-/

namespace Dataflow.Graph

/-- The output `p` is computed in `h` as it is in `g`. -/
structure Fellow (old : Port → Port) (g h : Graph) (p : Port) : Prop where
  here : old p = p
  type : h.type? p.node = g.type? p.node
  own : h.effectiveType p = g.effectiveType p
  inputs : ∀ q, g.Influences q p → old q = q ∧ h.effectiveType q = g.effectiveType q
  fallback : h.fallback? p = g.fallback? p
  function : ∀ t, g.type? p.node = some t → t.Scoped

/-- Whatever the port holds while it is out of date is replaced when it is brought up to date. -/
def Replaced (g : Graph) (p : Port) : Prop :=
  (∃ q, g.Copies p q) ∨ g.Computing p ∧ ∀ t, g.type? p.node = some t → t.Writes p

/-- The ports in `U` have counterparts in `h`, which `old` finds. What the ports in `S` hold while
they are out of date is of no account. -/
structure Counterparts (U S : Port → Prop) (old : Port → Port) (g h : Graph) : Prop where
  wellFormed : g.WellFormed
  sound : h.WellFormed
  config : h.config = g.config
  closed : ∀ p q, U p → q ∈ g.predecessors p → U q
  injective : ∀ p q, U p → U q → old p = old q → p = q
  live : ∀ p, U p → (g.direction? p).isSome
  direction : ∀ p, U p → h.direction? (old p) = g.direction? p
  source : ∀ p, U p → g.direction? p = some .input → h.source? (old p) = (g.source? p).map old
  peer : ∀ p, U p → g.direction? p = some .output → h.peer? (old p) = (g.peer? p).map old
  made : ∀ p, U p → g.direction? p = some .output → g.peer? p = none → Fellow old g h p
  replaced : ∀ p, U p → S p → g.Replaced p
  note : h.note? = g.note?
  calls : h.calls = g.calls
  stale : ∀ p, U p → h.isStale (old p) = g.isStale p
  value : ∀ p, U p → (S p → g.isStale p = false) → h.value (old p) = g.value p

theorem Fellow.influences {old : Port → Port} {g h : Graph} {p q : Port} (f : Fellow old g h p) :
    h.Influences q p ↔ g.Influences q p := by
  simp only [Influences]
  constructor <;> rintro ⟨node, t, ht, mem⟩ <;> refine ⟨node, t, ?_, mem⟩
  · rwa [node, f.type, ← node] at ht
  · rwa [node, ← f.type, ← node] at ht

theorem Even.note {g h : Graph} (a : Even g h) : h.note? = g.note? := by
  funext n
  rw [← payload_attachment, a.attachment, payload_attachment]

theorem Fellow.of_sameFrame {old : Port → Port} {g h g' h' : Graph} {p : Port} (f : Fellow old g h p)
    (a : SameFrame g g') (b : SameFrame h h') (wg : g.Tree) (wh : h.Tree) : Fellow old g' h' p where
  here := f.here
  type := by rw [a.type, b.type, f.type]
  own := by rw [a.effectiveType wg, b.effectiveType wh, f.own]
  inputs := by
    rw [a.influences, a.effectiveType wg, b.effectiveType wh]
    exact f.inputs
  fallback := by rw [a.fallback, b.fallback, f.fallback]
  function := by
    rw [a.type]
    exact f.function

theorem value_setStatus (g : Graph) (n : NodeId) (s : Status) : (g.setStatus n s).value = g.value := by
  funext p
  rw [value, held, slot?_setStatus]
  rfl

theorem Replaced.writes {g : Graph} {p : Port} (r : g.Replaced p) (hd : g.direction? p = some .output)
    (hq : g.peer? p = none) : g.Computing p ∧ ∀ t, g.type? p.node = some t → t.Writes p := by
  rcases r with ⟨q, ⟨hi, -⟩ | ⟨-, linked⟩⟩ | r
  · rw [hd] at hi
    cases hi
  · rw [hq] at linked
    cases linked
  · exact r

theorem SameFrame.replaced {g h : Graph} (a : SameFrame g h) : h.Replaced = g.Replaced := by
  funext p
  simp only [Replaced, a.copies, a.computing, a.type]

/-- Graphs with one frame read alike if they do so in all that is not part of the frame. -/
theorem counterparts_of_sameFrame {U S : Port → Prop} {g h : Graph} (w : g.WellFormed) (a : SameFrame g h)
    (closed : ∀ p q, U p → q ∈ g.predecessors p → U q) (live : ∀ p, U p → (g.direction? p).isSome)
    (function : ∀ p t, U p → g.Computing p → g.type? p.node = some t → t.Scoped)
    (replaced : ∀ p, U p → S p → g.Replaced p) (note : h.note? = g.note?)
    (calls : h.calls = g.calls) (stale : ∀ p, U p → h.isStale p = g.isStale p)
    (value : ∀ p, U p → (S p → g.isStale p = false) → h.value p = g.value p) :
    Counterparts U S id g h where
  wellFormed := w
  sound := a.wellFormed w
  config := a.config
  closed := closed
  injective := fun _ _ _ _ same => same
  live := live
  direction := fun p _ => by rw [a.direction, id_eq]
  source := fun p _ _ => by rw [a.source, id_eq, Option.map_id]; rfl
  peer := fun p _ _ => by rw [a.peer, id_eq, Option.map_id]; rfl
  made := fun p hp hd hq =>
    { here := rfl
      type := by rw [a.type]
      own := by rw [a.effectiveType w.tree]
      inputs := fun q _ => ⟨rfl, by rw [a.effectiveType w.tree]⟩
      fallback := by rw [a.fallback]
      function := fun t ht => by
        cases hc : t.compute with
        | none => exact NodeType.scoped_of_inert hc
        | some c => exact function p t hp ⟨hd, hq, t, ht, by rw [hc]; rfl⟩ ht }
  replaced := replaced
  note := note
  calls := calls
  stale := stale
  value := value

namespace Counterparts
variable {U S : Port → Prop} {old : Port → Port} {g h g' h' : Graph} {p : Port}
  (T : Counterparts U S old g h)
include T

/-- Both graphs may change as long as they do so alike. -/
theorem step (a : SameFrame g g') (b : SameFrame h h') (ng : g'.note? = g.note?)
    (nh : h'.note? = h.note?) (calls : h'.calls = g'.calls)
    (stale : ∀ q, U q → h'.isStale (old q) = g'.isStale q)
    (value : ∀ q, U q → (S q → g'.isStale q = false) → h'.value (old q) = g'.value q) :
    Counterparts U S old g' h' where
  wellFormed := a.wellFormed T.wellFormed
  sound := b.wellFormed T.sound
  config := by rw [a.config, b.config, T.config]
  closed := fun q r hq hr => T.closed q r hq ((a.mem_predecessors q r).1 hr)
  injective := T.injective
  live := by
    rw [a.direction]
    exact T.live
  direction := by
    rw [a.direction, b.direction]
    exact T.direction
  source := by
    rw [a.direction, a.source, b.source]
    exact T.source
  peer := by
    rw [a.direction, a.peer, b.peer]
    exact T.peer
  made := by
    rw [a.direction, a.peer]
    exact fun q hq hd hp =>
      (T.made q hq hd hp).of_sameFrame a b T.wellFormed.tree T.sound.tree
  replaced := by
    rw [a.replaced]
    exact T.replaced
  note := by rw [ng, nh, T.note]
  calls := calls
  stale := stale
  value := value

/-- A port and its counterpart are given the same value. -/
theorem stored (hp : U p) (a : Stored p g g') (b : Stored (old p) h h') (eg : Even g g')
    (eh : Even h h') (value : (S p → g.isStale p = false) → h'.value (old p) = g'.value p) :
    Counterparts U S old g' h' := by
  refine T.step a.frame b.frame eg.note eh.note (by rw [eg.calls, eh.calls, T.calls])
    (fun q hq => ?_) fun q hq known => ?_
  · rw [a.isStale, b.isStale]
    exact T.stale q hq
  · rw [a.isStale] at known
    by_cases same : q = p
    · subst same
      exact value known
    · have other : old q ≠ old p := fun h => same (T.injective q p hq hp h)
      rw [a.value same, b.value other]
      exact T.value q hq known

theorem hold (hp : U p) {v v' : Value} (same : v'.payload? = v.payload?) :
    Counterparts U S old (g.hold p v) (h.hold (old p) v') := by
  refine T.stored hp (.hold g p v) (.hold h (old p) v') (.hold g p v) (.hold h (old p) v') fun _ => ?_
  have live := T.live p hp
  rw [value_hold _ _ _ _ live, value_hold _ _ _ _ (by rwa [T.direction p hp]), if_pos rfl, if_pos rfl,
    same]

theorem put (hp : U p) (v : Value) : Counterparts U S old (g.put p v) (h.put (old p) v) := by
  refine T.stored hp (.put g p v) (.put h (old p) v) (.put g p v) (.put h (old p) v) fun _ => ?_
  have live := T.live p hp
  rw [value_put _ _ _ _ live, value_put _ _ _ _ (by rwa [T.direction p hp]), if_pos rfl, if_pos rfl]

/-- Both come to be up to date. -/
theorem setCurrent (hp : U p) (same : h.value (old p) = g.value p) :
    Counterparts U S old (g.setCurrent p) (h.setCurrent (old p)) := by
  have eg := Even.setCurrent g p
  have eh := Even.setCurrent h (old p)
  have here (q : Port) (hq : U q) : old p = old q ↔ p = q :=
    ⟨T.injective p q hp hq, fun h => h ▸ rfl⟩
  refine T.step (g.sameFrame_setCurrent p) (h.sameFrame_setCurrent (old p)) eg.note eh.note
    (by rw [eg.calls, eh.calls, T.calls]) (fun q hq => ?_) fun q hq known => ?_
  · simp only [isStale_setCurrent, here q hq, T.stale q hq]
  · rw [value_setCurrent, value_setCurrent]
    by_cases hpq : p = q
    · exact hpq ▸ same
    · rw [isStale_setCurrent, if_neg hpq] at known
      exact T.value q hq known

theorem setStatus (n n' : NodeId) (s s' : Status) :
    Counterparts U S old (g.setStatus n s) (h.setStatus n' s') := by
  have eg := Even.setStatus g n s
  have eh := Even.setStatus h n' s'
  refine T.step (g.sameFrame_setStatus n s) (h.sameFrame_setStatus n' s') eg.note eh.note
    (by rw [eg.calls, eh.calls, T.calls]) (fun q hq => ?_) fun q hq known => ?_
  · rw [isStale_setStatus, isStale_setStatus, T.stale q hq]
  · rw [isStale_setStatus] at known
    rw [value_setStatus, value_setStatus]
    exact T.value q hq known

theorem settled (hp : U p) (same : h.value (old p) = g.value p) :
    Counterparts U S old (g.settled p) (h.settled (old p)) := by
  have T' := T.setCurrent hp same
  have qg := quiet_emit (g.setCurrent p) (.valueChanged p)
  have qh := quiet_emit (h.setCurrent (old p)) (.valueChanged (old p))
  exact T'.step qg.frame qh.frame rfl rfl T'.calls T'.stale T'.value

theorem noted (c : Computation) (q q' : Port) : Counterparts U S old (g.noted c q) (h.noted c q') := by
  have qg : Quiet g (g.noted c q) := .of_nodes rfl rfl rfl
  have qh : Quiet h (h.noted c q') := .of_nodes rfl rfl rfl
  refine T.step qg.frame qh.frame rfl rfl ?_ T.stale T.value
  simp only [Graph.noted, runs, T.calls]

/-- What is read of a port that is up to date. -/
theorem value_held (hp : U p) (known : S p → g.isStale p = false) :
    (h.held (old p)).payload? = (g.held p).payload? := T.value p hp known

end Counterparts

/-! ### Steps side by side -/

/-- Two edits that end alike, and leave graphs that are in `R`. -/
def Alongside (R : Graph → Graph → Prop) {α β : Type} (f : α → β)
    (x y : Except Error α × Graph) : Prop :=
  y.1.map f = x.1.map f ∧ R x.2 y.2

/-- A way to read ports that reads a port and its counterpart alike. -/
def Abreast (U S : Port → Prop) (old : Port → Port) (below : Port → Edit Value) : Prop :=
  ∀ p g h, U p → Counterparts U S old g h → Alongside (Counterparts U S old) Value.payload?
    ((below p).apply g) ((below (old p)).apply h)

section Steps
variable {U S : Port → Prop} {old : Port → Port} {g h : Graph} {p q : Port}
  {below : Port → Edit Value}

theorem Abreast.copyFrom (r : Abreast U S old below) (T : Counterparts U S old g h) (hp : U p) (hq : U q) :
    Alongside (Counterparts U S old) Value.payload? ((copyFrom below p q).apply g)
      ((copyFrom below (old p) (old q)).apply h) := by
  obtain ⟨same, T'⟩ := r q g h hq T
  rcases hx : (below q).apply g with ⟨e | v, g'⟩ <;>
    rcases hy : (below (old q)).apply h with ⟨e' | v', h'⟩ <;>
    rw [hx, hy] at same T' <;>
    simp only [Except.map, reduceCtorEq, Except.error.injEq, Except.ok.injEq] at same
  · rw [copyFrom_error hx, copyFrom_error hy]
    exact ⟨congrArg Except.error same, T'⟩
  · rw [copyFrom_ok hx, copyFrom_ok hy]
    have held := T'.hold hp same
    refine ⟨congrArg Except.ok same, held.setCurrent hp ?_⟩
    have live := T'.live p hp
    rw [value_hold _ _ _ _ live, value_hold _ _ _ _ (by rwa [T'.direction p hp]), if_pos rfl,
      if_pos rfl, same]

theorem Abreast.readAll (r : Abreast U S old below) (ps : List Port)
    (hps : ∀ q ∈ ps, U q ∧ old q = q) (T : Counterparts U S old g h) :
    Alongside (Counterparts U S old) id ((readAll below ps).apply g) ((readAll below ps).apply h) := by
  induction ps generalizing g h with
  | nil => exact ⟨rfl, T⟩
  | cons q ps ih =>
    obtain ⟨hq, here⟩ := hps q (by simp)
    obtain ⟨same, T'⟩ := r q g h hq T
    rw [here] at same T'
    rw [Graph.readAll, Edit.apply_bind, Edit.apply_outcome, Edit.apply_bind, Edit.apply_outcome]
    rcases hx : (below q).apply g with ⟨e | v, g'⟩ <;>
      rcases hy : (below q).apply h with ⟨e' | v', h'⟩ <;>
      rw [hx, hy] at same T' <;>
      simp only [Except.map, reduceCtorEq, Except.error.injEq, Except.ok.injEq] at same
    · subst same
      cases e' <;> exact ⟨rfl, T'⟩
    · exact ih (fun q hq => hps q (by simp [hq])) T'

/-- The counterparts of an output and of its inputs tell the computation the same. -/
theorem Counterparts.told (T : Counterparts U S old g h) {t : NodeType} (ht : g.type? p.node = some t)
    (type : h.type? p.node = g.type? p.node) (inputs : ∀ q, g.Influences q p →
      U q ∧ old q = q ∧ h.effectiveType q = g.effectiveType q ∧ g.isStale q = false) :
    (g.told p).Alike (t.ports.inputsOf p.index) (h.told p) := by
  intro i hi
  obtain ⟨hU, here, typed, current⟩ := inputs _ (influences_of_mem ht hi)
  have attr : h.attr? ⟨p.node, i⟩ = g.attr? ⟨p.node, i⟩ := by rw [attr?_eq, attr?_eq, type]
  constructor
  · have same := T.value_held hU fun _ => current
    rw [here] at same
    simp only [Graph.told, resolved, typed]
    cases g.effectiveType ⟨p.node, i⟩ with
    | none => rfl
    | some u => exact congrArg Except.ok same.symm
  · simp only [Graph.told, attr, typed]

/-- An output and its counterpart that are settled with the same value give it. -/
theorem Counterparts.ended (T : Counterparts U S old g h) (hp : U p) (here : old p = p)
    (same : h.value p = g.value p) : Alongside (Counterparts U S old) Value.payload?
      (.ok ((g.settled p).held p), g.settled p) (.ok ((h.settled p).held p), h.settled p) := by
  have T' := T.settled hp (by rwa [here])
  rw [here] at T'
  refine ⟨congrArg Except.ok ?_, T'⟩
  exact (congrFun (value_setCurrent h p) p).trans (same.trans (congrFun (value_setCurrent g p) p).symm)

theorem Counterparts.settle (T : Counterparts U S old g h) (hp : U p) (f : Fellow old g h p)
    (result : Except String Status) (same : ∀ s, result = .ok s → h.value p = g.value p) :
    Alongside (Counterparts U S old) Value.payload? ((settle p result).apply g)
      ((settle p result).apply h) := by
  cases result with
  | ok s =>
    rw [settle_ok, settle_ok]
    refine (T.setStatus _ _ _ _).ended hp f.here ?_
    rw [value_setStatus, value_setStatus]
    exact same s rfl
  | error message =>
    cases hv : g.fallback? p with
    | none =>
      rw [settle_error_of_none g p message hv,
        settle_error_of_none h p message (by rw [f.fallback, hv])]
      exact ⟨rfl, T.setStatus _ _ _ _⟩
    | some v =>
      rw [settle_error_of_some g p message hv,
        settle_error_of_some h p message (by rw [f.fallback, hv])]
      have live := T.live p hp
      have live' := T.direction p hp
      have put := T.put hp v
      rw [f.here] at live' put
      refine (put.setStatus _ _ _ _).ended hp f.here ?_
      rw [value_setStatus, value_setStatus, value_put _ _ _ _ live,
        value_put _ _ _ _ (by rwa [live']), if_pos rfl, if_pos rfl]

section Made
variable (T : Counterparts U S old g h) (hp : U p) (hd : g.direction? p = some .output)
  (hq : g.peer? p = none)
include T hp hd hq

theorem Counterparts.current_inputs (current : ∀ q, g.Influences q p → g.isStale q = false) (q : Port)
    (influence : h.Influences q p) : h.isStale q = false := by
  have f := T.made p hp hd hq
  have influence := f.influences.1 influence
  have hU := T.closed p q hp ((mem_predecessors_of_made hd hq q).2 influence)
  have same := T.stale q hU
  rwa [(f.inputs q influence).1, current q influence] at same

variable (current : ∀ q, g.Influences q p → g.isStale q = false) {levels : Nat}
  (reach : (∃ q, g.Influences q p) → levels ≠ 0)
include current reach

/-- Where all inputs could be read, the computations take the same course. -/
theorem Counterparts.invoke {t : NodeType} (ht : g.type? p.node = some t) {c : Computation}
    (hc : t.compute = some c) :
    ∃ result g' h', (invoke (readWithin levels) c p).apply g = (.ok result, g') ∧
      (Graph.invoke (readWithin levels) c p).apply h = (.ok result, h') ∧ Counterparts U S old g' h' ∧
      SameFrame g g' ∧ ∀ s, result = .ok s → h'.value p = g'.value p := by
  have f := T.made p hp hd hq
  have hd' : h.direction? p = some .output := by
    have same := T.direction p hp
    rwa [f.here, hd] at same
  obtain ⟨result, last, g', course, run, stored, even, left⟩ :=
    invoke_course T.wellFormed hd ht hc (f.function _ ht) current reach
  have reach' : (∃ q, h.Influences q p) → levels ≠ 0 := by simpa only [f.influences] using reach
  obtain ⟨result', last', h', course', run', stored', even', left'⟩ :=
    invoke_course T.sound hd' (f.type.trans ht) hc (f.function _ ht)
      (T.current_inputs hp hd hq current) reach'
  have runs : h.runs c = g.runs c := by rw [Graph.runs, Graph.runs, T.calls]
  have note : (g.attachment p.node).payload? = (h.attachment p.node).payload? := by
    rw [payload_attachment, payload_attachment, T.note]
  have told := T.told ht f.type fun q influence =>
    ⟨T.closed p q hp ((mem_predecessors_of_made hd hq q).2 influence), (f.inputs q influence).1,
      (f.inputs q influence).2, current q influence⟩
  have blind := (f.function _ ht).blind c p (g.runs c) (g.effectiveType p) _ _ _ _ hc note told
  rw [course, ← f.own, ← runs, course'] at blind
  simp only [Option.map_some, Prod.map_apply, id_eq, Option.some.injEq, Prod.mk.injEq] at blind
  obtain ⟨rfl, lasts⟩ := blind
  have carried (known : last.isSome ∨ (S p → g.isStale p = false)) : h'.value p = g'.value p := by
    rw [left, left']
    cases last with
    | some v =>
      obtain ⟨v', rfl, same⟩ := Option.map_eq_some_iff.1 lasts.symm
      exact same
    | none =>
      obtain rfl := Option.map_eq_none_iff.1 lasts.symm
      have same := T.value p hp (known.resolve_left (by simp))
      rwa [f.here] at same
  have qg : Quiet (g.noted c p) g := .of_nodes rfl rfl rfl
  have qh : Quiet (h.noted c p) h := .of_nodes rfl rfl rfl
  have sg := (Stored.of_quiet qg).trans stored
  have sh := (Stored.of_quiet qh).trans stored'
  refine ⟨result, g', h', run, run', ?_, stored.frame, fun s hr => carried ?_⟩
  · refine (T.noted c p p).stored hp sg (by rwa [f.here]) even even' fun known => ?_
    rw [f.here]
    exact carried (.inr known)
  · by_cases mark : S p
    · have writes := ((T.replaced p hp mark).writes hd hq).2
      exact .inl (writes t ht c _ _ _ _ s last hc (hr ▸ course))
    · exact .inr fun h => absurd h mark

/-- Where all inputs could be read, an output and its counterpart are computed alike. -/
theorem Counterparts.attempt {m : Node} (hm : g.node? p.node = some m) :
    Alongside (Counterparts U S old) Value.payload?
      ((Graph.attempt (readWithin levels) p m.compute (.ok ()) >>= Graph.settle p).apply g)
      ((Graph.attempt (readWithin levels) p m.compute (.ok ()) >>= Graph.settle p).apply h) := by
  have f := T.made p hp hd hq
  have ht : g.type? p.node = some m.type := by simp [type?, hm]
  cases hc : m.compute with
  | none =>
    refine T.settle hp f (.ok .empty) fun _ _ => ?_
    have known := T.value p hp
    rw [f.here] at known
    refine known fun mark => ?_
    obtain ⟨-, -, t, ht', computes⟩ := ((T.replaced p hp mark).writes hd hq).1
    rw [ht] at ht'
    obtain rfl := Option.some.inj ht'
    simp [Node.type, hc] at computes
  | some c =>
    obtain ⟨result, g', h', run, run', T', frame, same⟩ := T.invoke hp hd hq current reach ht hc
    simp only [Graph.attempt]
    rw [Edit.apply_bind_ok run, Edit.apply_bind_ok run']
    exact T'.settle hp (T'.made p hp (by rw [frame.direction, hd]) (by rw [frame.peer, hq])) result same

end Made

theorem frame_readAll {levels : Nat} {ps : List Port} {g g' : Graph}
    {x : Except Error (Except String Unit)}
    (reads : (Graph.readAll (readWithin levels) ps).apply g = (x, g')) : SameFrame g g' := by
  have leads := leads_readAll Calmer.steps ps (fun q _ => leads_readWithin levels q) g
  rw [reads] at leads
  exact leads.frame

/-- An output and its counterpart are computed alike. -/
theorem Abreast.compute {levels : Nat} (r : Abreast U S old (readWithin levels))
    (T : Counterparts U S old g h) (hp : U p) (hd : g.direction? p = some .output) (hq : g.peer? p = none) :
    Alongside (Counterparts U S old) Value.payload? ((compute (readWithin levels) p).apply g)
      ((Graph.compute (readWithin levels) p).apply h) := by
  have f := T.made p hp hd hq
  obtain ⟨t, ht⟩ := exists_type?_of_direction? hd
  obtain ⟨m, hm, rfl⟩ := Option.map_eq_some_iff.1 ht
  obtain ⟨m', hm', same⟩ := Option.map_eq_some_iff.1 (f.type.trans ht)
  have ports : m'.ports.inputsOf p.index = m.ports.inputsOf p.index :=
    congrArg (fun t => t.ports.inputsOf p.index) same
  have computes : m'.compute = m.compute := congrArg NodeType.compute same
  have inputs (q : Port) (mem : q ∈ (m.ports.inputsOf p.index).map (Port.mk p.node)) :
      U q ∧ old q = q := by
    have influence := (mem_inputs_iff hm q).1 mem
    exact ⟨T.closed p q hp ((mem_predecessors_of_made hd hq q).2 influence), (f.inputs q influence).1⟩
  obtain ⟨alike, T'⟩ := r.readAll _ inputs T
  rw [compute_eq, Edit.apply_bind, Edit.apply_look, Edit.apply_bind, Edit.apply_look]
  simp only [node, hm, hm', ports, computes]
  rw [Edit.apply_bind, Edit.apply_bind]
  rcases hx : (Graph.readAll (readWithin levels) ((m.ports.inputsOf p.index).map
    (Port.mk p.node))).apply g with ⟨x, g'⟩
  rcases hy : (Graph.readAll (readWithin levels) ((m.ports.inputsOf p.index).map
    (Port.mk p.node))).apply h with ⟨y, h'⟩
  rw [hx, hy] at alike T'
  have frame := frame_readAll hx
  simp only [Except.map_id, id_eq] at alike
  subst alike
  have hd' : g'.direction? p = some .output := by rw [frame.direction, hd]
  have hq' : g'.peer? p = none := by rw [frame.peer, hq]
  rcases y with e | message | u
  · exact ⟨rfl, T'⟩
  · exact T'.settle hp (T'.made p hp hd' hq') (.error message) (by simp)
  · obtain ⟨m₁, hm₁, eq⟩ := Option.map_eq_some_iff.1 (show g'.type? p.node = some m.type by
      rw [frame.type, ht])
    have listed {q : Port} (influence : g'.Influences q p) :
        q ∈ (m.ports.inputsOf p.index).map (Port.mk p.node) := by
      rw [frame.influences] at influence
      exact (mem_inputs_iff hm q).2 influence
    have reach : (∃ q, g'.Influences q p) → levels ≠ 0 := by
      rintro ⟨q, influence⟩
      exact reach_of_readAll hx (listed influence)
    have step := T'.attempt hp hd' hq'
      (fun q influence => current_readAll hx q (listed influence)) reach hm₁
    rwa [show m₁.compute = m.compute from congrArg NodeType.compute eq] at step

/-- A port and its counterpart are brought up to date alike. -/
theorem Abreast.freshen {levels : Nat} (r : Abreast U S old (readWithin levels)) :
    Abreast U S old (freshen (readWithin levels)) := by
  intro p g h hp T
  have live := T.live p hp
  have live' : (h.direction? (old p)).isSome := by rwa [T.direction p hp]
  cases hs : g.isStale p with
  | false =>
    have hs' : h.isStale (old p) = false := by rw [T.stale p hp, hs]
    rw [freshen_of_current live hs, freshen_of_current live' hs']
    exact ⟨congrArg Except.ok (T.value_held hp fun _ => hs), T⟩
  | true =>
    have hs' : h.isStale (old p) = true := by rw [T.stale p hp, hs]
    obtain ⟨d, hd⟩ := Option.isSome_iff_exists.1 live
    have hd' : h.direction? (old p) = some d := by rw [T.direction p hp, hd]
    have copies {q : Port} (c : g.Copies p q) (c' : h.Copies (old p) (old q)) :
        Alongside (Counterparts U S old) Value.payload? ((Graph.freshen (readWithin levels) p).apply g)
          ((Graph.freshen (readWithin levels) (old p)).apply h) := by
      rw [freshen_of_copies c hs, freshen_of_copies c' hs']
      exact r.copyFrom T hp (T.closed p q hp ((mem_predecessors_iff g p q).2 (.inl c)))
    cases d with
    | input =>
      have source := T.source p hp hd
      cases hq : g.source? p with
      | some q =>
        rw [hq] at source
        exact copies (.inl ⟨hd, hq⟩) (.inl ⟨hd', source⟩)
      | none =>
        rw [hq] at source
        rw [turned_given hd hs hq, turned_given hd' hs' source]
        have carried : h.value (old p) = g.value p := by
          refine T.value p hp fun mark => ?_
          rcases T.replaced p hp mark with ⟨q, ⟨-, fed⟩ | ⟨ho, -⟩⟩ | ⟨⟨ho, -⟩, -⟩
          · rw [hq] at fed
            cases fed
          · rw [hd] at ho
            cases ho
          · rw [hd] at ho
            cases ho
        refine ⟨congrArg Except.ok ?_, T.setCurrent hp carried⟩
        exact (congrFun (value_setCurrent h _) _).trans
          (carried.trans (congrFun (value_setCurrent g p) p).symm)
    | output =>
      have peer := T.peer p hp hd
      cases hq : g.peer? p with
      | some q =>
        rw [hq] at peer
        exact copies (.inr ⟨hd, hq⟩) (.inr ⟨hd', peer⟩)
      | none =>
        have here := (T.made p hp hd hq).here
        rw [hq] at peer
        rw [here] at hd' hs' peer
        rw [here, freshen_of_made hd hs hq, freshen_of_made hd' hs' peer]
        exact r.compute T hp hd hq

end Steps

/-- A port and its counterpart read alike. -/
theorem abreast_readWithin (U S : Port → Prop) (old : Port → Port) (levels : Nat) :
    Abreast U S old (readWithin levels) := by
  induction levels with
  | zero =>
    intro p g h _ T
    rw [tooDeep_zero, tooDeep_zero, T.config]
    exact ⟨rfl, T⟩
  | succ levels r => exact r.freshen

theorem Counterparts.read {U S : Port → Prop} {old : Port → Port} {g h : Graph} {p : Port}
    (T : Counterparts U S old g h) (hp : U p) : Alongside (Counterparts U S old) Value.payload? ((read p).apply g)
      ((read (old p)).apply h) := by
  have live := T.live p hp
  rw [read_apply live, read_apply (by rwa [T.direction p hp]), T.config]
  exact abreast_readWithin U S old _ p g h hp T

end Dataflow.Graph
