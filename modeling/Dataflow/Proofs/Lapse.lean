import Dataflow.Proofs.Upstream
set_option autoImplicit false

/-!
What an output reads as when one of its wires goes. Main statement: it reads the same as before,
unless it is up to date, has no type of its own and loses its last wire.
-/

namespace Dataflow

/-- Whenever the computation for the output `p` ends well while the output goes by `type`, it does
so and leaves the same when the output goes by `type'`. -/
def NodeType.Steady (t : NodeType) (p : Port) (type type' : PortType) : Prop :=
  ∀ c count left answers s last, t.compute = some c →
    t.course c p count type left answers = some (.ok s, last) →
    ∃ s' last', t.course c p count type' left answers = some (.ok s', last') ∧
      last'.map Value.payload? = last.map Value.payload?

theorem NodeType.steady_refl (t : NodeType) (p : Port) (type : PortType) : t.Steady p type type :=
  fun _ _ _ _ s last _ eq => ⟨s, last, eq, rfl⟩

namespace Graph

/-- The inputs of `p` can be read, and then the computation for `p` ends well. -/
def Succeeds (g : Graph) (p : Port) : Prop :=
  ∃ m s h, g.node? p.node = some m ∧
    (readAll (readWithin g.config.maxDepth) ((m.ports.inputsOf p.index).map (Port.mk p.node)) >>=
      attempt (readWithin g.config.maxDepth) p m.compute).apply g = (.ok (.ok s), h)

/-- The output `o` is up to date, but what it holds goes with its last wire, the one to `i`. -/
def Lapses (g : Graph) (o i : Port) : Prop :=
  g.isStale o = false ∧ (∀ j, g.Feeds o j → j = i) ∧
    ∃ a, g.attr? o = some a ∧ a.type = none ∧ g.value o ≠ a.default.payload?

/-! ### What is computed -/

section Made
variable {g g' : Graph} {p : Port} {m : Node} {c : Computation} {levels : Nat}

/-- An output reads as what its computation leaves when that ends well. -/
theorem freshen_course (w : g.WellFormed) (hd : g.direction? p = some .output)
    (hq : g.peer? p = none) (hs : g.isStale p = true) (hm : g.node? p.node = some m)
    (hc : m.compute = some c) (k : m.type.Scoped)
    (reads : (readAll (readWithin levels)
      ((m.ports.inputsOf p.index).map (Port.mk p.node))).apply g = (.ok (.ok ()), g')) :
    ∃ result last h, m.type.course c p (g'.runs c) (g.effectiveType p) (g'.attachment p.node)
        (g'.told p) = some (result, last) ∧
      (attempt (readWithin levels) p m.compute (.ok ())).apply g' = (.ok result, h) ∧
      ∀ s, result = .ok s → ∃ v, ((freshen (readWithin levels) p).apply g).1 = .ok v ∧
        v.payload? = last.elim (g'.value p) Value.payload? := by
  have frame := frame_readAll reads
  have ht : g'.type? p.node = some m.type := by
    rw [frame.type, type?, hm]
    rfl
  have inputs {q : Port} (influence : g'.Influences q p) :
      q ∈ (m.ports.inputsOf p.index).map (Port.mk p.node) := by
    rw [frame.influences] at influence
    exact (mem_inputs_iff hm q).2 influence
  obtain ⟨result, last, h, course, run, stored, -, left⟩ :=
    invoke_course (frame.wellFormed w) (p := p) (by rw [frame.direction, hd]) ht hc k
      (fun q influence => current_readAll reads q (inputs influence))
      (fun ex => reach_of_readAll reads (inputs ex.choose_spec))
  rw [frame.effectiveType w.tree] at course
  have tried : (attempt (readWithin levels) p m.compute (.ok ())).apply g' = (.ok result, h) := by
    rw [hc]
    exact run
  refine ⟨result, last, h, course, tried, ?_⟩
  rintro s rfl
  refine ⟨((h.setStatus p.node s).settled p).held p, ?_, ?_⟩
  · rw [freshen_of_made hd hs hq, compute_eq, Edit.apply_bind, Edit.apply_look]
    simp only [node, hm]
    rw [Edit.apply_bind_ok reads, Edit.apply_bind_ok tried, settle_ok]
  · rw [← left]
    exact (congrFun (value_setCurrent (h.setStatus p.node s) p) p).trans
      (congrFun (value_setStatus h p.node s) p)

end Made

section Source
variable {old : Port → Port} {lost : Edge → Prop} {o : Port} {g h : Graph}
  (s : Shorn old lost o g h) (made : g.Computing o)
include s made

/-- The output itself is where it was. -/
theorem Shorn.source_known : old o = o ∧ h.type? o.node = g.type? o.node ∧
    h.attr? o = g.attr? o ∧ h.direction? o = some .output ∧ h.peer? o = none ∧
    g.contents? o.node = none := by
  obtain ⟨hd, hq, -⟩ := made
  have live : (g.attr? o).isSome := (isSome_direction?_iff g o).1 (by rw [hd]; rfl)
  have leaf : g.contents? o.node = none := by
    rw [← Option.not_isSome_iff_eq_none]
    intro network
    have peer := s.standard.projected o network live
    simp [hq] at peer
  have here := s.remnant.fixed o leaf
  have type := s.remnant.type o.node leaf
  have attr : h.attr? o = g.attr? o := by rw [attr?_eq, attr?_eq, type]
  refine ⟨here, type, attr, by rw [direction?_eq, attr, ← direction?_eq, hd], ?_, leaf⟩
  cases hr : h.peer? o with
  | none => rfl
  | some r =>
    have := ((s.remnant.peer o r (by rwa [attr])).1 hr).2
    rw [here, hq] at this
    cases this

theorem Shorn.isStale_source : h.isStale o = g.isStale o := by
  obtain ⟨here, -, attr, hd, -, -⟩ := s.source_known made
  rw [Bool.eq_iff_iff]
  constructor
  · intro stale
    have spread := s.remnant.spread o stale
    rw [here] at spread
    refine spread.resolve_right ?_
    rintro ⟨d, hl, path⟩
    exact s.apart hl path
  · have stale := s.remnant.stale o ((isSome_direction?_iff h o).1 (by rw [hd]; rfl))
    rwa [here] at stale

/-- The output goes back to its default if it has no type and the wire was its last. -/
theorem Shorn.yields_iff {i : Port} (gone : lost ⟨o, i⟩)
    (only : ∀ d, lost d → d.output = o → d = ⟨o, i⟩) {a : Attribute} (ha : g.attr? o = some a) :
    (∃ d, lost d ∧ h.Yields d o o) ↔ a.type = none ∧ ∀ j, g.Feeds o j → j = i := by
  obtain ⟨here, -, attr, hd, -, -⟩ := s.source_known made
  have live : (h.attr? o).isSome := by rw [attr, ha]; rfl
  constructor
  · rintro ⟨d, hl, b, hb, ⟨input, -⟩ | ⟨output, untyped, bare⟩⟩
    · have := (s.remnant.real d hl).input s.before.wired
      rw [← input, made.1] at this
      cases this
    · rw [attr, ha] at hb
      obtain rfl := Option.some.inj hb
      refine ⟨untyped, fun j hf => ?_⟩
      by_cases hl : lost ⟨o, j⟩
      · exact congrArg Edge.input (only _ hl rfl)
      · obtain ⟨⟨q, k⟩, hk, eq⟩ := s.remnant.stays ⟨o, j⟩ hf hl
        have same : q = o := s.remnant.injective s.after (hk.isSome_output s.after.wired) live
          ((congrArg Edge.output eq).trans here.symm)
        exact absurd (same ▸ hk) (bare k)
  · rintro ⟨untyped, last⟩
    refine ⟨_, gone, a, attr.trans ha, .inr ⟨rfl, untyped, fun j hf => ?_⟩⟩
    have wire := s.remnant.feeds hf
    rw [here] at wire
    refine s.remnant.gone ⟨o, j⟩ hf ?_
    rwa [Edge.mapPorts, here, last _ wire]

/-- What influences the output is where it was. -/
theorem Shorn.influences_source {q : Port} (influence : g.Influences q o) :
    Upstream old o g h q ∧ old q = q ∧ g.effectiveType q = h.effectiveType q := by
  obtain ⟨-, type, -, -, -, leaf⟩ := s.source_known made
  have fixed := s.remnant.fixed q (by rw [influence.1, leaf])
  have flows : g.Flows q o := .inl influence
  have hU : Upstream old o g h q := by
    refine ⟨?_, by rw [fixed]; exact .single flows⟩
    rw [attr?_eq, influence.1, type, ← influence.1, ← attr?_eq, ← isSome_direction?_iff]
    exact flows.isSome_left s.before
  have same := s.effectiveType (.inl hU)
  rw [fixed] at same
  exact ⟨hU, fixed, same⟩

variable (function : ∀ q t, Relation.ReflTransGen g.Flows q o → g.Computing q →
  g.type? q.node = some t → t.Scoped)
include function

/-- The inputs of the output are read alike. -/
theorem Shorn.readAll_source {m : Node} (hm : g.node? o.node = some m) {levels : Nat}
    {x : Except Error (Except String Unit)} {g' : Graph}
    (reads : (readAll (readWithin levels)
      ((m.ports.inputsOf o.index).map (Port.mk o.node))).apply g = (x, g')) :
    ∃ h', (readAll (readWithin levels)
      ((m.ports.inputsOf o.index).map (Port.mk o.node))).apply h = (x, h') ∧
        Counterparts (Upstream old o g h) (fun _ => False) old h' g' := by
  have T := s.counterparts fun q t path => function q t path.to_reflTransGen
  have inputs (q : Port) (mem : q ∈ (m.ports.inputsOf o.index).map (Port.mk o.node)) :
      Upstream old o g h q ∧ old q = q := by
    obtain ⟨hU, fixed, -⟩ := s.influences_source made ((mem_inputs_iff hm q).1 mem)
    exact ⟨hU, fixed⟩
  obtain ⟨alike, T'⟩ := (abreast_readWithin _ _ old levels).readAll _ inputs T
  rw [reads] at alike T'
  simp only [Except.map_id, id_eq] at alike
  exact ⟨_, Prod.ext alike.symm rfl, T'⟩

omit function in
/-- Once its inputs have been read, the computation takes the same course if the output goes by the
same type. -/
theorem Shorn.course_source {t : NodeType} (ht : g.type? o.node = some t) (k : t.Scoped)
    {c : Computation} (hc : t.compute = some c) {g' h' : Graph} (fg : SameFrame g g')
    (fh : SameFrame h h') (T : Counterparts (Upstream old o g h) (fun _ => False) old h' g')
    (current : ∀ q, h'.Influences q o → h'.isStale q = false) (type : PortType) :
    (t.course c o (h'.runs c) type (h'.attachment o.node) (h'.told o)).map
        (Prod.map id (Option.map Value.payload?)) =
      (t.course c o (g'.runs c) type (g'.attachment o.node) (g'.told o)).map
        (Prod.map id (Option.map Value.payload?)) := by
  obtain ⟨-, kept, -⟩ := s.source_known made
  have told : (h'.told o).Alike (t.ports.inputsOf o.index) (g'.told o) := by
    refine T.told (by rw [fh.type, kept, ht]) (by rw [fg.type, fh.type, kept]) fun q influence => ?_
    have before : g.Influences q o := by
      obtain ⟨node, u, hu, mem⟩ := influence
      rw [fh.type, node, kept] at hu
      exact ⟨node, u, by rw [node, hu], mem⟩
    obtain ⟨hU, fixed, same⟩ := s.influences_source made before
    rw [fg.effectiveType s.before.tree, fh.effectiveType s.after.tree]
    exact ⟨hU, fixed, same, current q influence⟩
  have note : (h'.attachment o.node).payload? = (g'.attachment o.node).payload? := by
    rw [payload_attachment, payload_attachment, T.note]
  have runs : h'.runs c = g'.runs c := by rw [Graph.runs, Graph.runs, T.calls]
  rw [runs]
  exact k.blind c o _ type _ _ _ _ hc note told

/-- Where the output was computed with success it still is, and gives the same. -/
theorem Shorn.read_stale (stale : g.isStale o = true) (succeeds : g.Succeeds o)
    (writes : ∀ t, g.type? o.node = some t → t.Writes o)
    (steady : ∀ t, g.type? o.node = some t → t.Steady o (g.effectiveType o) (h.effectiveType o)) :
    ∃ v v', ((read o).apply g).1 = .ok v ∧ ((read o).apply h).1 = .ok v' ∧
      v'.payload? = v.payload? := by
  obtain ⟨here, type, attr, hd', hq', leaf⟩ := s.source_known made
  obtain ⟨m, status, k, hm, run⟩ := succeeds
  have ht : g.type? o.node = some m.type := by simp [type?, hm]
  obtain ⟨m', hm', same⟩ := Option.map_eq_some_iff.1 (type.trans ht)
  have ports : m'.ports.inputsOf o.index = m.ports.inputsOf o.index :=
    congrArg (fun t => t.ports.inputsOf o.index) same
  have kind := function o m.type .refl made ht
  have compute : m'.compute = m.compute := congrArg NodeType.compute same
  obtain ⟨c, hc⟩ : ∃ c, m.compute = some c := by
    obtain ⟨-, -, t, ht', hc⟩ := made
    rw [ht] at ht'
    obtain rfl := Option.some.inj ht'
    exact Option.isSome_iff_exists.1 hc
  rw [Edit.apply_bind] at run
  rcases hx : (readAll (readWithin g.config.maxDepth)
    ((m.ports.inputsOf o.index).map (Port.mk o.node))).apply g with ⟨e | message | u, g'⟩ <;>
    rw [hx] at run
  · cases run
  · cases run
  obtain ⟨h', hy, T⟩ := s.readAll_source made function hm hx
  rw [← ports] at hy
  obtain ⟨result, last, k₁, course, tried, reads⟩ :=
    freshen_course s.before made.1 made.2.1 stale hm hc kind hx
  obtain ⟨result', last', k₂, course', -, reads'⟩ :=
    freshen_course s.after hd' hq' (by rw [s.isStale_source made, stale]) hm' (compute.trans hc)
      (by rw [same]; exact kind) hy
  obtain rfl : result = .ok status := by
    have := tried.symm.trans run
    simpa using congrArg Prod.fst this
  have alike := s.course_source made ht kind hc (frame_readAll hx) (frame_readAll hy) T
    (fun q influence => current_readAll hy q ((mem_inputs_iff hm' q).2 (by
      rwa [(frame_readAll hy).influences] at influence))) (h.effectiveType o)
  obtain ⟨status', last'', steadied, left⟩ := steady _ ht c _ _ _ _ _ hc course
  obtain ⟨u, rfl⟩ := Option.isSome_iff_exists.1 (writes _ ht c _ _ _ _ _ _ hc course)
  rw [same] at course'
  rw [course', steadied] at alike
  simp only [Option.map_some, Prod.map_apply, id_eq, Option.some.injEq, Prod.mk.injEq] at alike
  obtain ⟨rfl, lasts⟩ := alike
  obtain ⟨v, read, hv⟩ := reads status rfl
  obtain ⟨v', read', hv'⟩ := reads' status' rfl
  obtain ⟨u', rfl, last⟩ := Option.map_eq_some_iff.1 (lasts.trans left)
  refine ⟨v, v', ?_, ?_, ?_⟩
  · rw [read_apply (by rw [made.1]; rfl)]
    exact read
  · rw [read_apply (by rw [hd']; rfl), s.remnant.tree.config]
    exact read'
  · rw [hv, hv']
    exact last

end Source

section Cut
variable {g : Graph} {o i : Port} (r : StandardRun g) (wire : g.Feeds o i) (made : g.Computing o)
include r wire made

/-- What an output that is up to date holds without the wire. -/
theorem value_cut_source (current : g.isStale o = false) {a : Attribute} (ha : g.attr? o = some a) :
    ((g.cut ⟨o, i⟩).value o = g.value o ↔ ¬ g.Lapses o i) ∧
      (g.Lapses o i → (g.cut ⟨o, i⟩).value o = a.default.payload?) := by
  obtain ⟨old, lost, s, falls⟩ := shorn_cut r wire made.2.1
  obtain ⟨here, -, attr, -, -, leaf⟩ := s.source_known made
  have only (d : Edge) (hl : lost d) (output : d.output = o) : d = ⟨o, i⟩ := by
    refine (((falls d).1 hl).past (standard_of_run r).lawful made.2.1).resolve_right ?_
    rintro ⟨network, -⟩
    simp [output, leaf] at network
  have yields := s.yields_iff made ((falls _).2 .asked) only ha
  have lapses : g.Lapses o i ↔ (a.type = none ∧ ∀ j, g.Feeds o j → j = i) ∧
      g.value o ≠ a.default.payload? := by
    simp only [Lapses, current, ha, Option.some.injEq, exists_eq_left']
    tauto
  by_cases reset : a.type = none ∧ ∀ j, g.Feeds o j → j = i
  · obtain ⟨d, hl, hy⟩ := yields.2 reset
    have left := s.remnant.resets o a d (attr.trans ha) hl (by rwa [here])
    refine ⟨?_, fun _ => left⟩
    rw [left, lapses, and_iff_right reset, not_not, eq_comm]
  · have kept := s.remnant.keeps o (by rw [attr, ha]; rfl) fun d hl hy =>
      reset (yields.1 ⟨d, hl, by rwa [here] at hy⟩)
    rw [here] at kept
    have lasting : ¬ g.Lapses o i := fun h => reset (lapses.1 h).1
    exact ⟨iff_of_true (congrArg Value.payload? kept) lasting, fun h => absurd h lasting⟩

variable (function : ∀ q t, Relation.ReflTransGen g.Flows q o → g.Computing q →
    g.type? q.node = some t → t.Scoped)
  (writes : ∀ t, g.type? o.node = some t → t.Writes o)
  (succeeds : g.isStale o = true → g.Succeeds o)
include function writes succeeds

/-- What an output reads as before and after one of its wires is cut differs just if the output
lapses, and then it reads as its default. -/
theorem read_source (steady : g.declaredType o = none → ∀ t, g.type? o.node = some t →
    t.Steady o (g.effectiveType o) ((g.cut ⟨o, i⟩).effectiveType o)) :
    ∃ v v', ((read o).apply g).1 = .ok v ∧ ((read o).apply (g.cut ⟨o, i⟩)).1 = .ok v' ∧
      (v'.payload? = v.payload? ↔ ¬ g.Lapses o i) ∧
      (g.Lapses o i → ∀ a, g.attr? o = some a → v'.payload? = a.default.payload?) := by
  obtain ⟨old, lost, s, falls⟩ := shorn_cut r wire made.2.1
  obtain ⟨-, -, attr, hd', -, -⟩ := s.source_known made
  cases stale : g.isStale o with
  | true =>
    have anyhow (t : NodeType) (ht : g.type? o.node = some t) :
        t.Steady o (g.effectiveType o) ((g.cut ⟨o, i⟩).effectiveType o) := by
      cases own : g.declaredType o with
      | none => exact steady own t ht
      | some u =>
        have own' : (g.cut ⟨o, i⟩).declaredType o = some u := by
          rw [declaredType_eq, attr, ← declaredType_eq, own]
        rw [effectiveType_of_declared s.before.tree own, effectiveType_of_declared s.after.tree own']
        exact t.steady_refl o _
    obtain ⟨v, v', read, read', same⟩ :=
      s.read_stale made function stale (succeeds stale) writes anyhow
    have lasting : ¬ g.Lapses o i := by
      rintro ⟨current, -⟩
      rw [stale] at current
      cases current
    exact ⟨v, v', read, read', iff_of_true same lasting, fun lapses => absurd lapses lasting⟩
  | false =>
    have live : (g.direction? o).isSome := by rw [made.1]; rfl
    have live' : ((g.cut ⟨o, i⟩).direction? o).isSome := by rw [hd']; rfl
    have stale' : (g.cut ⟨o, i⟩).isStale o = false := by rw [s.isStale_source made, stale]
    obtain ⟨a, ha⟩ := Option.isSome_iff_exists.1 ((isSome_direction?_iff g o).1 live)
    obtain ⟨same, reset⟩ := value_cut_source r wire made stale ha
    refine ⟨g.held o, (g.cut ⟨o, i⟩).held o, ?_, ?_, same, fun lapses b hb => ?_⟩
    · rw [read_apply live]
      exact congrArg Prod.fst (freshen_of_current live stale)
    · rw [read_apply live']
      exact congrArg Prod.fst (freshen_of_current live' stale')
    · rw [ha] at hb
      obtain rfl := Option.some.inj hb
      exact reset lapses

/-- An output that is computed reads the same without one of its wires as with it, if it does not
lapse. -/
theorem disconnect_source : ∃ h, g.disconnect o i = .ok h ∧
    ((g.declaredType o = none → ∀ t, g.type? o.node = some t →
        t.Steady o (g.effectiveType o) (h.effectiveType o)) →
      ¬ g.Lapses o i → ∃ v v', ((read o).apply g).1 = .ok v ∧ ((read o).apply h).1 = .ok v' ∧
        v'.payload? = v.payload?) := by
  have w := (standard_of_run r).lawful.wellFormed
  refine ⟨g.cut ⟨o, i⟩, disconnect_of_feeds w wire, fun steady lasting => ?_⟩
  obtain ⟨v, v', first, second, same, -⟩ :=
    read_source r wire made function writes succeeds steady
  exact ⟨v, v', first, second, same.2 lasting⟩

end Cut

/-- Gives the number 3 by an output without a type. -/
def signal : NodeType :=
  ⟨"signal", ⟨[.untyped "out" .output], []⟩, some ⟨0, fun _ => .store 0 (.fresh (.int 3))⟩⟩

theorem course_signal {c : Computation} (hc : signal.compute = some c) (p : Port) (count : Nat)
    (type : PortType) (left : Value) (answers : Answers) :
    signal.course c p count type left answers =
      if p.index = 0 then
        some (if type.isSome ∧ some .int ≠ type then
          (.error (Error.mismatch type (some .int)).message, none)
          else (.ok .empty, some (.fresh (.int 3))))
      else none := by
  cases hc
  simp only [NodeType.course, Task.course_store, eq_comm (a := 0)]
  rfl

theorem scoped_signal : signal.Scoped where
  ends := by
    intro c p count type left answers hc hd
    have output : p.index = 0 := by
      cases h : p.index with
      | zero => rfl
      | succ i => simp [signal, Layout.get?, h] at hd
    rw [course_signal hc, if_pos output]
    rfl
  blind := by
    intro c p count type left left' answers answers' hc _ _
    rw [course_signal hc, course_signal hc]

theorem writes_signal (p : Port) : signal.Writes p := by
  intro c count type left answers s last hc eq
  rw [course_signal hc] at eq
  split at eq
  · split at eq <;> cases eq
    rfl
  · cases eq

/-- Nothing is refused where the output has no type. -/
theorem steady_signal (p : Port) (type : PortType) : signal.Steady p type none := by
  intro c count left answers s last hc eq
  rw [course_signal hc] at eq
  rw [course_signal hc]
  split at eq
  · next output =>
    rw [if_pos output, if_neg (by simp)]
    split at eq <;> cases eq
    exact ⟨_, _, rfl, rfl⟩
  · cases eq

/-- A signal that a relay gets. -/
def wiredSignal : Graph :=
  let g := (Action.addNode ⟨1⟩ signal "s" .standard).after (create .standard .start 0 [])
  let g := (Action.addNode ⟨1⟩ relay "r" .standard).after g
  (Action.connect ⟨⟨2⟩, 0⟩ ⟨⟨3⟩, 0⟩).after g

theorem standardRun_wiredSignal : StandardRun wiredSignal := by
  have hs : signal.Standard :=
    .of_name ⟨by decide, by decide, by decide⟩ (by decide) (by decide) (by decide)
  have hr : relay.Standard := .of_name sound_relay (by decide) (by decide) (by decide)
  exact .step (.step (.step (.start ..) hs) hr) trivial

/-- The signal has been read. -/
def shownSignal : Graph := (Action.read ⟨⟨2⟩, 0⟩).after wiredSignal

section Signal
variable {g : Graph} (a : SameFrame wiredSignal g)
include a

theorem sinks_signal : g.sinks ⟨⟨2⟩, 0⟩ = [⟨⟨3⟩, 0⟩] := by
  rw [a.sinks]
  cbv

theorem computing_signal : g.Computing ⟨⟨2⟩, 0⟩ := by
  have known : (wiredSignal.direction? ⟨⟨2⟩, 0⟩, wiredSignal.peer? ⟨⟨2⟩, 0⟩,
      wiredSignal.type? ⟨2⟩) = (some .output, none, some signal) := by cbv
  simp only [Prod.mk.injEq] at known
  rw [a.computing]
  exact ⟨known.1, known.2.1, signal, known.2.2, rfl⟩

theorem type_signal {n : NodeId} {t : NodeType} (ht : g.type? n = some t) :
    t = signal ∨ t.compute = none := by
  have known : (wiredSignal.nodes.keys, wiredSignal.type? ⟨1⟩, wiredSignal.type? ⟨2⟩,
      wiredSignal.type? ⟨3⟩) = ([⟨1⟩, ⟨2⟩, ⟨3⟩], some .network, some signal, some relay) := by cbv
  simp only [Prod.mk.injEq] at known
  obtain ⟨keys, h1, h2, h3⟩ := known
  rw [a.type] at ht
  have live := (isSome_type?_iff wiredSignal n).1 (by simp [ht])
  rw [keys] at live
  simp only [List.mem_cons, List.not_mem_nil, or_false] at live
  rcases live with rfl | rfl | rfl
  · rw [h1] at ht
    cases ht
    exact .inr rfl
  · rw [h2] at ht
    cases ht
    exact .inl rfl
  · rw [h3] at ht
    cases ht
    exact .inr rfl

end Signal

/-- Whether a computation ends well can be found out by running it. -/
theorem succeeds_of_run {g : Graph} {p : Port} (run : (g.node? p.node).map (fun m =>
    ((readAll (readWithin g.config.maxDepth) ((m.ports.inputsOf p.index).map (Port.mk p.node)) >>=
      attempt (readWithin g.config.maxDepth) p m.compute).apply g).1.map Except.isOk) =
        some (.ok true)) : g.Succeeds p := by
  obtain ⟨m, hm, ok⟩ := Option.map_eq_some_iff.1 run
  rcases eq : (readAll (readWithin g.config.maxDepth) ((m.ports.inputsOf p.index).map
    (Port.mk p.node)) >>= attempt (readWithin g.config.maxDepth) p m.compute).apply g with
    ⟨e | e | s, h⟩ <;> rw [eq] at ok
  · cases ok
  · cases ok
  · exact ⟨m, s, h, hm, eq⟩

/-- Writes its input to its output, and fails if that is refused. -/
def forwarder : NodeType :=
  ⟨"forwarder", relay.ports, some ⟨0, fun _ => .read 0 fun
    | .ok v => .store 1 v
    | .error e => .done (.error e.message)⟩⟩

theorem course_forwarder {c : Computation} (hc : forwarder.compute = some c) {p : Port}
    (hp : p.index = 1) (count : Nat) (type : PortType) (left : Value) (answers : Answers) :
    forwarder.course c p count type left answers = some (match answers.value 0 with
      | .ok v => if type.isSome ∧ v.portType ≠ type then
          (.error (Error.mismatch type v.portType).message, none) else (.ok .empty, some v)
      | .error e => (.error e.message, none)) := by
  cases hc
  rw [NodeType.course, hp, show forwarder.ports.inputsOf 1 = [0] by decide]
  simp only [Task.course, List.mem_singleton, if_true]
  cases answers.value 0 with
  | ok v => simp only [Task.course_store, if_true]
  | error e => rfl

/-- There is nothing to read for what is no output. -/
theorem course_forwarder_of_ne {c : Computation} (hc : forwarder.compute = some c) {p : Port}
    (hp : p.index ≠ 1) (count : Nat) (type : PortType) (left : Value) (answers : Answers) :
    forwarder.course c p count type left answers = none := by
  cases hc
  have nothing : forwarder.ports.inputsOf p.index = [] := by
    simp [forwarder, relay, Layout.inputsOf, Ne.symm hp]
  rw [NodeType.course, nothing]
  rfl

theorem scoped_forwarder : forwarder.Scoped where
  ends := by
    intro c p count type left answers hc hd
    rw [course_forwarder hc (index_of_output_relay hd)]
    rfl
  blind := by
    intro c p count type left left' answers answers' hc _ alike
    by_cases output : p.index = 1
    · rw [output] at alike
      obtain ⟨same, -⟩ := alike 0 (by decide)
      rw [course_forwarder hc output, course_forwarder hc output]
      cases hv : answers.value 0 <;> cases hv' : answers'.value 0 <;>
        simp only [hv, hv', Except.map, reduceCtorEq, Except.ok.injEq, Except.error.injEq] at same
      · rw [same]
      · have types : ∀ v v' : Value, v.payload? = v'.payload? → v.portType = v'.portType :=
          fun v v' same => by rw [Value.portType_eq, Value.portType_eq, same]
        simp only [types _ _ same]
        split <;> simp [same]
    · rw [course_forwarder_of_ne hc output, course_forwarder_of_ne hc output]

theorem writes_forwarder (p : Port) : forwarder.Writes p := by
  intro c count type left answers s last hc eq
  by_cases output : p.index = 1
  · rw [course_forwarder hc output] at eq
    cases hv : answers.value 0 with
    | error e => simp [hv] at eq
    | ok v =>
      simp only [hv] at eq
      split at eq <;> cases eq
      rfl
  · rw [course_forwarder_of_ne hc output] at eq
    cases eq

/-- Tells by 1 or 0 whether its input goes by a type. The input does not influence it. -/
def spy : NodeType :=
  ⟨"spy", ⟨[.untyped "in" .input, .ofValue "out" .output (.fresh (.int 0))], []⟩,
    some ⟨1, fun _ => .typeOf 0 fun
      | .ok none => .store 1 (.fresh (.int 0))
      | _ => .store 1 (.fresh (.int 1))⟩⟩

/-- A spy has its input from a forwarder that forwards what the spy tells. -/
def spied : Graph :=
  let g := (Action.addNode ⟨1⟩ spy "s" .standard).after (create .standard .start 0 [])
  let g := (Action.addNode ⟨1⟩ forwarder "f" .standard).after g
  let g := (Action.connect ⟨⟨2⟩, 1⟩ ⟨⟨3⟩, 0⟩).after g
  (Action.connect ⟨⟨3⟩, 1⟩ ⟨⟨2⟩, 0⟩).after g

theorem standardRun_spied : StandardRun spied := by
  have hs : spy.Standard :=
    .of_name ⟨by decide, by decide, by decide⟩ (by decide) (by decide) (by decide)
  have hf : forwarder.Standard :=
    .of_name ⟨by decide, by decide, by decide⟩ (by decide) (by decide) (by decide)
  exact .step (.step (.step (.step (.start ..) hs) hf) trivial) trivial

/-- A signal that has been read gives nothing any more without its wire. A forwarder gives something
else without its wire to a spy, whose computation is not confined to what influences it. -/
theorem source_gives_other :
    (StandardRun shownSignal ∧ shownSignal.Feeds ⟨⟨2⟩, 0⟩ ⟨⟨3⟩, 0⟩ ∧
      shownSignal.Computing ⟨⟨2⟩, 0⟩ ∧ shownSignal.type? ⟨2⟩ = some signal ∧ signal.Scoped ∧
      signal.Writes ⟨⟨2⟩, 0⟩ ∧ (∀ type, signal.Steady ⟨⟨2⟩, 0⟩ type none) ∧
      ((read ⟨⟨2⟩, 0⟩).apply shownSignal).1.map Value.payload? = .ok (some (.int 3)) ∧
      ((read ⟨⟨2⟩, 0⟩).apply ((Action.disconnect ⟨⟨2⟩, 0⟩ ⟨⟨3⟩, 0⟩).after shownSignal)).1.map
        Value.payload? = .ok none) ∧
    StandardRun spied ∧ spied.Feeds ⟨⟨3⟩, 1⟩ ⟨⟨2⟩, 0⟩ ∧ spied.Computing ⟨⟨3⟩, 1⟩ ∧
      spied.type? ⟨3⟩ = some forwarder ∧ forwarder.Scoped ∧ forwarder.Writes ⟨⟨3⟩, 1⟩ ∧
      spied.Succeeds ⟨⟨3⟩, 1⟩ ∧
      ((read ⟨⟨3⟩, 1⟩).apply spied).1.map Value.payload? = .ok (some (.int 1)) ∧
      ((read ⟨⟨3⟩, 1⟩).apply ((Action.disconnect ⟨⟨3⟩, 1⟩ ⟨⟨2⟩, 0⟩).after spied)).1.map
        Value.payload? = .ok (some (.int 0)) := by
  have shown : SameFrame wiredSignal shownSignal :=
    (calmer_reads (o := .read ⟨⟨2⟩, 0⟩) rfl wiredSignal).frame
  have run : StandardRun shownSignal := .step (o := .read ⟨⟨2⟩, 0⟩) standardRun_wiredSignal trivial
  have wired := (standard_of_run run).lawful.wellFormed.wired
  have wired' := (standard_of_run standardRun_spied).lawful.wellFormed.wired
  have known : (spied.direction? ⟨⟨3⟩, 1⟩, spied.peer? ⟨⟨3⟩, 1⟩, spied.sinks ⟨⟨3⟩, 1⟩,
      spied.type? ⟨3⟩, shownSignal.type? ⟨2⟩) =
      (some .output, none, [⟨⟨2⟩, 0⟩], some forwarder, some signal) := by cbv
  simp only [Prod.mk.injEq] at known
  obtain ⟨output, unlinked, sinks, type, type'⟩ := known
  refine ⟨⟨run, ?_, computing_signal shown, type', scoped_signal, writes_signal _,
    steady_signal _, by cbv, by cbv⟩, standardRun_spied, ?_, ?_, type, scoped_forwarder,
    writes_forwarder _, succeeds_of_run (by cbv), by cbv, by cbv⟩
  · rw [← mem_sinks_iff wired, sinks_signal shown, List.mem_singleton]
  · rw [← mem_sinks_iff wired', sinks, List.mem_singleton]
  · exact ⟨output, unlinked, forwarder, type, rfl⟩

/-- A signal that nobody has read gives its number without its wire, too. -/
theorem wiredSignal_disconnect : ∃ h v v', wiredSignal.disconnect ⟨⟨2⟩, 0⟩ ⟨⟨3⟩, 0⟩ = .ok h ∧
    ((read ⟨⟨2⟩, 0⟩).apply wiredSignal).1 = .ok v ∧ ((read ⟨⟨2⟩, 0⟩).apply h).1 = .ok v' ∧
    v'.payload? = v.payload? := by
  have run := standardRun_wiredSignal
  have wired := (standard_of_run run).lawful.wellFormed.wired
  have wire : wiredSignal.Feeds ⟨⟨2⟩, 0⟩ ⟨⟨3⟩, 0⟩ := by
    rw [← mem_sinks_iff wired, sinks_signal (.refl _), List.mem_singleton]
  have here (t : NodeType) (ht : wiredSignal.type? ⟨2⟩ = some t) : t = signal := by
    obtain ⟨-, -, u, hu, computes⟩ := computing_signal (.refl wiredSignal)
    rw [ht] at hu
    obtain rfl := Option.some.inj hu
    refine (type_signal (.refl _) ht).resolve_right fun inert => ?_
    rw [inert] at computes
    cases computes
  have kind (q : Port) (t : NodeType) (ht : wiredSignal.type? q.node = some t) : t.Scoped := by
    rcases type_signal (.refl _) ht with rfl | inert
    · exact scoped_signal
    · exact NodeType.scoped_of_inert inert
  have stale : wiredSignal.isStale ⟨⟨2⟩, 0⟩ = true := by cbv
  have bare : (wiredSignal.cut ⟨⟨⟨2⟩, 0⟩, ⟨⟨3⟩, 0⟩⟩).effectiveType ⟨⟨2⟩, 0⟩ = none := by cbv
  obtain ⟨h, ok, spec⟩ := disconnect_source run wire (computing_signal (.refl _))
    (fun q t _ _ ht => kind q t ht) (fun t ht => here t ht ▸ writes_signal _)
    fun _ => succeeds_of_run (by cbv)
  have lasting : ¬ wiredSignal.Lapses ⟨⟨2⟩, 0⟩ ⟨⟨3⟩, 0⟩ := by
    rintro ⟨current, -⟩
    rw [stale] at current
    cases current
  obtain ⟨v, v', reads⟩ := spec (fun _ t ht => by
    rw [here t ht, disconnect_ok ok, bare]
    exact steady_signal _ _) lasting
  exact ⟨h, v, v', ok, reads⟩

end Graph
end Dataflow
