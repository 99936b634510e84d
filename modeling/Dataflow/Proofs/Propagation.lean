import Dataflow.Proofs.Freshness
set_option autoImplicit false

/-!
Being out of date as something that reaches everything downstream. Marking relies on it: a port that
is marked ends the way. Main statement: the one thing that breaks it is a read that brings an output
up to date ahead of an input that influences it, and such a read always does.
-/

namespace Dataflow.Graph

/-- Whatever is made from something that is out of date is out of date. -/
def Propagated (g : Graph) : Prop :=
  ∀ p q, q ∈ g.successors p → g.isStale p = true → g.isStale q = true

/-- If the operation reads, it brings no output up to date ahead of an input that influences it. -/
def Timely (g : Graph) (o : Action) : Prop :=
  o.reads = true → ∀ p q, g.Influences p q → g.isStale q = true →
    (o.after g).isStale q = false → (o.after g).isStale p = false

/-- Graphs of runs with standard node types and none but timely reads. -/
abbrev TimelyRun (g : Graph) : Prop :=
  Reachable (fun g o => o.Uses NodeType.Standard ∧ Timely g o) g

section Propagated
variable {g : Graph}

theorem propagated_iff (w : g.WellFormed) : g.Propagated ↔ Closed true g := by
  simp only [Propagated, mem_successors_iff w]
  constructor
  · intro h
    exact ⟨fun o i hf ho => .inl (h o i (.inr (.inl hf)) ho),
      fun p q hd hp hs => h p q (.inr (.inr ⟨hd, hp⟩)) hs, fun _ p q hi => h p q (.inl hi)⟩
  · exact fun c p q hf hp => c.flow hf hp

/-- Whatever `all` is, an operation keeps the law if its reads do. -/
theorem lawfulWith_closed_after {all : Bool} {o : Action} (w : LawfulWith (Closed all) g)
    (uses : o.Uses NodeType.Standard) (read : o.reads = true → Closed all (o.after g)) :
    LawfulWith (Closed all) (o.after g) := by
  refine w.after (keptByEdits_closed all) (fun _ _ h => h.sound) uses.makes (aimed_false g o)
    fun ho => ?_
  exact w.of_sameFrame (calmer_reads ho g).frame (read ho)

theorem closed_of_reads {all : Bool} {o : Action} (ho : o.reads = true) (good : Good all g) :
    Closed all (o.after g) := by
  have keeps := keeps_reads (fun levels p => (refreshes_readWithin all levels).keeps p) ho
  exact (keeps g good).closed

/-- Along wires and peers the law holds in every run. -/
theorem closed_of_run (r : StandardRun g) : LawfulWith (Closed false) g := by
  induction r with
  | start config ids marks calls => exact ⟨lawful_create .., closed_create ..⟩
  | @step g o r uses w =>
    refine lawfulWith_closed_after w uses fun ho => closed_of_reads ho ?_
    exact ⟨w.lawful.wellFormed, (standard_of_run r).holds, w.holds, nofun⟩

/-- A read keeps the law as a whole just if it is timely. -/
theorem closed_reads_iff (r : StandardRun g) (c : Closed true g) {o : Action}
    (ho : o.reads = true) : Closed true (o.after g) ↔ Timely g o := by
  have w := closed_of_run r
  have good : Good false g :=
    ⟨w.lawful.wellFormed, (standard_of_run r).holds, w.holds, nofun⟩
  have calm := calmer_reads ho g
  constructor
  · intro c' _ p q hi _ hq
    cases hp : (o.after g).isStale p with
    | false => rfl
    | true =>
      rw [← calm.frame.influences] at hi
      rw [c'.influences rfl p q hi hp] at hq
      cases hq
  · intro timely
    have weak := closed_of_reads ho good
    refine ⟨weak.wires, weak.peers, fun _ p q hi hp => ?_⟩
    rw [calm.frame.influences] at hi
    have hq := c.influences rfl p q hi (calm.stale p hp)
    cases after : (o.after g).isStale q with
    | true => rfl
    | false =>
      rw [timely ho p q hi hq after] at hp
      cases hp

theorem closed_after_iff (r : StandardRun g) (c : Closed true g) {o : Action}
    (uses : o.Uses NodeType.Standard) : Closed true (o.after g) ↔ Timely g o := by
  cases ho : o.reads with
  | true => exact closed_reads_iff r c ho
  | false =>
    have w : LawfulWith (Closed true) g := ⟨(standard_of_run r).lawful, c⟩
    have kept := lawfulWith_closed_after w uses (by simp [ho])
    exact iff_of_true kept.holds (by simp [Timely, ho])

theorem closed_of_timelyRun (r : TimelyRun g) : Closed true g := by
  induction r with
  | start config ids marks calls => exact closed_create ..
  | step r ok ih => exact (closed_after_iff (r.mono fun _ _ h => h.1) ih ok.1).2 ok.2

end Propagated

/-- The one spot at which the law is broken: an output takes its default because an input of it could
not be read, and counts as up to date, whatever the input counts as. -/
theorem isStale_compute_of_unread {g h : Graph} {below : Port → Edit Value} {p : Port} {m : Node}
    {message : String} (hm : g.node? p.node = some m)
    (unread : (readAll below ((m.ports.inputsOf p.index).map (Port.mk p.node))).apply g =
      (.ok (.error message), h)) (backed : (h.fallback? p).isSome) (q : Port) :
    ((compute below p).apply g).2.isStale q = if p = q then false else h.isStale q := by
  obtain ⟨v, hv⟩ := Option.isSome_iff_exists.1 backed
  rw [compute_eq, Edit.apply_bind, Edit.apply_look]
  simp only [node, hm]
  rw [Edit.apply_bind, unread]
  simp only [attempt]
  rw [Edit.apply_bind, Edit.apply_pure]
  simp only
  rw [settle_error_of_some h p message hv, isStale_settled, isStale_setStatus, isStale_put]

/-- In every run, what is downstream of a port that is out of date is out of date as well, unless it
is an output that the port influences. It is so without exception if no read was untimely, and the
first untimely read makes an exception. Where outputs find a default for a failure, all reads are
timely. -/
theorem propagated_iff_timely {g : Graph} (r : StandardRun g) :
    (TimelyRun g → g.Propagated) ∧
    (∀ o : Action, o.Uses NodeType.Standard → g.Propagated →
      ((o.after g).Propagated ↔ Timely g o) ∧ (g.Backed → Timely g o)) ∧
    ∀ p q, q ∈ g.successors p → g.isStale p = true → g.isStale q = true ∨ g.Influences p q := by
  have w := (standard_of_run r).lawful.wellFormed
  refine ⟨fun timely => ?_, fun o uses h => ?_, fun p q hq hp => ?_⟩
  · exact (propagated_iff w).2 (closed_of_timelyRun timely)
  · have w' := (standard_of_run (.step r uses)).lawful.wellFormed
    rw [propagated_iff w']
    have c := (propagated_iff w).1 h
    refine ⟨closed_after_iff r c uses, fun backed ho => ?_⟩
    have good : Good true g := ⟨w, (standard_of_run r).holds, c, fun _ => backed⟩
    exact (closed_reads_iff r c ho).1 (closed_of_reads ho good) ho
  · have weak := (closed_of_run r).holds
    rcases (mem_successors_iff w p q).1 hq with hf | hf | ⟨hd, hf⟩
    · exact .inr hf
    · exact .inl (weak.wire hf hp)
    · exact .inl (weak.peers p q hd hf hp)

/-- One output without a type whose computation always fails. -/
def dud : NodeType :=
  ⟨"dud", ⟨[.untyped "out" .output], []⟩, some ⟨0, fun _ => .done (.error "broken")⟩⟩

/-- One input without a type that influences one output with a default. -/
def probe : NodeType :=
  ⟨"probe", ⟨[.untyped "in" .input, .ofValue "out" .output (.fresh (.int 0))], [(0, 1)]⟩, none⟩

/-- A dud feeds a probe, after it fed a relay, from which it took its type. -/
def probedDud : Graph :=
  let g := (Action.addNode ⟨1⟩ dud "d" .standard).after (create .standard .start 0 [])
  let g := (Action.addNode ⟨1⟩ probe "p" .standard).after g
  let g := (Action.addNode ⟨1⟩ relay "r" .standard).after g
  let g := (Action.connect ⟨⟨2⟩, 0⟩ ⟨⟨4⟩, 0⟩).after g
  let g := (Action.connect ⟨⟨2⟩, 0⟩ ⟨⟨3⟩, 0⟩).after g
  (Action.disconnect ⟨⟨2⟩, 0⟩ ⟨⟨4⟩, 0⟩).after g

theorem timelyRun_probedDud : TimelyRun probedDud := by
  have standard {t : NodeType} (s : t.Sound) (h : t.name ∈ ["dud", "probe", "relay"]) :
      t.Standard := by
    simp only [List.mem_cons, List.not_mem_nil, or_false] at h
    rcases h with h | h | h <;> exact .of_name s (by rw [h]; decide) (by rw [h]; decide)
      (by rw [h]; decide)
  have hd := standard (t := dud) ⟨by decide, by decide, by decide⟩ (by decide)
  have hp := standard (t := probe) ⟨by decide, by decide, by decide⟩ (by decide)
  have hr := standard sound_relay (by decide)
  exact .step (.step (.step (.step (.step (.step (.start ..) ⟨hd, nofun⟩) ⟨hp, nofun⟩) ⟨hr, nofun⟩)
    ⟨trivial, nofun⟩) ⟨trivial, nofun⟩) ⟨trivial, nofun⟩

theorem probedDud_unread :
    (readAll (readWithin 512) [⟨⟨3⟩, 0⟩]).apply probedDud =
      (.ok (.error (Error.computeFailure ⟨2⟩ "broken").message),
        ((readWithin 512 ⟨⟨3⟩, 0⟩).apply probedDud).2) := by
  have failed : ((readWithin 512 ⟨⟨3⟩, 0⟩).apply probedDud).1 =
      .error (.computeFailure ⟨2⟩ "broken") := by cbv
  rw [readAll, Edit.apply_bind, Edit.apply_outcome]
  simp only
  rw [failed]
  rfl

theorem isStale_read_probedDud (q : Port) :
    ((Action.read ⟨⟨3⟩, 1⟩).after probedDud).isStale q =
      if ⟨⟨3⟩, 1⟩ = q then false else ((readWithin 512 ⟨⟨3⟩, 0⟩).apply probedDud).2.isStale q := by
  have known : (probedDud.config.maxDepth, probedDud.direction? ⟨⟨3⟩, 1⟩,
      probedDud.isStale ⟨⟨3⟩, 1⟩, probedDud.peer? ⟨⟨3⟩, 1⟩,
      (probedDud.node? ⟨3⟩).map (fun m => m.ports.inputsOf 1),
      (((readWithin 512 ⟨⟨3⟩, 0⟩).apply probedDud).2.fallback? ⟨⟨3⟩, 1⟩).isSome) =
      (512, some .output, true, none, some [0], true) := by cbv
  simp only [Prod.mk.injEq] at known
  obtain ⟨depth, output, old, free, inputs, backed⟩ := known
  obtain ⟨m, hm, inputs⟩ := Option.map_eq_some_iff.1 inputs
  rw [after_read (by rw [output]; rfl), depth, readWithin]
  refine freshen_cases (motive := fun r => r.2.isStale q = _) ?_ ?_ ?_ ?_ ?_ fun _ _ _ => ?_
  · intro hd
    rw [output] at hd
    cases hd
  · intro _ hs
    rw [old] at hs
    cases hs
  · intro _ hd
    rw [output] at hd
    cases hd
  · intro hd
    rw [output] at hd
    cases hd
  · intro r _ _ hp
    rw [free] at hp
    cases hp
  · have unread := probedDud_unread
    rw [show [(⟨⟨3⟩, 0⟩ : Port)] = (m.ports.inputsOf 1).map (Port.mk ⟨3⟩) by rw [inputs]; rfl]
      at unread
    exact isStale_compute_of_unread (p := ⟨⟨3⟩, 1⟩) hm unread backed q

/-- Reading the output of the probe settles it on its default, while the input stays behind. -/
theorem probedDud_overtaken :
    probedDud.Propagated ∧ ¬ ((Action.read ⟨⟨3⟩, 1⟩).after probedDud).Propagated := by
  have run := timelyRun_probedDud.mono (Q := fun _ o => o.Uses NodeType.Standard) fun _ _ h => h.1
  have before := (propagated_iff_timely run).1 timelyRun_probedDud
  have exactly := ((propagated_iff_timely run).2.1 (.read ⟨⟨3⟩, 1⟩) trivial before).1
  refine ⟨before, fun after => ?_⟩
  have known : (probedDud.type? ⟨3⟩, probedDud.isStale ⟨⟨3⟩, 1⟩,
      ((readWithin 512 ⟨⟨3⟩, 0⟩).apply probedDud).2.isStale ⟨⟨3⟩, 0⟩) =
      (some probe, true, true) := by cbv
  simp only [Prod.mk.injEq] at known
  obtain ⟨type, old, behind⟩ := known
  have influence : probedDud.Influences ⟨⟨3⟩, 0⟩ ⟨⟨3⟩, 1⟩ := ⟨rfl, probe, type, by decide⟩
  have settled : ((Action.read ⟨⟨3⟩, 1⟩).after probedDud).isStale ⟨⟨3⟩, 1⟩ = false := by
    rw [isStale_read_probedDud, if_pos rfl]
  have current := exactly.1 after rfl _ _ influence old settled
  rw [isStale_read_probedDud, if_neg (by decide), behind] at current
  cases current

end Dataflow.Graph
