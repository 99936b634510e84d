import Dataflow.Proofs.Disturbance
set_option autoImplicit false

/-!
Reads against evaluation from scratch. Main statement: where nodes compute by functions, every read in
every run gives the value from scratch of its port, or stops because the port lies too deep, and every
port that is up to date has its value from scratch. This ends just with a load into a node that is no
network, if that disturbs the node.
-/

namespace Dataflow.Graph

/-- Nodes that compute do so by functions, and nothing is disturbed. -/
abbrev RegularRun (g : Graph) : Prop :=
  Reachable (fun g o => o.Uses NodeType.Regular ∧ Undisturbed g o) g

section Evaluation
variable {g h : Graph} {p : Port} {x : Option Payload}

/-- Values from scratch are made of what is given and of nothing else that reads touch. -/
theorem FromScratch.of_sameFrame (a : SameFrame g h) (given : ∀ r, g.Given r → h.value r = g.value r)
    (hx : g.FromScratch p x) : h.FromScratch p x := by
  induction hx with
  | given hd hs =>
    rw [← given _ (.inl ⟨hd, hs⟩)]
    exact .given (by rwa [a.direction]) (by rwa [a.source])
  | wired hd hs _ ih => exact .wired (by rwa [a.direction]) (by rwa [a.source]) ih
  | linked hd hp _ ih => exact .linked (by rwa [a.direction]) (by rwa [a.peer]) ih
  | @inert p t hd hp ht hc =>
    have outside : ∀ u, g.type? p.node = some u → u.compute = none := by
      intro u hu
      rw [ht, Option.some.injEq] at hu
      rw [← hu]
      exact hc
    rw [← given _ (.inr ⟨hd, hp, outside⟩)]
    exact .inert (by rwa [a.direction]) (by rwa [a.peer]) (by rwa [a.type]) hc
  | computed hd hp ht hc _ ih =>
    exact .computed (by rwa [a.direction]) (by rwa [a.peer]) (by rwa [a.type]) hc ih

theorem FromScratch.of_linked {q : Port} (hx : g.FromScratch p x)
    (hd : g.direction? p = some .output) (hp : g.peer? p = some q) : g.FromScratch q x := by
  cases hx with
  | linked _ hp' hq =>
    rw [hp, Option.some.injEq] at hp'
    rw [hp']
    exact hq
  | _ => simp_all

theorem coherent_of_run (r : RegularRun g) : LawfulWith Coherent g := by
  induction r with
  | start config ids marks calls => exact ⟨lawful_create .., keptByEdits_coherent.start ..⟩
  | @step k o _ ok w =>
    by_cases aimed : Aimed true k o
    · refine w.after keptByEdits_coherent (fun _ _ ht => ht.sound) ok.1.makes aimed fun ho => ?_
      exact keeps_reads (fun levels p k w => ((faithful_readWithin levels).rework p k w).1) ho k w
    · -- only a load into a node that is no network is not aimed
      cases o with
      | loadInto r n d =>
        refine w.loadInto_plain ?_ ok.2
        rw [← Option.not_isSome_iff_eq_none]
        exact fun inside => aimed fun _ => inside
      | _ => exact absurd trivial aimed

theorem LawfulWith.value_eq (w : LawfulWith Coherent g) (hx : g.FromScratch p x)
    (hp : g.isStale p = false) (tight : ¬ g.Loose p) : g.value p = x :=
  w.holds.settled.value_eq w.lawful.wellFormed w.holds.standard w.holds.closed hx hp tight

/-- A read that succeeds gives the value from scratch, unless it finds a loose port up to date. -/
theorem payload_of_readWithin {levels : Nat} {v : Value} (w : LawfulWith Coherent g)
    (hx : g.FromScratch p x) (eq : (readWithin levels p).apply g = (.ok v, h)) :
    v.payload? = x ∨ g.Loose p ∧ g.isStale p = false := by
  cases levels with
  | zero => cases eq
  | succ levels =>
    have r := faithful_readWithin (levels + 1)
    have rework := r.rework p g w
    rw [eq] at rework
    obtain ⟨w', frame, -, given⟩ := rework
    have current := r.current p g v h eq
    rw [r.value p g v h eq]
    revert eq
    refine freshen_cases (motive := fun y => y = (.ok v, h) → _) nofun ?current ?wired ?given ?linked
      ?made
    case current =>
      intro _ hs eq
      cases eq
      by_cases loose : g.Loose p
      · exact .inr ⟨loose, hs⟩
      · exact .inl (w.value_eq hx hs loose)
    -- only an output that is linked can be loose
    case wired | given =>
      intros
      refine .inl (w'.value_eq (hx.of_sameFrame frame given) current fun loose => ?_)
      have hd := loose.direction
      rw [frame.direction] at hd
      simp_all
    case made =>
      intro _ _ hp _
      refine .inl (w'.value_eq (hx.of_sameFrame frame given) current fun loose => ?_)
      have hl := loose.linked
      rw [frame.peer, hp] at hl
      cases hl
    case linked =>
      intro q hd _ hp eq
      have flows : g.Flows q p := (w.holds.standard.flows_iff w.lawful.wellFormed hd hp).2 rfl
      have ne : q ≠ p := by
        rintro rfl
        exact w.holds.acyclic q (.single flows)
      have copied := value_copyFrom (faithful_readWithin levels) (by simp [hd]) eq
      rw [← copied.2 ne]
      rw [← frame.flows] at flows
      refine .inl (w'.value_eq ((hx.of_linked hd hp).of_sameFrame frame given) ?_ fun loose => ?_)
      · cases hs : h.isStale q with
        | false => rfl
        | true =>
          rw [w'.holds.closed.flow flows hs] at current
          cases current
      · exact loose.not_flows w'.lawful.wellFormed p flows

theorem read_of_readAs {t : DataType} {y : Payload} (eq : (readAs t p).apply g = (.ok y, h)) :
    ∃ v, (read p).apply g = (.ok v, h) ∧ v.payload? = some y := by
  rw [readAs, Edit.apply_bind, Edit.apply_look] at eq
  cases hs : g.slot p with
  | error e => simp [hs] at eq
  | ok s =>
    simp only [hs] at eq
    rw [Edit.apply_bind, Edit.apply_look] at eq
    cases hu : g.resolved p with
    | error e => simp [hu] at eq
    | ok u =>
      simp only [hu] at eq
      split at eq
      · cases eq
      · rw [Edit.apply_bind] at eq
        rcases hr : (read p).apply g with ⟨e | v, k⟩
        · rw [hr] at eq
          cases eq
        · rw [hr] at eq
          simp only at eq
          split at eq
          · next data found =>
            cases eq
            exact ⟨v, rfl, Value.payload_of_as? found⟩
          · cases eq

/-- No read changes what any port carries from scratch. -/
theorem fromScratch_reads_iff (w : LawfulWith Coherent g) {o : Action} (ho : o.reads = true) :
    (o.after g).FromScratch p x ↔ g.FromScratch p x := by
  have rework := leads_reads (R := Rework fun _ => True) Rework.steps
    (fun levels q k => ((faithful_readWithin levels).rework q k).mono fun _ _ => trivial) ho g
  obtain ⟨-, frame, -, given⟩ := rework w
  refine ⟨FromScratch.of_sameFrame frame.symm fun r hr => (given r ?_).symm,
    FromScratch.of_sameFrame frame given⟩
  rwa [← frame.given]

/-- A terminal with a peer has a wire, so a loose port is on a network. -/
theorem Loose.isSome_contents? (a : g.Loose p) (w : g.Lawful) : (g.contents? p.node).isSome := by
  obtain ⟨q, hq⟩ := Option.isSome_iff_exists.1 a.linked
  rcases w.wellFormed.linked.faces p q hq with hf | hf
  · obtain ⟨i, hi | hi⟩ := (w.fitted p hf.isSome_terminal?).1 a.linked
    · exact absurd hi (a.free i)
    · have := hi.input w.wellFormed.wired
      rw [a.direction] at this
      cases this
  · exact hf.isSome_contents? w.wellFormed.tree

/-- An output of a network that has no type and no wire, and has its default though it counts as up
to date. No read looks at its peer. -/
def Stranded (g : Graph) (p : Port) : Prop :=
  (g.contents? p.node).isSome ∧ g.Loose p ∧ g.isStale p = false

/-- What is up to date has its value from scratch, unless it is stranded. -/
def Evaluated (g : Graph) : Prop :=
  ∀ p x, ¬ g.Stranded p → g.isStale p = false → g.FromScratch p x → g.value p = x

theorem LawfulWith.evaluated (w : LawfulWith Coherent g) : g.Evaluated := by
  intro p x tight hp hx
  exact w.value_eq hx hp fun a => tight ⟨a.isSome_contents? w.lawful, a, hp⟩

theorem evaluated_after_iff (r : RegularRun g) {o : Action} (uses : o.Uses NodeType.Regular)
    (c : (o.after g).Computes) : (o.after g).Evaluated ↔ Undisturbed g o := by
  have w := coherent_of_run r
  constructor
  · rintro evaluated r n d rfl plain
    refine ⟨c n, fun p x hn hp hx => evaluated p x (fun stranded => ?_) hp hx⟩
    have inside := stranded.1
    rw [hn, Action.after, Action.edit, contents?_loadInto_plain plain w.lawful.wellFormed] at inside
    cases inside
  · exact fun u => (coherent_of_run (r.step ⟨uses, u⟩)).evaluated

/-- In every run each port has one value from scratch, which no read changes. A port that is up to
date has it, and a read gives it or finds that the port lies too deep. Only stranded ports may have
their default instead. It stays so just while no load into a node that is no network disturbs it, as
loads into networks and all other operations never do. -/
theorem read_eq_fromScratch (r : RegularRun g) :
    (∀ p, (g.direction? p).isSome →
      ∃ x, (∀ y, g.FromScratch p y ↔ y = x) ∧
        (∀ o : Action, o.reads = true → ∀ y, (o.after g).FromScratch p y ↔ y = x) ∧
        (∀ e h, (read p).apply g = (.error e, h) → TooDeep e) ∧
        (¬ g.Stranded p →
          (g.isStale p = false → g.value p = x) ∧
          (∀ v h, (read p).apply g = (.ok v, h) → v.payload? = x) ∧
          ∀ t y h, (readAs t p).apply g = (.ok y, h) → some y = x)) ∧
    ∀ o : Action, o.Uses NodeType.Regular →
      (Aimed true g o → Undisturbed g o) ∧
      ((o.after g).Computes → ((o.after g).Evaluated ↔ Undisturbed g o)) := by
  refine ⟨fun p live => ?_, fun o uses => ⟨undisturbed_of_aimed, evaluated_after_iff r uses⟩⟩
  have w := coherent_of_run r
  have wf := w.lawful.wellFormed
  obtain ⟨x, hx⟩ := exists_fromScratch wf w.holds.acyclic w.holds.standard live
  have unique (y : Option Payload) : g.FromScratch p y ↔ y = x :=
    ⟨fun hy => hy.unique hx, fun eq => eq ▸ hx⟩
  have reads (v : Value) (h : Graph) (tight : ¬ g.Stranded p)
      (eq : (read p).apply g = (.ok v, h)) : v.payload? = x := by
    rw [read_apply live] at eq
    refine (payload_of_readWithin w hx eq).resolve_right fun a => tight ?_
    exact ⟨a.1.isSome_contents? w.lawful, a⟩
  refine ⟨x, unique, fun o ho y => ?_, fun e h eq => ?_, fun tight => ⟨?_, ?_, ?_⟩⟩
  · rw [fromScratch_reads_iff w ho, unique]
  · rw [read_apply live] at eq
    exact (refreshes_readWithin true _).deep rfl p g e h (w.holds.good wf) live eq
  · exact fun hp => w.evaluated p x tight hp hx
  · exact fun v h => reads v h tight
  · intro t y h eq
    obtain ⟨v, hv, data⟩ := read_of_readAs eq
    rw [← data]
    exact reads v h tight hv

end Evaluation

/-! ### A computation whose inputs change places -/

def minus? : Option Payload → Option Payload → Option Int32
  | some (.int x), some (.int y) => some (x - y)
  | _, _ => none

/-- Writes the difference of the first two attributes to the third. -/
def subtract : Computation :=
  ⟨0, fun _ => .read 0 fun u => .read 1 fun v =>
    match minus? (u.toOption.bind Value.payload?) (v.toOption.bind Value.payload?) with
    | some d => .write 2 (.fresh (.int d)) fun _ => .done (.ok .empty)
    | none => .done (.error "no number")⟩

def difference : NodeType :=
  ⟨"difference",
    ⟨[.ofValue "a" .input (.fresh (.int 5)), .ofValue "b" .input (.fresh (.int 3)),
      .ofValue "out" .output (.fresh (.int 0))], [(0, 2), (1, 2)]⟩, some subtract⟩

theorem made_difference {p : Port} (hp : p.index = 2) (count : Nat) (inputs : Nat → Value) :
    difference.made subtract p count inputs =
      some (.fresh (.int ((minus? (inputs 0).payload? (inputs 1).payload?).getD 0))) := by
  rw [NodeType.made, hp]
  simp only [difference, subtract, Layout.get?, Layout.inputsOf, List.getElem?_cons_succ,
    List.getElem?_cons_zero, Option.bind_some, List.filterMap_cons, List.filterMap_nil, if_true,
    Task.run, List.mem_cons, true_or, or_true, Except.toOption]
  cases minus? (inputs 0).payload? (inputs 1).payload? <;> rfl

/-- No input influences any other port. -/
theorem not_made_difference {p : Port} (hp : p.index ≠ 2) (count : Nat) (inputs : Nat → Value) :
    difference.made subtract p count inputs = none := by
  have none : difference.ports.inputsOf p.index = [] := by
    simp [difference, Layout.inputsOf, Ne.symm hp]
  rw [NodeType.made, none]
  cases difference.ports.get? p.index <;> rfl

theorem functional_difference : difference.Functional where
  typed := by
    intro i a ha
    have declared := List.mem_of_getElem? ha
    simp only [difference, List.mem_cons, List.not_mem_nil, or_false] at declared
    rcases declared with rfl | rfl | rfl <;> rfl
  made := by
    intro c p a count inputs hc ha hd
    cases hc
    have output : p.index = 2 := by
      match h : p.index with
      | 0 | 1 =>
        rw [h] at ha
        cases ha
        cases hd
      | 2 => rfl
      | i + 3 => simp [difference, Layout.get?, h] at ha
    rw [made_difference output]
    rfl
  same := by
    intro c p count count' inputs inputs' hc h
    cases hc
    by_cases hp : p.index = 2
    · rw [hp] at h
      rw [made_difference hp, made_difference hp, h 0 (by decide), h 1 (by decide)]
    · rw [not_made_difference hp, not_made_difference hp]

theorem regular_difference : difference.Regular where
  toStandard := .of_name ⟨by decide, by decide, by decide⟩ (by decide) (by decide) (by decide)
  functional := fun _ => functional_difference

/-- A difference that has been read. -/
def measured : Graph :=
  let g := (Action.addNode ⟨1⟩ difference "n" .standard).after (create .standard .start 0 [])
  (Action.read ⟨⟨2⟩, 2⟩).after g

theorem regularRun_measured : RegularRun measured :=
  .step (.step (.start ..) ⟨regular_difference, nofun⟩) ⟨trivial, nofun⟩

/-- A document that is loaded into the node itself, which is no network, lets its inputs change
places. -/
def rearranged : Graph :=
  (Action.loadInto .empty ⟨2⟩ ⟨[], [], ["b", "a", "out"]⟩).after measured

def swapped : NodeType :=
  { difference with
    ports := ⟨[.ofValue "b" .input (.fresh (.int 3)), .ofValue "a" .input (.fresh (.int 5)),
      .ofValue "out" .output (.fresh (.int 0))], [(1, 2), (0, 2)]⟩ }

theorem fromScratch_rearranged : rearranged.FromScratch ⟨⟨2⟩, 2⟩ (some (.int (-2))) := by
  have known : ((rearranged.direction? ⟨⟨2⟩, 0⟩, rearranged.source? ⟨⟨2⟩, 0⟩),
      (rearranged.direction? ⟨⟨2⟩, 1⟩, rearranged.source? ⟨⟨2⟩, 1⟩),
      (rearranged.direction? ⟨⟨2⟩, 2⟩, rearranged.peer? ⟨⟨2⟩, 2⟩), rearranged.type? ⟨2⟩) =
      ((some .input, none), (some .input, none), (some .output, none), some swapped) := by cbv
  simp only [Prod.mk.injEq] at known
  obtain ⟨⟨hd₀, hs₀⟩, ⟨hd₁, hs₁⟩, ⟨hd, hp⟩, type⟩ := known
  have given (i : Nat) (hi : i ∈ swapped.ports.inputsOf 2) :
      rearranged.FromScratch ⟨⟨2⟩, i⟩ (rearranged.value ⟨⟨2⟩, i⟩) := by
    have which : i = 1 ∨ i = 0 := by simpa [swapped, Layout.inputsOf] using hi
    rcases which with rfl | rfl
    · exact .given hd₁ hs₁
    · exact .given hd₀ hs₀
  have outcome : swapped.outcome subtract ⟨⟨2⟩, 2⟩ (fun i => rearranged.value ⟨⟨2⟩, i⟩) =
      some (.int (-2)) := by cbv
  rw [← outcome]
  exact .computed hd hp type rfl given

/-- The output goes on counting as up to date with what it was before. -/
theorem rearranged_disturbed :
    measured.FromScratch ⟨⟨2⟩, 2⟩ (some (.int 2)) ∧ measured.value ⟨⟨2⟩, 2⟩ = some (.int 2) ∧
      rearranged.FromScratch ⟨⟨2⟩, 2⟩ (some (.int (-2))) ∧
      rearranged.value ⟨⟨2⟩, 2⟩ = some (.int 2) ∧ rearranged.isStale ⟨⟨2⟩, 2⟩ = false ∧
      ¬ rearranged.Evaluated ∧
      ¬ Undisturbed measured (.loadInto .empty ⟨2⟩ ⟨[], [], ["b", "a", "out"]⟩) := by
  have before : (measured.direction? ⟨⟨2⟩, 2⟩, measured.contents? ⟨2⟩, measured.value ⟨⟨2⟩, 2⟩,
      measured.isStale ⟨⟨2⟩, 2⟩) = (some .output, none, some (.int 2), false) := by cbv
  have after : (rearranged.contents? ⟨2⟩, rearranged.value ⟨⟨2⟩, 2⟩,
      rearranged.isStale ⟨⟨2⟩, 2⟩) = (none, some (.int 2), false) := by cbv
  simp only [Prod.mk.injEq] at before after
  obtain ⟨output, plain, held, fresh⟩ := before
  obtain ⟨plain', old, current⟩ := after
  obtain ⟨x, unique, -, -, agrees⟩ :=
    (read_eq_fromScratch regularRun_measured).1 ⟨⟨2⟩, 2⟩ (by rw [output]; rfl)
  obtain ⟨value, -⟩ := agrees fun stranded => by
    have inside := stranded.1
    rw [plain] at inside
    cases inside
  have other : rearranged.value ⟨⟨2⟩, 2⟩ ≠ some (.int (-2)) := by
    rw [old]
    simp only [ne_eq, Option.some.injEq, Payload.int.injEq]
    decide
  refine ⟨?_, held, fromScratch_rearranged, old, current, fun evaluated => ?_, fun u => ?_⟩
  · rw [unique, ← held]
    exact value fresh
  · refine other (evaluated _ _ (fun stranded => ?_) current fromScratch_rearranged)
    have inside := stranded.1
    rw [plain'] at inside
    cases inside
  · exact other ((u _ _ _ rfl plain).2 _ _ rfl current fromScratch_rearranged)

/-! ### A stranded port -/

theorem regular_of_standard {t : NodeType} (s : t.Standard) (inert : t.compute = none) :
    t.Regular := ⟨s, by simp [inert]⟩

/-- A network passes its input on to its output, which was linked before either had a value and has
lost its wire. -/
def passage : Graph :=
  let g := (Action.addNetwork ⟨1⟩ "n").after (create .standard .start 0 [])
  let g := (Action.addNode ⟨2⟩ .networkInput "i" .standard).after g
  let g := (Action.addNode ⟨2⟩ .networkOutput "o" .standard).after g
  let g := (Action.addNode ⟨2⟩ relay "x" ⟨none, none, some [.null, .null]⟩).after g
  let g := (Action.addNode ⟨1⟩ relay "y" .standard).after g
  let g := (Action.connect ⟨⟨3⟩, 0⟩ ⟨⟨5⟩, 0⟩).after g
  let g := (Action.connect ⟨⟨3⟩, 0⟩ ⟨⟨4⟩, 0⟩).after g
  let g := (Action.connect ⟨⟨2⟩, 1⟩ ⟨⟨6⟩, 0⟩).after g
  let g := (Action.read ⟨⟨6⟩, 0⟩).after g
  (Action.disconnect ⟨⟨2⟩, 1⟩ ⟨⟨6⟩, 0⟩).after g

theorem regularRun_passage : RegularRun passage := by
  have relay := regular_of_standard
    (.of_name sound_relay (by decide) (by decide) (by decide)) (t := relay) rfl
  have network := regular_of_standard NodeType.standard_network rfl
  have input := regular_of_standard NodeType.standard_networkInput rfl
  have output := regular_of_standard NodeType.standard_networkOutput rfl
  exact .step (.step (.step (.step (.step (.step (.step (.step (.step (.step (.start ..)
    ⟨network, nofun⟩) ⟨input, nofun⟩) ⟨output, nofun⟩) ⟨relay, nofun⟩) ⟨relay, nofun⟩)
    ⟨trivial, nofun⟩) ⟨trivial, nofun⟩) ⟨trivial, nofun⟩) ⟨trivial, nofun⟩) ⟨trivial, nofun⟩

/-- The output holds nothing, and reads leave it so, while the input has a value. -/
theorem passage_stranded :
    passage.Stranded ⟨⟨2⟩, 1⟩ ∧ passage.value ⟨⟨2⟩, 1⟩ = none ∧
      passage.FromScratch ⟨⟨2⟩, 1⟩ (some (.int 0)) := by
  have wf := (coherent_of_run regularRun_passage).lawful.wellFormed
  have path : ((passage.direction? ⟨⟨2⟩, 1⟩, passage.peer? ⟨⟨2⟩, 1⟩),
      (passage.direction? ⟨⟨4⟩, 0⟩, passage.source? ⟨⟨4⟩, 0⟩),
      (passage.direction? ⟨⟨3⟩, 0⟩, passage.peer? ⟨⟨3⟩, 0⟩),
      (passage.direction? ⟨⟨2⟩, 0⟩, passage.source? ⟨⟨2⟩, 0⟩), passage.value ⟨⟨2⟩, 0⟩) =
      ((some .output, some ⟨⟨4⟩, 0⟩), (some .input, some ⟨⟨3⟩, 0⟩), (some .output, some ⟨⟨2⟩, 0⟩),
        (some .input, none), some (.int 0)) := by cbv
  have here : (passage.sinks ⟨⟨2⟩, 1⟩, passage.isStale ⟨⟨2⟩, 1⟩, passage.value ⟨⟨2⟩, 1⟩,
      (passage.contents? ⟨2⟩).isSome,
      (passage.attr? ⟨⟨2⟩, 1⟩).map fun a => (a.direction, a.type, a.default)) =
      ([], false, none, true, some (.output, none, .null)) := by cbv
  simp only [Prod.mk.injEq] at path here
  obtain ⟨⟨hd, hp⟩, ⟨hd₁, hs₁⟩, ⟨hd₂, hp₂⟩, ⟨hd₃, hs₃⟩, start⟩ := path
  obtain ⟨free, stale, value, network, attr⟩ := here
  obtain ⟨a, ha, kind⟩ := Option.map_eq_some_iff.1 attr
  simp only [Prod.mk.injEq] at kind
  have reset : passage.value ⟨⟨2⟩, 1⟩ = a.default.payload? := by
    rw [value, kind.2.2]
    rfl
  have unwired (i : Port) : ¬ passage.Feeds ⟨⟨2⟩, 1⟩ i := by
    rw [← mem_sinks_iff wf.wired, free]
    exact List.not_mem_nil
  refine ⟨⟨network, ⟨by simp [hp], unwired, a, ha, kind.1, kind.2.1, reset⟩, stale⟩, value, ?_⟩
  rw [← start]
  exact .linked hd hp (.wired hd₁ hs₁ (.linked hd₂ hp₂ (.given hd₃ hs₃)))

end Dataflow.Graph
