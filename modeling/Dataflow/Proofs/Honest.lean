import Dataflow.Proofs.Fair
import Dataflow.Proofs.Propagation
set_option autoImplicit false

/-!
Ports that hold values of the types by which they go. Main statement: in every run, a read that brings
a port up to date with a value of another type is the one thing that breaks this. It takes an output
whose computation stores nothing and leaves it a value from an earlier wiring, or a network port
whose type is no longer that of its terminal.
-/

namespace Dataflow

namespace Graph

/-- If the operation reads, whatever it brings up to date comes to be of the type by which it goes. -/
def Honest (g : Graph) (o : Action) : Prop :=
  o.reads = true → ∀ p t, g.isStale p = true → (o.after g).isStale p = false →
    g.effectiveType p = some t → (o.after g).heldType p = some t

/-- Graphs of runs with standard node types, defaults and supplied values of the declared types, and
none but honest reads. -/
abbrev HonestRun (g : Graph) : Prop := Reachable (fun g o => o.Makes Fits ∧ Honest g o) g

/-! ### Runs with honest reads -/

section Honest
variable {g h : Graph}

/-- A terminal for an input has no peer before it has a wire. -/
theorem inert_of_free (w : g.Lawful) (s : g.Standard) {t : Port} (ht : g.terminal? t = some .input)
    (free : ∀ i, ¬ g.Feeds t i) : g.Inert t := by
  obtain ⟨u, hu, ⟨-, hd, hn⟩ | ⟨hs, -⟩⟩ := terminal?_eq_some_iff.1 ht
  · refine ⟨hd, ?_, fun v hv => ?_⟩
    · cases hp : g.peer? t with
      | none => rfl
      | some b =>
        obtain ⟨i, hi | hi⟩ := (w.fitted t (by rw [ht]; rfl)).1 (by rw [hp]; rfl)
        · exact absurd hi (free i)
        · exact absurd hi (not_feeds_of_output w.wellFormed.wired hd)
    · obtain rfl := Option.some.inj (hu.symm.trans hv)
      rw [s.input _ u hu hn]
      exact ⟨rfl, rfl⟩
  · cases hs

/-- What a port is of by its own or by its wires is kept, where what is brought up to date has it. -/
theorem Firm.typed (a : Firm g h) (w : g.Lawful) (s : g.Standard) (k : g.Typed)
    (new : ∀ p t, g.isStale p = true → h.isStale p = false → g.effectiveType p = some t →
      h.heldType p = some t) : h.Typed := by
  have apt : g.Apt := ⟨w, k.toMatching⟩
  have bears := k.effectiveType_eq_some_iff w
  have kept {p : Port} {t : DataType} (ht : g.effectiveType p = some t) :
      h.heldType p = g.heldType p ∨ h.heldType p = some t := by
    cases hg : g.isStale p with
    | false => exact a.held p t ht (.inl hg)
    | true =>
      cases hh : h.isStale p with
      | false => exact .inr (new p t hg hh ht)
      | true => exact a.held p t ht (.inr hh)
  refine ⟨⟨a.frame.matching k.toMatching, ?declared, ?seeded, ?idle⟩, ?current⟩
  case declared =>
    intro p t ht
    rw [a.frame.declaredType] at ht
    rcases kept (effectiveType_of_declared w.wellFormed.tree ht) with held | held
    · rw [held]
      exact k.declared p t ht
    · exact held
  case seeded =>
    intro o t ho
    rw [a.frame.lends] at ho
    rcases kept ((bears o t).2 (.inl ho)) with held | held
    · rw [held]
      exact k.seeded o t ho
    · rw [held]
      rfl
  case idle =>
    intro t ht free
    rw [a.frame.terminal] at ht
    rw [a.frame.feeds] at free
    rw [a.inert t (inert_of_free w s ht free)]
    exact k.idle t ht free
  case current =>
    intro p t hp hb
    rw [a.frame.bears] at hb
    have ht := (bears p t).2 hb
    cases hg : g.isStale p with
    | true => exact new p t hg hp ht
    | false =>
      rcases kept ht with held | held
      · rw [held]
        exact k.current p t hg hb
      · exact held

theorem sorted_reads (w : LawfulWith Sorted g) {o : Action} (ho : o.reads = true)
    (honest : Honest g o) : Sorted (o.after g) := by
  have s := w.holds
  have firm := firm_reads ⟨w.lawful, s.typed.toMatching⟩ ho
  have good : Good false g := ⟨w.lawful.wellFormed, s.standard, s.closed, nofun⟩
  exact ⟨firm.frame.standard s.standard, closed_of_reads ho good,
    firm.typed w.lawful s.standard s.typed (honest ho)⟩

theorem sorted_after (w : LawfulWith Sorted g) {o : Action} (makes : o.Makes Fits)
    (honest : Honest g o) : LawfulWith Sorted (o.after g) :=
  w.after keptByEdits_sorted (fun _ _ h => h.standard.sound) makes (aimed_false g o) fun ho =>
    ⟨(calmer_reads ho g).frame.lawful w.lawful, sorted_reads w ho honest⟩

theorem sorted_of_honestRun (r : HonestRun g) : LawfulWith Sorted g := by
  induction r with
  | start config ids marks calls => exact ⟨lawful_create .., sorted_create ..⟩
  | step _ ok w => exact sorted_after w ok.1 ok.2

theorem LawfulWith.apt (w : LawfulWith Sorted g) : g.Apt := ⟨w.lawful, w.holds.typed.toMatching⟩

theorem LawfulWith.truthful (w : LawfulWith Sorted g) : g.Truthful := fun p t hs ht =>
  w.holds.typed.current p t hs ((w.apt.matching.effectiveType_eq_some_iff w.lawful p t).1 ht)

/-- An operation leaves all that is up to date of its type just if it is honest. -/
theorem truthful_after_iff (w : LawfulWith Sorted g) {o : Action} (makes : o.Makes Fits) :
    (o.after g).Truthful ↔ Honest g o := by
  refine ⟨fun truthful ho p t _ hs ht => ?_, fun honest => (sorted_after w makes honest).truthful⟩
  refine truthful p t hs ?_
  rwa [w.apt.effectiveType (calmer_reads ho g).frame]

end Honest

/-! ### How reads fail -/

/-- The error tells that some type is not the one that was expected. -/
def AboutTypes (e : Error) : Prop := ∃ a b, e = .typeMismatch a b

theorem not_aboutTypes_of_tooDeep {e : Error} (h : TooDeep e) : ¬ AboutTypes e := by
  obtain ⟨d, rfl⟩ := h
  rintro ⟨a, b, h⟩
  cases h

section Errors
open Edit

theorem error_readAll {below : Port → Edit Value} {ps : List Port} {g h : Graph} {e : Error}
    (eq : (readAll below ps).apply g = (.error e, h)) : TooDeep e := by
  induction ps generalizing g with
  | nil => cases eq
  | cons p ps ih =>
    rw [readAll, apply_bind, apply_outcome] at eq
    cases hp : ((below p).apply g).1 with
    | ok v =>
      rw [hp] at eq
      exact ih eq
    | error d =>
      rw [hp] at eq
      cases d with
      | evaluationTooDeep n =>
        cases eq
        exact ⟨n, rfl⟩
      | _ => cases eq

theorem error_settle {p : Port} {result : Except String Status} {g h : Graph} {e : Error}
    (eq : (settle p result).apply g = (.error e, h)) : ∃ message, e = .computeFailure p.node message := by
  cases result with
  | ok s =>
    rw [settle_ok] at eq
    cases eq
  | error message =>
    cases hv : g.fallback? p with
    | some v =>
      rw [settle_error_of_some g p message hv] at eq
      cases eq
    | none =>
      rw [settle_error_of_none g p message hv] at eq
      cases eq
      exact ⟨message, rfl⟩

theorem error_readWithin (levels : Nat) {p : Port} {g h : Graph} {e : Error}
    (eq : (readWithin levels p).apply g = (.error e, h)) : ¬ AboutTypes e := by
  induction levels generalizing p g e h with
  | zero =>
    cases eq
    exact not_aboutTypes_of_tooDeep ⟨_, rfl⟩
  | succ levels ih =>
    have copied (q : Port) (eq : (copyFrom (readWithin levels) p q).apply g = (.error e, h)) :
        ¬ AboutTypes e := by
      rw [copyFrom, apply_bind] at eq
      rcases hq : (readWithin levels q).apply g with ⟨d | v, k⟩
      · rw [hq] at eq
        cases eq
        exact ih hq
      · rw [hq] at eq
        cases eq
    revert eq
    refine freshen_cases (motive := fun r => r = (.error e, h) → _) ?absent (by simp)
      (fun q _ _ _ => copied q) (by simp) (fun q _ _ _ => copied q) ?made
    case absent =>
      rintro _ eq ⟨a, b, rfl⟩
      cases eq
    case made =>
      intro hd _ _
      obtain ⟨t, ht⟩ := exists_type?_of_direction? hd
      obtain ⟨m, hm, -⟩ := Option.map_eq_some_iff.1 ht
      refine compute_cases hm (motive := fun r => r = (.error e, h) → _) ?stopped ?reached
      case stopped =>
        intro d k hr eq
        cases eq
        exact not_aboutTypes_of_tooDeep (error_readAll hr)
      case reached =>
        rintro inputs k result k' _ _ eq ⟨a, b, rfl⟩
        obtain ⟨message, he⟩ := error_settle eq
        cases he

end Errors

section Readers
variable {g : Graph} {p : Port}

theorem heldType_of_read {v : Value} {h : Graph} (live : (g.direction? p).isSome)
    (eq : (read p).apply g = (.ok v, h)) : v.portType = h.heldType p ∧ h.isStale p = false := by
  rw [read_apply live] at eq
  have f := faithful_readWithin (g.config.maxDepth + 1)
  have payload := f.value p g v h eq
  refine ⟨?_, f.current p g v h eq⟩
  rw [heldType_eq_value, ← payload]
  cases v <;> rfl

/-- Who asks for the type by which the port goes reads it. -/
theorem readAs_apply (live : (g.direction? p).isSome) {t : DataType}
    (ht : g.effectiveType p = some t) :
    (readAs t p).apply g = (((read p).apply g).1.bind fun v =>
      match v.as? t with
      | some payload => .ok payload
      | none => .error (.mismatch (some t) v.portType), ((read p).apply g).2) := by
  obtain ⟨d, hd⟩ := Option.isSome_iff_exists.1 live
  obtain ⟨s, hs, -⟩ := slot_of_direction? hd
  rw [readAs, Edit.apply_bind, Edit.apply_look, hs]
  simp only
  rw [Edit.apply_bind, Edit.apply_look, resolved, ht]
  simp only [ne_eq, not_true_eq_false, if_false]
  rw [Edit.apply_bind]
  rcases (read p).apply g with ⟨e | v, h⟩
  · rfl
  · simp only [Except.bind]
    cases v.as? t <;> rfl

theorem after_readAs (live : (g.direction? p).isSome) {t : DataType}
    (ht : g.effectiveType p = some t) :
    (Action.readAs t p).after g = ((read p).apply g).2 := by
  rw [Action.after, Action.edit, Edit.apply_bind, readAs_apply live ht]
  simp only
  split <;> rfl

/-- An honest reader who asks for the type by which a port goes is never told of another one. -/
theorem readAs_of_honest (w : LawfulWith Sorted g) {t : DataType}
    (ht : g.effectiveType p = some t) (honest : Honest g (.readAs t p)) (a b : String) :
    ((readAs t p).apply g).1 ≠ .error (.typeMismatch a b) := by
  have bears := (w.apt.matching.effectiveType_eq_some_iff w.lawful p t).1 ht
  have live := (isSome_direction?_iff g p).2 (bears.isSome_attr? w.lawful.wellFormed.wired)
  have truthful := (truthful_after_iff w (o := .readAs t p) trivial).2 honest
  have goes : ((Action.readAs t p).after g).effectiveType p = some t := by
    rw [w.apt.effectiveType (calmer_reads rfl g).frame, ht]
  have after := after_readAs live ht
  rw [readAs_apply live ht]
  rcases hr : (read p).apply g with ⟨e | v, h⟩
  · intro mismatch
    cases mismatch
    rw [read_apply live] at hr
    exact error_readWithin _ hr ⟨a, b, rfl⟩
  · obtain ⟨held, current⟩ := heldType_of_read live hr
    rw [hr] at after
    rw [after] at truthful goes
    rw [truthful p t current goes] at held
    cases v with
    | null => cases held
    | data x m =>
      obtain rfl : x.dataType = t := Option.some.inj held
      simp [Except.bind, Value.as?]

end Readers

theorem LawfulWith.upright {g : Graph} (w : LawfulWith Sorted g) (diligent : g.Diligent)
    (mirrored : g.Mirrored) : g.Upright :=
  ⟨w.apt, diligent, mirrored, w.truthful, w.holds.typed.declared⟩

/-- In every run with honest reads both ends of each wire go by one type, and what is up to date is
of the type by which it goes, so that an honest reader who asks for that type is never told of
another. No edit changes this, and a read leaves it so just if it is honest. All reads are honest
where each output that takes its type from its wires and is out of date holds a value of that type or
will have one stored, and network ports go by the types of their terminals. -/
theorem truthful_iff_honest {g : Graph} (r : HonestRun g) :
    (∀ o i, g.Feeds o i → g.effectiveType o = g.effectiveType i) ∧
    g.Truthful ∧
    (∀ p t, g.effectiveType p = some t → Honest g (.readAs t p) →
      ∀ a b, ((readAs t p).apply g).1 ≠ .error (.typeMismatch a b)) ∧
    (∀ o : Action, o.Makes Fits → ((o.after g).Truthful ↔ Honest g o)) ∧
    (g.Diligent → g.Mirrored → ∀ o, Honest g o) := by
  have w := sorted_of_honestRun r
  refine ⟨fun o i hf => ?_, w.truthful, fun p t ht honest => readAs_of_honest w ht honest,
    fun o makes => truthful_after_iff w makes, fun diligent mirrored o ho => ?_⟩
  · exact w.apt.matching.effectiveType_ends w.lawful hf
  · exact (fair_reads (w.upright diligent mirrored) ho).new

/-- One output without a type. -/
def source : NodeType := ⟨"source", ⟨[.untyped "out" .output], []⟩, none⟩

/-- One input for a truth value. -/
def lamp : NodeType := ⟨"lamp", ⟨[.ofValue "in" .input (.fresh (.bool false))], []⟩, none⟩

/-- A source feeds a relay, after it fed a lamp, from which it took its type. A probe has been fed
all the while. -/
def rewiredSource : Graph :=
  let g := (Action.addNode ⟨1⟩ source "s" .standard).after (create .standard .start 0 [])
  let g := (Action.addNode ⟨1⟩ lamp "l" .standard).after g
  let g := (Action.addNode ⟨1⟩ probe "p" .standard).after g
  let g := (Action.addNode ⟨1⟩ relay "r" .standard).after g
  let g := (Action.connect ⟨⟨2⟩, 0⟩ ⟨⟨3⟩, 0⟩).after g
  let g := (Action.connect ⟨⟨2⟩, 0⟩ ⟨⟨4⟩, 0⟩).after g
  let g := (Action.disconnect ⟨⟨2⟩, 0⟩ ⟨⟨3⟩, 0⟩).after g
  (Action.connect ⟨⟨2⟩, 0⟩ ⟨⟨5⟩, 0⟩).after g

theorem honestRun_rewiredSource : HonestRun rewiredSource := by
  have fits {t : NodeType} (s : t.Sound) (h : t.name ∈ ["source", "lamp", "probe", "relay"])
      (c : t.Consistent) : Fits t (.ofType t) := by
    refine ⟨?_, c, Datablock.suits_ofType c⟩
    simp only [List.mem_cons, List.not_mem_nil, or_false] at h
    rcases h with h | h | h | h <;> exact .of_name s (by rw [h]; decide) (by rw [h]; decide)
      (by rw [h]; decide)
  have hs := fits (t := source) ⟨by decide, by decide, by decide⟩ (by decide) (by decide)
  have hl := fits (t := lamp) ⟨by decide, by decide, by decide⟩ (by decide) (by decide)
  have hp := fits (t := probe) ⟨by decide, by decide, by decide⟩ (by decide) (by decide)
  have hr := fits (t := relay) sound_relay (by decide) (by decide)
  exact .step (.step (.step (.step (.step (.step (.step (.step (.start ..) ⟨hs, nofun⟩) ⟨hl, nofun⟩)
    ⟨hp, nofun⟩) ⟨hr, nofun⟩) ⟨trivial, nofun⟩) ⟨trivial, nofun⟩) ⟨trivial, nofun⟩) ⟨trivial, nofun⟩

/-- The relay goes by whole numbers, and who asks for one is told of a truth value: the source has
kept what it was given for the lamp. -/
theorem rewiredSource_misread :
    rewiredSource.Truthful ∧ ¬ ((Action.readAs .int ⟨⟨5⟩, 0⟩).after rewiredSource).Truthful := by
  have laws := truthful_iff_honest honestRun_rewiredSource
  have goes : rewiredSource.effectiveType ⟨⟨5⟩, 0⟩ = some .int := by cbv
  have told : ((readAs .int ⟨⟨5⟩, 0⟩).apply rewiredSource).1 = .error (.typeMismatch "int" "bool") := by
    cbv
  refine ⟨laws.2.1, fun truthful => ?_⟩
  have honest := (laws.2.2.2.1 (.readAs .int ⟨⟨5⟩, 0⟩) trivial).1 truthful
  exact laws.2.2.1 _ _ goes honest _ _ told

end Graph
end Dataflow
