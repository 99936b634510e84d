import Dataflow.Proofs.Cycles
import Dataflow.Proofs.Needed
import Dataflow.Proofs.Voiced
set_option autoImplicit false

/-!
What evaluation tells of itself. Main statement: where computations read no inputs but those that
influence the output they are asked for, reads, passes over the graph and assignments tell of each
change of a flag and of each change of a status at once, of nothing else as such a change, and of each
stored value in the end, whether they succeed or not.
-/

namespace Dataflow

/-- The task reads only attributes in `reads`, whatever it is told. -/
def Task.ReadsOnly {α : Type} (reads : Nat → Prop) : Task α → Prop
  | .done _ => True
  | .read i next => reads i ∧ ∀ r, (next r).ReadsOnly reads
  | .write _ _ next => ∀ r, (next r).ReadsOnly reads
  | .typeOf _ next => ∀ r, (next r).ReadsOnly reads
  | .attachment next => ∀ v, (next v).ReadsOnly reads

/-- Where the attribute is an input, it influences the attribute `out`. -/
def NodeType.Legible (t : NodeType) (out i : Nat) : Prop :=
  (t.ports.get? i).map Attribute.direction = some .input → i ∈ t.ports.inputsOf out

/-- Computations read no inputs but those that influence the output that they are asked for. -/
def NodeType.ReadsUpward (t : NodeType) : Prop :=
  ∀ c i, t.compute = some c → (t.ports.get? i.output).map Attribute.direction = some .output →
    (c.body i).ReadsOnly (t.Legible i.output)

namespace Graph

/-- The changes clear flags, those of ports in `S`, and all is told. -/
structure Clears (S : Port → Prop) (g : Graph) (l : List Change) : Prop where
  voiced : Voiced g l
  within : ∀ p b, .flag p b ∈ l → b = false ∧ S p

section Clears
variable {S T : Port → Prop} {g : Graph} {l l' : List Change} {p : Port}

theorem Clears.nil : Clears S g [] := ⟨.nil g, by simp⟩

theorem Clears.append (a : Clears S g l) (b : Clears S (g.play l) l') : Clears S g (l ++ l') where
  voiced := a.voiced.append b.voiced
  within p c hc := (List.mem_append.1 hc).elim (a.within p c) (b.within p c)

theorem Clears.mono (a : Clears S g l) (sub : ∀ p, S p → T p) : Clears T g l :=
  ⟨a.voiced, fun p b hb => (a.within p b hb).imp_right (sub p)⟩

theorem Clears.kept (a : Clears S g l) (hp : ¬ S p) : (g.play l).isStale p = g.isStale p :=
  isStale_play g fun b hb => hp (a.within p b hb).2

theorem clears_count (c : Computation) : Clears S g [.count c p] := ⟨.count (.nil _), by simp⟩

theorem clears_holding (v : Value) : Clears S g (holding p v) where
  voiced := .value (by simp) (.tell (by simp) (by simp) (.nil _))
  within := by simp [holding]

theorem clears_clearing (stale : g.isStale p = true) (hp : S p) : Clears S g (clearing p) where
  voiced := by
    refine .flag (by simp [stale]) ?_ (.nil _)
    rw [isStale_after_flag, if_pos rfl, Bool.and_false]
  within q b hb := by
    obtain ⟨rfl, rfl⟩ : q = p ∧ b = false := by simpa [clearing] using hb
    exact ⟨rfl, hp⟩

theorem clears_storing {s : Slot} (slot : g.slot? p = some s) (v : Value) :
    Clears (· = p) g (storing p s v) := by
  refine (clears_holding v).append ?_
  split
  · next stale =>
    refine clears_clearing ?_ rfl
    rw [play_holding, isStale_hold, isStale, slot]
    exact stale
  · exact .nil

theorem clears_stating (n : NodeId) (s : Status) : Clears S g (g.stating n s) := by
  rw [stating]
  cases hm : g.node? n with
  | none => exact .nil
  | some m =>
    simp only
    split
    · exact .nil
    · next other =>
      refine ⟨.status ?_ (g.status?_after_status hm s) (.nil _), by simp⟩
      rw [status?, hm]
      exact fun same => other (Option.some.inj same)

/-- How the computation of an output ends. -/
theorem clears_ending (stale : g.isStale p = true) (hp : S p) (s : Status) :
    Clears S g (g.stating p.node s ++ (clearing p ++ [.tell (.valueChanged p)])) := by
  have still : (g.play (g.stating p.node s)).isStale p = true := by
    rw [play_stating, isStale_setStatus, stale]
  exact (clears_stating _ _).append
    ((clears_clearing still hp).append ⟨.tell (by simp) (by simp) (.nil _), by simp⟩)

/-- Marking is telling, port by port. -/
theorem voiced_marking (ps : List Port) (nodup : ps.Nodup)
    (current : ∀ p ∈ ps, (g.slot? p).isSome ∧ g.isStale p = false) : Voiced g (ps.flatMap marking) := by
  induction ps generalizing g with
  | nil => exact .nil g
  | cons p ps ih =>
    obtain ⟨fresh, nodup'⟩ := List.nodup_cons.1 nodup
    obtain ⟨live, hp⟩ := current p List.mem_cons_self
    refine .flag (by simp [hp]) ?_ (.tell (by simp) (by simp) (ih nodup' fun q hq => ?_))
    · rw [isStale_after_flag, if_pos rfl, live]
      rfl
    · have ne : p ≠ q := fun same => fresh (same ▸ hq)
      obtain ⟨live', hq'⟩ := current q (List.mem_cons_of_mem p hq)
      constructor
      · simp only [after, slot?_emit, slot?_modifySlot, if_neg ne]
        exact live'
      · simpa only [after, isStale, slot?_emit, slot?_modifySlot, if_neg ne] using hq'

theorem voiced_spreading (w : g.Tree) (starts : List Port) : Voiced g (g.spreading starts) := by
  refine voiced_marking _ (nodup_walk _ _ _ (nodup_portsWhere w _)) fun p hp => ?_
  obtain ⟨s, hs, current⟩ := (mem_portsWhere_iff w _ p).1 (mem_free_of_mem_walk _ _ _ p hp)
  exact ⟨by rw [hs]; rfl, by simpa [isStale, hs] using current⟩

end Clears

end Graph

namespace Watched
open Dataflow.Graph

/-! ### Steps -/

/-- The edit clears flags only of ports in `S`, and tells all. -/
def Calms {α : Type} (S : Port → Prop) (x : Watched α) (g : Graph) : Prop := Clears S g (x.run g).2

section Calms
variable {α β : Type} {S T : Port → Prop} {x : Watched α} {g g₀ : Graph} {p q : Port}

theorem Calms.mono (a : Calms S x g) (sub : ∀ p, S p → T p) : Calms T x g := Clears.mono a sub

theorem Calms.bind {f : α → Watched β} (first : Calms S x g)
    (rest : ∀ a, Calms S (f a) (g.play (x.run g).2)) : Calms S (x >>= f) g := by
  rw [Calms] at first ⊢
  rcases hx : x.run g with ⟨e | a, l⟩
  · rw [bind_error hx]
    rwa [hx] at first
  · rw [hx] at first
    rw [bind_ok hx]
    have next := rest a
    rw [Calms, hx] at next
    exact first.append next

/-- What comes next starts from a graph of the same frame. -/
theorem onward {x : Watched α} (frame : SameFrame g₀ g) : SameFrame g₀ (g.play (x.run g).2) :=
  frame.trans (sameFrame_play g _)

theorem calms_pure (a : α) : Calms S (pure a) g := .nil

theorem calms_ask (f : Graph → α) : Calms S (ask f) g := .nil

theorem calms_make {f : Graph → List Change} (made : Clears S g (f g)) : Calms S (make f) g := made

theorem Calms.outcome (a : Calms S x g) : Calms S (outcome x) g := a

theorem calms_stop (e : Error) : Calms S (stop e : Watched α) g := .nil

/-- What is found out depends on the graph as it is. -/
theorem calms_look_bind {f : Graph → Except Error α} {k : α → Watched β}
    (rest : ∀ a, f g = .ok a → Calms S (k a) g) : Calms S (look f >>= k) g := by
  cases ha : f g with
  | error e =>
    rw [Calms, bind_error (by rw [run_look, ha])]
    exact .nil
  | ok a =>
    rw [Calms, bind_ok (by rw [run_look, ha])]
    exact rest a ha

theorem calms_ask_bind {f : Graph → α} {k : α → Watched β} (rest : Calms S (k (f g)) g) :
    Calms S (ask f >>= k) g := rest

theorem calms_writeFor (v : Value) : Calms S (writeFor p v) g := by
  refine calms_look_bind fun s _ => ?_
  split
  · exact calms_stop _
  · refine calms_ask_bind ?_
    split
    · exact calms_stop _
    · exact clears_holding v

theorem calms_settle (stale : g.isStale p = true) (hp : S p) (result : Except String Status) :
    Calms S (settle p result) g := by
  cases result with
  | ok s =>
    have run : ((settle p (.ok s)).run g).2 =
        g.stating p.node s ++ (clearing p ++ [.tell (.valueChanged p)]) := by
      simp [settle, run_bind, ask]
    rw [Calms, run]
    exact clears_ending stale hp s
  | error message =>
    cases hv : g.fallback? p with
    | some v =>
      have run : ((settle p (.error message)).run g).2 = .value p v ::
          ((g.put p v).stating p.node (.failed message) ++
            (clearing p ++ [.tell (.valueChanged p)])) := by
        simp [settle, settleFailure, run_bind, ask, hv]
      -- the default is stored here and told of at the end
      have ending := clears_ending (S := S) (by rwa [g.isStale_put p v p]) hp (.failed message)
      rw [Calms, run]
      exact ⟨.value (by simp) ending.voiced, by simpa using ending.within⟩
    | none =>
      have run : ((settle p (.error message)).run g).2 = g.stating p.node (.failed message) := by
        simp [settle, settleFailure, run_bind, ask, stop, hv]
      rw [Calms, run]
      exact clears_stating _ _

/-- A way to read ports in graphs of this frame that clears only what lies upstream of them. -/
def Careful (g₀ : Graph) (below : Port → Watched Value) : Prop :=
  ∀ q g, SameFrame g₀ g → Calms (Relation.ReflTransGen g₀.Flows · q) (below q) g

variable {below : Port → Watched Value} (careful : Careful g₀ below) (frame : SameFrame g₀ g)
include careful frame

theorem calms_copyFrom (acyclic : g₀.Acyclic) (stale : g.isStale p = true) (flows : g₀.Flows q p) :
    Calms (Relation.ReflTransGen g₀.Flows · p) (copyFrom below p q) g := by
  have first := careful q g frame
  -- what is read first is upstream of `p`, so the flag of `p` waits for its own turn
  have apart : ¬ Relation.ReflTransGen g₀.Flows p q :=
    fun path => acyclic p (.trans_right path (.single flows))
  refine (first.mono fun r path => path.tail flows).bind fun v => ?_
  refine (calms_make ((clears_holding v).append (clears_clearing ?_ .refl))).bind fun _ => calms_pure v
  rw [play_holding, isStale_hold, first.kept apart, stale]

theorem calms_readAll (ps : List Port) (flows : ∀ q ∈ ps, g₀.Flows q p) :
    Calms (Relation.TransGen g₀.Flows · p) (readAll below ps) g := by
  induction ps generalizing g with
  | nil => exact calms_pure _
  | cons q ps ih =>
    have first : Calms (Relation.TransGen g₀.Flows · p) (outcome (below q)) g :=
      ((careful q g frame).mono fun r path =>
        .trans_right path (.single (flows q List.mem_cons_self))).outcome
    refine first.bind fun r => ?_
    cases r with
    | ok v => exact ih (frame.trans (sameFrame_play g _)) fun q hq => flows q (List.mem_cons_of_mem _ hq)
    | error e =>
      cases e with
      | evaluationTooDeep d => exact calms_stop _
      | _ => exact calms_pure _

/-- A task reads only what flows into the output that it is for. -/
theorem calms_perform {reads : Nat → Prop} (t : Task α) (reading : t.ReadsOnly reads)
    (flows : ∀ i, reads i → g₀.direction? ⟨p.node, i⟩ = some .input → g₀.Flows ⟨p.node, i⟩ p) :
    Calms (Relation.TransGen g₀.Flows · p) (perform below p.node t) g := by
  induction t generalizing g with
  | done a => exact calms_pure a
  | read i next ih =>
    obtain ⟨hi, rest⟩ := reading
    have first : Calms (Relation.TransGen g₀.Flows · p) (readFor below ⟨p.node, i⟩) g := by
      refine calms_look_bind fun s hs => calms_look_bind fun _ _ => ?_
      cases hd : s.attr.direction with
      | input =>
        have input : g₀.direction? ⟨p.node, i⟩ = some .input := by
          rw [← frame.direction, direction?, slot_eq_ok_iff.1 hs, Option.map_some, hd]
        exact (careful _ g frame).mono fun r path => .trans_right path (.single (flows i hi input))
      | output => exact calms_pure _
    exact first.outcome.bind fun r => ih r (onward frame) (rest r)
  | write i v next ih =>
    exact (calms_writeFor v).outcome.bind fun r => ih r (onward frame) (reading r)
  | typeOf i next ih =>
    have asked : Calms (Relation.TransGen g₀.Flows · p) (typeFor ⟨p.node, i⟩) g :=
      calms_look_bind fun _ _ => calms_ask _
    exact asked.outcome.bind fun r => ih r (onward frame) (reading r)
  | attachment next ih => exact calms_ask_bind (ih _ frame (reading _))

section Compute
variable (w : g₀.WellFormed) (acyclic : g₀.Acyclic)
  (upward : ∀ n t, g₀.type? n = some t → t.ReadsUpward)
include upward

theorem calms_attempt (hd : g₀.direction? p = some .output) {m : Node}
    (hm : g₀.type? p.node = some m.type) (inputs : Except String Unit) :
    Calms (Relation.TransGen g₀.Flows · p) (attempt below p m.compute inputs) g := by
  cases inputs with
  | error message => exact calms_pure _
  | ok u =>
    cases hc : m.compute with
    | none => exact calms_pure _
    | some c =>
      have output : (m.type.ports.get? p.index).map Attribute.direction = some .output := by
        rw [direction?_eq, attr?_eq, hm] at hd
        exact hd
      refine calms_ask_bind ?_
      refine (calms_make (clears_count c)).bind fun _ => ?_
      have reading := upward p.node m.type hm c ⟨p.node, p.index, g.runs c⟩ hc output
      refine calms_perform careful (onward frame) _ reading ?_
      intro i legible input
      rw [direction?_eq, attr?_eq, hm] at input
      exact .inl (influences_of_mem hm (legible input))

include acyclic

/-- What is left of a computation once its inputs have been read. -/
theorem calms_finish (hd : g₀.direction? p = some .output) (stale : g.isStale p = true) {m : Node}
    (hm : g₀.type? p.node = some m.type) (inputs : Except String Unit) :
    Calms (Relation.ReflTransGen g₀.Flows · p)
      (do settle p (← attempt below p m.compute inputs)) g := by
  have result := calms_attempt careful frame upward hd hm inputs
  refine (result.mono fun r path => path.to_reflTransGen).bind fun ended =>
    calms_settle ?_ .refl ended
  rw [result.kept (acyclic p), stale]

theorem calms_compute (hd : g₀.direction? p = some .output) (stale : g.isStale p = true) :
    Calms (Relation.ReflTransGen g₀.Flows · p) (compute below p) g := by
  refine calms_look_bind fun m hm => ?_
  rw [node_eq_ok_iff] at hm
  have inputs := calms_readAll careful frame ((m.ports.inputsOf p.index).map (Port.mk p.node))
    fun q hq => .inl (by rw [← frame.influences]; exact (mem_inputs_iff hm q).1 hq)
  have type : g₀.type? p.node = some m.type := by
    rw [← frame.type, type?, hm]
    rfl
  have still := (inputs.kept (acyclic p)).trans stale
  exact (inputs.mono fun r path => path.to_reflTransGen).bind fun read =>
    calms_finish careful (onward frame) acyclic upward hd still type read

include w

theorem calms_freshen : Calms (Relation.ReflTransGen g₀.Flows · p) (freshen below p) g := by
  have copied {q : Port} (c : g₀.Copies p q) : g₀.Flows q p :=
    flows_of_predecessor w ((mem_predecessors_iff g₀ p q).2 (.inl c))
  refine calms_ask_bind ?_
  simp only [id_eq]
  cases hs : g.slot? p with
  | none => exact calms_stop _
  | some s =>
    have hd : g₀.direction? p = some s.attr.direction := by
      rw [← frame.direction, direction?, hs]
      rfl
    have hp : g₀.peer? p = s.peer := by
      rw [← frame.peer, peer?, hs]
      rfl
    by_cases stale : s.stale = true
    · have out : g.isStale p = true := by
        rw [isStale, hs]
        exact stale
      simp only [stale, Bool.not_true, Bool.false_eq_true, if_false]
      cases dir : s.attr.direction with
      | input =>
        rw [dir] at hd
        cases source : g.source? p with
        | some q =>
          exact calms_copyFrom careful frame acyclic out
            (copied (.inl ⟨hd, by rw [← frame.source, source]⟩))
        | none =>
          exact (calms_make (clears_clearing out .refl)).bind fun _ => calms_ask _
      | output =>
        rw [dir] at hd
        cases peer : s.peer with
        | some q =>
          exact calms_copyFrom careful frame acyclic out (copied (.inr ⟨hd, by rw [hp, peer]⟩))
        | none => exact calms_compute careful frame acyclic upward hd out
    · simp only [stale, Bool.not_false, if_true]
      exact calms_pure _

end Compute
end Calms

/-! ### Whole reads, passes and assignments -/

section Run
variable {g g₀ : Graph} (w : g₀.WellFormed) (acyclic : g₀.Acyclic)
  (upward : ∀ n t, g₀.type? n = some t → t.ReadsUpward)
include w acyclic upward

theorem careful_readWithin (levels : Nat) : Careful g₀ (readWithin levels) := by
  induction levels with
  | zero => exact fun q g _ => calms_stop _
  | succ levels ih => exact fun q g frame => calms_freshen ih frame w acyclic upward

variable (frame : SameFrame g₀ g)
include frame

theorem calms_read (p : Port) : Calms (Relation.ReflTransGen g₀.Flows · p) (read p) g :=
  calms_look_bind fun _ _ => calms_ask_bind (careful_readWithin w acyclic upward _ p g frame)

theorem calms_readEach (ps : List Port) (first : Option Error) :
    Calms (fun _ => True) (readEach ps first) g := by
  induction ps generalizing g first with
  | nil => exact calms_pure _
  | cons p ps ih =>
    refine calms_ask_bind ?_
    split
    · refine calms_ask_bind ?_
      have one := careful_readWithin w acyclic upward (g.config.maxDepth + 1) p g frame
      refine (one.mono fun _ _ => trivial).outcome.bind fun r => ?_
      cases r with
      | ok v => exact ih (onward frame) first
      | error e => exact ih (onward frame) _
    · exact ih frame first

theorem calms_refresh : Calms (fun _ => True) refresh g := by
  refine calms_ask_bind ((calms_readEach w acyclic upward frame _ none).bind fun r => ?_)
  cases r with
  | some e => exact calms_stop e
  | none => exact calms_pure _

end Run

/-- An assignment marks what is downstream, so it does not only clear. -/
theorem voiced_assign {g : Graph} (w : g.Tree) (p : Port) (v : Value) :
    Voiced g ((assign p v).run g).2 := by
  cases checked : g.checkAssign p v with
  | error e =>
    rw [assign, bind_error (by rw [run_look, checked])]
    exact .nil g
  | ok s =>
    rw [assign, bind_ok (by rw [run_look, checked])]
    simp only [play_nil, List.nil_append]
    split
    · exact .nil g
    · have stored := clears_storing (slot_of_checkAssign checked) v
      have w' := (SameTree.of_sameFrame (sameFrame_play g (storing p s v))).tree w
      exact stored.voiced.append (voiced_spreading w' _)

/-- The watched edit accounts for the edit: it comes to the same, its events are those that the edit
emits, and these say exactly what has changed. -/
structure Accounts {α : Type} (x : Watched α) (y : Edit α) (g : Graph) : Prop where
  plays : y.apply g = ((x.run g).1, g.play (x.run g).2)
  events : (y.apply g).2.events = g.events ++ news (x.run g).2
  exact : Exact g (x.run g).2

theorem Plays.accounts {α : Type} {x : Watched α} {y : Edit α} {g : Graph} (plays : Plays x y)
    (voiced : Voiced g (x.run g).2) : Accounts x y g where
  plays := plays g
  events := by rw [plays g, events_play]
  exact := voiced.exact

end Watched

namespace Graph

/-- In a graph of which the computations read no inputs but those that influence the output they are
asked for, every read, every pass over the graph and every assignment tells exactly what it changes:
each flip of a flag and each change of a status when it comes and never else, and after the last store
to a port that the value has changed. -/
theorem evaluation_exact {g : Graph} (r : Grown g)
    (upward : ∀ n t, g.type? n = some t → t.ReadsUpward) :
    (∀ p, (Watched.read p).Accounts (read p) g) ∧
    (∀ p v, (Watched.assign p v).Accounts (Edit.step (·.assign p v)) g) ∧
    Watched.refresh.Accounts refresh g := by
  obtain ⟨w, acyclic⟩ := acyclic_of_grown r
  have formed := w.wellFormed
  refine ⟨fun p => ?_, fun p v => ?_, ?_⟩
  · exact (Watched.plays_read p).accounts
      (Watched.calms_read formed acyclic upward (.refl g) p).voiced
  · exact (Watched.plays_assign p v).accounts (Watched.voiced_assign formed.tree p v)
  · exact Watched.plays_refresh.accounts
      (Watched.calms_refresh formed acyclic upward (.refl g)).voiced

theorem readsUpward_repeater : repeater.ReadsUpward := by
  intro c i hc hd
  cases hc
  have out : i.output = 1 := index_of_output_relay hd
  refine ⟨fun _ => ?_, fun r => ?_⟩
  · rw [out]
    decide
  · cases r with
    | ok v => exact fun _ => trivial
    | error e => exact trivial

/-- The second repeater copies from the first one, and then to its output. -/
theorem halfRead_exact : Grown halfRead ∧
    (∀ n t, halfRead.type? n = some t → t.ReadsUpward) ∧
    news ((Watched.read ⟨⟨3⟩, 1⟩).run halfRead).2 =
      [.valueChanged ⟨⟨3⟩, 0⟩, .flagsChanged ⟨⟨3⟩, 0⟩, .valueChanged ⟨⟨3⟩, 1⟩, .flagsChanged ⟨⟨3⟩, 1⟩,
        .valueChanged ⟨⟨3⟩, 1⟩] ∧
    (Watched.read ⟨⟨3⟩, 1⟩).Accounts (read ⟨⟨3⟩, 1⟩) halfRead := by
  have upward (n : NodeId) (t : NodeType) (ht : halfRead.type? n = some t) : t.ReadsUpward := by
    rcases type_halfRead ht with rfl | rfl
    · rintro c i ⟨⟩
    · exact readsUpward_repeater
  have grown := grown_of_standard standardRun_halfRead
  exact ⟨grown, upward, by cbv, (evaluation_exact grown upward).1 ⟨⟨3⟩, 1⟩⟩

end Graph
end Dataflow
