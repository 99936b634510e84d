import Dataflow.Proofs.Counterpart
import Dataflow.Proofs.Projection
set_option autoImplicit false

/-!
What computations learn of data that clients leave with nodes. Main statement: such data is no
input, so what is up to date stays so and goes on giving what it holds when the data is replaced. All
else reads as if the data had been there from the start.
-/

namespace Dataflow.Graph

/-- The port is made from an output that the node computes, or it is such an output. -/
def MadeBy (g : Graph) (n : NodeId) (p : Port) : Prop :=
  ∃ o, o.node = n ∧ g.Computing o ∧ Relation.ReflTransGen g.Flows o p

/-- The graph `h` differs from `g` only in that the client left `v` with the node `n` before the
node had computed any of its outputs. What is made from these may hold something else therefore, or
be still out of date. -/
structure Foreknown (n : NodeId) (v : Value) (g h : Graph) : Prop where
  frame : SameFrame g h
  calls : h.calls = g.calls
  note : ∀ m, h.note? m = if m = n then v.payload? else g.note? m
  stale : ∀ p, g.isStale p = true → h.isStale p = true
  current : ∀ p, ¬ g.MadeBy n p → g.isStale p = false → h.isStale p = false
  value : ∀ p, ¬ g.MadeBy n p ∨ g.Given p → h.value p = g.value p

/-- A port has its value from outside of the graph, or it is a copy, or it is computed. -/
theorem given_or_copies_or_computing {g : Graph} {p : Port} (live : (g.direction? p).isSome) :
    g.Given p ∨ (∃ q, g.Copies p q) ∨ g.Computing p := by
  obtain ⟨d, hd⟩ := Option.isSome_iff_exists.1 live
  cases d with
  | input =>
    cases hs : g.source? p with
    | none => exact .inl (.inl ⟨hd, hs⟩)
    | some q => exact .inr (.inl ⟨q, .inl ⟨hd, hs⟩⟩)
  | output =>
    cases hq : g.peer? p with
    | some q => exact .inr (.inl ⟨q, .inr ⟨hd, hq⟩⟩)
    | none =>
      obtain ⟨t, ht⟩ := exists_type?_of_direction? hd
      cases hc : t.compute with
      | none => exact .inl (.inr ⟨hd, hq, fun u hu => by rw [ht] at hu; cases hu; exact hc⟩)
      | some c => exact .inr (.inr ⟨hd, hq, t, ht, by rw [hc]; rfl⟩)

theorem isSome_direction?_of_flows {g : Graph} (w : g.WellFormed) {p q : Port}
    (path : Relation.ReflTransGen g.Flows q p) (live : (g.direction? p).isSome) :
    (g.direction? q).isSome := by
  rcases path.cases_head with rfl | ⟨r, hf, -⟩
  · exact live
  · exact hf.isSome_left w

/-- Data that is left with a node changes nothing else. -/
theorem note?_setAttachment {g h : Graph} {n : NodeId} {v : Value}
    (ok : g.setAttachment n v = .ok h) (m : NodeId) :
    h.note? m = if m = n then v.payload? else g.note? m := by
  simp only [setAttachment, bind, Except.bind] at ok
  split at ok <;> cases ok
  next found =>
  rw [node_eq_ok_iff] at found
  simp only [note?, node?_modifyNode]
  by_cases hm : n = m
  · subst hm
    rw [if_pos rfl, if_pos rfl, found]
    rfl
  · rw [if_neg hm, if_neg (Ne.symm hm)]

theorem calls_setAttachment {g h : Graph} {n : NodeId} {v : Value}
    (ok : g.setAttachment n v = .ok h) : h.calls = g.calls := by
  simp only [setAttachment, bind, Except.bind] at ok
  split at ok <;> cases ok
  rfl

/-- After new data has been left with a node, what is up to date goes on giving what it holds. A port
reads the same as if the data had been there before the node computed anything, as long as whatever
it is made from by way of that node holds the same in both cases while it is up to date. -/
theorem read_noted {g h k : Graph} {n : NodeId} {v : Value} (r : Grown g)
    (ok : g.setAttachment n v = .ok h) (a : Foreknown n v g k) :
    (∀ p, (g.direction? p).isSome → g.isStale p = false → (read p).apply h = (.ok (g.held p), h)) ∧
    ∀ p, (g.direction? p).isSome →
      (∀ q t, Relation.ReflTransGen g.Flows q p → g.Computing q → g.type? q.node = some t →
        t.Scoped ∧ (g.MadeBy n q → t.Writes q)) →
      (∀ q, Relation.ReflTransGen g.Flows q p → g.MadeBy n q → g.isStale q = false →
        k.isStale q = false ∧ k.value q = g.value q) →
      ((read p).apply h).1.map Value.payload? = ((read p).apply k).1.map Value.payload? := by
  have quiet := quiet_setAttachment ok
  refine ⟨fun p live current => ?_, fun p live function kept => ?_⟩
  · have live' : (h.direction? p).isSome := by rwa [quiet.frame.direction]
    rw [read_apply live', ← quiet.held]
    exact freshen_of_current live' (by rw [quiet.isStale, current])
  · have w := (acyclic_of_grown r).lawful.wellFormed
    have frame : SameFrame h k := quiet.frame.symm.trans a.frame
    have T : Counterparts (fun q => Relation.ReflTransGen g.Flows q p)
        (fun q => g.MadeBy n q ∧ ¬ g.Given q) id h k := by
      refine counterparts_of_sameFrame (quiet.frame.wellFormed w) frame (fun q r hq hr => ?_) (fun q hq => ?_)
        (fun q t hq hc ht => ?_) (fun q hq mark => ?_) ?_ ?_ (fun q hq => ?_) fun q hq known => ?_
      · exact .head (flows_of_predecessor w ((quiet.frame.mem_predecessors q r).1 hr)) hq
      · rw [quiet.frame.direction]
        exact isSome_direction?_of_flows w hq live
      · rw [quiet.frame.computing] at hc
        rw [quiet.frame.type] at ht
        exact (function q t hq hc ht).1
      · rw [quiet.frame.replaced]
        have there := isSome_direction?_of_flows w hq live
        rcases (given_or_copies_or_computing there).resolve_left mark.2 with copies | computing
        · exact .inl copies
        · exact .inr ⟨computing, fun t ht => (function q t hq computing ht).2 mark.1⟩
      · funext m
        rw [a.note, note?_setAttachment ok]
      · rw [a.calls, calls_setAttachment ok]
      · rw [quiet.isStale]
        cases hs : g.isStale q with
        | true => exact a.stale q hs
        | false =>
          by_cases mark : g.MadeBy n q
          · exact (kept q hq mark hs).1
          · exact a.current q mark hs
      · have same : h.value q = g.value q := by rw [value, quiet.held]; rfl
        rw [same]
        by_cases mark : g.MadeBy n q
        · by_cases given : g.Given q
          · exact a.value q (.inr given)
          · have current := known ⟨mark, given⟩
            rw [quiet.isStale] at current
            exact (kept q hq mark current).2
        · exact a.value q (.inl mark)
    exact (T.read .refl).1.symm

/-- Writes what a client has left with it. -/
def badge : NodeType :=
  ⟨"badge", relay.ports, some ⟨0, fun _ => .attachment (.store 1)⟩⟩

theorem course_badge {c : Computation} (hc : badge.compute = some c) (p : Port) (count : Nat)
    (type : PortType) (left : Value) (answers : Answers) :
    badge.course c p count type left answers =
      if p.index = 1 then
        some (if type.isSome ∧ left.portType ≠ type then
          (.error (Error.mismatch type left.portType).message, none) else (.ok .empty, some left))
      else none := by
  cases hc
  simp only [NodeType.course, Task.course, Task.course_store, eq_comm (a := 1)]

theorem scoped_badge : badge.Scoped where
  ends := by
    intro c p count type left answers hc hd
    rw [course_badge hc, if_pos (index_of_output_relay hd)]
    rfl
  blind := by
    intro c p count type left left' answers answers' hc same _
    have types : left.portType = left'.portType := by
      rw [Value.portType_eq, Value.portType_eq, same]
    rw [course_badge hc, course_badge hc, types]
    split
    · split <;> simp [same]
    · rfl

theorem writes_badge (p : Port) : badge.Writes p := by
  intro c count type left answers s last hc eq
  rw [course_badge hc] at eq
  split at eq
  · split at eq <;> cases eq
    rfl
  · cases eq

/-- A badge that nobody has read, with the number 3. -/
def newBadge : Graph :=
  (Action.addNode ⟨1⟩ badge "b" ⟨none, some (.fresh (.int 3)), none⟩).after
    (create .standard .start 0 [])

theorem grown_newBadge : Grown newBadge :=
  .step (.start ..) ⟨by decide, by decide, by decide⟩

/-- The client leaves the number 7 with the badge. -/
def signed (g : Graph) : Graph := (Action.setAttachment ⟨2⟩ (.fresh (.int 7))).after g

theorem sameFrame_signed (g : Graph) : SameFrame g (signed g) := by
  simp only [signed, Action.after, Action.edit]
  rw [Edit.apply_step]
  cases ok : g.setAttachment ⟨2⟩ (.fresh (.int 7)) with
  | error e => exact .refl g
  | ok h => exact (quiet_setAttachment ok).frame

/-- The badge is read. -/
def worn (g : Graph) : Graph := (Action.read ⟨⟨2⟩, 1⟩).after g

theorem sameFrame_worn (g : Graph) : SameFrame g (worn g) :=
  (calmer_reads (o := .read ⟨⟨2⟩, 1⟩) rfl g).frame

/-- The input of the badge is given another value. -/
def turnedOver (g : Graph) : Graph := (Action.assign ⟨⟨2⟩, 0⟩ (.fresh (.int 1))).after g

theorem sameFrame_turnedOver (g : Graph) : SameFrame g (turnedOver g) := by
  simp only [turnedOver, Action.after, Action.edit]
  rw [Edit.apply_step]
  cases ok : g.assign ⟨⟨2⟩, 0⟩ (.fresh (.int 1)) with
  | error e => exact .refl g
  | ok h => exact sameFrame_assign ok

theorem newBadge_known : newBadge.nodes.keys = [⟨1⟩, ⟨2⟩] ∧
    newBadge.ports = [⟨⟨2⟩, 0⟩, ⟨⟨2⟩, 1⟩] ∧ newBadge.direction? ⟨⟨2⟩, 0⟩ = some .input ∧
    newBadge.direction? ⟨⟨2⟩, 1⟩ = some .output ∧ newBadge.peer? ⟨⟨2⟩, 1⟩ = none ∧
    newBadge.type? ⟨1⟩ = some .network ∧ newBadge.type? ⟨2⟩ = some badge :=
  ⟨by cbv, by cbv, by cbv, by cbv, by cbv, by cbv, by cbv⟩

section Badge
variable {g h : Graph} (a : SameFrame newBadge g)
include a

theorem port_of_badge {p : Port} (live : (g.direction? p).isSome) :
    p = ⟨⟨2⟩, 0⟩ ∨ p = ⟨⟨2⟩, 1⟩ := by
  obtain ⟨-, ports, -⟩ := newBadge_known
  have w := (acyclic_of_grown grown_newBadge).lawful.wellFormed.tree
  rw [a.direction, ← mem_ports_iff w, ports] at live
  simpa using live

theorem node_of_badge {n : NodeId} {t : NodeType} (ht : g.type? n = some t) :
    n = ⟨1⟩ ∧ t = .network ∨ n = ⟨2⟩ ∧ t = badge := by
  obtain ⟨keys, -, -, -, -, h1, h2⟩ := newBadge_known
  rw [a.type] at ht
  have live := (isSome_type?_iff newBadge n).1 (by simp [ht])
  rw [keys] at live
  simp only [List.mem_cons, List.not_mem_nil, or_false] at live
  rcases live with rfl | rfl
  · exact .inl ⟨rfl, Option.some.inj (ht.symm.trans h1)⟩
  · exact .inr ⟨rfl, Option.some.inj (ht.symm.trans h2)⟩

theorem computing_badge (p : Port) : g.Computing p ↔ p = ⟨⟨2⟩, 1⟩ := by
  obtain ⟨-, -, input, output, unlinked, -, type⟩ := newBadge_known
  rw [a.computing]
  constructor
  · rintro ⟨hd, -⟩
    refine (port_of_badge (.refl newBadge) (by simp [hd])).resolve_left ?_
    rintro rfl
    rw [input] at hd
    cases hd
  · rintro rfl
    exact ⟨output, unlinked, badge, type, rfl⟩

/-- What has to be looked at to tell that one badge differs from another in its data only. -/
theorem foreknown_badge (b : SameFrame newBadge h) (calls : h.calls = g.calls)
    (notes : [g.note? ⟨1⟩, h.note? ⟨1⟩, h.note? ⟨2⟩] = [none, none, some (.int 7)])
    (input : (h.isStale ⟨⟨2⟩, 0⟩, h.value ⟨⟨2⟩, 0⟩) = (g.isStale ⟨⟨2⟩, 0⟩, g.value ⟨⟨2⟩, 0⟩))
    (output : h.isStale ⟨⟨2⟩, 1⟩ = g.isStale ⟨⟨2⟩, 1⟩) :
    Foreknown ⟨2⟩ (.fresh (.int 7)) g h := by
  simp only [List.cons.injEq, and_true] at notes
  rw [Prod.mk.injEq] at input
  obtain ⟨g1, h1, h2⟩ := notes
  have dead {k : Graph} (c : SameFrame newBadge k) {p : Port} (hp : ¬ (g.direction? p).isSome) :
      k.slot? p = none := by
    rwa [a.direction, ← c.direction, direction?, Option.isSome_map,
      Option.not_isSome_iff_eq_none] at hp
  have stale (p : Port) : h.isStale p = g.isStale p := by
    by_cases hp : (g.direction? p).isSome
    · rcases port_of_badge a hp with rfl | rfl
      · exact input.1
      · exact output
    · rw [isStale, isStale, dead a hp, dead b hp]
  refine ⟨a.symm.trans b, calls, fun m => ?_, fun p hs => by rw [stale, hs],
    fun p _ hs => by rw [stale, hs], fun p out => ?_⟩
  · cases ht : g.type? m with
    | some t =>
      rcases node_of_badge a ht with ⟨rfl, -⟩ | ⟨rfl, -⟩
      · rw [h1, if_neg (by decide), g1]
      · rw [h2, if_pos rfl]
        rfl
    | none =>
      have gone {k : Graph} (c : SameFrame newBadge k) : k.note? m = none := by
        rw [a.type, ← c.type, type?, Option.map_eq_none_iff] at ht
        rw [note?, ht]
        rfl
      rw [gone b, gone a, if_neg]
      rintro rfl
      obtain ⟨-, -, -, -, -, -, there⟩ := newBadge_known
      rw [a.type, there] at ht
      cases ht
  · by_cases hp : (g.direction? p).isSome
    · rcases port_of_badge a hp with rfl | rfl
      · exact input.2
      · have computing := (computing_badge a _).2 rfl
        rcases out with other | ⟨i, -⟩ | ⟨-, -, none⟩
        · exact absurd ⟨_, rfl, computing, .refl⟩ other
        · rw [computing.1] at i
          cases i
        · obtain ⟨-, -, t, ht, computes⟩ := computing
          rw [none t ht] at computes
          cases computes
    · rw [value, value, held, held, dead a hp, dead b hp]

end Badge

/-- A badge that has been read goes on showing what it showed, though it would show the new number if
it had had that before. -/
theorem wornBadge_shows : Grown (worn newBadge) ∧ badge.Scoped ∧
    Foreknown ⟨2⟩ (.fresh (.int 7)) (worn newBadge) (worn (signed newBadge)) ∧
    ((read ⟨⟨2⟩, 1⟩).apply (signed (worn newBadge))).1.map Value.payload? = .ok (some (.int 3)) ∧
    ((read ⟨⟨2⟩, 1⟩).apply (worn (signed newBadge))).1.map Value.payload? = .ok (some (.int 7)) := by
  have shown : ((read ⟨⟨2⟩, 1⟩).apply (signed (worn newBadge))).1.map Value.payload? =
      .ok (some (.int 3)) := by cbv
  have shown' : ((read ⟨⟨2⟩, 1⟩).apply (worn (signed newBadge))).1.map Value.payload? =
      .ok (some (.int 7)) := by cbv
  refine ⟨.step (o := .read ⟨⟨2⟩, 1⟩) grown_newBadge trivial, scoped_badge, ?_, shown, shown'⟩
  have frame := (sameFrame_signed newBadge).trans (sameFrame_worn _)
  refine foreknown_badge (sameFrame_worn _) frame ?_ ?_ ?_ ?_ <;> cbv

/-- Once it is out of date it shows the same as a badge that had the new number before. -/
theorem turnedBadge_shows : ∃ h,
    (turnedOver (worn newBadge)).setAttachment ⟨2⟩ (.fresh (.int 7)) = .ok h ∧
    Foreknown ⟨2⟩ (.fresh (.int 7)) (turnedOver (worn newBadge))
      (turnedOver (worn (signed newBadge))) ∧
    ((read ⟨⟨2⟩, 1⟩).apply h).1.map Value.payload? =
      ((read ⟨⟨2⟩, 1⟩).apply (turnedOver (worn (signed newBadge)))).1.map Value.payload? ∧
    ((read ⟨⟨2⟩, 1⟩).apply h).1.map Value.payload? = .ok (some (.int 7)) := by
  have a : SameFrame newBadge (turnedOver (worn newBadge)) :=
    (sameFrame_worn _).trans (sameFrame_turnedOver _)
  have b : SameFrame newBadge (turnedOver (worn (signed newBadge))) :=
    ((sameFrame_signed _).trans (sameFrame_worn _)).trans (sameFrame_turnedOver _)
  have run : Grown (turnedOver (worn newBadge)) :=
    .step (o := .assign _ _) (.step (o := .read ⟨⟨2⟩, 1⟩) grown_newBadge trivial) trivial
  have foreknown : Foreknown ⟨2⟩ (.fresh (.int 7)) (turnedOver (worn newBadge))
      (turnedOver (worn (signed newBadge))) := by
    refine foreknown_badge a b ?_ ?_ ?_ ?_ <;> cbv
  have stale : (turnedOver (worn newBadge)).isStale ⟨⟨2⟩, 1⟩ = true := by cbv
  have shown : ((read ⟨⟨2⟩, 1⟩).apply (turnedOver (worn (signed newBadge)))).1.map Value.payload? =
      .ok (some (.int 7)) := by cbv
  have output := ((computing_badge a ⟨⟨2⟩, 1⟩).2 rfl).1
  cases ok : (turnedOver (worn newBadge)).setAttachment ⟨2⟩ (.fresh (.int 7)) with
  | error e =>
    have there : ((turnedOver (worn newBadge)).setAttachment ⟨2⟩ (.fresh (.int 7))).isOk = true := by
      cbv
    rw [ok] at there
    cases there
  | ok h =>
    have same := (read_noted run ok foreknown).2 ⟨⟨2⟩, 1⟩ (by rw [output]; rfl) (fun q t _ _ ht => ?_)
      fun q path made current => ?_
    · exact ⟨h, rfl, foreknown, same, same.trans shown⟩
    · rcases node_of_badge a ht with ⟨-, rfl⟩ | ⟨-, rfl⟩
      · exact ⟨NodeType.scoped_of_inert rfl, fun _ c _ _ _ _ _ _ hc => by cases hc⟩
      · exact ⟨scoped_badge, fun _ => writes_badge q⟩
    · -- only the output itself is made from it
      obtain ⟨o, -, computing, way⟩ := made
      obtain rfl := (computing_badge a o).1 computing
      rcases Relation.reflTransGen_iff_eq_or_transGen.1 path with rfl | more
      · rw [stale] at current
        cases current
      · exact absurd (more.trans_right way) ((acyclic_of_grown run).holds _)

end Dataflow.Graph
