import Dataflow.Proofs.Tended
import Dataflow.Proofs.Turn
set_option autoImplicit false

/-!
Computations that also look at how often they have run and at what a client has left with their node.
Main statements: where its inputs are up to date, a scoped computation takes the course in a graph
that it takes apart from any graph, and it takes the same course where it is told the same.
-/

namespace Dataflow

/-- How a task ends, and what it leaves in its output if `last` was left there before. There is no
answer to a task that reads anything but attributes in `reads`, writes anything but the attribute
`out`, which takes values of type `type`, or asks for the type of anything else. The client has left
`left` with the node. -/
def Task.course {α : Type} (reads : List Nat) (out : Nat) (type : PortType) (left : Value)
    (answers : Answers) : Task α → Option Value → Option (α × Option Value)
  | .done a, last => some (a, last)
  | .read i next, last =>
    if i ∈ reads then (next (answers.value i)).course reads out type left answers last else none
  | .write i v next, last =>
    if i = out then
      (next (Answers.accept type v)).course reads out type left answers
        (if type.isSome ∧ v.portType ≠ type then last else some v)
    else none
  | .typeOf i next, last =>
    if i = out then (next (.ok type)).course reads out type left answers last
    else if i ∈ reads then (next (answers.type i)).course reads out type left answers last
    else none
  | .attachment next, last => (next left).course reads out type left answers last

/-- Stores a value in an output, and fails if that is refused. -/
def Task.store (out : Nat) (v : Value) : Task (Except String Status) :=
  .write out v fun
    | .ok _ => .done (.ok .empty)
    | .error e => .done (.error e.message)

theorem Task.course_store (reads : List Nat) (out i : Nat) (type : PortType) (left v : Value)
    (answers : Answers) (last : Option Value) :
    (Task.store i v).course reads out type left answers last =
      if i = out then
        some (if type.isSome ∧ v.portType ≠ type then
          (.error (Error.mismatch type v.portType).message, last) else (.ok .empty, some v))
      else none := by
  rw [store, course]
  split
  · by_cases refused : type.isSome ∧ v.portType ≠ type
    · simp only [Answers.accept, if_pos refused, course]
    · simp only [Answers.accept, if_neg refused, course]
  · rfl

/-- The answers agree on the attributes in `reads`, but for marks. -/
def Answers.Alike (reads : List Nat) (a b : Answers) : Prop :=
  ∀ i ∈ reads, (a.value i).map Value.payload? = (b.value i).map Value.payload? ∧ a.type i = b.type i

namespace NodeType

/-- The course of the computation for the output `p`. -/
def course (t : NodeType) (c : Computation) (p : Port) (count : Nat) (type : PortType) (left : Value)
    (answers : Answers) : Option (Except String Status × Option Value) :=
  (c.body ⟨p.node, p.index, count⟩).course (t.ports.inputsOf p.index) p.index type left answers none

/-- The computation looks at nothing of the graph but the inputs that influence the output that it is
asked for, the types of these and of the output, and what a client has left with the node. It writes
only that output, and it does not tell apart what differs by marks only. -/
structure Scoped (t : NodeType) : Prop where
  ends : ∀ c p count type left answers, t.compute = some c →
    (t.ports.get? p.index).map Attribute.direction = some .output →
    (t.course c p count type left answers).isSome
  blind : ∀ c p count type left left' answers answers', t.compute = some c →
    left.payload? = left'.payload? → answers.Alike (t.ports.inputsOf p.index) answers' →
    (t.course c p count type left answers).map (Prod.map id (Option.map Value.payload?)) =
      (t.course c p count type left' answers').map (Prod.map id (Option.map Value.payload?))

/-- Whenever the computation for the output `p` succeeds, it has written that output. -/
def Writes (t : NodeType) (p : Port) : Prop :=
  ∀ c count type left answers s last, t.compute = some c →
    t.course c p count type left answers = some (.ok s, last) → last.isSome

theorem scoped_of_inert {t : NodeType} (h : t.compute = none) : t.Scoped := by
  constructor <;> intro c _ _ <;> intros <;> simp_all

end NodeType

namespace Graph

/-- What a client has left with the node. -/
def attachment (g : Graph) (n : NodeId) : Value := (g.node? n).elim .null Node.attachment

theorem payload_attachment (g : Graph) (n : NodeId) : (g.attachment n).payload? = g.note? n := by
  rw [attachment, note?]
  cases g.node? n <;> rfl

/-- What clients have left with nodes and the counts of runs are the same. -/
structure Even (g h : Graph) : Prop where
  calls : h.calls = g.calls
  attachment : h.attachment = g.attachment

theorem Aside.even {g h : Graph} (a : Aside g h) : Even g h := by
  refine ⟨a.calls, ?_⟩
  funext n
  have left := congrArg (Option.map Prod.snd) (a.left n)
  rw [Option.map_map, Option.map_map] at left
  rw [Graph.attachment, Graph.attachment]
  cases hg : g.node? n <;> cases hh : h.node? n <;> simp_all

namespace Even
variable {g h k : Graph}

theorem refl (g : Graph) : Even g g := ⟨rfl, rfl⟩

theorem trans (a : Even g h) (b : Even h k) : Even g k :=
  ⟨b.calls.trans a.calls, b.attachment.trans a.attachment⟩

theorem modifyNode (g : Graph) (n : NodeId) (f : Node → Node)
    (hf : ∀ m, (f m).attachment = m.attachment) : Even g (g.modifyNode n f) := by
  refine ⟨rfl, ?_⟩
  funext k
  have same := map_node?_modifyNode g n f Node.attachment hf k
  rw [Graph.attachment, Graph.attachment]
  cases hk : g.node? k <;> cases hk' : (g.modifyNode n f).node? k <;> simp_all

theorem put (g : Graph) (p : Port) (v : Value) : Even g (g.put p v) := (Aside.put g p v).even

theorem hold (g : Graph) (p : Port) (v : Value) : Even g (g.hold p v) := (Aside.hold g p v).even

theorem setCurrent (g : Graph) (p : Port) : Even g (g.setCurrent p) := (Aside.setCurrent g p).even

theorem setStatus (g : Graph) (n : NodeId) (s : Status) : Even g (g.setStatus n s) := by
  rw [Graph.setStatus]
  split
  · split
    · exact .refl g
    · exact (modifyNode g n _ fun _ => by rfl).trans (Aside.emit _ _).even
  · exact .refl g

end Even

section Perform
variable {below : Port → Edit Value} {g h : Graph} {p : Port}

theorem value_hold_of_output (s : Stored p g h) (hd : g.direction? p = some .output) (v : Value) :
    (h.hold p v).value p = v.payload? := by
  rw [value_hold _ _ _ _ (by rw [s.frame.direction, hd]; rfl), if_pos rfl]

variable (w : g.Tree) (hd : g.direction? p = some .output)
include w hd

/-- A task takes the course in a graph that it takes apart. -/
theorem perform_course {α : Type} {reads : List Nat} (offers : ∀ i ∈ reads, Offers below g p i)
    (s : Stored p g h) (a : Even g h) (t : Task α) {last last' : Option Value} {r : α}
    (eq : t.course reads p.index (g.effectiveType p) (g.attachment p.node) (g.told p) last =
      some (r, last'))
    (left : h.value p = last.elim (g.value p) Value.payload?) :
    ∃ k, (t.perform below p.node).apply h = (.ok r, k) ∧ Stored p g k ∧ Even g k ∧
      k.value p = last'.elim (g.value p) Value.payload? := by
  induction t generalizing h last with
  | done b =>
    cases eq
    exact ⟨h, rfl, s, a, left⟩
  | read i next ih =>
    simp only [Task.course] at eq
    split at eq
    · next hi =>
      rw [perform_read, Edit.apply_bind, Edit.apply_outcome, readFor_offered w (offers i hi) s]
      exact ih _ s a eq left
    · cases eq
  | write i v next ih =>
    simp only [Task.course] at eq
    split at eq
    · next hi =>
      subst hi
      rw [perform_write, Edit.apply_bind, Edit.apply_outcome, writeFor_eq_accept w hd s]
      simp only
      split
      · next refused =>
        rw [if_pos refused] at eq
        exact ih _ s a eq left
      · next accepted =>
        rw [if_neg accepted] at eq
        exact ih _ (s.trans (.hold h p v)) (a.trans (.hold h p v)) eq (value_hold_of_output s hd v)
    · cases eq
  | typeOf i next ih =>
    rw [Task.perform, Edit.apply_bind, typeFor_told w hd s]
    simp only [Task.course] at eq
    split at eq
    · next hi =>
      have own : (g.told p).type i = .ok (g.effectiveType p) := by
        rw [direction?_eq] at hd
        cases ha : g.attr? p with
        | none => simp [ha] at hd
        | some b => subst hi; simp [told, ha]
      rw [own]
      exact ih _ s a eq left
    · split at eq
      · exact ih _ s a eq left
      · cases eq
  | attachment next ih =>
    rw [Task.perform, Edit.apply_bind, Edit.apply_get]
    simp only [Task.course] at eq
    have same : (h.node? p.node).elim .null Node.attachment = g.attachment p.node := by
      rw [← a.attachment]
      rfl
    simp only [same]
    exact ih _ s a eq left

end Perform

section Invoke
variable {g : Graph} {p : Port}

/-- A scoped computation whose inputs are up to date takes its course. -/
theorem invoke_course (w : g.WellFormed) (hd : g.direction? p = some .output) {t : NodeType}
    (ht : g.type? p.node = some t) {c : Computation} (hc : t.compute = some c) (k : t.Scoped)
    (current : ∀ q, g.Influences q p → g.isStale q = false) {levels : Nat}
    (reach : (∃ q, g.Influences q p) → levels ≠ 0) :
    ∃ result last h, t.course c p (g.runs c) (g.effectiveType p) (g.attachment p.node) (g.told p) =
        some (result, last) ∧
      (invoke (readWithin levels) c p).apply g = (.ok result, h) ∧ Stored p g h ∧
      Even (g.noted c p) h ∧ h.value p = last.elim (g.value p) Value.payload? := by
  have quiet : Quiet g (g.noted c p) := .of_nodes rfl rfl rfl
  have tree := (SameTree.of_sameFrame quiet.frame).tree w.tree
  have attached : (g.noted c p).attachment = g.attachment := rfl
  have told : t.course c p (g.runs c) ((g.noted c p).effectiveType p)
      ((g.noted c p).attachment p.node) ((g.noted c p).told p) =
      t.course c p (g.runs c) (g.effectiveType p) (g.attachment p.node) (g.told p) := by
    have same : (g.noted c p).told p = g.told p := by
      simp only [Graph.told, quiet.frame.resolved w.tree, quiet.held, quiet.frame.attr,
        quiet.frame.effectiveType w.tree]
    rw [same, attached, quiet.frame.effectiveType w.tree]
  have output : (t.ports.get? p.index).map Attribute.direction = some .output := by
    rw [direction?_eq, attr?_eq, ht] at hd
    exact hd
  obtain ⟨⟨result, last⟩, hr⟩ := Option.isSome_iff_exists.1
    (k.ends c p (g.runs c) (g.effectiveType p) (g.attachment p.node) (g.told p) hc output)
  have offers (i : Nat) (hi : i ∈ t.ports.inputsOf p.index) :=
    offers_of_current w hd quiet current reach (influences_of_mem ht hi)
  obtain ⟨h, performed, stored, even, left⟩ := perform_course tree
    (by rw [quiet.frame.direction, hd]) offers (.refl _) (.refl _) _ (told.trans hr) rfl
  refine ⟨result, last, h, hr, ?_, (Stored.of_quiet quiet).trans stored, even, left⟩
  rw [invoke_apply]
  exact performed

end Invoke
end Graph
end Dataflow
