import Dataflow.Proofs.Outcome
import Dataflow.Proofs.Typing
set_option autoImplicit false

/-!
Computations that are functions of what they ask for, also where ports have no type or cannot be
read. Main statement: where the inputs that influence an output are up to date, a confined
computation for it ends as it does apart from any graph, and changes nothing but what the output
holds.
-/

namespace Dataflow

/-- What a task is told when it asks for the value or the type of an attribute. -/
structure Answers where
  value : Nat → Except Error Value
  type : Nat → Except Error PortType

/-- What a task is told when it writes `v` in an attribute of that type. -/
def Answers.accept (type : PortType) (v : Value) : Except Error Unit :=
  if type.isSome ∧ v.portType ≠ type then .error (.mismatch type v.portType) else .ok ()

/-- How a task ends. There is no answer to a task that reads anything but attributes in `reads`,
writes anything but the attribute `out`, which takes values of type `type`, or looks at what a client
has left with the node. -/
def Task.result {α : Type} (reads : List Nat) (out : Nat) (type : PortType) (answers : Answers) :
    Task α → Option α
  | .done a => some a
  | .read i next =>
    if i ∈ reads then (next (answers.value i)).result reads out type answers else none
  | .write i v next =>
    if i = out then (next (Answers.accept type v)).result reads out type answers else none
  | .typeOf i next => (next (answers.type i)).result reads out type answers
  | .attachment _ => none

theorem Task.result_congr {α : Type} {reads : List Nat} {answers answers' : Answers}
    (values : ∀ i ∈ reads, answers.value i = answers'.value i) (types : answers.type = answers'.type)
    (out : Nat) (type : PortType) (t : Task α) :
    t.result reads out type answers = t.result reads out type answers' := by
  induction t with
  | done a => rfl
  | read i next ih =>
    simp only [result]
    split
    · next hi => rw [values i hi, ih]
    · rfl
  | write i v next ih => simp only [result, ih]
  | typeOf i next ih => simp only [result, types, ih]
  | attachment next ih => rfl

namespace NodeType

/-- How the computation for the output `p` ends if it is told `answers`. -/
def verdict (t : NodeType) (c : Computation) (p : Port) (count : Nat) (type : PortType)
    (answers : Answers) : Option (Except String Status) :=
  (c.body ⟨p.node, p.index, count⟩).result (t.ports.inputsOf p.index) p.index type answers

/-- The computation reads only inputs that influence the output that it is asked for and writes only
that output, and how it ends depends on nothing but what it is told. -/
structure Confined (t : NodeType) : Prop where
  ends : ∀ c p count type answers, t.compute = some c →
    (t.ports.get? p.index).map Attribute.direction = some .output →
    (t.verdict c p count type answers).isSome
  same : ∀ c p count count' type answers, t.compute = some c →
    t.verdict c p count type answers = t.verdict c p count' type answers

theorem confined_of_inert {t : NodeType} (h : t.compute = none) : t.Confined := by
  constructor <;> intro c _ _ <;> intros <;> simp_all

end NodeType

def Entry.computing? : Entry → Option Port
  | .computing p => some p
  | .event _ => none

namespace Graph

/-- The outputs for which computations have run, the latest first. -/
def computings (g : Graph) : List Port := g.journal.filterMap Entry.computing?

section Computings
variable (g : Graph) (p : Port)

theorem computings_put (v : Value) : (g.put p v).computings = g.computings := rfl

theorem computings_setStatus (n : NodeId) (s : Status) :
    (g.setStatus n s).computings = g.computings := by
  simp only [setStatus]
  split
  · split <;> rfl
  · rfl

end Computings

/-- What a computation for `p` is told where the inputs are up to date. -/
def told (g : Graph) (p : Port) : Answers where
  value i := (g.resolved ⟨p.node, i⟩).map fun _ => g.held ⟨p.node, i⟩
  type i := if (g.attr? ⟨p.node, i⟩).isSome then .ok (g.effectiveType ⟨p.node, i⟩)
    else .error (.noPort ⟨p.node, i⟩)

/-- The inputs of a computation give what they hold, whatever the output holds meanwhile. -/
def Offers (below : Port → Edit Value) (g : Graph) (p : Port) (i : Nat) : Prop :=
  g.direction? ⟨p.node, i⟩ = some .input ∧
    ∀ h, Stored p g h → (below ⟨p.node, i⟩).apply h = (.ok (g.held ⟨p.node, i⟩), h)

section Told
variable {below : Port → Edit Value} {g h : Graph} {p : Port}

theorem SameFrame.resolved (a : SameFrame g h) (w : g.Tree) : h.resolved = g.resolved := by
  funext q
  simp only [Graph.resolved, a.effectiveType w]

theorem readFor_offered (w : g.Tree) {i : Nat} (offer : Offers below g p i) (s : Stored p g h) :
    (readFor below ⟨p.node, i⟩).apply h = ((g.told p).value i, h) := by
  obtain ⟨hd, hb⟩ := offer
  obtain ⟨slot, hslot, hdir⟩ := slot_of_direction? (by rw [s.frame.direction]; exact hd)
  rw [readFor, Edit.apply_bind, Edit.apply_look, hslot]
  simp only
  rw [Edit.apply_bind, Edit.apply_look, s.frame.resolved w]
  simp only [told]
  cases g.resolved ⟨p.node, i⟩ with
  | error e => rfl
  | ok t =>
    simp only [hdir]
    exact hb h s

theorem slot_eq (live : (g.type? p.node).isSome) (i : Nat) :
    (∃ s, g.slot ⟨p.node, i⟩ = .ok s ∧ (g.attr? ⟨p.node, i⟩).isSome) ∨
      g.slot ⟨p.node, i⟩ = .error (.noPort ⟨p.node, i⟩) ∧ g.attr? ⟨p.node, i⟩ = none := by
  simp only [type?, Option.isSome_map] at live
  obtain ⟨m, hm⟩ := Option.isSome_iff_exists.1 live
  simp only [slot, node, attr?, slot?, hm, bind, Except.bind, Option.bind]
  cases hs : m.ports.get? i with
  | none => simp
  | some s => simp

variable (w : g.Tree) (hd : g.direction? p = some .output)
include w hd

theorem writeFor_eq_accept (s : Stored p g h) (v : Value) :
    (writeFor p v).apply h = (Answers.accept (g.effectiveType p) v,
      if (g.effectiveType p).isSome ∧ v.portType ≠ g.effectiveType p then h else h.hold p v) := by
  obtain ⟨slot, hslot, hdir⟩ := slot_of_direction? (by rw [s.frame.direction]; exact hd)
  rw [writeFor, Edit.apply_bind, Edit.apply_look, hslot]
  simp only [hdir, reduceCtorEq, if_false]
  rw [Edit.apply_bind, Edit.apply_get]
  simp only [s.frame.effectiveType w, Answers.accept]
  split <;> rfl

theorem typeFor_told (s : Stored p g h) (i : Nat) :
    (Edit.outcome (do
      let _ ← Edit.look (·.slot ⟨p.node, i⟩)
      return (← get).effectiveType ⟨p.node, i⟩ : Edit PortType)).apply h =
        (.ok ((g.told p).type i), h) := by
  have live : (h.type? p.node).isSome := by
    obtain ⟨t, ht⟩ := exists_type?_of_direction? hd
    simp [s.frame.type, ht]
  rw [Edit.apply_outcome, Edit.apply_bind, Edit.apply_look]
  simp only [told, ← s.frame.attr]
  rcases slot_eq live i with ⟨slot, hs, ha⟩ | ⟨hs, ha⟩
  · rw [hs, if_pos ha, ← s.frame.effectiveType w]
    rfl
  · rw [hs, ha]
    rfl

/-- A confined task ends in a graph as it does apart. -/
theorem perform_result {α : Type} {reads : List Nat} (offers : ∀ i ∈ reads, Offers below g p i)
    (s : Stored p g h) (t : Task α) {a : α}
    (eq : t.result reads p.index (g.effectiveType p) (g.told p) = some a) :
    ∃ k, (t.perform below p.node).apply h = (.ok a, k) ∧ Stored p g k ∧
      k.computings = h.computings := by
  induction t generalizing h with
  | done b =>
    cases eq
    exact ⟨h, rfl, s, rfl⟩
  | read i next ih =>
    simp only [Task.result] at eq
    split at eq
    · next hi =>
      rw [perform_read, Edit.apply_bind, Edit.apply_outcome, readFor_offered w (offers i hi) s]
      exact ih _ s eq
    · cases eq
  | write i v next ih =>
    simp only [Task.result] at eq
    split at eq
    · next hi =>
      subst hi
      rw [perform_write, Edit.apply_bind, Edit.apply_outcome, writeFor_eq_accept w hd s]
      simp only
      split
      · exact ih _ s eq
      · exact ih _ (s.trans (.hold h p v)) eq
    · cases eq
  | typeOf i next ih =>
    rw [Task.perform, Edit.apply_bind, typeFor_told w hd s]
    exact ih _ s eq
  | attachment next ih => cases eq

end Told
end Graph
end Dataflow
