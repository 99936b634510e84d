import Dataflow.Graph.Basic
set_option autoImplicit false

/-!
What the smallest changes do to the look-ups. A change of one node or one slot shows there and
nowhere else, and news changes nothing but the journal.
-/

namespace Dataflow.Graph
variable (g : Graph)

theorem node?_modifyNode (n k : NodeId) (f : Node → Node) :
    (g.modifyNode n f).node? k = if n = k then (g.node? k).map f else g.node? k :=
  Table.get?_modify g.nodes n k f

theorem keys_modifyNode (n : NodeId) (f : Node → Node) :
    (g.modifyNode n f).nodes.keys = g.nodes.keys := Table.keys_modify g.nodes n f

variable {g} in
theorem modifyNode_congr {n : NodeId} {f f' : Node → Node}
    (h : ∀ m, g.node? n = some m → f m = f' m) : g.modifyNode n f = g.modifyNode n f' := by
  rw [modifyNode, modifyNode, Table.modify_congr h]

variable {g} in
/-- Only the wires that there are matter. -/
theorem modifyWiresAround_congr {n : NodeId} {f f' : Wiring → Wiring}
    (h : f (g.wiresAround n) = f' (g.wiresAround n)) :
    g.modifyWiresAround n f = g.modifyWiresAround n f' := by
  rw [modifyWiresAround, modifyWiresAround]
  cases hp : g.around? n with
  | none => rfl
  | some p =>
    refine modifyNode_congr fun m hm => ?_
    cases hi : m.inner with
    | none => rfl
    | some w =>
      simp only [wiresAround, hp, Option.bind_some, hm, hi] at h
      simp only [Option.map_some, h]

theorem slot?_modifySlot (p q : Port) (f : Slot → Slot) :
    (g.modifySlot p f).slot? q = if p = q then (g.slot? q).map f else g.slot? q := by
  obtain ⟨n, i⟩ := p
  obtain ⟨k, j⟩ := q
  simp only [slot?, modifySlot, node?_modifyNode, Port.mk.injEq]
  by_cases h : n = k
  · subst h
    cases hn : g.node? n with
    | none => simp
    | some m => simpa using Layout.get?_modify m.ports i j f
  · simp [h]

theorem held_put (p q : Port) (v : Value) :
    (g.put p v).held q =
      if p = q ∧ (g.slot? q).isSome then (v.stamp g.marks).1 else g.held q := by
  have h := slot?_modifySlot (g.stamp v).2 p q fun s => { s with held := (g.stamp v).1 }
  have same : (g.stamp v).2.slot? q = g.slot? q := rfl
  simp only [held, put, h, same]
  by_cases hp : p = q
  · cases g.slot? q <;> simp [hp, stamp]
  · simp [hp]

theorem slot?_emit (e : Event) (p : Port) : (g.emit e).slot? p = g.slot? p := rfl

theorem slot?_setCurrent_of_ne {p q : Port} (h : q ≠ p) : (g.setCurrent p).slot? q = g.slot? q := by
  rw [setCurrent, slot?_emit, slot?_modifySlot, if_neg (Ne.symm h)]

theorem isStale_setCurrent (p q : Port) :
    (g.setCurrent p).isStale q = if p = q then false else g.isStale q := by
  simp only [isStale, setCurrent, slot?_emit, slot?_modifySlot]
  split
  · cases g.slot? q <;> rfl
  · rfl

theorem isStale_setStale (p q : Port) :
    (g.setStale p).isStale q = if p = q then (g.slot? q).isSome else g.isStale q := by
  simp only [isStale, setStale, slot?_emit, slot?_modifySlot]
  split
  · cases g.slot? q <;> rfl
  · rfl

end Dataflow.Graph
