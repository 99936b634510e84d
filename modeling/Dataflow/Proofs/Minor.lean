import Dataflow.Proofs.Run
import Mathlib.Algebra.BigOperators.Group.Multiset.Basic
import Mathlib.Algebra.Ring.Nat
set_option autoImplicit false

/-!
Changes at ports. Storing values, marking ports, renaming ports and moving them to other places say
nothing of nodes that come or go or of wires that are drawn or removed, and they leave the nodes and
the pairs of nodes that are wired as they were. Main statement: all reads are of this kind, as is all
that a drawn or a removed wire does to boundaries, values and marks.
-/

namespace Dataflow

/-- The nodes at the ends of a wire, whatever places its ports have. -/
def Edge.strand (e : Edge) : NodeId × NodeId := (e.output.node, e.input.node)

def Node.strands (m : Node) : Multiset (NodeId × NodeId) :=
  m.inner.elim 0 fun w => (w.wires.map Edge.strand : List (NodeId × NodeId))

/-- Whether the event tells nothing of nodes and wires. -/
def Event.isMinor : Event → Bool
  | .flagsChanged _ | .valueChanged _ | .stateChanged _ | .graphDirtied | .metadataChanged _ => true
  | _ => false

def Entry.isMinor : Entry → Bool
  | .event e => e.isMinor
  | .computing _ => true

namespace Graph

/-- The wires of all networks, by the nodes that they join. -/
def strands (g : Graph) : Multiset (NodeId × NodeId) := (g.nodes.map fun p => p.2.strands).sum

/-! ### What is wired to what -/

section Strands
variable (g : Graph) (n : NodeId) (f : Node → Node)

theorem strands_modifyNode {m : Node} (hm : g.node? n = some m) :
    (g.modifyNode n f).strands + m.strands = g.strands + (f m).strands := by
  obtain ⟨nodes, root, config, ids, marks, calls, journal⟩ := g
  simp only [node?, strands, modifyNode] at *
  induction nodes with
  | nil => cases hm
  | cons p rest ih =>
    obtain ⟨a, b⟩ := p
    by_cases ha : a = n
    · simp only [Table.get?, ha, if_true, Option.some.injEq] at hm
      subst hm
      simp only [Table.modify, ha, if_true, List.map_cons, List.sum_cons]
      ac_rfl
    · simp only [Table.get?, ha, if_false] at hm
      simp only [Table.modify, ha, if_false, List.map_cons, List.sum_cons, add_assoc, ih hm]

theorem strands_modifyNode_of_absent (hn : g.node? n = none) :
    (g.modifyNode n f).strands = g.strands := by
  have same (t : Table NodeId Node) (ht : n ∉ t.keys) : t.modify n f = t := by
    induction t with
    | nil => rfl
    | cons p rest ih =>
      simp only [Table.keys, List.map_cons, List.mem_cons, not_or] at ht
      simp only [Table.modify, Ne.symm ht.1, if_false]
      exact congrArg _ (ih ht.2)
  simp only [strands, modifyNode, same _ ((Table.get?_eq_none_iff _ _).1 hn)]

theorem strands_modifyNode_of_eq (hf : ∀ m, (f m).strands = m.strands) :
    (g.modifyNode n f).strands = g.strands := by
  cases hm : g.node? n with
  | some m =>
    have := g.strands_modifyNode n f hm
    rw [hf] at this
    exact add_right_cancel this
  | none => exact g.strands_modifyNode_of_absent n f hm

end Strands

theorem mem_strands_iff {g : Graph} (w : g.Tree) (s : NodeId × NodeId) :
    s ∈ g.strands ↔ ∃ k, ∃ e ∈ g.wires k, e.strand = s := by
  have stored : s ∈ g.strands ↔ ∃ p ∈ g.nodes, s ∈ p.2.strands := by
    rw [strands]
    induction g.nodes with
    | nil => simp
    | cons p rest ih => simp [ih]
  have inWires (m : Node) : s ∈ m.strands ↔ ∃ e ∈ m.inner.elim [] Network.wires, e.strand = s := by
    cases h : m.inner <;> simp [Node.strands, h]
  rw [stored]
  constructor
  · rintro ⟨⟨k, m⟩, hp, hs⟩
    obtain ⟨e, he, rfl⟩ := (inWires m).1 hs
    have hm : g.node? k = some m := (mem_nodes_iff w k m).1 hp
    refine ⟨k, e, ?_, rfl⟩
    rw [wires, contents?, hm]
    exact he
  · rintro ⟨k, e, he, rfl⟩
    rw [wires, contents?] at he
    cases hm : g.node? k with
    | none => simp [hm] at he
    | some m =>
      rw [hm] at he
      exact ⟨(k, m), (mem_nodes_iff w k m).2 hm, (inWires m).2 ⟨e, he, rfl⟩⟩

/-! ### Minor changes -/

/-- The nodes and what is wired to what are the same, and nothing else has been told. -/
structure Minor (g h : Graph) : Prop where
  keys : h.nodes.keys = g.nodes.keys
  root : h.root = g.root
  ids : h.ids = g.ids
  strands : h.strands = g.strands
  told : ∃ es : List Entry, h.journal = es ++ g.journal ∧ ∀ e ∈ es, e.isMinor = true

namespace Minor
variable {g h k : Graph}

theorem of_nodes (nodes : h.nodes = g.nodes) (root : h.root = g.root) (ids : h.ids = g.ids)
    (journal : h.journal = g.journal) : Minor g h :=
  ⟨by rw [nodes], root, ids, by simp only [Graph.strands, nodes], [], by simp [journal], by simp⟩

theorem refl (g : Graph) : Minor g g := of_nodes rfl rfl rfl rfl

theorem trans (a : Minor g h) (b : Minor h k) : Minor g k := by
  obtain ⟨es, he, minor⟩ := a.told
  obtain ⟨fs, hf, minor'⟩ := b.told
  refine ⟨b.keys.trans a.keys, b.root.trans a.root, b.ids.trans a.ids, b.strands.trans a.strands,
    fs ++ es, by simp [hf, he], fun e h => ?_⟩
  rcases List.mem_append.1 h with h | h
  · exact minor' e h
  · exact minor e h

theorem steps : Edit.Steps Minor := ⟨refl, trans⟩

theorem foldl {α : Type} {f : Graph → α → Graph} (step : ∀ g a, Minor g (f g a)) (l : List α)
    (g : Graph) : Minor g (l.foldl f g) := by
  induction l generalizing g with
  | nil => exact .refl g
  | cons a l ih => exact (step g a).trans (ih _)

end Minor

section Elementary
variable (g : Graph)

theorem minor_emit {e : Event} (he : e.isMinor = true) : Minor g (g.emit e) :=
  ⟨rfl, rfl, rfl, rfl, [.event e], rfl, by simpa [Entry.isMinor] using he⟩

theorem minor_modifyNode (n : NodeId) (f : Node → Node) (hf : ∀ m, (f m).strands = m.strands) :
    Minor g (g.modifyNode n f) :=
  ⟨g.keys_modifyNode n f, rfl, rfl, g.strands_modifyNode_of_eq n f hf, [], rfl, by simp⟩

theorem minor_modifySlot (p : Port) (f : Slot → Slot) : Minor g (g.modifySlot p f) :=
  g.minor_modifyNode p.node _ fun _ => rfl

theorem minor_setPeer (p : Port) (q : Option Port) : Minor g (g.setPeer p q) :=
  g.minor_modifySlot p _

theorem minor_stamp (v : Value) : Minor g (g.stamp v).2 := .of_nodes rfl rfl rfl rfl

theorem minor_put (p : Port) (v : Value) : Minor g (g.put p v) :=
  (g.minor_stamp v).trans (minor_modifySlot _ p _)

theorem minor_hold (p : Port) (v : Value) : Minor g (g.hold p v) :=
  (g.minor_put p v).trans (minor_emit _ rfl)

theorem minor_setCurrent (p : Port) : Minor g (g.setCurrent p) :=
  (g.minor_modifySlot p _).trans (minor_emit _ rfl)

theorem minor_setStale (p : Port) : Minor g (g.setStale p) :=
  ((g.minor_modifySlot p _).trans (minor_emit _ rfl)).trans (minor_emit _ rfl)

theorem minor_setStatus (n : NodeId) (s : Status) : Minor g (g.setStatus n s) := by
  rw [setStatus]
  split
  · split
    · exact .refl g
    · exact (g.minor_modifyNode n _ (by intro m; rfl)).trans (minor_emit _ rfl)
  · exact .refl g

theorem minor_spread (starts : List Port) : Minor g (g.spread starts) :=
  .foldl (fun g p => g.minor_setStale p) _ g

/-- Ports that are renumbered stay on their nodes. -/
theorem minor_modifyWiresAround (n : NodeId) (f : Port → Port) (hf : ∀ p, (f p).node = p.node) :
    Minor g (g.modifyWiresAround n fun w => w.map (Edge.mapPorts f)) := by
  rw [modifyWiresAround]
  split
  · refine g.minor_modifyNode _ _ fun m => ?_
    have same (w : Wiring) : (w.map (Edge.mapPorts f)).map Edge.strand = w.map Edge.strand := by
      simp [Edge.strand, Edge.mapPorts, hf]
    cases h : m.inner with
    | none => simp [Node.strands, h]
    | some w => simpa [Node.strands, h] using congrArg Multiset.ofList (same w.wires)
  · exact .refl g

end Elementary

section Parts
variable (g : Graph)

theorem minor_seedEnds (e : Edge) : Minor g (g.seedEnds e) := by
  have first : Minor g (if (g.declaredType e.input).isNone = true then
      g.hold e.input (g.held e.output) else g) := by
    split
    · exact g.minor_hold _ _
    · exact .refl g
  have second (k : Graph) : Minor k (if ((g.declaredType e.output).isNone &&
      (k.held e.output).isNull) = true then k.hold e.output (k.held e.input) else k) := by
    split
    · exact k.minor_hold _ _
    · exact .refl k
  exact first.trans (second _)

theorem minor_resetEnds (e : Edge) : Minor g (g.resetEnds e) := by
  have input (g : Graph) (p : Port) : Minor g (g.resetInput p) := by
    rw [resetInput]
    split
    · split
      · exact g.minor_hold _ _
      · exact .refl g
    · exact .refl g
  have output (g : Graph) (p : Port) : Minor g (g.resetOutput p) := by
    rw [resetOutput]
    split
    · split
      · exact g.minor_hold _ _
      · exact .refl g
    · exact .refl g
  rw [resetEnds_eq]
  exact (input g e.input).trans (output _ e.output)

theorem minor_grow (side : Direction) (terminal other : Port) :
    Minor g (g.grow side terminal other) := by
  rw [grow]
  split
  · split
    · split
      · exact (((g.minor_stamp _).trans (minor_modifyNode _ _ _ (by intro m; rfl))).trans
          (minor_emit _ rfl)).trans (minor_setPeer _ _ _)
      · exact .refl g
    · exact .refl g
  · exact .refl g

theorem minor_growBoundary (e : Edge) : Minor g (g.growBoundary e) := by
  have first : Minor g (if g.grows .input e.output = true then g.grow .input e.output e.input
      else g) := by
    split
    · exact g.minor_grow _ _ _
    · exact .refl g
  have second (k : Graph) : Minor k (if k.grows .output e.input = true then
      k.grow .output e.input e.output else k) := by
    split
    · exact k.minor_grow _ _ _
    · exact .refl k
  exact first.trans (second _)

/-- All that a new wire brings with it, but for the wire itself. -/
theorem minor_dress (e : Edge) :
    Minor g ((((g.seedEnds e).growBoundary e).spreadFrom e.input).spreadFrom e.output) :=
  (((g.minor_seedEnds e).trans (minor_growBoundary _ e)).trans (minor_spread _ _)).trans
    (minor_spread _ _)

theorem ids_modifyWiresAround (n : NodeId) (f : Wiring → Wiring) :
    (g.modifyWiresAround n f).ids = g.ids := by
  rw [modifyWiresAround]
  split <;> rfl

theorem ids_drawWire (e : Edge) : (g.drawWire e).ids = g.ids :=
  (minor_dress _ e).ids.trans (g.ids_modifyWiresAround _ _)

theorem minor_readdress (n : NodeId) (start : Nat) : Minor g (g.readdress n start) := by
  rw [readdress]
  split
  · refine .foldl (fun g s => ?_) _ g
    split
    · exact g.minor_setPeer _ _
    · exact .refl g
  · exact .refl g

theorem minor_arrangeBoundary {h : Graph} {n : NodeId} {names : List String}
    (ok : g.arrangeBoundary n names = .ok h) : Minor g h := by
  simp only [arrangeBoundary, bind, Except.bind] at ok
  split at ok
  · cases ok
  · split at ok
    · cases ok
      exact .refl g
    · cases ok
      have moved (move : Nat → Nat) (p : Port) : (p.moved n move).node = p.node := by
        rw [Port.moved]
        split <;> simp [*]
      exact (((g.minor_modifyNode n _ (by intro m; rfl)).trans (minor_readdress _ n 0)).trans
        (minor_modifyWiresAround _ n _ (moved _))).trans (minor_emit _ rfl)

/-- What is left to do for a port of a network once its wires are gone. -/
theorem minor_dropPort (b : Port) : Minor g (g.dropPort b) := by
  have shifted (p : Port) : (p.shifted b.node b.index).node = p.node := by
    rw [Port.shifted]
    split <;> simp [*]
  rw [dropPort]
  refine ((((?unlinked : Minor g _).trans (minor_modifyNode _ _ _ (by intro m; rfl))).trans
    (minor_readdress _ _ _)).trans (minor_modifyWiresAround _ _ _ shifted)).trans (minor_emit _ rfl)
  split
  · exact g.minor_setPeer _ _
  · exact .refl g

theorem minor_replace (p : Port) (s : Slot) (v : Value) : Minor g (g.replace p s v) := by
  have current (g : Graph) : Minor g (if s.stale = true then g.setCurrent p else g) := by
    split
    · exact g.minor_setCurrent p
    · exact .refl g
  rw [replace]
  exact ((g.minor_hold p v).trans (current _)).trans (minor_spread _ _)

end Parts

section Whole
variable {g h : Graph}

theorem minor_assign {p : Port} {v : Value} (ok : g.assign p v = .ok h) : Minor g h := by
  simp only [assign, bind, Except.bind] at ok
  split at ok
  · cases ok
  · split at ok
    · cases ok
      exact .refl g
    · cases ok
      exact g.minor_replace _ _ _

theorem minor_renamePort (p : Port) (name : String) : Minor g (g.renamePort p name) :=
  (g.minor_modifySlot p _).trans (minor_emit _ rfl)

theorem minor_rename {n : NodeId} {name : String} (ok : g.rename n name = .ok h) : Minor g h := by
  have boundary {name : String} {k : Graph} (ok : g.renameBoundary n name = .ok k) : Minor g k := by
    rw [renameBoundary] at ok
    split at ok
    · simp only [bind, Except.bind, throw, throwThe, MonadExceptOf.throw] at ok
      split at ok
      · cases ok
      · split at ok
        · cases ok
        · cases ok
          exact minor_renamePort _ _
    · cases ok
      exact .refl g
  simp only [rename, bind, Except.bind] at ok
  split at ok
  · cases ok
  · split at ok
    · cases ok
    · split at ok
      · cases ok
        exact .refl g
      · split at ok
        · cases ok
        · split at ok
          · cases ok
          · next hk =>
            cases ok
            exact (boundary hk).trans (minor_modifyNode _ n _ fun _ => rfl)

theorem minor_setAttachment {n : NodeId} {v : Value} (ok : g.setAttachment n v = .ok h) :
    Minor g h := by
  simp only [setAttachment, bind, Except.bind] at ok
  split at ok
  · cases ok
  · cases ok
    exact g.minor_modifyNode n _ fun _ => rfl

end Whole

/-! ### Reads -/

theorem Minor.gentle : Gentle Minor where
  toSteps := Minor.steps
  hold := fun g p v => g.minor_hold p v
  noted := fun g c p => ⟨rfl, rfl, rfl, rfl, [.computing p], rfl, by simp [Entry.isMinor]⟩
  current := fun g p => g.minor_setCurrent p
  settle := fun g p result => by
    have settled (g : Graph) : Minor g (g.settled p) :=
      (g.minor_setCurrent p).trans (minor_emit _ rfl)
    cases result with
    | ok s =>
      rw [settle_ok]
      exact (g.minor_setStatus _ _).trans (settled _)
    | error message =>
      cases hv : g.fallback? p with
      | some v =>
        rw [settle_error_of_some g p message hv]
        exact ((g.minor_put p v).trans (minor_setStatus _ _ _)).trans (settled _)
      | none =>
        rw [settle_error_of_none g p message hv]
        exact g.minor_setStatus _ _

theorem minor_reads {o : Action} (ho : o.reads = true) (g : Graph) : Minor g (o.after g) :=
  leads_reads Minor.steps Minor.gentle.readWithin ho g

end Graph
end Dataflow
