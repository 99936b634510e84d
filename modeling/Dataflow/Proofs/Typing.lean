import Dataflow.Proofs.Flow
import Mathlib.Data.List.Nodup
set_option autoImplicit false

/-!
The types by which ports go. A port without a type of its own takes the first one that it finds
along wires and peers. Main statement: the types depend on the frame only.
-/

namespace Dataflow.Graph

theorem typeSources_eq (g : Graph) (p : Port) : g.typeSources p =
    match g.attr? p with
    | some a => match a.type, a.direction with
      | some _, _ => []
      | none, .input => (g.source? p).toList
      | none, .output => (g.peer? p).toList ++ g.sinks p
    | none => [] := by
  simp only [typeSources, attr?, peer?]
  cases g.slot? p <;> rfl

theorem portsOf_true (n : NodeId) (m : Node) :
    portsOf (fun _ => true) n m = (List.range m.type.ports.length).map (Port.mk n) := by
  have places := List.zipIdx_map_snd 0 m.ports.entries
  rw [← List.range_eq_range'] at places
  have length : m.type.ports.length = m.ports.entries.length := by
    simp [Node.type, Layout.map, Layout.length]
  rw [length, ← places, portsOf, List.map_map]
  simp [Function.comp_def]

/-- The ports of a graph as its frame tells them. -/
theorem ports_eq {g : Graph} (w : g.Tree) : g.ports = g.nodes.keys.flatMap fun n =>
    (List.range ((g.type? n).elim 0 fun t => t.ports.length)).map (Port.mk n) := by
  rw [ports, portsWhere, Table.keys, List.flatMap_map]
  refine List.flatMap_congr fun x hx => ?_
  have found := (mem_nodes_iff w x.1 x.2).1 hx
  rw [portsOf_true, type?, found]
  rfl

theorem nodup_portsWhere {g : Graph} (w : g.Tree) (keep : Slot → Bool) :
    (g.portsWhere keep).Nodup := by
  have node (n : NodeId) (m : Node) (q : Port) (hq : q ∈ portsOf keep n m) : q.node = n := by
    obtain ⟨x, -, hx⟩ := List.mem_filterMap.1 hq
    split at hx
    · cases hx
      rfl
    · cases hx
  rw [portsWhere, List.nodup_flatMap]
  constructor
  · intro x _
    have places : x.2.ports.entries.zipIdx.Pairwise fun s t => s.2 ≠ t.2 := by
      rw [← List.pairwise_map, List.zipIdx_map_snd]
      exact List.nodup_range'
    refine places.filterMap _ fun s t hne p hp q hq same => ?_
    split at hp <;> split at hq <;> cases hp <;> cases hq
    exact hne (Port.mk.inj same).2
  · have keys : g.nodes.Pairwise fun x y => x.1 ≠ y.1 := List.pairwise_map.1 w.keys
    refine keys.imp fun hne q hx hy => ?_
    exact hne ((node _ _ q hx).symm.trans (node _ _ q hy))

namespace SameFrame
variable {g h : Graph}

theorem typeSources (a : SameFrame g h) : h.typeSources = g.typeSources := by
  funext p
  simp only [typeSources_eq, a.attr, a.source, a.peer, a.sinks]

theorem ports (a : SameFrame g h) (w : g.Tree) : h.ports = g.ports := by
  rw [ports_eq w, ports_eq ((SameTree.of_sameFrame a).tree w), a.keys, a.type]

theorem effectiveType (a : SameFrame g h) (w : g.Tree) : h.effectiveType = g.effectiveType := by
  funext p
  simp only [Graph.effectiveType, a.typeSources, a.ports w, a.declaredType]

end SameFrame
end Dataflow.Graph
