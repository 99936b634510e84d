import Dataflow.Decimal
set_option autoImplicit false

/-!
Names for nodes and for their ports. A node is known by a number that one supply hands out in
ascending order, and a port by its node and its place among the attributes of that node.
-/

namespace Dataflow

structure NodeId where
  raw : UInt64
  deriving DecidableEq, Repr

structure Port where
  node : NodeId
  index : Nat
  deriving DecidableEq, Repr

def NodeId.text (n : NodeId) : String := String.ofList ('#' :: digitChars n.raw.toNat)

namespace Port

def text (p : Port) : String := p.node.text ++ ":" ++ String.ofList (digitChars p.index)

/-- By node and then by place. -/
def before (p q : Port) : Bool :=
  p.node.raw < q.node.raw || (p.node.raw == q.node.raw && p.index ≤ q.index)

/-- The name of a port after the attribute at `gone` has left `node`. -/
def shifted (node : NodeId) (gone : Nat) (p : Port) : Port :=
  if p.node = node ∧ gone < p.index then ⟨node, p.index - 1⟩ else p

/-- The name of a port after the attribute in each place of `node` has gone to place `move`. -/
def moved (node : NodeId) (move : Nat → Nat) (p : Port) : Port :=
  if p.node = node then ⟨node, move p.index⟩ else p

end Port

/-- The number that the next new node gets. -/
structure IdSupply where
  next : UInt64
  deriving DecidableEq, Repr

namespace IdSupply

def start : IdSupply := ⟨1⟩

/-- The numbers start again from zero after the last one. -/
def take (s : IdSupply) : NodeId × IdSupply := (⟨s.next⟩, ⟨s.next + 1⟩)

/-- The next number lies above `n`, as far as there is one. -/
def passOver (s : IdSupply) (n : UInt64) : IdSupply :=
  let above := if n.toNat + 1 < UInt64.size then n + 1 else n
  if s.next < above then ⟨above⟩ else s

theorem next_le_passOver (s : IdSupply) (n : UInt64) : s.next ≤ (s.passOver n).next := by
  simp only [passOver]
  split <;> split <;> simp_all [UInt64.le_iff_toNat_le, UInt64.lt_iff_toNat_lt] <;> omega

theorem lt_passOver (s : IdSupply) (n : UInt64) (h : n.toNat + 1 < UInt64.size) :
    n < (s.passOver n).next := by
  have one : (n + 1).toNat = n.toNat + 1 := by
    rw [UInt64.toNat_add]
    exact Nat.mod_eq_of_lt h
  simp only [passOver, if_pos h, UInt64.lt_iff_toNat_lt, one]
  split
  · rw [one]
    exact Nat.lt_succ_self _
  · omega

end IdSupply
end Dataflow
