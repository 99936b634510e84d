set_option autoImplicit false

/-!
Layouts: things in a row, and which of them influence which. A place is a position in the row. The
pairs of an influence are an input's place and an output's place, and they follow their places when
the row is changed.
-/

namespace Dataflow

structure Layout (α : Type) where
  entries : List α
  influences : List (Nat × Nat)
  deriving DecidableEq, Repr

namespace Layout
variable {α β : Type}

def empty : Layout α := ⟨[], []⟩

def length (l : Layout α) : Nat := l.entries.length

def get? (l : Layout α) (i : Nat) : Option α := l.entries[i]?

def declare (l : Layout α) (a : α) : Layout α := ⟨l.entries ++ [a], l.influences⟩

def influence (l : Layout α) (input output : Nat) : Layout α :=
  if (input, output) ∈ l.influences then l else ⟨l.entries, l.influences ++ [(input, output)]⟩

/-- The outputs that an input influences, in the order in which this was declared. -/
def outputsOf (l : Layout α) (input : Nat) : List Nat :=
  l.influences.filterMap fun p => if p.1 = input then some p.2 else none

/-- The inputs that influence an output. -/
def inputsOf (l : Layout α) (output : Nat) : List Nat :=
  l.influences.filterMap fun p => if p.2 = output then some p.1 else none

def modify (l : Layout α) (i : Nat) (f : α → α) : Layout α := ⟨l.entries.modify i f, l.influences⟩

def map (f : α → β) (l : Layout α) : Layout β := ⟨l.entries.map f, l.influences⟩

/-- The place of what stood at `i` once the thing at `gone` has left. -/
def shift (gone i : Nat) : Nat := if gone < i then i - 1 else i

def remove (l : Layout α) (gone : Nat) : Layout α :=
  ⟨l.entries.eraseIdx gone,
    (l.influences.filter fun p => p.1 != gone && p.2 != gone).map
      fun p => (shift gone p.1, shift gone p.2)⟩

/-- Puts into each new place what stood in the old place that `order` names there. -/
def reorder (l : Layout α) (order : List Nat) : Layout α :=
  ⟨order.filterMap (l.entries[·]?),
    l.influences.map fun p => (order.idxOf p.1, order.idxOf p.2)⟩

theorem mem_outputsOf (l : Layout α) (i o : Nat) :
    o ∈ l.outputsOf i ↔ (i, o) ∈ l.influences := by
  simp [outputsOf]

theorem mem_inputsOf (l : Layout α) (i o : Nat) :
    i ∈ l.inputsOf o ↔ (i, o) ∈ l.influences := by
  simp only [inputsOf, List.mem_filterMap, Prod.exists]
  grind

theorem get?_modify (l : Layout α) (i j : Nat) (f : α → α) :
    (l.modify i f).get? j = if i = j then (l.get? j).map f else l.get? j := by
  simp only [modify, get?, List.getElem?_modify]
  split <;> simp_all

theorem get?_declare (l : Layout α) (a : α) (i : Nat) (h : i < l.length) :
    (l.declare a).get? i = l.get? i := by
  simp only [declare, get?, length] at *
  rw [List.getElem?_append_left h]

theorem get?_map (f : α → β) (l : Layout α) (i : Nat) :
    (l.map f).get? i = (l.get? i).map f := by
  simp [map, get?]

end Layout
end Dataflow
