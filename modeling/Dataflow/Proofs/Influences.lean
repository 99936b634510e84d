import Dataflow.Proofs.StrictEdits
set_option autoImplicit false

/-!
Influences while attributes come, go and change places. Beside the pairs of a node type stand rows,
one for each attribute, with the outputs that an input influences or the inputs that influence an
output, so every pair is written down twice. Main statements: however a type is drawn up, the rows
can be kept with it and say what the pairs say, both directions of the relation agree, and taking an
attribute away or changing places gives just the image of the relation among those that stay.
-/

namespace Dataflow

/-- Attributes, and for each the places of those at the other side that it is related to. -/
structure Roster where
  attributes : List Attribute
  rows : List (List Nat)

namespace Roster

def outputsOf (r : Roster) (i : Nat) : List Nat :=
  match r.attributes[i]? with
  | some a => if a.direction = .input then (r.rows[i]?).getD [] else []
  | none => []

def inputsOf (r : Roster) (i : Nat) : List Nat :=
  match r.attributes[i]? with
  | some a => if a.direction = .output then (r.rows[i]?).getD [] else []
  | none => []

def declare (r : Roster) (a : Attribute) : Roster := ⟨r.attributes ++ [a], r.rows ++ [[]]⟩

/-- Whether the pair is known already is looked up at the input alone. -/
def influence (r : Roster) (input output : Nat) : Option Roster := do
  let row ← r.rows[input]?
  if output ∈ row then some r
  else do
    let rows := r.rows.set input (row ++ [output])
    let back ← rows[output]?
    some ⟨r.attributes, rows.set output (back ++ [input])⟩

/-- Takes an attribute away with its row, and its place out of all other rows. -/
def remove (r : Roster) (gone : Nat) : Option Roster :=
  if gone < r.attributes.length ∧ gone < r.rows.length then
    some ⟨r.attributes.eraseIdx gone,
      (r.rows.eraseIdx gone).map fun row => (row.filter (· != gone)).map (Layout.shift gone)⟩
  else none

/-- Rows come to their new places, and what stands in them is looked up in a table. -/
def reorder (r : Roster) (order : List Nat) : Option Roster := do
  let table ← Graph.Strict.moveTable order
  let attributes ← order.mapM (r.attributes[·]?)
  let rows ← order.mapM fun old => (r.rows[old]?).bind fun row => row.mapM (table[·]?)
  some ⟨attributes, rows⟩

end Roster

namespace NodeType

/-- What may be done to a type while it is drawn up, and to the type of a network later on. -/
inductive Revision where
  | declare (a : Attribute)
  | influence (input output : Nat)
  | remove (gone : Nat)
  | reorder (order : List Nat)

def direction? (t : NodeType) (i : Nat) : Option Direction :=
  (t.ports.get? i).map Attribute.direction

/-- Influences lead from inputs to outputs, an attribute that goes was there, and a new order names
every place once. -/
def Revision.Fits (t : NodeType) : Revision → Prop
  | .declare _ => True
  | .influence input output => t.direction? input = some .input ∧ t.direction? output = some .output
  | .remove gone => gone < t.ports.length
  | .reorder order => order.Perm (List.range t.ports.length)

def revise (t : NodeType) : Revision → NodeType
  | .declare a => t.declare a
  | .influence input output => { t with ports := t.ports.influence input output }
  | .remove gone => { t with ports := t.ports.remove gone }
  | .reorder order => { t with ports := t.ports.reorder order }

end NodeType

def Roster.revise (r : Roster) : NodeType.Revision → Option Roster
  | .declare a => some (r.declare a)
  | .influence input output => r.influence input output
  | .remove gone => r.remove gone
  | .reorder order => r.reorder order

namespace NodeType

/-- Types that are drawn up from nothing, each with the roster that was kept beside it. -/
inductive Drafted : NodeType → Roster → Prop where
  | plain (name : String) : Drafted (plain name) ⟨[], []⟩
  | step {t : NodeType} {r r' : Roster} (x : Revision) (d : Drafted t r) (fits : x.Fits t)
      (kept : r.revise x = some r') : Drafted (t.revise x) r'

/-- Every pair stands once, and leads from an input to an output. -/
structure Coupled (t : NodeType) : Prop where
  sources : ∀ p ∈ t.ports.influences, t.direction? p.1 = some .input
  targets : ∀ p ∈ t.ports.influences, t.direction? p.2 = some .output
  nodup : t.ports.influences.Nodup

/-- The attributes of `u` are those of `t` that stay, each at its new place, and related as they were
there, in the same order. -/
structure Image (stays : Nat → Bool) (place : Nat → Nat) (t u : NodeType) : Prop where
  entry : ∀ i, stays i → u.ports.get? (place i) = t.ports.get? i
  whole : ∀ j, j < u.ports.length → ∃ i, i < t.ports.length ∧ stays i ∧ place i = j
  apart : ∀ i j, i < t.ports.length → j < t.ports.length → stays i → stays j →
    place i = place j → i = j
  outputs : ∀ i, i < t.ports.length → stays i →
    u.outputsOf (place i) = ((t.outputsOf i).filter stays).map place
  inputs : ∀ i, i < t.ports.length → stays i →
    u.inputsOf (place i) = ((t.inputsOf i).filter stays).map place

section Relabel
variable {stays : Nat → Bool} {place : Nat → Nat}

/-- The pairs of which both ends stay, with both at their new places. -/
def relabel (stays : Nat → Bool) (place : Nat → Nat) (l : List (Nat × Nat)) : List (Nat × Nat) :=
  (l.filter fun p => stays p.1 && stays p.2).map fun p => (place p.1, place p.2)

theorem relabel_outputs {i : Nat} (l : List (Nat × Nat)) (here : stays i)
    (apart : ∀ p ∈ l, stays p.1 → place p.1 = place i → p.1 = i) :
    (relabel stays place l).filterMap (fun p => if p.1 = place i then some p.2 else none) =
      ((l.filterMap fun p => if p.1 = i then some p.2 else none).filter stays).map place := by
  induction l with
  | nil => rfl
  | cons p l ih =>
    have ih := ih fun q hq => apart q (List.mem_cons_of_mem p hq)
    have at_p := apart p List.mem_cons_self
    simp only [relabel] at ih ⊢
    by_cases h : p.1 = i
    · cases out : stays p.2 <;> simp [h, here, out, ih]
    · cases kept : stays p.1
      · simp [h, kept, ih]
      · have moved : place p.1 ≠ place i := fun same => h (at_p kept same)
        cases out : stays p.2 <;> simp [h, kept, out, moved, ih]

theorem relabel_inputs {o : Nat} (l : List (Nat × Nat)) (here : stays o)
    (apart : ∀ p ∈ l, stays p.2 → place p.2 = place o → p.2 = o) :
    (relabel stays place l).filterMap (fun p => if p.2 = place o then some p.1 else none) =
      ((l.filterMap fun p => if p.2 = o then some p.1 else none).filter stays).map place := by
  induction l with
  | nil => rfl
  | cons p l ih =>
    have ih := ih fun q hq => apart q (List.mem_cons_of_mem p hq)
    have at_p := apart p List.mem_cons_self
    simp only [relabel] at ih ⊢
    by_cases h : p.2 = o
    · cases out : stays p.1 <;> simp [h, here, out, ih]
    · cases kept : stays p.2
      · simp [h, kept, ih]
      · have moved : place p.2 ≠ place o := fun same => h (at_p kept same)
        cases out : stays p.1 <;> simp [h, kept, out, moved, ih]

end Relabel

theorem lt_of_direction? {t : NodeType} {i : Nat} {d : Direction} (h : t.direction? i = some d) :
    i < t.ports.length := by
  obtain ⟨a, ha, -⟩ := Option.map_eq_some_iff.1 h
  exact (List.getElem?_eq_some_iff.1 ha).1

section Image
variable {stays : Nat → Bool} {place : Nat → Nat} {t u : NodeType}

/-- Where the pairs are relabelled along with the attributes, the relation is the image of the old
one. -/
theorem Coupled.image (c : t.Coupled)
    (entry : ∀ i, stays i → u.ports.get? (place i) = t.ports.get? i)
    (whole : ∀ j, j < u.ports.length → ∃ i, i < t.ports.length ∧ stays i ∧ place i = j)
    (apart : ∀ i j, i < t.ports.length → j < t.ports.length → stays i → stays j →
      place i = place j → i = j)
    (pairs : u.ports.influences = relabel stays place t.ports.influences) :
    Image stays place t u ∧ u.Coupled := by
  have low₁ (p) (hp : p ∈ t.ports.influences) := lt_of_direction? (c.sources p hp)
  have low₂ (p) (hp : p ∈ t.ports.influences) := lt_of_direction? (c.targets p hp)
  have old (p) (hp : p ∈ u.ports.influences) : ∃ q ∈ t.ports.influences, stays q.1 ∧ stays q.2 ∧
      (place q.1, place q.2) = p := by
    rw [pairs, relabel, List.mem_map] at hp
    obtain ⟨q, hq, rfl⟩ := hp
    obtain ⟨hq, kept⟩ := List.mem_filter.1 hq
    rw [Bool.and_eq_true] at kept
    exact ⟨q, hq, kept.1, kept.2, rfl⟩
  refine ⟨⟨entry, whole, apart, fun i hi here => ?outputs, fun o ho here => ?inputs⟩,
    fun p hp => ?sources, fun p hp => ?targets, ?nodup⟩
  case outputs =>
    have moved := relabel_outputs t.ports.influences here fun p hp kept same =>
      apart p.1 i (low₁ p hp) hi kept here same
    simp only [outputsOf, entry i here, Layout.outputsOf, pairs, moved]
    cases t.ports.get? i with
    | none => rfl
    | some a => by_cases h : a.direction = .input <;> simp [h]
  case inputs =>
    have moved := relabel_inputs t.ports.influences here fun p hp kept same =>
      apart p.2 o (low₂ p hp) ho kept here same
    simp only [inputsOf, entry o here, Layout.inputsOf, pairs, moved]
    cases t.ports.get? o with
    | none => rfl
    | some a => by_cases h : a.direction = .output <;> simp [h]
  case sources =>
    obtain ⟨q, hq, kept, -, rfl⟩ := old p hp
    rw [direction?, entry q.1 kept]
    exact c.sources q hq
  case targets =>
    obtain ⟨q, hq, -, kept, rfl⟩ := old p hp
    rw [direction?, entry q.2 kept]
    exact c.targets q hq
  case nodup =>
    rw [pairs, relabel]
    refine (c.nodup.filter _).map_on fun p hp q hq same => ?_
    obtain ⟨hp, kept⟩ := List.mem_filter.1 hp
    obtain ⟨hq, kept'⟩ := List.mem_filter.1 hq
    rw [Bool.and_eq_true] at kept kept'
    rw [Prod.mk.injEq] at same
    exact Prod.ext (apart _ _ (low₁ p hp) (low₁ q hq) kept.1 kept'.1 same.1)
      (apart _ _ (low₂ p hp) (low₂ q hq) kept.2 kept'.2 same.2)

end Image

/-! ### One revision -/

section Revision
variable {t : NodeType}

theorem getElem?_eraseIdx_shift {α : Type} (l : List α) {gone i : Nat} (h : i ≠ gone) :
    (l.eraseIdx gone)[Layout.shift gone i]? = l[i]? := by
  rw [List.getElem?_eraseIdx, Layout.shift]
  split <;> split <;> first | omega | rfl | (congr 1; omega)

theorem Coupled.remove (c : t.Coupled) {gone : Nat} (h : gone < t.ports.length) :
    Image (· != gone) (Layout.shift gone) t (t.revise (.remove gone)) ∧
      (t.revise (.remove gone)).Coupled := by
  refine c.image (fun i hi => ?entry) (fun j hj => ?whole) (fun i j _ _ hi hj same => ?apart) rfl
  case entry => exact getElem?_eraseIdx_shift _ (by simpa using hi)
  case whole =>
    have length : (t.ports.entries.eraseIdx gone).length = t.ports.entries.length - 1 :=
      List.length_eraseIdx_of_lt h
    simp only [revise, Layout.remove, Layout.length] at hj h ⊢
    by_cases below : j < gone
    · exact ⟨j, by omega, by simp; omega, by simp [Layout.shift]; omega⟩
    · exact ⟨j + 1, by omega, by simp; omega, by simp [Layout.shift]; omega⟩
  case apart =>
    simp only [Layout.shift, bne_iff_ne, ne_eq] at hi hj same
    split at same <;> split at same <;> omega

theorem length_reorder {α : Type} (l : Layout α) {order : List Nat}
    (h : ∀ i ∈ order, i < l.length) : (l.reorder order).length = order.length := by
  simp only [Layout.length, Layout.reorder] at h ⊢
  induction order with
  | nil => rfl
  | cons i order ih =>
    rw [List.filterMap_cons, List.getElem?_eq_getElem (h i List.mem_cons_self), List.length_cons,
      List.length_cons, ih fun j hj => h j (List.mem_cons_of_mem i hj)]

theorem Coupled.reorder (c : t.Coupled) {order : List Nat}
    (h : order.Perm (List.range t.ports.length)) :
    Image (fun _ => true) order.idxOf t (t.revise (.reorder order)) ∧
      (t.revise (.reorder order)).Coupled := by
  have known (i : Nat) : i ∈ order ↔ i < t.ports.length := by rw [h.mem_iff, List.mem_range]
  have places (i : Nat) := Graph.getElem?_reorder t.ports order (fun i hi => (known i).1 hi) i
  refine c.image (fun i _ => ?entry) (fun j hj => ?whole) (fun i j hi hj _ _ same => ?apart) ?pairs
  case entry =>
    change (t.ports.reorder order).get? _ = _
    rw [places]
    by_cases hi : i ∈ order
    · rw [List.getElem?_eq_getElem (List.idxOf_lt_length_of_mem hi), List.getElem_idxOf,
        Option.bind_some]
    · rw [List.idxOf_eq_length hi, List.getElem?_eq_none (Nat.le_refl _), Option.bind_none]
      exact (List.getElem?_eq_none (by rw [known] at hi; exact Nat.not_lt.1 hi)).symm
  case whole =>
    have here : ((t.ports.reorder order).get? j).isSome := by
      simpa [Layout.get?, revise, Layout.length] using hj
    rw [places] at here
    obtain ⟨a, ha⟩ := Option.isSome_iff_exists.1 here
    obtain ⟨i, hi, -⟩ := Option.bind_eq_some_iff.1 ha
    obtain ⟨low, rfl⟩ := List.getElem?_eq_some_iff.1 hi
    exact ⟨_, (known _).1 (List.getElem_mem low), rfl,
      (h.nodup_iff.2 List.nodup_range).idxOf_getElem _ _⟩
  case apart => exact (List.idxOf_inj ((known i).2 hi)).1 same
  case pairs => simp [revise, Layout.reorder, relabel]

theorem direction?_declare (a : Attribute) {i : Nat} (h : i < t.ports.length) :
    (t.declare a).direction? i = t.direction? i := by
  rw [direction?, declare, Layout.get?_declare _ _ _ h, direction?]

theorem Coupled.declare (c : t.Coupled) (a : Attribute) : (t.declare a).Coupled where
  sources p hp := by
    rw [direction?_declare a (lt_of_direction? (c.sources p hp))]
    exact c.sources p hp
  targets p hp := by
    rw [direction?_declare a (lt_of_direction? (c.targets p hp))]
    exact c.targets p hp
  nodup := c.nodup

theorem influences_influence (i o : Nat) : (t.ports.influence i o).influences =
    if (i, o) ∈ t.ports.influences then t.ports.influences else t.ports.influences ++ [(i, o)] := by
  rw [Layout.influence]
  split <;> rfl

theorem get?_influence (i o j : Nat) : (t.ports.influence i o).get? j = t.ports.get? j := by
  rw [Layout.influence]
  split <;> rfl

theorem Coupled.influence (c : t.Coupled) {i o : Nat} (hi : t.direction? i = some .input)
    (ho : t.direction? o = some .output) : (t.revise (.influence i o)).Coupled := by
  have same (j : Nat) : (t.revise (.influence i o)).direction? j = t.direction? j := by
    simp only [direction?, revise, get?_influence]
  have pairs : (t.revise (.influence i o)).ports.influences = _ := influences_influence i o
  by_cases known : (i, o) ∈ t.ports.influences
  · rw [if_pos known] at pairs
    exact ⟨by simpa [pairs, same] using c.sources, by simpa [pairs, same] using c.targets,
      pairs ▸ c.nodup⟩
  · rw [if_neg known] at pairs
    refine ⟨fun p hp => ?_, fun p hp => ?_, ?_⟩
    · rw [pairs, List.mem_append, List.mem_singleton] at hp
      rw [same]
      rcases hp with hp | rfl
      · exact c.sources p hp
      · exact hi
    · rw [pairs, List.mem_append, List.mem_singleton] at hp
      rw [same]
      rcases hp with hp | rfl
      · exact c.targets p hp
      · exact ho
    · rw [pairs]
      simpa using c.nodup.concat known

theorem Coupled.revise (c : t.Coupled) {x : Revision} (fits : x.Fits t) : (t.revise x).Coupled := by
  cases x with
  | declare a => exact c.declare a
  | influence i o => exact c.influence fits.1 fits.2
  | remove gone => exact (c.remove fits).2
  | reorder order => exact (c.reorder fits).2

end Revision

/-! ### The rows beside the pairs -/

/-- What an attribute is related to, as the pairs say. -/
def related (t : NodeType) (i : Nat) : Direction → List Nat
  | .input => t.ports.outputsOf i
  | .output => t.ports.inputsOf i

/-- The rows say what the pairs say. -/
structure Kept (t : NodeType) (r : Roster) : Prop where
  attributes : r.attributes = t.ports.entries
  rows : ∀ i, r.rows[i]? = (t.direction? i).map (t.related i)

section Kept
variable {t u : NodeType} {r r' : Roster}

theorem Kept.outputsOf (k : Kept t r) (i : Nat) : r.outputsOf i = t.outputsOf i := by
  simp only [Roster.outputsOf, NodeType.outputsOf, k.rows, k.attributes, direction?, Layout.get?]
  cases t.ports.entries[i]? with
  | none => rfl
  | some a => by_cases h : a.direction = .input <;> simp [h, related]

theorem Kept.inputsOf (k : Kept t r) (i : Nat) : r.inputsOf i = t.inputsOf i := by
  simp only [Roster.inputsOf, NodeType.inputsOf, k.rows, k.attributes, direction?, Layout.get?]
  cases t.ports.entries[i]? with
  | none => rfl
  | some a => by_cases h : a.direction = .output <;> simp [h, related]

theorem Kept.length (k : Kept t r) : r.rows.length = t.ports.length := by
  have same (i : Nat) : i < r.rows.length ↔ i < t.ports.length := by
    have := congrArg Option.isSome (k.rows i)
    rw [Option.isSome_map, direction?, Option.isSome_map, Bool.eq_iff_iff] at this
    simpa [Layout.get?, Layout.length] using this
  have := same t.ports.length
  have := same r.rows.length
  omega

theorem related_input {i : Nat} (h : t.direction? i = some .input) :
    t.related i .input = t.outputsOf i := by
  obtain ⟨a, ha, hd⟩ := Option.map_eq_some_iff.1 h
  simp [related, NodeType.outputsOf, ha, hd]

theorem related_output {i : Nat} (h : t.direction? i = some .output) :
    t.related i .output = t.inputsOf i := by
  obtain ⟨a, ha, hd⟩ := Option.map_eq_some_iff.1 h
  simp [related, NodeType.inputsOf, ha, hd]

/-- Rows that follow their attributes are still kept. -/
theorem Kept.image {stays : Nat → Bool} {place : Nat → Nat} (k : Kept t r)
    (x : Image stays place t u) (attributes : r'.attributes = u.ports.entries)
    (length : r'.rows.length = u.ports.length)
    (rows : ∀ i, i < t.ports.length → stays i →
      r'.rows[place i]? = (r.rows[i]?).map fun row => (row.filter stays).map place) :
    Kept u r' := by
  refine ⟨attributes, fun j => ?_⟩
  by_cases hj : j < u.ports.length
  · obtain ⟨i, hi, here, rfl⟩ := x.whole j hj
    have same : u.direction? (place i) = t.direction? i := by rw [direction?, x.entry i here]; rfl
    rw [rows i hi here, k.rows, same]
    cases hd : t.direction? i with
    | none => rfl
    | some d =>
      simp only [Option.map_some]
      cases d with
      | input => rw [related_input hd, related_input (same.trans hd), x.outputs i hi here]
      | output => rw [related_output hd, related_output (same.trans hd), x.inputs i hi here]
  · rw [List.getElem?_eq_none (by omega), direction?, Layout.get?,
      List.getElem?_eq_none (Nat.not_lt.1 hj)]
    rfl

theorem Kept.declare (k : Kept t r) (c : t.Coupled) (a : Attribute) :
    Kept (t.declare a) (r.declare a) := by
  refine ⟨congrArg (· ++ [a]) k.attributes, fun i => ?_⟩
  have length := k.length
  rcases Nat.lt_trichotomy i t.ports.length with hi | rfl | hi
  · rw [direction?_declare a hi, Roster.declare, List.getElem?_append_left (by omega), k.rows]
    rfl
  · have fresh : t.ports.outputsOf t.ports.length = [] ∧ t.ports.inputsOf t.ports.length = [] := by
      constructor <;> refine List.eq_nil_iff_forall_not_mem.2 fun j hj => ?_
      · have := lt_of_direction? (c.sources _ ((Layout.mem_outputsOf _ _ _).1 hj))
        simp at this
      · have := lt_of_direction? (c.targets _ ((Layout.mem_inputsOf _ _ _).1 hj))
        simp at this
    have new : (t.declare a).direction? t.ports.length = some a.direction := by
      simp [direction?, NodeType.declare, Layout.declare, Layout.get?, Layout.length]
    rw [new, Roster.declare, ← length, List.getElem?_concat_length, length]
    cases hd : a.direction with
    | input => exact congrArg some fresh.1.symm
    | output => exact congrArg some fresh.2.symm
  · rw [Roster.declare, List.getElem?_eq_none (by simp; omega), direction?, Layout.get?,
      List.getElem?_eq_none]
    · rfl
    · have longer : (t.declare a).ports.entries.length = t.ports.length + 1 := by
        simp [NodeType.declare, Layout.declare, Layout.length]
      omega

theorem outputsOf_influence (i o j : Nat) (new : (i, o) ∉ t.ports.influences) :
    (t.ports.influence i o).outputsOf j = t.ports.outputsOf j ++ if i = j then [o] else [] := by
  rw [Layout.outputsOf, influences_influence, if_neg new, List.filterMap_append, Layout.outputsOf]
  by_cases h : i = j <;> simp [h]

theorem inputsOf_influence (i o j : Nat) (new : (i, o) ∉ t.ports.influences) :
    (t.ports.influence i o).inputsOf j = t.ports.inputsOf j ++ if o = j then [i] else [] := by
  rw [Layout.inputsOf, influences_influence, if_neg new, List.filterMap_append, Layout.inputsOf]
  by_cases h : o = j <;> simp [h]

theorem Kept.influence (k : Kept t r) {i o : Nat} (hi : t.direction? i = some .input)
    (ho : t.direction? o = some .output) :
    ∃ r', r.influence i o = some r' ∧ Kept (t.revise (.influence i o)) r' := by
  have row : r.rows[i]? = some (t.ports.outputsOf i) := by rw [k.rows, hi]; rfl
  have back : r.rows[o]? = some (t.ports.inputsOf o) := by rw [k.rows, ho]; rfl
  by_cases known : (i, o) ∈ t.ports.influences
  · refine ⟨r, ?_, ?_⟩
    · simp [Roster.influence, row, Layout.mem_outputsOf, known]
    · rwa [revise, Layout.influence, if_pos known]
  · have apart : i ≠ o := by
      rintro rfl
      rw [hi] at ho
      cases ho
    have low₁ := (List.getElem?_eq_some_iff.1 row).1
    have low₂ := (List.getElem?_eq_some_iff.1 back).1
    refine ⟨⟨r.attributes, (r.rows.set i (t.ports.outputsOf i ++ [o])).set o
      (t.ports.inputsOf o ++ [i])⟩, ?_, ?_⟩
    · simp [Roster.influence, row, Layout.mem_outputsOf, known, List.getElem?_set_ne apart, back]
    · refine ⟨?_, fun j => ?_⟩
      · rw [k.attributes, revise, Layout.influence]
        split <;> rfl
      · have same : (t.revise (.influence i o)).direction? j = t.direction? j := by
          simp only [direction?, revise, get?_influence]
        rw [same]
        by_cases h : j = o
        · subst h
          rw [List.getElem?_set_self (by simpa using low₂), ho]
          simp [related, revise, inputsOf_influence _ _ _ known]
        · rw [List.getElem?_set_ne (Ne.symm h)]
          by_cases h' : j = i
          · subst h'
            rw [List.getElem?_set_self low₁, hi]
            simp [related, revise, outputsOf_influence _ _ _ known]
          · rw [List.getElem?_set_ne (Ne.symm h'), k.rows]
            cases t.direction? j with
            | none => rfl
            | some d =>
              cases d <;> simp [related, revise, outputsOf_influence _ _ _ known,
                inputsOf_influence _ _ _ known, Ne.symm h, Ne.symm h']

theorem Kept.remove (k : Kept t r) (c : t.Coupled) {gone : Nat} (h : gone < t.ports.length) :
    ∃ r', r.remove gone = some r' ∧ Kept (t.revise (.remove gone)) r' := by
  have length := k.length
  have whole : r.attributes.length = t.ports.length := congrArg List.length k.attributes
  refine ⟨_, if_pos ⟨by omega, by omega⟩, k.image (c.remove h).1 ?_ ?_ fun i hi here => ?_⟩
  · rw [k.attributes]
    rfl
  · simp only [List.length_map, revise, Layout.remove, Layout.length]
    rw [List.length_eraseIdx_of_lt (by omega), List.length_eraseIdx_of_lt h, length]
    rfl
  · rw [List.getElem?_map, getElem?_eraseIdx_shift _ (by simpa using here)]

theorem Kept.reorder (k : Kept t r) (c : t.Coupled) {order : List Nat}
    (h : order.Perm (List.range t.ports.length)) :
    ∃ r', r.reorder order = some r' ∧ Kept (t.revise (.reorder order)) r' := by
  have known (i : Nat) : i ∈ order ↔ i < t.ports.length := by rw [h.mem_iff, List.mem_range]
  have nodup := h.nodup_iff.2 List.nodup_range
  have count : order.length = t.ports.length := h.length_eq.trans List.length_range
  obtain ⟨table, made, place⟩ := Graph.Strict.moveTable_eq nodup fun i hi => by
    rw [count]
    exact (known i).1 hi
  have attributes :
      order.mapM (r.attributes[·]?) = some (order.filterMap (t.ports.entries[·]?)) := by
    rw [k.attributes]
    exact mapM_eq_filterMap fun i hi => by simpa [Layout.length] using (known i).1 hi
  have inside (old : Nat) (row : List Nat) (hrow : r.rows[old]? = some row) (j : Nat)
      (hj : j ∈ row) : j < t.ports.length := by
    obtain ⟨d, hd, rfl⟩ := Option.map_eq_some_iff.1 ((k.rows old).symm.trans hrow)
    cases d with
    | input => exact lt_of_direction? (c.targets _ ((Layout.mem_outputsOf _ _ _).1 hj))
    | output => exact lt_of_direction? (c.sources _ ((Layout.mem_inputsOf _ _ _).1 hj))
  have rows : (order.mapM fun old => (r.rows[old]?).bind fun row => row.mapM (table[·]?)) =
      some (order.map fun old => ((r.rows[old]?).getD []).map order.idxOf) := by
    refine mapM_eq_some fun old hold => ?_
    have low : old < r.rows.length := by rw [k.length]; exact (known old).1 hold
    have hrow := List.getElem?_eq_getElem low
    rw [hrow, Option.getD_some, Option.bind_some]
    exact mapM_eq_some fun j hj => place j ((known j).2 (inside old _ hrow j hj))
  let moved : Roster := ⟨order.filterMap (t.ports.entries[·]?),
    order.map fun old => ((r.rows[old]?).getD []).map order.idxOf⟩
  refine ⟨moved, ?_, k.image (c.reorder h).1 rfl ?_ fun i hi _ => ?_⟩
  · simp only [Roster.reorder, made, attributes, rows, Option.bind_eq_bind, Option.bind_some, moved]
  · rw [List.length_map]
    exact (length_reorder t.ports fun i hi => (known i).1 hi).symm
  · have here := (known i).2 hi
    rw [List.getElem?_map, List.getElem?_eq_getElem (List.idxOf_lt_length_of_mem here),
      List.getElem_idxOf, Option.map_some]
    simp [List.getElem?_eq_getElem (show i < r.rows.length by rwa [k.length])]

theorem Kept.revise (k : Kept t r) (c : t.Coupled) {x : Revision} (fits : x.Fits t) :
    ∃ r', r.revise x = some r' ∧ Kept (t.revise x) r' := by
  cases x with
  | declare a => exact ⟨_, rfl, k.declare c a⟩
  | influence i o => exact k.influence fits.1 fits.2
  | remove gone => exact k.remove c fits
  | reorder order => exact k.reorder c fits

end Kept

theorem Drafted.coupled_kept {t : NodeType} {r : Roster} (d : Drafted t r) :
    t.Coupled ∧ Kept t r := by
  induction d with
  | plain name =>
    exact ⟨⟨by simp [NodeType.plain, Layout.empty], by simp [NodeType.plain, Layout.empty],
      List.nodup_nil⟩, rfl, fun _ => rfl⟩
  | step x _ fits kept ih =>
    obtain ⟨r', kept', k⟩ := ih.2.revise ih.1 fits
    obtain rfl := Option.some.inj (kept'.symm.trans kept)
    exact ⟨ih.1.revise fits, k⟩

section Rows
variable {t : NodeType} (c : t.Coupled)
include c

theorem Coupled.mem_outputsOf {i o : Nat} :
    o ∈ t.outputsOf i ↔ (i, o) ∈ t.ports.influences := by
  constructor
  · intro h
    rw [outputsOf] at h
    cases ha : t.ports.get? i with
    | none => simp [ha] at h
    | some a =>
      simp only [ha] at h
      split at h
      · exact (Layout.mem_outputsOf _ _ _).1 h
      · cases h
  · intro h
    rw [← related_input (c.sources _ h)]
    exact (Layout.mem_outputsOf _ _ _).2 h

theorem Coupled.mem_inputsOf {i o : Nat} :
    i ∈ t.inputsOf o ↔ (i, o) ∈ t.ports.influences := by
  constructor
  · intro h
    rw [inputsOf] at h
    cases ha : t.ports.get? o with
    | none => simp [ha] at h
    | some a =>
      simp only [ha] at h
      split at h
      · exact (Layout.mem_inputsOf _ _ _).1 h
      · cases h
  · intro h
    rw [← related_output (c.targets _ h)]
    exact (Layout.mem_inputsOf _ _ _).2 h

theorem Coupled.nodup_outputsOf (i : Nat) : (t.outputsOf i).Nodup := by
  have all : (t.ports.outputsOf i).Nodup := by
    refine c.nodup.filterMap fun p q b hp hq => ?_
    grind
  rw [outputsOf]
  split
  · split
    · exact all
    · exact .nil
  · exact .nil

theorem Coupled.nodup_inputsOf (o : Nat) : (t.inputsOf o).Nodup := by
  have all : (t.ports.inputsOf o).Nodup := by
    refine c.nodup.filterMap fun p q b hp hq => ?_
    grind
  rw [inputsOf]
  split
  · split
    · exact all
    · exact .nil
  · exact .nil

end Rows

/-- However a type was drawn up, its rows can be kept and say what its pairs say. Both directions of
the relation agree, name nothing twice, and lead from inputs that are there to outputs that are there.
Taking an attribute away and changing places give the image of the relation among those that stay. -/
theorem influences_follow {t : NodeType} {r : Roster} (d : Drafted t r) :
    (r.attributes = t.ports.entries ∧
      ∀ i, r.outputsOf i = t.outputsOf i ∧ r.inputsOf i = t.inputsOf i) ∧
    (∀ i o, o ∈ t.outputsOf i ↔ i ∈ t.inputsOf o) ∧
    (∀ i, (t.outputsOf i).Nodup ∧ (t.inputsOf i).Nodup) ∧
    (∀ i o, o ∈ t.outputsOf i → t.direction? i = some .input ∧ t.direction? o = some .output) ∧
    (∀ x : Revision, x.Fits t → ∃ r', r.revise x = some r' ∧ Drafted (t.revise x) r') ∧
    (∀ gone, gone < t.ports.length →
      Image (· != gone) (Layout.shift gone) t (t.revise (.remove gone))) ∧
    ∀ order : List Nat, order.Perm (List.range t.ports.length) →
      Image (fun _ => true) order.idxOf t (t.revise (.reorder order)) := by
  obtain ⟨c, k⟩ := d.coupled_kept
  refine ⟨⟨k.attributes, fun i => ⟨k.outputsOf i, k.inputsOf i⟩⟩,
    fun i o => c.mem_outputsOf.trans c.mem_inputsOf.symm,
    fun i => ⟨c.nodup_outputsOf i, c.nodup_inputsOf i⟩, fun i o h => ?_, fun x fits => ?_,
    fun gone h => (c.remove h).1, fun order h => (c.reorder h).1⟩
  · have pair := c.mem_outputsOf.1 h
    exact ⟨c.sources _ pair, c.targets _ pair⟩
  · obtain ⟨r', kept, -⟩ := k.revise c fits
    exact ⟨r', kept, d.step x fits kept⟩

/-- Two inputs and two outputs. The first input influences both outputs, the second one the last. -/
def splitterSteps : List Revision :=
  [.declare (.untyped "a" .input), .declare (.untyped "b" .input), .declare (.untyped "x" .output),
    .declare (.untyped "y" .output), .influence 0 2, .influence 1 3, .influence 0 3]

def splitter : NodeType := splitterSteps.foldl revise (plain "splitter")

/-- The splitter with its places turned round. -/
theorem splitter_turned : ∃ r, Drafted splitter r ∧
    r.rows = [[2, 3], [3], [0], [1, 0]] ∧
    (splitter.revise (.reorder [3, 2, 1, 0])).outputsOf 3 = [1, 0] ∧
    (splitter.revise (.remove 1)).outputsOf 0 = [1, 2] := by
  let r : Roster := ⟨splitter.ports.entries, [[2, 3], [3], [0], [1, 0]]⟩
  have d : Drafted splitter r :=
    .step (.influence 0 3) (.step (.influence 1 3) (.step (.influence 0 2)
      (.step (.declare _) (.step (.declare _) (.step (.declare _) (.step (.declare _)
        (.plain "splitter") trivial rfl) trivial rfl) trivial rfl) trivial rfl)
      ⟨rfl, rfl⟩ rfl) ⟨rfl, rfl⟩ rfl) ⟨rfl, rfl⟩ rfl
  obtain ⟨-, -, -, -, -, removed, reordered⟩ := influences_follow d
  exact ⟨r, d, rfl, (reordered [3, 2, 1, 0] (by decide)).outputs 0 (by decide) rfl,
    (removed 1 (by decide)).outputs 0 (by decide) rfl⟩

end NodeType
end Dataflow
