import Dataflow.Proofs.Renumber
import Mathlib.Data.List.Nodup
set_option autoImplicit false

/-!
Bringing the ports of a network into another order. Main statements: the new order has every place
once, and arranging the ports of any node leaves a lawful graph lawful and an acyclic one acyclic.
-/

namespace Dataflow

theorem nodup_eraseDups {α : Type} [DecidableEq α] (l : List α) : l.eraseDups.Nodup := by
  match l with
  | [] => exact List.nodup_nil
  | a :: l =>
    rw [List.eraseDups_cons, List.nodup_cons]
    refine ⟨?_, nodup_eraseDups _⟩
    rw [List.mem_eraseDups, List.mem_filter]
    simp
termination_by l.length
decreasing_by
  simp only [List.length_cons]
  exact Nat.lt_succ_of_le (List.length_filter_le _ _)

theorem eraseDups_of_nodup {α : Type} [DecidableEq α] {l : List α} (h : l.Nodup) :
    l.eraseDups = l := by
  induction l with
  | nil => rfl
  | cons a l ih =>
    rw [List.nodup_cons] at h
    have others : l.filter (fun b => !b == a) = l := by
      refine List.filter_eq_self.2 fun b hb => ?_
      simp only [Bool.not_eq_true', beq_eq_false_iff_ne]
      rintro rfl
      exact h.1 hb
    rw [List.eraseDups_cons, others, ih h.2]

namespace Graph

section Order
variable {attributes : List String} (names : List String)

theorem getElem?_of_idxOf? {n : String} {i : Nat} (h : attributes.idxOf? n = some i) :
    attributes[i]? = some n := by
  obtain ⟨hi, heq, -⟩ := List.idxOf?_eq_some_iff.1 h
  rw [List.getElem?_eq_getElem hi, heq]

theorem nodup_boundaryOrder : (boundaryOrder attributes names).Nodup := by
  refine List.nodup_append.2 ⟨List.nodup_range.filter _, nodup_eraseDups _, ?_⟩
  rintro i hi j hj rfl
  rw [List.mem_eraseDups, List.mem_filterMap] at hj
  obtain ⟨n, hn, hni⟩ := hj
  simp [getElem?_of_idxOf? hni, hn] at hi

theorem mem_boundaryOrder (nodup : attributes.Nodup) (i : Nat) :
    i ∈ boundaryOrder attributes names ↔ i < attributes.length := by
  simp only [boundaryOrder, List.mem_append, List.mem_filter, List.mem_range, List.mem_eraseDups,
    List.mem_filterMap]
  constructor
  · rintro (⟨hi, -⟩ | ⟨n, -, hn⟩)
    · exact hi
    · exact (List.idxOf?_eq_some_iff.1 hn).1
  · intro hi
    by_cases hn : attributes[i] ∈ names
    · refine .inr ⟨attributes[i], hn, ?_⟩
      refine List.idxOf?_eq_some_iff.2 ⟨hi, rfl, fun j hj heq => ?_⟩
      have hj' : j < attributes.length := Nat.lt_trans hj hi
      have same : attributes[j]? = attributes[i]? := by
        rw [List.getElem?_eq_getElem hj', List.getElem?_eq_getElem hi, heq]
      have := (List.getElem?_inj hj' nodup).1 same
      omega
    · refine .inl ⟨hi, ?_⟩
      simp [List.getElem?_eq_getElem hi, hn]

theorem length_boundaryOrder (nodup : attributes.Nodup) :
    (boundaryOrder attributes names).length = attributes.length := by
  have perm : (boundaryOrder attributes names).Perm (List.range attributes.length) := by
    rw [List.perm_ext_iff_of_nodup (nodup_boundaryOrder names) List.nodup_range]
    intro i
    rw [mem_boundaryOrder names nodup, List.mem_range]
  simpa using perm.length_eq

end Order

/-- What the place `i` was before the things went into the order. -/
def oldPlace (order : List Nat) (i : Nat) : Nat := order[i]?.getD i

theorem oldPlace_idxOf {order : List Nat} {i : Nat} (h : i ∈ order) :
    oldPlace order (order.idxOf i) = i := by
  have low := List.idxOf_lt_length_iff.2 h
  simp [oldPlace, List.getElem?_eq_getElem low, List.getElem_idxOf]

section Named
variable {attributes names : List String} (all : ∀ a, a ∈ attributes ↔ a ∈ names)
  (distinct : names.Nodup)
include all distinct

theorem boundaryOrder_of_all : boundaryOrder attributes names = names.map attributes.idxOf := by
  have place (a : String) (ha : a ∈ names) : attributes.idxOf? a = some (attributes.idxOf a) := by
    refine List.idxOf?_eq_some_iff.2
      ⟨List.idxOf_lt_length_of_mem ((all a).2 ha), List.getElem_idxOf _, fun j hj => ?_⟩
    have := List.not_of_lt_findIdx hj
    simpa using this
  have unnamed : (List.range attributes.length).filter
      (fun i => !(attributes[i]?).any fun a => names.contains a) = [] := by
    refine List.filter_eq_nil_iff.2 fun i hi => ?_
    rw [List.mem_range] at hi
    simp [List.getElem?_eq_getElem hi, ← all]
  have named : names.filterMap (fun a => attributes.idxOf? a) = names.map attributes.idxOf :=
    List.filterMap_eq_map_iff_forall_eq_some.2 place
  rw [boundaryOrder, unnamed, named, List.nil_append, eraseDups_of_nodup]
  refine List.Nodup.map_on (fun a ha b _ same => ?_) distinct
  exact (List.idxOf_inj ((all a).2 ha)).1 same

/-- If all names are given, the things come to stand in the order of the names. -/
theorem getElem?_oldPlace (unique : attributes.Nodup) (i : Nat) :
    attributes[oldPlace (boundaryOrder attributes names) i]? = names[i]? := by
  have length : attributes.length = names.length := by
    have perm : attributes.Perm names := (List.perm_ext_iff_of_nodup unique distinct).2 all
    exact perm.length_eq
  rw [boundaryOrder_of_all all distinct, oldPlace, List.getElem?_map]
  cases hi : names[i]? with
  | none =>
    rw [List.getElem?_eq_none_iff, ← length] at hi
    simpa using hi
  | some a =>
    have there := (all a).2 (List.mem_of_getElem? hi)
    rw [Option.map_some, Option.getD_some, List.getElem?_eq_getElem (List.idxOf_lt_length_of_mem there),
      List.getElem_idxOf]

end Named

theorem getElem?_reorder {α : Type} (l : Layout α) (order : List Nat)
    (h : ∀ i ∈ order, i < l.length) (i : Nat) :
    (l.reorder order).get? i = order[i]?.bind l.get? := by
  simp only [Layout.reorder, Layout.get?, Layout.length] at *
  induction order generalizing i with
  | nil => simp
  | cons a order ih =>
    have ha := h a (by simp)
    rw [List.filterMap_cons, List.getElem?_eq_getElem ha]
    cases i with
    | zero => simp [Layout.get?, List.getElem?_eq_getElem ha]
    | succ i => simpa using ih (fun j hj => h j (by simp [hj])) i

section Arrange
variable {g : Graph} {n : NodeId} {m : Node}

theorem moves_reorder (w : g.WellFormed) (hm : g.node? n = some m) {order : List Nat}
    (nodup : order.Nodup) (mem : ∀ i, i ∈ order ↔ i < m.ports.length)
    (length : order.length = m.ports.length) :
    Moves g n m (fun l => l.reorder order) 0 (oldPlace order) order.idxOf := by
  have back {i : Nat} (hi : i < m.ports.length) : oldPlace order (order.idxOf i) = i :=
    oldPlace_idxOf ((mem i).2 hi)
  have live_of {i : Nat} (hi : (m.ports.get? i).isSome) : i < m.ports.length := by
    simpa [Layout.get?, Layout.length] using hi
  have sound := w.sound n m.type (by simp [type?, hm])
  constructor
  case get =>
    intro i
    rw [getElem?_reorder _ _ fun j hj => (mem j).1 hj, oldPlace]
    cases hi : order[i]? with
    | some j => rfl
    | none =>
      rw [List.getElem?_eq_none_iff, length] at hi
      exact (List.getElem?_eq_none_iff.2 hi).symm
  case influences =>
    rintro ⟨i, j⟩ h
    simp only [Layout.reorder, List.mem_map, Prod.mk.injEq] at h
    obtain ⟨⟨i', j'⟩, h, rfl, rfl⟩ := h
    have place {k : Nat} {d : Direction}
        (hk : (m.type.ports.get? k).map Attribute.direction = some d) : k < m.ports.length := by
      refine live_of ?_
      have := congrArg Option.isSome hk
      simpa [Node.type, Layout.get?_map] using this
    rw [back (place (sound.sources _ h)), back (place (sound.targets _ h))]
    exact h
  case live =>
    intro i hi
    have low := live_of hi
    cases hj : order[i]? with
    | none =>
      rw [oldPlace, hj, Option.getD_none] at low
      rw [List.getElem?_eq_none_iff, length] at hj
      omega
    | some j =>
      obtain ⟨hi', rfl⟩ := List.getElem?_eq_some_iff.1 hj
      rw [oldPlace, hj, Option.getD_some]
      exact List.Nodup.idxOf_getElem nodup i hi'
  case kept =>
    intro i hi
    refine back (live_of ?_)
    have there : (g.slot? ⟨n, i⟩).isSome := by
      rcases hi with hi | ⟨q, hi | hi⟩
      · obtain ⟨q, hq⟩ := Option.isSome_iff_exists.1 hi
        rw [isSome_slot?]
        exact isSome_attr?_of_peer? g hq
      · have := hi.output w.wired
        simp only [direction?] at this
        obtain ⟨s, hs, -⟩ := Option.map_eq_some_iff.1 this
        simp [hs]
      · have := hi.input w.wired
        simp only [direction?] at this
        obtain ⟨s, hs, -⟩ := Option.map_eq_some_iff.1 this
        simp [hs]
    simpa [slot?, hm] using there
  case low => exact fun i hi => absurd hi (Nat.not_lt_zero i)

/-- The order has the place of each port of the node once. -/
theorem places_boundaryOrder (w : g.WellFormed) (hm : g.node? n = some m) (names : List String) :
    (∀ i, i ∈ boundaryOrder (m.ports.entries.map fun s => s.attr.name) names ↔
      i < m.ports.length) ∧
    (boundaryOrder (m.ports.entries.map fun s => s.attr.name) names).length = m.ports.length := by
  have distinct : (m.ports.entries.map fun s => s.attr.name).Nodup := by
    simpa [Node.type, Layout.map, Function.comp_def] using
      (w.sound n m.type (by simp [type?, hm])).names
  exact ⟨fun i => by simpa [Layout.length] using mem_boundaryOrder names distinct i,
    by simpa [Layout.length] using length_boundaryOrder names distinct⟩

/-- The ports of the node are brought into their order, or stand in it already. -/
theorem reordered (w : g.WellFormed) (names : List String) {h : Graph}
    (ok : g.arrangeBoundary n names = .ok h) : ∃ t order, g.type? n = some t ∧
      order = boundaryOrder (t.ports.entries.map Attribute.name) names ∧
      (h = g ∧ order = List.range order.length ∨ order ≠ List.range order.length ∧
        ∃ g₁, Renumbered n (oldPlace order) order.idxOf g g₁ ∧ h = g₁.emit (.metadataChanged n)) := by
  simp only [arrangeBoundary, bind, Except.bind] at ok
  cases hm : g.node n with
  | error x => simp [hm] at ok
  | ok m =>
    have hm' : g.node? n = some m := by
      simp only [node] at hm
      split at hm
      · cases hm
        assumption
      · cases hm
    simp only [hm] at ok
    have names_eq : m.type.ports.entries.map Attribute.name = m.ports.entries.map fun s => s.attr.name := by
      simp [Node.type, Layout.map]
    refine ⟨m.type, _, by simp [type?, hm'], rfl, ?_⟩
    rw [names_eq]
    split at ok
    · next same =>
      cases ok
      exact .inl ⟨rfl, same⟩
    · next changed =>
      cases ok
      obtain ⟨mem, length⟩ := places_boundaryOrder w hm' names
      have moves := moves_reorder w hm' (nodup_boundaryOrder names) mem length
      exact .inr ⟨changed, _, renumbered w hm' moves, rfl⟩

/-- The ports of the node are renumbered, or all stays as it was. A single port stays where it is. -/
theorem arranged (w : g.WellFormed) (names : List String) {h : Graph}
    (ok : g.arrangeBoundary n names = .ok h) :
    h = g ∨ (∀ t, g.type? n = some t → t.ports.length ≠ 1) ∧
      ∃ old new g₁, Renumbered n old new g g₁ ∧ h = g₁.emit (.metadataChanged n) := by
  obtain ⟨t, order, ht, rfl, ⟨same, -⟩ | ⟨changed, g₁, r, eq⟩⟩ := reordered w names ok
  · exact .inl same
  · refine .inr ⟨fun u hu one => changed ?_, _, _, g₁, r, eq⟩
    -- the only order of one place is the one that it has
    rw [ht, Option.some.injEq] at hu
    subst hu
    have distinct := (w.sound n t ht).names
    have single : (t.ports.entries.map Attribute.name).length = 1 := by rwa [List.length_map]
    have length := length_boundaryOrder names distinct
    rw [single] at length
    obtain ⟨i, hi⟩ := List.length_eq_one_iff.1 length
    have place := (mem_boundaryOrder names distinct i).1 (by simp [hi])
    rw [length, hi, show i = 0 by omega]
    rfl

theorem lawful_arrange (w : g.Lawful) (names : List String) {h : Graph}
    (ok : g.arrangeBoundary n names = .ok h) : h.Lawful := by
  rcases arranged w.wellFormed names ok with rfl | ⟨-, old, new, g₁, r, rfl⟩
  · exact w
  · refine (sameFrame_emit _ _).lawful ⟨r.wellFormed w.wellFormed, fun t => ?_⟩
    exact r.fitted t (w.fitted _)

theorem acyclic_arrange (w : g.WellFormed) (ha : g.Acyclic) (names : List String) {h : Graph}
    (ok : g.arrangeBoundary n names = .ok h) : h.Acyclic := by
  rcases arranged w names ok with rfl | ⟨-, old, new, g₁, r, rfl⟩
  · exact ha
  · exact (sameFrame_emit _ _).acyclic (r.acyclic w.linked ha)

end Arrange
end Graph
end Dataflow
