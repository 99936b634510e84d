import Dataflow.Proofs.Saved
import Dataflow.Proofs.Sketch
set_option autoImplicit false

/-!
How a copy comes about. Main statements: work in the innermost unfinished network, a new node in it,
and its end once all is there each lead from sketch to sketch. What has been stored stays.
-/

namespace Dataflow.Graph
variable {g k h : Graph} {r n : NodeId} {stack : List NodeId}

/-- The port of the copy holds what it starts with, if that agrees with what the model holds there, and
otherwise the latter. -/
def Restored (g k : Graph) (p : Port) : Prop :=
  ∃ x y, g.Starts p x ∧ g.value p = some y ∧ k.value p = some (if x.agrees y = true then x else y)

theorem Restored.congr {p : Port} (a : Restored g k p) (same : h.value p = k.value p) :
    Restored g h p := by
  obtain ⟨x, y, hx, hy, held⟩ := a
  exact ⟨x, y, hx, hy, same.trans held⟩

/-- A sketch in whose finished networks the values have been stored, and nowhere else. -/
structure Draft (g : Graph) (r : NodeId) (stack : List NodeId) (k : Graph) : Prop
    extends Sketch g r stack k where
  unset : Unset stack k
  kept : ∀ p m, m ∉ stack → k.around? p.node = some m → g.Kept p → Restored g k p
  coherent : g.Computes → k.Coherent

/-! ### Work in a network -/

section Tend
variable (a : Tended n k h)
include a

/-- Work in a network leaves a sketch, if what comes to its wires and its boundary is in the model. -/
theorem Sketch.tend (s : Sketch g r (n :: stack) k) (inside : (k.contents? n).isSome)
    (neat : LawfulWith Neat h) (drawn : h.wires n <+: g.wires (g.origin r n))
    (boundary : ∀ b t, b.node = n → h.peer? b = some t →
      ∃ c, g.peer? t = some c ∧ h.declaredType b = g.declaredType c) :
    Sketch g r (n :: stack) h where
  neat := neat
  root := a.tree.root.trans s.root
  nest := s.nest.congr a.tree.root fun m p hm => by rwa [a.tree.around]
  placed := fun c p hc => s.placed c p (by rwa [a.tree.around] at hc)
  twin := fun c p hc => by
    rw [a.tree.around] at hc
    have t := s.twin c p hc
    refine ⟨by rw [a.tree.name, t.name], by rw [a.note, t.note], by rw [a.tree.typeName, t.typeName],
      fun leaf => ?_⟩
    have leaf : k.contents? c = none := by
      have := a.tree.network c
      rw [leaf] at this
      simpa using this.symm
    rw [a.type c ?_, t.leaf leaf]
    rintro rfl
    simp [leaf] at inside
  children := fun m hm done => by
    rw [a.tree.children]
    exact s.children m (by rwa [a.tree.network] at hm) done
  drawn := fun m => by
    by_cases hm : m = n
    · rw [hm]
      exact drawn
    · rw [a.wires m hm]
      exact s.drawn m
  full := fun m hm done => by
    rw [a.wires m fun hn => done (hn ▸ List.mem_cons_self)]
    exact s.full m (by rwa [a.tree.network] at hm) done
  waiting := fun m hm => by
    rw [a.wires m fun hn => s.nest.not_mem s.tree (hn ▸ hm)]
    exact s.waiting m hm
  boundary := fun b t hb ht => by
    by_cases hn : b.node = n
    · obtain ⟨c, hc, type⟩ := boundary b t hn ht
      exact ⟨c, hc, type, fun done => absurd (hn ▸ List.mem_cons_self) done⟩
    · rw [a.tree.network] at hb
      rw [a.peer b hn (.inl (terminal?_of_contents? s.tree hb))] at ht
      rw [declaredType_eq, a.attr hn, ← declaredType_eq]
      exact s.boundary b t hb ht

theorem Draft.tend (s : Draft g r (n :: stack) k) (sketch : Sketch g r (n :: stack) h)
    (carries : Carries n k h) (coherent : k.Coherent → h.Coherent) : Draft g r (n :: stack) h where
  toSketch := sketch
  unset := s.unset.carry carries List.mem_cons_self
  kept := fun p m hm hp keep => by
    rw [a.tree.around] at hp
    refine (s.kept p m hm hp keep).congr (a.value p (fun hn => ?_) ?_)
    · exact hm (List.mem_of_mem_tail (s.nest.up s.tree (hn ▸ List.mem_cons_self) hp))
    · rw [hp]
      rintro ⟨⟩
      exact hm List.mem_cons_self
  coherent := fun computes => coherent (s.coherent computes)

end Tend

/-! ### A new node -/

section Insert
variable {c : NodeId} {t : NodeType} {name : String}
  (x : Inserted c n t name (.ofType t) k h) (a : Insertable c n t name (.ofType t) k)
include x a

theorem Inserted.around_old {m p : NodeId} (hm : k.around? m = some p) : h.around? m = some p := by
  rw [x.around, if_neg, hm]
  rintro rfl
  simp [around?, a.node?] at hm

omit a in
theorem Inserted.attr_old {p : Port} (hp : p.node ≠ c) : h.attr? p = k.attr? p := by
  rw [attr?, x.slot p hp]
  rfl

omit a in
theorem Inserted.value_old {p : Port} (hp : p.node ≠ c) : h.value p = k.value p := by
  rw [value, held, x.slot p hp]
  rfl

/-- The new node is put on the stack, even if it has no contents. -/
theorem Draft.insert (s : Draft g r (n :: stack) k) (neat : LawfulWith Neat h)
    (bare : k.wires n = []) (placed : g.around? c = some (g.origin r n)) (twin : Twin g h c)
    (note : ∀ m, m ≠ c → h.note? m = k.note? m)
    (coherent : g.Computes → k.Coherent → h.Coherent) : Draft g r (c :: n :: stack) h := by
  have old {m p : NodeId} (hm : m ≠ c) (hp : h.around? m = some p) : k.around? m = some p := by
    rwa [x.around, if_neg hm] at hp
  refine ⟨⟨neat, x.root.trans s.root, ?nest, ?placed, ?twin, ?children, ?drawn, ?full,
    ?waiting, ?boundary⟩, ?unset, ?kept, fun computes => coherent computes (s.coherent computes)⟩
  case nest =>
    exact .push (by rw [x.around, if_pos rfl]) (s.nest.congr x.root fun m p => x.around_old a)
  case placed =>
    intro m p hp
    by_cases hm : m = c
    · subst hm
      rw [x.around, if_pos rfl, Option.some.injEq] at hp
      rw [← hp, placed]
    · exact s.placed m p (old hm hp)
  case twin =>
    intro m p hp
    by_cases hm : m = c
    · rw [hm]
      exact twin
    · have other := s.twin m p (old hm hp)
      refine ⟨by rw [x.name, if_neg hm, other.name], by rw [note m hm, other.note],
        by rw [x.type, if_neg hm, other.typeName], fun leaf => ?_⟩
      rw [x.type, if_neg hm]
      refine other.leaf ?_
      have := x.network_old hm
      rw [leaf] at this
      simpa using this.symm
  case children =>
    intro m hm done
    simp only [List.mem_cons, not_or] at done
    rw [x.children a, if_neg done.2.1]
    rw [x.network_old done.1] at hm
    exact s.children m hm (by simp [done.2])
  case drawn =>
    rw [x.wires a]
    exact s.drawn
  case full =>
    intro m hm done
    simp only [List.mem_cons, not_or] at done
    rw [x.wires a]
    rw [x.network_old done.1] at hm
    exact s.full m hm (by simp [done.2])
  case waiting =>
    intro m hm
    rw [x.wires a]
    rcases List.mem_cons.1 hm with rfl | hm
    · exact bare
    · exact s.waiting m hm
  case boundary =>
    intro b t' hb ht
    rw [x.peer a] at ht
    have hbc : b.node ≠ c := a.node_ne (by
      rw [isSome_direction?_iff]
      exact isSome_attr?_of_peer? k ht)
    rw [x.network_old hbc] at hb
    obtain ⟨b', hb', type, index⟩ := s.boundary b t' hb ht
    refine ⟨b', hb', ?_, fun done => index fun hm => done (List.mem_cons_of_mem _ hm)⟩
    rw [declaredType_eq, x.attr_old hbc, ← declaredType_eq, type]
  case unset =>
    exact s.unset.insert x a s.wellFormed neat.holds.standard
  case kept =>
    intro p m hm hp keep
    simp only [List.mem_cons, not_or] at hm
    by_cases hc : p.node = c
    · rw [x.around, if_pos hc, Option.some.injEq] at hp
      exact absurd hp.symm hm.2.1
    · exact (s.kept p m (by simp [hm.2]) (old hc hp) keep).congr (x.value_old hc)

end Insert

/-! ### The end of a network -/

/-- Values do not show in a sketch. -/
theorem Sketch.same (s : Sketch g r stack k) (a : SameFrame k h) (neat : LawfulWith Neat h)
    (note : h.note? = k.note?) : Sketch g r stack h where
  neat := neat
  root := a.root.trans s.root
  nest := s.nest.congr a.root fun m p hm => by rwa [a.around]
  placed := by rw [a.around]; exact s.placed
  twin := fun c p hc => by
    rw [a.around] at hc
    have t := s.twin c p hc
    exact ⟨by rw [a.name, t.name], by rw [note, t.note], by rw [a.type, t.typeName],
      fun leaf => by rw [a.type, t.leaf (by rwa [a.contents] at leaf)]⟩
  children := by rw [a.contents, a.children]; exact s.children
  drawn := by rw [a.wires]; exact s.drawn
  full := by rw [a.contents, a.wires]; exact s.full
  waiting := by rw [a.wires]; exact s.waiting
  boundary := by rw [a.contents, a.peer, a.declaredType]; exact s.boundary

/-- All that its model has is in the network `n`, and in its place. -/
structure Complete (g : Graph) (r n : NodeId) (k : Graph) : Prop where
  children : k.children n = g.children (g.origin r n)
  wires : k.wires n = g.wires (g.origin r n)
  index : ∀ b t c, b.node = n → k.peer? b = some t → g.peer? t = some c → c.index = b.index

theorem SameFrame.complete (a : SameFrame k h) (c : Complete g r n k) : Complete g r n h where
  children := by rw [a.children, c.children]
  wires := by rw [a.wires, c.wires]
  index := by rw [a.peer]; exact c.index

theorem Sketch.close (s : Sketch g r (n :: stack) k)
    (complete : (k.contents? n).isSome → Complete g r n k) : Sketch g r stack k where
  neat := s.neat
  root := s.root
  nest := s.nest.pop
  placed := s.placed
  twin := s.twin
  children := fun m hm done => by
    by_cases hn : m = n
    · subst hn
      exact (complete hm).children
    · exact s.children m hm (by simp [hn, done])
  drawn := s.drawn
  full := fun m hm done => by
    by_cases hn : m = n
    · subst hn
      exact (complete hm).wires
    · exact s.full m hm (by simp [hn, done])
  waiting := fun m hm => s.waiting m (List.mem_of_mem_tail hm)
  boundary := fun b t hb ht => by
    obtain ⟨c, hc, type, index⟩ := s.boundary b t hb ht
    refine ⟨c, hc, type, fun done => ?_⟩
    by_cases hn : b.node = n
    · exact (complete (hn ▸ hb)).index b t c hn ht hc
    · exact index (by simp [hn, done])

/-- Values have been stored at ports of nodes in `n`, if any. -/
structure Filled (n : NodeId) (k h : Graph) : Prop where
  frame : SameFrame k h
  neat : LawfulWith Neat h
  note : h.note? = k.note?
  value : ∀ p, k.around? p.node ≠ some n → h.value p = k.value p
  coherent : k.Coherent → h.Coherent

theorem Filled.refl (w : LawfulWith Neat k) : Filled n k k :=
  ⟨.refl k, w, rfl, fun _ _ => rfl, id⟩

/-- A network in which all is in its place, and all values are stored, is finished. -/
theorem Draft.close (s : Draft g r (n :: stack) k) (f : Filled n k h)
    (complete : (k.contents? n).isSome → Complete g r n k)
    (kept : ∀ p, k.around? p.node = some n → g.Kept p → Restored g h p) : Draft g r stack h where
  toSketch := (s.toSketch.close complete).same f.frame f.neat f.note
  unset := s.unset.pop.same f.frame fun p hp => f.value p fun hn =>
    s.nest.not_mem s.tree (hp n hn)
  kept := fun p m hm hp keep => by
    rw [f.frame.around] at hp
    by_cases hn : m = n
    · subst hn
      exact kept p hp keep
    · exact (s.kept p m (by simp [hn, hm]) hp keep).congr (f.value p (by rw [hp]; simpa using hn))
  coherent := fun computes => f.coherent (s.coherent computes)

theorem Draft.quiet (s : Draft g r stack k) (q : Quiet k h) (note : h.note? = k.note?) :
    Draft g r stack h where
  toSketch := s.toSketch.same q.frame (s.neat.quiet q (q.neat s.neat.holds)) note
  unset := s.unset.same q.frame fun p _ => by rw [q.value]
  kept := fun p m hm hp keep => by
    rw [q.frame.around] at hp
    exact (s.kept p m hm hp keep).congr (by rw [q.value])
  coherent := fun computes => keptByEdits_coherent.quiet _ _ q (s.coherent computes)

end Dataflow.Graph
