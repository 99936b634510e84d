set_option autoImplicit false

/-!
Walks along a relation. A walk takes the things of a list one by one, goes on to what comes after a
thing before it comes to the rest of the list, and enters nothing twice. Main statements: a walk
enters free things only, each once, all of them lie along the relation, and where nothing on the way
is taken it gets to everything along the relation.
-/

namespace Dataflow

variable {α : Type} [DecidableEq α]

/-- The things in the order in which the walk enters them. Only free things are entered. -/
def walk (next : α → List α) (free todo : List α) : List α :=
  match todo with
  | [] => []
  | a :: rest =>
    if a ∈ free then a :: walk next (free.erase a) (next a ++ rest) else walk next free rest
termination_by (free.length, todo.length)
decreasing_by
  · have : 0 < free.length := List.length_pos_of_mem ‹a ∈ free›
    simp_wf
    rw [List.length_erase_of_mem ‹a ∈ free›]
    exact Prod.Lex.left _ _ (by omega)
  · simp_wf
    exact Prod.Lex.right _ (by omega)

/-- `b` is `a` or lies further along the relation. -/
inductive Along (next : α → List α) : α → α → Prop where
  | here (a : α) : Along next a a
  | step {a b c : α} (h : b ∈ next a) (r : Along next b c) : Along next a c

theorem mem_free_of_mem_walk (next : α → List α) (free todo : List α) (b : α)
    (h : b ∈ walk next free todo) : b ∈ free := by
  fun_induction walk next free todo with
  | case1 => simp at h
  | case2 free a rest ha ih =>
    rcases List.mem_cons.1 h with rfl | h
    · exact ha
    · exact List.mem_of_mem_erase (ih h)
  | case3 free a rest ha ih => exact ih h

theorem along_of_mem_walk (next : α → List α) (free todo : List α) (b : α)
    (h : b ∈ walk next free todo) : ∃ a ∈ todo, Along next a b := by
  fun_induction walk next free todo with
  | case1 => simp at h
  | case2 free a rest ha ih =>
    rcases List.mem_cons.1 h with rfl | h
    · exact ⟨b, by simp, .here b⟩
    · obtain ⟨c, hc, hb⟩ := ih h
      rcases List.mem_append.1 hc with hc | hc
      · exact ⟨a, by simp, .step hc hb⟩
      · exact ⟨c, by simp [hc], hb⟩
  | case3 free a rest ha ih =>
    obtain ⟨c, hc, hb⟩ := ih h
    exact ⟨c, by simp [hc], hb⟩

theorem mem_walk_of_mem (next : α → List α) (free todo : List α) (a : α) (ha : a ∈ todo)
    (hf : a ∈ free) : a ∈ walk next free todo := by
  fun_induction walk next free todo with
  | case1 => simp at ha
  | case2 free c rest hc ih =>
    by_cases h : a = c
    · simp [h]
    · refine List.mem_cons_of_mem _ (ih ?_ ((List.mem_erase_of_ne h).2 hf))
      exact List.mem_append_right _ (List.mem_of_ne_of_mem h ha)
  | case3 free c rest hc ih =>
    exact ih (List.mem_of_ne_of_mem (by rintro rfl; exact hc hf) ha) hf

theorem mem_walk_next (next : α → List α) (free todo : List α) (a b : α)
    (ha : a ∈ walk next free todo) (hb : b ∈ next a) (hf : b ∈ free) :
    b ∈ walk next free todo := by
  fun_induction walk next free todo with
  | case1 => simp at ha
  | case2 free c rest hc ih =>
    by_cases h : b = c
    · simp [h]
    · have left : b ∈ free.erase c := (List.mem_erase_of_ne h).2 hf
      rcases List.mem_cons.1 ha with rfl | ha
      · exact List.mem_cons_of_mem _ (mem_walk_of_mem next _ _ b (by simp [hb]) left)
      · exact List.mem_cons_of_mem _ (ih ha left)
  | case3 free c rest hc ih => exact ih ha hf

/-- Where nothing on the way is taken, a walk gets everywhere along the relation. -/
theorem mem_walk_of_along (next : α → List α) (free todo : List α) (a b : α)
    (ha : a ∈ walk next free todo) (h : Along next a b)
    (hf : ∀ c ∈ free, ∀ d ∈ next c, d ∈ free) : b ∈ walk next free todo := by
  induction h with
  | here => exact ha
  | step hb _ ih =>
    have free_a := mem_free_of_mem_walk next free todo _ ha
    exact ih (mem_walk_next next free todo _ _ ha hb (hf _ free_a _ hb))

theorem nodup_walk (next : α → List α) (free todo : List α) (hf : free.Nodup) :
    (walk next free todo).Nodup := by
  fun_induction walk next free todo with
  | case1 => simp
  | case2 free a rest ha ih =>
    refine List.nodup_cons.2 ⟨fun h => ?_, ih (hf.erase a)⟩
    have := mem_free_of_mem_walk next _ _ a h
    exact (hf.mem_erase_iff.1 this).1 rfl
  | case3 free a rest ha ih => exact ih hf

end Dataflow
