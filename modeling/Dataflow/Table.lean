set_option autoImplicit false

/-!
Tables are lists of pairs read by key. A new key goes to the end and a known key keeps its place,
so a table stands in the order in which its keys first came.
-/

namespace Dataflow

abbrev Table (α β : Type) := List (α × β)

namespace Table
variable {α β : Type} [DecidableEq α]

def get? (t : Table α β) (k : α) : Option β :=
  match t with
  | [] => none
  | (a, b) :: r => if a = k then some b else get? r k

def has (t : Table α β) (k : α) : Bool := (get? t k).isSome

/-- A known key takes the new value in its old place. -/
def put (t : Table α β) (k : α) (v : β) : Table α β :=
  match t with
  | [] => [(k, v)]
  | (a, b) :: r => if a = k then (a, v) :: r else (a, b) :: put r k v

def modify (t : Table α β) (k : α) (f : β → β) : Table α β :=
  match t with
  | [] => []
  | (a, b) :: r => if a = k then (a, f b) :: r else (a, b) :: modify r k f

def erase (t : Table α β) (k : α) : Table α β :=
  match t with
  | [] => []
  | (a, b) :: r => if a = k then r else (a, b) :: erase r k

/-- Later pairs win over earlier ones, in the earlier place. -/
def ofPairs (pairs : List (α × β)) : Table α β := pairs.foldl (fun t p => put t p.1 p.2) []

def keys (t : Table α β) : List α := t.map Prod.fst

theorem get?_put (t : Table α β) (k j : α) (v : β) :
    get? (put t k v) j = if k = j then some v else get? t j := by
  induction t with
  | nil => simp [put, get?]
  | cons p r ih =>
    obtain ⟨a, b⟩ := p
    grind [put, get?]

theorem get?_modify (t : Table α β) (k j : α) (f : β → β) :
    get? (modify t k f) j = if k = j then (get? t j).map f else get? t j := by
  induction t with
  | nil => simp [modify, get?]
  | cons p r ih =>
    obtain ⟨a, b⟩ := p
    grind [modify, get?]

theorem keys_modify (t : Table α β) (k : α) (f : β → β) : keys (modify t k f) = keys t := by
  induction t with
  | nil => rfl
  | cons p r ih =>
    obtain ⟨a, b⟩ := p
    by_cases ha : a = k <;> simp_all [modify, keys]

theorem get?_eq_none_iff (t : Table α β) (k : α) : get? t k = none ↔ k ∉ keys t := by
  induction t with
  | nil => simp [get?, keys]
  | cons p r ih =>
    obtain ⟨a, b⟩ := p
    by_cases ha : a = k <;> simp_all [get?, keys, eq_comm]

theorem modify_modify (t : Table α β) (k : α) (f f' : β → β) :
    modify (modify t k f) k f' = modify t k (f' ∘ f) := by
  induction t with
  | nil => rfl
  | cons p r ih =>
    obtain ⟨a, b⟩ := p
    by_cases ha : a = k <;> simp [modify, ha, ih]

/-- What is done with other values does not matter. -/
theorem modify_congr {t : Table α β} {k : α} {f f' : β → β} (h : ∀ b, get? t k = some b → f b = f' b) :
    modify t k f = modify t k f' := by
  induction t with
  | nil => rfl
  | cons p r ih =>
    obtain ⟨a, b⟩ := p
    by_cases ha : a = k
    · simp only [modify, ha, if_true, h b (by simp [get?, ha])]
    · simp only [get?, ha, if_false] at h
      simp only [modify, ha, if_false, ih h]

theorem put_of_notMem (t : Table α β) {k : α} (v : β) (new : k ∉ keys t) :
    put t k v = t ++ [(k, v)] := by
  induction t with
  | nil => rfl
  | cons p r ih =>
    obtain ⟨a, b⟩ := p
    simp only [keys, List.map_cons, List.mem_cons, not_or] at new
    rw [put, if_neg (Ne.symm new.1), ih new.2, List.cons_append]

theorem keys_put (t : Table α β) (k : α) (v : β) (h : k ∉ keys t) :
    keys (put t k v) = keys t ++ [k] := by
  rw [put_of_notMem t v h]
  simp [keys]

theorem keys_put_of_mem (t : Table α β) {k : α} (v : β) (known : k ∈ keys t) :
    keys (put t k v) = keys t := by
  induction t with
  | nil => cases known
  | cons p r ih =>
    obtain ⟨a, b⟩ := p
    by_cases h : a = k
    · simp [put, h, keys]
    · have rest : k ∈ keys r := by simpa [keys, Ne.symm h] using known
      rw [put, if_neg h]
      exact congrArg (a :: ·) (ih rest)

theorem nodup_keys_put {t : Table α β} (nodup : (keys t).Nodup) (k : α) (v : β) :
    (keys (put t k v)).Nodup := by
  by_cases known : k ∈ keys t
  · rwa [keys_put_of_mem t v known]
  · rw [keys_put t k v known]
    refine List.nodup_append.2 ⟨nodup, by simp, fun a ha b hb => ?_⟩
    obtain rfl := List.mem_singleton.1 hb
    rintro rfl
    exact known ha

theorem get?_of_mem_of_nodup {t : Table α β} (nodup : (keys t).Nodup) {k : α} {v : β}
    (h : (k, v) ∈ t) : get? t k = some v := by
  induction t with
  | nil => cases h
  | cons q r ih =>
    obtain ⟨a, b⟩ := q
    obtain ⟨new, nodup⟩ := List.nodup_cons.1 nodup
    rcases List.mem_cons.1 h with h | h
    · obtain ⟨rfl, rfl⟩ := Prod.mk.inj h
      simp [get?]
    · have apart : a ≠ k := by
        rintro rfl
        exact new (List.mem_map.2 ⟨_, h, rfl⟩)
      rw [get?, if_neg apart, ih nodup h]

/-- A list in which each key comes once is its own table. -/
theorem ofPairs_of_nodup {pairs : List (α × β)} (nodup : (keys pairs).Nodup) :
    ofPairs pairs = pairs := by
  suffices ∀ done, (keys (done ++ pairs)).Nodup →
      pairs.foldl (fun t p => put t p.1 p.2) done = done ++ pairs from this [] nodup
  clear nodup
  induction pairs with
  | nil => simp
  | cons p r ih =>
    intro done nodup
    have new : p.1 ∉ keys done := by
      rw [keys, List.map_append, List.nodup_append] at nodup
      exact fun known => nodup.2.2 _ known p.1 (by simp) rfl
    rw [List.foldl_cons, put_of_notMem done p.2 new, ih, List.append_assoc, List.singleton_append]
    rwa [List.append_assoc, List.singleton_append]

theorem keys_erase (t : Table α β) (k : α) : keys (erase t k) = (keys t).erase k := by
  induction t with
  | nil => rfl
  | cons p r ih =>
    obtain ⟨a, b⟩ := p
    by_cases ha : a = k
    · simp [erase, keys, ha]
    · simp only [erase, ha, if_false, keys, List.map_cons, List.erase_cons, beq_iff_eq]
      exact congrArg _ ih

theorem get?_erase (t : Table α β) (k j : α) (h : (keys t).Nodup) :
    get? (erase t k) j = if k = j then none else get? t j := by
  induction t with
  | nil => simp [erase, get?]
  | cons p r ih =>
    obtain ⟨a, b⟩ := p
    simp only [keys, List.map_cons, List.nodup_cons] at h
    have rest := ih h.2
    by_cases ha : a = k
    · subst ha
      by_cases hj : a = j
      · subst hj
        simpa [erase] using (get?_eq_none_iff r a).2 h.1
      · simp [erase, get?, hj]
    · grind [erase, get?]

end Table
end Dataflow
