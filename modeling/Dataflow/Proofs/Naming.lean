import Dataflow.Proofs.Insert
import Mathlib.Data.List.Nodup
import Mathlib.Data.List.Perm.Subperm
import Mathlib.Data.PFun
import Mathlib.Order.Bounds.Basic
import Mathlib.Order.Nat
set_option autoImplicit false

/-!
Names for new children. Where a taken name may be numbered, the numbers are tried one after the
other, with no end in sight. Among more different names than there are children one is free, so the
trial ends. Main statement: it ends with the name itself if that is free, and otherwise with the
least number that makes a free name of it, and the search within a bound finds the same.
-/

namespace Dataflow.Graph

/-- A child of the network has that name. -/
def Taken (g : Graph) (n : NodeId) (name : String) : Prop :=
  ∃ c ∈ g.children n, g.name? c = some name

/-- The numbers from `start` on that make a free name. -/
def freeNumbers (g : Graph) (n : NodeId) (name : String) (start : Nat) : Set Nat :=
  {k | start ≤ k ∧ ¬ g.Taken n (numbered name k)}

/-- One step of the trial: a free name is the result, after a taken one the next number is due. -/
def numberStep (g : Graph) (n : NodeId) (name : String) (k : Nat) : Part (String ⊕ Nat) :=
  .some (if (g.find? n (numbered name k)).isNone then .inl (numbered name k) else .inr (k + 1))

/-- Tries one number after the other. A trial that never ends has no result. -/
def numberFrom (g : Graph) (n : NodeId) (name : String) : Nat →. String :=
  PFun.fix (g.numberStep n name)

/-- A name for a new child, where numbers are tried without a bound. -/
def seekName (g : Graph) (n : NodeId) (name : String) : Part (Except Error String) :=
  if (g.find? n name).isNone then .some (.ok name)
  else if g.config.uniqueNames then .some (.error (.duplicateName name))
  else (g.numberFrom n name 1).map .ok

theorem numbered_injective (name : String) : Function.Injective (numbered name) := by
  intro i j h
  rw [numbered, numbered, String.append_right_inj] at h
  have same : Nat.toDigits 10 i = Nat.toDigits 10 j := String.ofList_injective h
  have back := congrArg (Nat.ofDigitChars 10 · 0) same
  simpa only [Nat.ofDigitChars_toDigits (by decide : 1 < 10) (by decide)] using back

theorem numbered_ne (name : String) (k : Nat) : numbered name k ≠ name := by
  intro same
  have length := congrArg String.length same
  simp only [numbered, String.length_append] at length
  have : "_".length = 1 := by decide
  omega

/-- All names that may come of a requested one. -/
def candidate (name : String) : Nat → String
  | 0 => name
  | k + 1 => numbered name (k + 1)

theorem candidate_injective (name : String) : Function.Injective (candidate name) := by
  intro i j same
  cases i with
  | zero =>
    cases j with
    | zero => rfl
    | succ j => exact absurd same.symm (numbered_ne name _)
  | succ i =>
    cases j with
    | zero => exact absurd same (numbered_ne name _)
    | succ j => exact numbered_injective name same

section Trial
variable {g : Graph} {n : NodeId} {name : String} {start k : Nat}

theorem taken_iff : g.Taken n name ↔ some name ∈ (g.children n).map g.name? := by
  simp [Taken]

theorem isNone_find?_iff : (g.find? n name).isNone ↔ ¬ g.Taken n name := by
  rw [Option.isNone_iff_eq_none, find?_eq_none_iff]
  simp [Taken]

theorem taken_of_find? (found : ¬ (g.find? n name).isNone) : g.Taken n name :=
  by_contra fun free => found (isNone_find?_iff.2 free)

/-- Different names cannot all be taken if they are more than the children. -/
theorem exists_not_taken (g : Graph) (n : NodeId) {names : Nat → String}
    (apart : Function.Injective names) : ∃ k ≤ (g.children n).length, ¬ g.Taken n (names k) := by
  by_contra taken
  push Not at taken
  let tried := (List.range ((g.children n).length + 1)).map fun k => some (names k)
  have nodup : tried.Nodup :=
    List.nodup_range.map fun i j same => apart (Option.some.inj same)
  have subset : tried ⊆ (g.children n).map g.name? := by
    intro c hc
    obtain ⟨k, hk, rfl⟩ := List.mem_map.1 hc
    exact taken_iff.1 (taken k (Nat.lt_succ_iff.1 (List.mem_range.1 hk)))
  have length := (List.Nodup.subperm nodup subset).length_le
  simp only [tried, List.length_map, List.length_range] at length
  omega

/-- A taken name can be numbered, and the number need not be larger than the count of children. -/
theorem exists_least (taken : g.Taken n name) :
    ∃ k ≤ (g.children n).length, IsLeast (g.freeNumbers n name 1) k := by
  classical
  obtain ⟨k, le, free⟩ := exists_not_taken g n (candidate_injective name)
  have member : k ∈ g.freeNumbers n name 1 := by
    cases k with
    | zero => exact absurd taken free
    | succ k => exact ⟨Nat.succ_pos k, free⟩
  have least := Set.Nonempty.isLeast_natFind ⟨k, member⟩
  exact ⟨_, (least.2 member).trans le, least⟩

/-! ### Without a bound -/

theorem inl_mem_numberStep_iff {free : String} : .inl free ∈ g.numberStep n name k ↔
    free = numbered name k ∧ ¬ g.Taken n (numbered name k) := by
  rw [numberStep, Part.mem_some_iff]
  split
  · next unused => simp [isNone_find?_iff.1 unused]
  · next found => simp [taken_of_find? found]

theorem inr_mem_numberStep_iff {next : Nat} : .inr next ∈ g.numberStep n name k ↔
    next = k + 1 ∧ g.Taken n (numbered name k) := by
  rw [numberStep, Part.mem_some_iff]
  split
  · next unused => simp [isNone_find?_iff.1 unused]
  · next found => simp [taken_of_find? found]

/-- A step that passes over a taken name passes over no free one. -/
theorem freeNumbers_succ (taken : g.Taken n (numbered name start)) :
    g.freeNumbers n name (start + 1) = g.freeNumbers n name start := by
  refine Set.ext fun k => and_congr_left fun free => ⟨Nat.le_of_succ_le, fun le => ?_⟩
  refine Nat.lt_of_le_of_ne le ?_
  rintro rfl
  exact free taken

/-- Induction on the steps that are left before the least free number. -/
theorem mem_numberFrom_of_isLeast (least : IsLeast (g.freeNumbers n name start) k) :
    numbered name k ∈ g.numberFrom n name start := by
  induction least.1.1 using Nat.decreasingInduction with
  | self => exact PFun.fix_stop (inl_mem_numberStep_iff.2 ⟨rfl, least.1.2⟩)
  | of_succ j below ih =>
    have taken : g.Taken n (numbered name j) := by
      by_contra free
      exact absurd (least.2 ⟨le_rfl, free⟩) (Nat.not_le.2 below)
    have rest := ih (freeNumbers_succ taken ▸ least)
    exact PFun.mem_fix_iff.2 (.inr ⟨j + 1, inr_mem_numberStep_iff.2 ⟨rfl, taken⟩, rest⟩)

/-- The trial stops at the least free number and nowhere else. -/
theorem mem_numberFrom_iff {free : String} : free ∈ g.numberFrom n name start ↔
    ∃ k, free = numbered name k ∧ IsLeast (g.freeNumbers n name start) k := by
  constructor
  · intro ends
    refine PFun.fixInduction' ends (fun start stops => ?_) fun start next _ goes ih => ?_
    · obtain ⟨rfl, unused⟩ := inl_mem_numberStep_iff.1 stops
      exact ⟨start, rfl, ⟨le_rfl, unused⟩, fun k hk => hk.1⟩
    · obtain ⟨rfl, taken⟩ := inr_mem_numberStep_iff.1 goes
      rwa [freeNumbers_succ taken] at ih
  · rintro ⟨k, rfl, least⟩
    exact mem_numberFrom_of_isLeast least

/-- Only without a free name the trial would not end. -/
theorem dom_numberFrom_iff :
    (g.numberFrom n name start).Dom ↔ (g.freeNumbers n name start).Nonempty := by
  classical
  constructor
  · intro ends
    obtain ⟨k, -, least⟩ := mem_numberFrom_iff.1 (Part.get_mem ends)
    exact ⟨k, least.1⟩
  · intro free
    exact Part.dom_iff_mem.2 ⟨_, mem_numberFrom_of_isLeast free.isLeast_natFind⟩

/-- The trial ends from every number on. -/
theorem dom_numberFrom (g : Graph) (n : NodeId) (name : String) (start : Nat) :
    (g.numberFrom n name start).Dom := by
  have apart : Function.Injective fun k => numbered name (start + k) := fun _ _ same =>
    Nat.add_left_cancel (numbered_injective name same)
  obtain ⟨k, -, free⟩ := exists_not_taken g n apart
  exact dom_numberFrom_iff.2 ⟨start + k, Nat.le_add_right start k, free⟩

/-! ### Within a bound -/

/-- Trying as many numbers as are needed gives the least one. -/
theorem find?_numbered {count : Nat} (least : IsLeast (g.freeNumbers n name 1) k)
    (enough : k ≤ count) :
    (((List.range count).map fun j => numbered name (j + 1)).find? fun c =>
      (g.find? n c).isNone) = some (numbered name k) := by
  obtain ⟨⟨positive, free⟩, lower⟩ := least
  obtain ⟨k, rfl⟩ := Nat.exists_eq_add_of_le' positive
  have first : (List.range count).find? (fun j => (g.find? n (numbered name (j + 1))).isNone) =
      some k := by
    rw [List.find?_range_eq_some]
    refine ⟨isNone_find?_iff.2 free, List.mem_range.2 enough, fun j below => ?_⟩
    rw [Bool.not_eq_true', Bool.eq_false_iff, ne_eq, isNone_find?_iff]
    exact fun unused => absurd (lower ⟨Nat.succ_pos j, unused⟩) (by omega)
  rw [List.find?_map]
  simp only [Function.comp_def, first]
  rfl

theorem freeName_of_free (free : ¬ g.Taken n name) : g.freeName n name = .ok name := by
  rw [freeName, if_pos (isNone_find?_iff.2 free)]
  rfl

theorem freeName_of_taken (taken : g.Taken n name) (le : k ≤ (g.children n).length)
    (least : IsLeast (g.freeNumbers n name 1) k) : g.freeName n name =
      if g.config.uniqueNames then .error (.duplicateName name) else .ok (numbered name k) := by
  have ⟨_, mem, _⟩ := taken
  obtain ⟨w, contents⟩ := Option.isSome_iff_exists.1 (isSome_contents?_of_mem_children mem)
  have network : g.network n = .ok w := network_eq_ok_iff.2 contents
  rw [children_of_network network] at le
  rw [freeName, if_neg fun free => isNone_find?_iff.1 free taken]
  cases g.config.uniqueNames with
  | true => rfl
  | false =>
    simp only [network, bind, Except.bind, find?_numbered least (Nat.le_succ_of_le le)]
    rfl

theorem seekName_of_free (free : ¬ g.Taken n name) : g.seekName n name = .some (.ok name) := by
  rw [seekName, if_pos (isNone_find?_iff.2 free)]

theorem seekName_of_taken (taken : g.Taken n name) (least : IsLeast (g.freeNumbers n name 1) k) :
    g.seekName n name = .some
      (if g.config.uniqueNames then .error (.duplicateName name) else .ok (numbered name k)) := by
  have ends := Part.eq_some_iff.2 (mem_numberFrom_of_isLeast least)
  rw [seekName, if_neg fun free => isNone_find?_iff.1 free taken, ends, Part.map_some]
  cases g.config.uniqueNames <;> rfl

end Trial

/-- The search without a bound always ends, and the bound takes nothing from it. -/
theorem seekName_eq (g : Graph) (n : NodeId) (name : String) :
    g.seekName n name = .some (g.freeName n name) := by
  by_cases taken : g.Taken n name
  · obtain ⟨k, le, least⟩ := exists_least taken
    rw [seekName_of_taken taken least, freeName_of_taken taken le least]
  · rw [seekName_of_free taken, freeName_of_free taken]

/-- Where names may be numbered, a new child gets the requested name if no other child has it, and
otherwise that name with the least number which none of them has. The trial of one number after the
other ends there, having counted no further than there are children. -/
theorem freeName_least {g : Graph} (n : NodeId) (name : String)
    (numbers : g.config.uniqueNames = false) :
    ∃ free, g.seekName n name = .some (.ok free) ∧ g.freeName n name = .ok free ∧
      ¬ g.Taken n free ∧ (¬ g.Taken n name → free = name) ∧
      (g.Taken n name → ∃ k ≤ (g.children n).length,
        free = numbered name k ∧ IsLeast (g.freeNumbers n name 1) k) := by
  rw [seekName_eq]
  by_cases taken : g.Taken n name
  · obtain ⟨k, le, least⟩ := exists_least taken
    have eq : g.freeName n name = .ok (numbered name k) := by
      rw [freeName_of_taken taken le least, numbers]
      rfl
    exact ⟨_, congrArg Part.some eq, eq, least.1.2, fun free => absurd taken free,
      fun _ => ⟨k, le, rfl, least⟩⟩
  · have eq := freeName_of_free taken
    exact ⟨name, congrArg Part.some eq, eq, taken, fun _ => rfl, fun found => absurd found taken⟩

/-- A root that has been asked to take in two nodes `n` and one `n_3`. -/
def gapped : Graph :=
  let g := create { Config.standard with uniqueNames := false } .start 0 []
  let g := ((addNetwork ⟨1⟩ "n").apply g).2
  let g := ((addNetwork ⟨1⟩ "n").apply g).2
  ((addNetwork ⟨1⟩ "n_3").apply g).2

theorem gapped_names : (gapped.children ⟨1⟩).map gapped.name? =
    [some "n", some "n_1", some "n_3"] := by rfl

/-- The second node was numbered, so the third one gets the number between it and the last. -/
theorem gapped_fills_gap : gapped.config.uniqueNames = false ∧
    gapped.freeName ⟨1⟩ "n" = .ok "n_2" ∧ "n_2" ∈ gapped.numberFrom ⟨1⟩ "n" 1 := by
  have numbers : gapped.config.uniqueNames = false := by rfl
  have taken {name : String} : gapped.Taken ⟨1⟩ name ↔ name ∈ ["n", "n_1", "n_3"] := by
    rw [taken_iff, gapped_names]
    simp
  obtain ⟨free, -, eq, -, -, numbering⟩ := freeName_least ⟨1⟩ "n" numbers
  obtain ⟨k, -, rfl, least⟩ := numbering (taken.2 (by decide))
  have two : IsLeast (gapped.freeNumbers ⟨1⟩ "n" 1) 2 := by
    refine ⟨⟨by decide, fun found => absurd (taken.1 found) (by decide)⟩, fun j hj => ?_⟩
    rcases hj.1.eq_or_lt with rfl | above
    · exact absurd (taken.2 (by decide)) hj.2
    · exact above
  rw [least.unique two] at eq
  exact ⟨numbers, eq, mem_numberFrom_of_isLeast two⟩

end Dataflow.Graph
