import Dataflow.Json
import Mathlib
set_option autoImplicit false

/-!
Trees that a document is written as. All that is asked of such a tree is asked at every place in it,
so it is one predicate with one recursion. The JSON values in a document are plain trees, and
reading takes them back as they were as long as it has room for all the containers that stand in one
another.
-/

namespace Dataflow
namespace Wire

mutual
/-- `p` holds of the tree and of every tree in it, the names of members included. -/
def Every (p : Wire → Prop) : Wire → Prop
  | .list items => p (.list items) ∧ EveryItem p items
  | .record members => p (.record members) ∧ EveryMember p members
  | w => p w

def EveryItem (p : Wire → Prop) : List Wire → Prop
  | [] => True
  | w :: ws => Every p w ∧ EveryItem p ws

def EveryMember (p : Wire → Prop) : List (Wire × Wire) → Prop
  | [] => True
  | (k, w) :: ws => Every p k ∧ Every p w ∧ EveryMember p ws
end

mutual
def decidableEvery {p : Wire → Prop} [DecidablePred p] : (w : Wire) → Decidable (w.Every p)
  | .list items =>
    have := decidableEveryItem (p := p) items
    inferInstanceAs (Decidable (p (.list items) ∧ EveryItem p items))
  | .record members =>
    have := decidableEveryMember (p := p) members
    inferInstanceAs (Decidable (p (.record members) ∧ EveryMember p members))
  | .null => inferInstanceAs (Decidable (p .null))
  | .bool b => inferInstanceAs (Decidable (p (.bool b)))
  | .int i => inferInstanceAs (Decidable (p (.int i)))
  | .float x => inferInstanceAs (Decidable (p (.float x)))
  | .text s => inferInstanceAs (Decidable (p (.text s)))
  | .bytes b => inferInstanceAs (Decidable (p (.bytes b)))
  | .broken => inferInstanceAs (Decidable (p .broken))

def decidableEveryItem {p : Wire → Prop} [DecidablePred p] :
    (items : List Wire) → Decidable (EveryItem p items)
  | [] => inferInstanceAs (Decidable True)
  | w :: ws =>
    have := decidableEvery (p := p) w
    have := decidableEveryItem (p := p) ws
    inferInstanceAs (Decidable (_ ∧ _))

def decidableEveryMember {p : Wire → Prop} [DecidablePred p] :
    (members : List (Wire × Wire)) → Decidable (EveryMember p members)
  | [] => inferInstanceAs (Decidable True)
  | (k, w) :: ws =>
    have := decidableEvery (p := p) k
    have := decidableEvery (p := p) w
    have := decidableEveryMember (p := p) ws
    inferInstanceAs (Decidable (_ ∧ _ ∧ _))
end

instance {p : Wire → Prop} [DecidablePred p] (w : Wire) : Decidable (w.Every p) := decidableEvery w

/-- The whole numbers that fit into 64 bits, with a sign or without. -/
def IsWord (i : Int) : Prop := -(2 ^ 63) ≤ i ∧ i < 2 ^ 64

/-- What is written says something: whole numbers have 64 bits, fractions are finite and every
member has a text for its name. -/
def Plain : Wire → Prop
  | .int i => IsWord i
  | .float x => x.isFinite = true
  | .record members => ∀ m ∈ members, ∃ s, m.1 = .text s
  | .bytes _ | .broken => False
  | _ => True

mutual
/-- How many containers stand in one another at most. -/
def depth : Wire → Nat
  | .list items => itemsDepth items + 1
  | .record members => membersDepth members + 1
  | _ => 0

def itemsDepth : List Wire → Nat
  | [] => 0
  | w :: ws => max w.depth (itemsDepth ws)

def membersDepth : List (Wire × Wire) → Nat
  | [] => 0
  | (_, w) :: ws => max w.depth (membersDepth ws)
end

theorem everyItem_iff {p : Wire → Prop} {items : List Wire} :
    EveryItem p items ↔ ∀ w ∈ items, w.Every p := by
  induction items with
  | nil => simp [EveryItem]
  | cons w ws ih => simp [EveryItem, ih]

theorem everyMember_append {p : Wire → Prop} {ms ns : List (Wire × Wire)} :
    EveryMember p (ms ++ ns) ↔ EveryMember p ms ∧ EveryMember p ns := by
  induction ms with
  | nil => simp [EveryMember]
  | cons m ms ih => simp [EveryMember, ih, and_assoc]

theorem plain_record_nil : (record []).Every Plain :=
  ⟨fun _ h => (List.not_mem_nil h).elim, trivial⟩

theorem plain_record_cons {s : String} {w : Wire} {ms : List (Wire × Wire)} :
    (record ((.text s, w) :: ms)).Every Plain ↔ w.Every Plain ∧ (record ms).Every Plain := by
  simp only [Every, Plain, EveryMember, List.forall_mem_cons, true_and, text.injEq, exists_eq']
  exact ⟨fun ⟨h, hw, hms⟩ => ⟨hw, h, hms⟩, fun ⟨hw, h, hms⟩ => ⟨h, hw, hms⟩⟩

theorem plain_record_append {ms ns : List (Wire × Wire)} :
    (record (ms ++ ns)).Every Plain ↔ (record ms).Every Plain ∧ (record ns).Every Plain := by
  simp only [Every, Plain, everyMember_append, List.forall_mem_append]
  exact ⟨fun ⟨⟨h, h'⟩, hms, hns⟩ => ⟨⟨h, hms⟩, h', hns⟩,
    fun ⟨⟨h, hms⟩, h', hns⟩ => ⟨⟨h, h'⟩, hms, hns⟩⟩

theorem membersDepth_append (ms ns : List (Wire × Wire)) :
    membersDepth (ms ++ ns) = max (membersDepth ms) (membersDepth ns) := by
  induction ms with
  | nil => simp [membersDepth]
  | cons m ms ih =>
    obtain ⟨k, w⟩ := m
    simp only [List.cons_append, membersDepth, ih, Nat.max_assoc]

end Wire

namespace Json

mutual
/-- What the type of JSON values holds: numbers of 64 bits, no number that is not finite, and
objects whose names stand in ascending order. -/
def Sound : Json → Prop
  | .int i => Wire.IsWord i
  | .float x => x.isFinite = true
  | .list items => ItemsSound items
  | .object members => (members.map Prod.fst).Pairwise (· < ·) ∧ MembersSound members
  | _ => True

def ItemsSound : List Json → Prop
  | [] => True
  | v :: vs => v.Sound ∧ ItemsSound vs

def MembersSound : List (String × Json) → Prop
  | [] => True
  | (_, v) :: vs => v.Sound ∧ MembersSound vs
end

mutual
theorem plain_toWire : (v : Json) → v.Sound → v.toWire.Every Wire.Plain
  | .null, _ | .bool _, _ | .text _, _ => trivial
  | .int _, h | .float _, h => h
  | .list items, h => ⟨trivial, plain_wireItems items h⟩
  | .object members, h => plain_wireMembers members h.2

theorem plain_wireItems :
    (vs : List Json) → ItemsSound vs → Wire.EveryItem Wire.Plain (wireItems vs)
  | [], _ => trivial
  | v :: vs, h => ⟨plain_toWire v h.1, plain_wireItems vs h.2⟩

theorem plain_wireMembers : (ms : List (String × Json)) → MembersSound ms →
    (Wire.record (wireMembers ms)).Every Wire.Plain
  | [], _ => Wire.plain_record_nil
  | (_, v) :: ms, h => Wire.plain_record_cons.2 ⟨plain_toWire v h.1, plain_wireMembers ms h.2⟩
end

/-- A name beyond all others goes to the end. -/
theorem insert_of_forall_lt {k : String} {v : Json} {o : List (String × Json)}
    (h : ∀ p ∈ o, p.1 < k) : insert k v o = o ++ [(k, v)] := by
  induction o with
  | nil => rfl
  | cons p o ih =>
    obtain ⟨l, w⟩ := p
    have hl : l < k := h _ List.mem_cons_self
    have hne : k ≠ l := fun e => String.lt_irrefl l (e ▸ hl)
    have hlt : ¬ k < l := fun e => String.lt_irrefl l (String.lt_trans hl e)
    simp only [insert, if_neg hne, if_neg hlt, ih fun p hp => h p (List.mem_cons_of_mem _ hp),
      List.cons_append]

/-- Members in ascending order stay as they are. -/
theorem ofMembers_of_pairwise {ms : List (String × Json)}
    (h : (ms.map Prod.fst).Pairwise (· < ·)) : ofMembers ms = .object ms := by
  suffices ∀ done, (∀ p ∈ done, ∀ q ∈ ms, p.1 < q.1) →
      ms.foldl (fun o p => insert p.1 p.2 o) done = done ++ ms by
    simpa [ofMembers] using this []
  induction ms with
  | nil => simp
  | cons m ms ih =>
    obtain ⟨hm, hms⟩ := List.pairwise_cons.1 h
    intro done hdone
    rw [List.foldl_cons, insert_of_forall_lt fun p hp => hdone p hp m List.mem_cons_self,
      ih hms, List.append_assoc, List.singleton_append]
    intro p hp q hq
    obtain hp | hp := List.mem_append.1 hp
    · exact hdone p hp q (List.mem_cons_of_mem _ hq)
    · obtain rfl := List.mem_singleton.1 hp
      exact hm _ (List.mem_map_of_mem hq)

theorem opensWithBytes_wireMembers (ms : List (String × Json)) :
    opensWithBytes (wireMembers ms) = false := by
  cases ms <;> rfl

mutual
/-- A value comes back from its tree exactly if there is room for its containers. -/
theorem ofWire?_toWire (room : Nat) :
    (v : Json) → v.Sound → ofWire? room v.toWire = if v.toWire.depth ≤ room then some v else none
  | .null, _ | .bool _, _ | .text _, _ | .int _, _ => by simp [toWire, ofWire?, Wire.depth]
  | .float x, h => by
    have hx : x.isFinite = true := h
    simp [toWire, ofWire?, Wire.depth, ofFloat, hx]
  | .list items, h => by
    simp only [toWire, ofWire?, Wire.depth, ofItems?_wireItems (room - 1) items h]
    grind
  | .object members, h => by
    simp only [toWire, ofWire?, Wire.depth, opensWithBytes_wireMembers,
      ofMembers?_wireMembers (room - 1) members h.2]
    have := ofMembers_of_pairwise h.1
    grind

theorem ofItems?_wireItems (room : Nat) : (vs : List Json) → ItemsSound vs →
    ofItems? room (wireItems vs) =
      if Wire.itemsDepth (wireItems vs) ≤ room then some vs else none
  | [], _ => by simp [wireItems, ofItems?, Wire.itemsDepth]
  | v :: vs, h => by
    simp only [wireItems, ofItems?, Wire.itemsDepth, ofWire?_toWire room v h.1,
      ofItems?_wireItems room vs h.2]
    grind

theorem ofMembers?_wireMembers (room : Nat) : (ms : List (String × Json)) → MembersSound ms →
    ofMembers? room (wireMembers ms) =
      if Wire.membersDepth (wireMembers ms) ≤ room then some ms else none
  | [], _ => by simp [wireMembers, ofMembers?, Wire.membersDepth]
  | (k, v) :: ms, h => by
    simp only [wireMembers, ofMembers?, Wire.membersDepth, Wire.asText?, ofWire?_toWire room v h.1,
      ofMembers?_wireMembers room ms h.2]
    grind
end

end Json
end Dataflow
