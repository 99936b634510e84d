import Dataflow.Proofs.Issue
import Dataflow.Proofs.Listening
import Dataflow.Proofs.Saved
set_option autoImplicit false

/-!
Numbers from the supply among stored ones. Main statement: whether a document can be loaded beside what
is there, or in place of it, without two nodes of one number hangs on nothing but the numbers that the
supply has to give for nodes without one; where a document is loaded in place of all, they are apart as
long as there is room above, and from then on all new numbers are.
-/

namespace Dataflow

namespace IdSupply
variable {s : IdSupply} {l : List (Option UInt64)} {live : List NodeId}

/-- No number that the supply has to give is in use, stored in the document, or given twice. -/
def Unclaimed (s : IdSupply) (live : List NodeId) (l : List (Option UInt64)) : Prop :=
  (s.drawn l).Nodup ∧ ∀ c ∈ s.drawn l, c ∉ live ∧ some c.raw ∉ l

theorem mem_stored_iff (c : NodeId) : c ∈ (l.filterMap id).map NodeId.mk ↔ some c.raw ∈ l := by
  simp only [List.mem_map, List.mem_filterMap, id_eq, exists_eq_right]
  constructor
  · rintro ⟨x, hx, rfl⟩
    exact hx
  · intro hc
    exact ⟨c.raw, hc, rfl⟩

/-- Where stored numbers are apart from each other and from those in use, only those from the supply can
be in the way. -/
theorem nodup_giveAll_iff (nodup : live.Nodup) (distinct : (l.filterMap id).Nodup)
    (unused : ∀ x, some x ∈ l → (⟨x⟩ : NodeId) ∉ live) :
    (live ++ (s.giveAll l).1).Nodup ↔ s.Unclaimed live l := by
  have stored : ((l.filterMap id).map NodeId.mk).Nodup :=
    distinct.map fun a b h => congrArg NodeId.raw h
  have apart : ∀ c ∈ live, c ∉ (l.filterMap id).map NodeId.mk := by
    intro c hc mem
    exact unused c.raw ((mem_stored_iff c).1 mem) hc
  rw [((s.giveAll_perm l).append_left live).nodup_iff, List.nodup_append', List.nodup_append',
    Unclaimed]
  simp only [List.disjoint_left, List.mem_append, mem_stored_iff]
  constructor
  · rintro ⟨-, ⟨-, fresh, free⟩, away⟩
    exact ⟨fresh, fun c hc => ⟨fun mem => away mem (.inr hc), fun mem => free mem hc⟩⟩
  · rintro ⟨fresh, free⟩
    refine ⟨nodup, ⟨stored, fresh, fun c hs hc => (free c hc).2 hs⟩, ?_⟩
    rintro c hc (hs | hd)
    · exact apart c hc ((mem_stored_iff c).2 hs)
    · exact (free c hd).1 hc

/-! ### Room above -/

/-- As many numbers as `l` asks for can be given above all that are given or stored by then. -/
def Room (s : IdSupply) (l : List (Option UInt64)) : Prop :=
  s.next.toNat + l.length < 2 ^ 64 ∧ ∀ x, some x ∈ l → x.toNat + 1 + l.length < 2 ^ 64

theorem Room.tail {o : Option UInt64} (room : s.Room (o :: l)) : s.Room l := by
  obtain ⟨low, stored⟩ := room
  simp only [List.length_cons] at low stored
  refine ⟨by omega, fun x hx => ?_⟩
  have := stored x (List.mem_cons_of_mem _ hx)
  omega

theorem toNat_succ {x : UInt64} (h : x.toNat + 1 < 2 ^ 64) : (x + 1).toNat = x.toNat + 1 := by
  rw [UInt64.toNat_add]
  simp only [UInt64.toNat_one]
  omega

theorem room_passOver (room : s.Room l) {n : UInt64} (small : n.toNat + 1 + l.length < 2 ^ 64) :
    (s.passOver n).Room l ∧ s.next.toNat ≤ (s.passOver n).next.toNat ∧
      n.toNat < (s.passOver n).next.toNat := by
  have fits : n.toNat + 1 < UInt64.size := by
    rw [UInt64.size]
    omega
  refine ⟨⟨?_, room.2⟩, UInt64.le_iff_toNat_le.1 (s.next_le_passOver n),
    UInt64.lt_iff_toNat_lt.1 (s.lt_passOver n fits)⟩
  simp only [passOver, if_pos fits]
  split
  · rw [toNat_succ fits]
    exact small
  · exact room.1

theorem next_le_give {o : Option UInt64} (room : s.Room (o :: l)) : (s.give o).2.Room l ∧
    s.next.toNat ≤ (s.give o).2.next.toNat ∧ (s.give o).1.raw.toNat < (s.give o).2.next.toNat := by
  have low := room.1
  rw [List.length_cons] at low
  cases o with
  | none =>
    have next : (s.next + 1).toNat = s.next.toNat + 1 := toNat_succ (by omega)
    refine ⟨⟨?_, room.tail.2⟩, ?_, ?_⟩ <;> simp only [give, take, next] <;> omega
  | some n =>
    have big := room.2 n List.mem_cons_self
    rw [List.length_cons] at big
    exact room_passOver room.tail (by omega)

/-- With room all numbers that are given lie below the next one, and none of those from the supply below
the first. -/
theorem giveAll_lt (room : s.Room l) : s.next.toNat ≤ (s.giveAll l).2.next.toNat ∧
    ∀ c ∈ (s.giveAll l).1, c.raw.toNat < (s.giveAll l).2.next.toNat := by
  induction l generalizing s with
  | nil => exact ⟨Nat.le_refl _, nofun⟩
  | cons o l ih =>
    obtain ⟨room, up, below⟩ := next_le_give room
    obtain ⟨up', below'⟩ := ih room
    refine ⟨up.trans up', fun c hc => ?_⟩
    rcases List.mem_cons.1 hc with rfl | hc
    · exact below.trans_le up'
    · exact below' c hc

theorem le_drawn (room : s.Room l) :
    (s.drawn l).Nodup ∧ ∀ c ∈ s.drawn l, s.next.toNat ≤ c.raw.toNat := by
  induction l generalizing s with
  | nil => exact ⟨.nil, nofun⟩
  | cons o l ih =>
    obtain ⟨rest, up, below⟩ := next_le_give room
    obtain ⟨nodup, low⟩ := ih rest
    cases o with
    | some n => exact ⟨nodup, fun c hc => up.trans (low c hc)⟩
    | none =>
      refine ⟨List.nodup_cons.2 ⟨fun mem => ?_, nodup⟩, fun c hc => ?_⟩
      · exact Nat.lt_irrefl _ (below.trans_le (low _ mem))
      · rcases List.mem_cons.1 hc with rfl | hc
        · exact Nat.le_refl _
        · exact up.trans (low c hc)

/-- With room above all that is in use or stored, all numbers from the supply are new. -/
theorem unclaimed_of_room (room : s.Room l) (live_lt : ∀ c ∈ live, c.raw.toNat < s.next.toNat)
    (stored_lt : ∀ x, some x ∈ l → x.toNat < s.next.toNat) : s.Unclaimed live l := by
  obtain ⟨nodup, low⟩ := le_drawn room
  refine ⟨nodup, fun c hc => ⟨fun mem => ?_, fun mem => ?_⟩⟩
  · exact absurd (live_lt c mem) (Nat.not_lt.2 (low c hc))
  · exact absurd (stored_lt _ mem) (Nat.not_lt.2 (low c hc))

theorem Room.left {m : List (Option UInt64)} (room : s.Room (l ++ m)) : s.Room l := by
  obtain ⟨low, stored⟩ := room
  rw [List.length_append] at low
  refine ⟨by omega, fun x hx => ?_⟩
  have := stored x (List.mem_append_left _ hx)
  rw [List.length_append] at this
  omega

end IdSupply

namespace Graph

/-! ### The largest stored number -/

/-- The second is the largest number in the list, if there is any. -/
structure Tops (l : List (Option UInt64)) (y : Option UInt64) : Prop where
  above : ∀ x, some x ∈ l → ∃ z, y = some z ∧ x ≤ z
  stored : ∀ z, y = some z → some z ∈ l

theorem Tops.append {l m : List (Option UInt64)} {y z : Option UInt64} (a : Tops l y) (b : Tops m z) :
    Tops (l ++ m) (largest y z) where
  above x hx := by
    rcases List.mem_append.1 hx with hx | hx
    · obtain ⟨u, hu, le⟩ := a.above x hx
      obtain ⟨v, hv, le'⟩ := largest_left (b := z) hu
      exact ⟨v, hv, UInt64.le_trans le le'⟩
    · obtain ⟨u, hu, le⟩ := b.above x hx
      obtain ⟨v, hv, le'⟩ := largest_right (a := y) hu
      exact ⟨v, hv, UInt64.le_trans le le'⟩
  stored u hu := by
    rcases of_largest hu with h | h
    · exact List.mem_append_left _ (a.stored u h)
    · exact List.mem_append_right _ (b.stored u h)

theorem tops_singleton (o : Option UInt64) : Tops [o] o where
  above x hx := ⟨x, (List.mem_singleton.1 hx).symm, UInt64.le_refl x⟩
  stored _ hz := List.mem_singleton.2 hz.symm

mutual
theorem tops_node (d : NodeDocument) : Tops d.numbers d.largestId := by
  match d with
  | ⟨_, id, _, _, none⟩ => exact tops_singleton id
  | ⟨_, id, _, _, some ⟨nodes, _, _⟩⟩ => exact (tops_singleton id).append (tops_nodes nodes)

theorem tops_nodes (l : List (String × NodeDocument)) : Tops (numbersIn l) (largestIdOf l) := by
  match l with
  | [] => exact ⟨nofun, nofun⟩
  | (_, d) :: rest => exact (tops_node d).append (tops_nodes rest)
end

/-- The supply after the numbers of a document have been passed over. -/
def reserved (s : IdSupply) (d : NetworkDocument) : IdSupply :=
  match d.largestId with
  | some x => s.passOver x
  | none => s

theorem passOverIds_apply (d : NetworkDocument) (g : Graph) :
    (passOverIds d).apply g = (.ok (), { g with ids := reserved g.ids d }) := by
  rw [passOverIds, reserved]
  cases d.largestId <;> rfl

/-- With room it is above all numbers in the document. -/
theorem room_reserved {s : IdSupply} {d : NetworkDocument} (room : s.Room (none :: d.numbers)) :
    (reserved s d).Room (none :: d.numbers) ∧ s.next.toNat ≤ (reserved s d).next.toNat ∧
      ∀ x, some x ∈ none :: d.numbers → x.toNat < (reserved s d).next.toNat := by
  have tops : Tops d.numbers d.largestId := tops_nodes d.nodes
  rw [reserved]
  cases hd : d.largestId with
  | none =>
    refine ⟨room, Nat.le_refl _, fun x hx => ?_⟩
    obtain ⟨z, hz, -⟩ := tops.above x (by simpa using hx)
    rw [hd] at hz
    cases hz
  | some y =>
    obtain ⟨room', up, above⟩ :=
      IdSupply.room_passOver room (room.2 y (List.mem_cons_of_mem none (tops.stored y hd)))
    refine ⟨room', up, fun x hx => ?_⟩
    obtain ⟨z, hz, le⟩ := tops.above x (by simpa using hx)
    rw [hd] at hz
    cases hz
    exact (UInt64.le_iff_toNat_le.1 le).trans_lt above

/-! ### What loading comes to -/

section Result
variable {l : List (Option UInt64)} {g : Graph} {α : Type} {post : α → Graph → Prop}

theorem Issued.noClash {r : Except Error α × Graph} (a : Issued l g post r)
    (nodup : (g.nodes.keys ++ (g.ids.giveAll l).1).Nodup) : NoClash r.1 := by
  cases a with
  | done issue holds => exact noClash_ok _
  | halt stop =>
    obtain ⟨p, rest, rfl, keys, -, clash⟩ := stop
    intro id he
    obtain ⟨o, m, rfl, next, known⟩ := clash id (Except.error.inj he)
    rw [IdSupply.giveAll_append, IdSupply.giveAll, ← next] at nodup
    rw [keys] at known
    simp only [← List.append_assoc] at nodup
    exact (List.nodup_append'.1 nodup).2.2 known List.mem_cons_self

theorem Issued.ok {a : α} {h : Graph} (x : Issued l g post (.ok a, h)) : Issue l g h ∧ post a h := by
  cases x with
  | done issue holds => exact ⟨issue, holds⟩

/-- Also where loading stops, no more numbers are spent than are given. -/
theorem Issued.spent {r : Except Error α × Graph} (a : Issued l g post r) :
    ∃ p rest, l = p ++ rest ∧ r.2.ids = (g.ids.giveAll p).2 ∧
      r.2.nodes.keys ⊆ g.nodes.keys ++ (g.ids.giveAll p).1 := by
  cases a with
  | done issue holds =>
    exact ⟨l, [], by simp, issue.ids, by rw [issue.keys]; exact fun _ h => h⟩
  | halt stop =>
    obtain ⟨p, rest, rfl, keys, ids | ⟨o, m, rfl, ids⟩, -⟩ := stop
    · exact ⟨p, rest, rfl, ids, by rw [keys]; exact fun _ h => h⟩
    · refine ⟨p ++ [o], m, by simp, ids, ?_⟩
      rw [keys, IdSupply.giveAll_append, ← List.append_assoc]
      exact List.subset_append_left _ _

end Result

/-- What holds of a graph that has been made from a document with numbers of the supply. -/
structure Furnished (s : IdSupply) (d : NetworkDocument) (h : Graph) : Prop where
  root : h.root = s.take.1
  keys : h.nodes.keys = (s.giveAll (none :: d.numbers)).1
  ids : h.ids = (s.giveAll (none :: d.numbers)).2
  stand : h.StandIn s.take.1 s.take.2 d.nodes

theorem Furnished.told {s : IdSupply} {d : NetworkDocument} {h : Graph} (a : Furnished s d h)
    (journal : List Entry) : Furnished s d { h with journal := journal } :=
  have same : SameFrame h { h with journal := journal } := sameFrame_of_nodes rfl rfl rfl
  ⟨a.root, a.keys, a.ids, a.stand.lasting (.of_sameTree (.of_sameFrame same))⟩

section Vacant
variable {r : Registry} (sound : ∀ name t, r.find? name = some t → t.Sound) (config : Config)
  (d : NetworkDocument) (g : Graph)
include sound

theorem issued_vacant : Issued d.numbers (vacant config d g)
    (fun _ h => h.StandIn (vacant config d g).root (vacant config d g).ids d.nodes)
    ((loadInto r (vacant config d g).root d).apply (vacant config d g)) :=
  issued_loadInto sound _ d (lawful_create ..)

omit sound in
/-- The root of a new graph gets the first number. -/
theorem vacant_spec : (vacant config d g).root = (reserved g.ids d).take.1 ∧
    (vacant config d g).ids = (reserved g.ids d).take.2 ∧
    (vacant config d g).nodes.keys = [(reserved g.ids d).take.1] := by
  rw [vacant, passOverIds_apply]
  exact ⟨rfl, rfl, rfl⟩

theorem filled_of_ok {h : Graph}
    (ok : (loadInto r (vacant config d g).root d).apply (vacant config d g) = (.ok (), h)) :
    h.Lawful ∧ Furnished (reserved g.ids d) d h := by
  obtain ⟨root, ids, keys⟩ := vacant_spec config d g
  have issued := issued_vacant sound config d g
  rw [ok] at issued
  obtain ⟨issue, stand⟩ := issued.ok
  refine ⟨issue.lawful, issue.root.trans root, ?_, ?_, ?_⟩
  · rw [issue.keys, keys, ids]
    rfl
  · rw [issue.ids, ids]
    rfl
  · rw [root, ids] at stand
    exact stand

theorem unclaimed_vacant (distinct : (d.numbers.filterMap id).Nodup) :
    ((reserved g.ids d).Unclaimed [] (none :: d.numbers) →
      NoClash ((loadInto r (vacant config d g).root d).apply (vacant config d g)).1) ∧
    ∀ h, (loadInto r (vacant config d g).root d).apply (vacant config d g) = (.ok (), h) →
      (reserved g.ids d).Unclaimed [] (none :: d.numbers) := by
  obtain ⟨root, ids, keys⟩ := vacant_spec config d g
  have nodup_iff := IdSupply.nodup_giveAll_iff (s := reserved g.ids d) (l := none :: d.numbers)
    List.nodup_nil (by simpa using distinct) fun _ _ => List.not_mem_nil
  refine ⟨fun unclaimed => (issued_vacant sound config d g).noClash ?_, fun h ok => nodup_iff.1 ?_⟩
  · rw [keys, ids]
    exact nodup_iff.2 unclaimed
  · obtain ⟨lawful, filled⟩ := filled_of_ok sound config d g ok
    have keys := lawful.wellFormed.tree.keys
    rwa [filled.keys] at keys

end Vacant

theorem ofDocument_apply (r : Registry) (d : NetworkDocument) (g : Graph) :
    (ofDocument r d).apply g =
      match (loadInto r (vacant .standard d g).root d).apply (vacant .standard d g) with
      | (.ok (), new) => (.ok (), { new with journal := [] })
      | (.error e, new) => (.error e, { g with ids := new.ids }) := by
  rw [ofDocument, Edit.apply_bind, rebuild_apply, passOverIds_apply]
  rcases (loadInto r (vacant .standard d g).root d).apply (vacant .standard d g) with ⟨_ | _, new⟩ <;>
    rfl

/-! ### New numbers from then on -/

/-- All numbers in use lie below the next one. -/
def Ahead (g : Graph) : Prop := ∀ c ∈ g.nodes.keys, c.raw.toNat < g.ids.next.toNat

/-- There is room for all numbers that the operation takes, and those that a client sets are below the
next one. -/
def Prudent (g : Graph) : Action → Prop
  | .addNode _ _ _ options => match options.id with
    | some id => id.raw.toNat < g.ids.next.toNat
    | none => g.ids.Room [none]
  | .addNetwork _ _ => g.ids.Room [none]
  | .loadInto _ _ d => g.ids.Room d.numbers
  | .restore _ d => g.ids.Room (none :: d.numbers)
  | .elsewhere ids _ _ => g.ids.next.toNat ≤ ids.next.toNat
  | _ => True

/-- The next number is no smaller, and where it was ahead of all it is so still. -/
structure Upward (g h : Graph) : Prop where
  next : g.ids.next.toNat ≤ h.ids.next.toNat
  ahead : g.Ahead → h.Ahead

namespace Upward
variable {g h k : Graph}

theorem trans (a : Upward g h) (b : Upward h k) : Upward g k :=
  ⟨a.next.trans b.next, fun x => b.ahead (a.ahead x)⟩

/-- No node has come. -/
theorem of_subset (keys : h.nodes.keys ⊆ g.nodes.keys)
    (next : g.ids.next.toNat ≤ h.ids.next.toNat) : Upward g h :=
  ⟨next, fun a c hc => (a c (keys hc)).trans_le next⟩

theorem refl (g : Graph) : Upward g g := of_subset (fun _ h => h) (Nat.le_refl _)

theorem steps : Edit.Steps Upward := ⟨refl, trans⟩

theorem of_minor (a : Minor g h) : Upward g h :=
  of_subset (by rw [a.keys]; exact fun _ h => h) (by rw [a.ids])

theorem of_lessened (a : Lessened g h) : Upward g h :=
  of_subset (by rw [a.keys]; exact fun _ h => h) (by rw [a.ids])

/-- Nodes have come with numbers of the supply, as far as there is room for. -/
theorem of_given {l : List (Option UInt64)} (room : g.ids.Room l)
    (ids : h.ids = (g.ids.giveAll l).2)
    (keys : h.nodes.keys ⊆ g.nodes.keys ++ (g.ids.giveAll l).1) : Upward g h := by
  obtain ⟨up, below⟩ := IdSupply.giveAll_lt room
  rw [← ids] at up below
  refine ⟨up, fun a c hc => ?_⟩
  rcases List.mem_append.1 (keys hc) with hc | hc
  · exact (a c hc).trans_le up
  · exact below c hc

end Upward

section Upward
variable {g : Graph}

theorem upward_removeTree (g : Graph) (n : NodeId) : Upward g (g.removeTree n) := by
  have leaf (g : Graph) (n : NodeId) : Upward g (g.removeLeaf n) := by
    cases ha : g.around? n with
    | none =>
      rw [removeLeaf_of_none g ha]
      exact .refl g
    | some p =>
      rw [removeLeaf_eq g ha]
      refine (Upward.of_lessened (lessened_stripped g n)).trans (.of_subset (fun c hc => ?_) (Nat.le_refl _))
      rw [detach, Table.keys_erase] at hc
      have mem := List.mem_of_mem_erase hc
      rwa [show (modifyNetwork _ p _).nodes.keys = _ from keys_modifyNode ..] at mem
  rw [removeTree]
  generalize g.below g.nodes.length n = l
  induction l generalizing g with
  | nil => exact .refl g
  | cons c l ih => exact (leaf g c).trans (ih _)

theorem upward_foldl_removeTree (l : List NodeId) (g : Graph) : Upward g (l.foldl removeTree g) := by
  induction l generalizing g with
  | nil => exact .refl g
  | cons n l ih => exact (upward_removeTree g n).trans (ih _)

theorem upward_addNode (parent : NodeId) (t : NodeType) (name : String) (options : NodeExtras)
    (sound : t.Sound) (prudent : Prudent g (.addNode parent t name options)) :
    Upward g ((addNode parent t name options).apply g).2 := by
  have number : g.ids.next.toNat ≤ (numbering options g.ids).2.next.toNat ∧
      (numbering options g.ids).1.raw.toNat < (numbering options g.ids).2.next.toNat := by
    simp only [Prudent] at prudent
    rw [numbering]
    cases hid : options.id with
    | some id =>
      rw [hid] at prudent
      exact ⟨Nat.le_refl _, prudent⟩
    | none =>
      rw [hid] at prudent
      exact (IdSupply.next_le_give prudent).2
  rcases addNode_cases g parent t name options sound with
    ⟨x, -, eq⟩ | ⟨-, eq⟩ | ⟨a, b, eq⟩ | ⟨name', insertable, eq⟩
  · rw [eq]
    exact .refl g
  · rw [eq]
    exact .of_subset (fun _ h => h) number.1
  · rw [eq]
    exact .of_subset (fun _ h => h) number.1
  · rw [eq]
    refine ⟨number.1, fun a c hc => ?_⟩
    rw [(inserted _ _ insertable).keys] at hc
    rcases List.mem_append.1 hc with hc | hc
    · exact (a c hc).trans_le number.1
    · rw [List.mem_singleton.1 hc]
      exact number.2

theorem upward_restore {r : Registry} (sound : ∀ name t, r.find? name = some t → t.Sound)
    {d : NetworkDocument} (room : g.ids.Room (none :: d.numbers)) :
    Upward g ((restore r d).apply g).2 := by
  obtain ⟨root, ids, keys⟩ := vacant_spec g.config d g
  obtain ⟨room', up, -⟩ := room_reserved room
  obtain ⟨p, rest, split, spent, known⟩ := (issued_vacant sound g.config d g).spent
  rw [split, ← List.cons_append] at room'
  obtain ⟨le, below⟩ := IdSupply.giveAll_lt room'.left
  rw [ids] at spent
  rw [ids, keys] at known
  rw [restore_apply]
  rcases h : (loadInto r (vacant g.config d g).root d).apply (vacant g.config d g) with ⟨e | u, new⟩
  · rw [h] at spent
    have last : new.ids = ((reserved g.ids d).giveAll (none :: p)).2 := spent
    rw [← last] at le
    exact .of_subset (fun _ h => h) (up.trans le)
  · rw [h] at spent known
    have last : new.ids = ((reserved g.ids d).giveAll (none :: p)).2 := spent
    rw [← last] at le below
    exact ⟨up.trans le, fun _ c hc => below c (known hc)⟩

/-- One step of a run with room. -/
theorem upward_after {o : Action} (w : LawfulWith Acyclic g) (uses : o.Uses NodeType.Sound)
    (prudent : Prudent g o) : Upward g (o.after g) := by
  have step {f : Graph → Except Error Graph} (up : ∀ h, f g = .ok h → Upward g h) :
      Upward g ((Edit.step f).apply g).2 := by
    rw [Edit.apply_step]
    cases ok : f g with
    | error x => exact .refl g
    | ok h => exact up h ok
  have drop {α : Type} {x : Edit α} (up : Upward g (x.apply g).2) :
      Upward g ((do let _ ← x : Edit Unit).apply g).2 := by
    rw [Edit.apply_bind]
    cases (x.apply g).1 <;> exact up
  cases o with
  | addNode parent t name options => exact drop (upward_addNode parent t name options uses prudent)
  | addNetwork parent name =>
    exact drop (upward_addNode parent .network name .standard uses prudent)
  | removeNode n =>
    refine step fun h ok => ?_
    rw [removeNode_ok ok]
    exact upward_removeTree g n
  | rename n name => exact step fun h ok => .of_minor (minor_rename ok)
  | clear =>
    refine Upward.trans (h := _) (upward_foldl_removeTree _ g) (.of_subset (fun _ h => h) (Nat.le_refl _))
  | connect output input =>
    refine step fun h ok => ?_
    obtain ⟨n, d, rfl⟩ := drawable_of_connect ok
    refine .of_subset ?_ (by rw [ids_drawWire])
    rw [keys_drawWire w.lawful.wellFormed d]
    exact fun _ h => h
  | disconnect output input =>
    refine step fun h ok => ?_
    rw [disconnect_ok ok]
    exact .of_lessened (lessened_cut g _)
  | assign p v => exact step fun h ok => .of_minor (minor_assign ok)
  | setAttachment n v => exact step fun h ok => .of_minor (minor_setAttachment ok)
  | read p => exact .of_minor (minor_reads rfl g)
  | readAs t p => exact .of_minor (minor_reads rfl g)
  | refresh => exact .of_minor (minor_reads rfl g)
  | removeSelected s =>
    refine Edit.leads_bind Upward.steps (Edit.leads_change fun g => .of_lessened (.foldl lessened_cut _ g))
      (fun _ g => ?_) g
    refine Edit.keeps_forM (P := Upward g) _ (fun n _ => Edit.keeps_step fun h k up ok => ?_) g (.refl g)
    split at ok
    · rw [removeNode_ok ok]
      exact up.trans (upward_removeTree h n)
    · cases ok
      exact up
  | loadInto r n d =>
    obtain ⟨p, rest, split, ids, keys⟩ := (issued_loadInto uses n d w.lawful).spent
    have room : g.ids.Room (p ++ rest) := split ▸ prudent
    exact .of_given room.left ids keys
  | restore r d => exact upward_restore uses prudent
  | elsewhere ids marks calls => exact .of_subset (fun _ h => h) prudent

end Upward

/-- The second graph came from the first one, always with room. -/
inductive Later (g : Graph) : Graph → Prop where
  | here : Later g g
  | on {h : Graph} {o : Action} (a : Later g h) (uses : o.Uses NodeType.Sound) (prudent : Prudent h o) :
    Later g (o.after h)

theorem Later.upward {g h : Graph} (w : LawfulWith Acyclic g) (a : Later g h) :
    LawfulWith Acyclic h ∧ Upward g h := by
  induction a with
  | here => exact ⟨w, .refl g⟩
  | on _ uses prudent ih => exact ⟨acyclic_after ih.1 uses, ih.2.trans (upward_after ih.1 uses prudent)⟩

/-- A number of the supply for a new node is in nobody's way where it is ahead of all. -/
theorem addNode_apart {g : Graph} (ahead : g.Ahead) (parent : NodeId) (t : NodeType) (name : String)
    (options : NodeExtras) (sound : t.Sound) (own : options.id = none) :
    NoClash ((addNode parent t name options).apply g).1 ∧
      ∀ c, ((addNode parent t name options).apply g).1 = .ok c →
        c ∉ g.nodes.keys ∧ c.raw = g.ids.next := by
  have number : numbering options g.ids = g.ids.take := by rw [numbering, own]
  rcases addNode_cases g parent t name options sound with
    ⟨x, refused, eq⟩ | ⟨taken, -⟩ | ⟨a, b, eq⟩ | ⟨name', insertable, eq⟩
  · rw [eq]
    refine ⟨fun id he => ?_, by simp⟩
    rcases refused with network | free
    · exact noClash_network g parent id (network.trans (congrArg _ (Except.error.inj he)))
    · exact noClash_freeName g parent name id (free.trans (congrArg _ (Except.error.inj he)))
  · rw [number] at taken
    exact absurd (ahead _ taken) (Nat.lt_irrefl _)
  · rw [eq]
    exact ⟨by rintro _ ⟨⟩, by simp⟩
  · rw [eq]
    refine ⟨noClash_ok _, fun c ok => ?_⟩
    cases ok
    exact ⟨insertable.fresh, by rw [number]; rfl⟩

/-- What has come of a document: nodes beside others, or a graph in place of another or on its own. -/
def Loaded (r : Registry) (d : NetworkDocument) (g h : Graph) : Prop :=
  (∃ n, (loadInto r n d).apply g = (.ok (), h)) ∨ (restore r d).apply g = (.ok (), h) ∨
    (ofDocument r d).apply g = (.ok (), h)

section Loaded
variable {r : Registry} {d : NetworkDocument} {g h : Graph}

/-- What takes the place of a graph was loaded into a new one, and only the journal differs. -/
theorem of_replaced (done : (restore r d).apply g = (.ok (), h) ∨ (ofDocument r d).apply g = (.ok (), h)) :
    ∃ config new journal,
      (loadInto r (vacant config d g).root d).apply (vacant config d g) = (.ok (), new) ∧
      h = { new with journal := journal } := by
  rcases done with done | done
  · rw [restore_apply] at done
    rcases eq : (loadInto r (vacant g.config d g).root d).apply (vacant g.config d g) with ⟨e | u, new⟩
    · rw [eq] at done
      cases done
    · rw [eq] at done
      cases done
      exact ⟨_, new, _, eq, rfl⟩
  · rw [ofDocument_apply] at done
    rcases eq : (loadInto r (vacant .standard d g).root d).apply (vacant .standard d g) with ⟨e | u, new⟩
    · rw [eq] at done
      cases done
    · rw [eq] at done
      cases done
      exact ⟨_, new, _, eq, rfl⟩

theorem noClash_replaced (clash : ∀ config,
      NoClash ((loadInto r (vacant config d g).root d).apply (vacant config d g)).1) :
    NoClash ((restore r d).apply g).1 ∧ NoClash ((ofDocument r d).apply g).1 := by
  constructor
  · have clash := clash g.config
    rw [restore_apply]
    rcases eq : (loadInto r (vacant g.config d g).root d).apply (vacant g.config d g) with ⟨e | u, new⟩
    · rwa [eq] at clash
    · exact noClash_ok _
  · have clash := clash .standard
    rw [ofDocument_apply]
    rcases eq : (loadInto r (vacant .standard d g).root d).apply (vacant .standard d g) with ⟨e | u, new⟩
    · rwa [eq] at clash
    · exact noClash_ok _

variable (sound : ∀ name t, r.find? name = some t → t.Sound)
include sound

theorem acyclic_loaded (w : LawfulWith Acyclic g) (done : Loaded r d g h) : LawfulWith Acyclic h := by
  rcases done with ⟨n, ok⟩ | done
  · have kept := keeps_loadInto keptByEdits_acyclic.toKeptByGrowth (fun _ _ h => h) sound
      (n := n) nofun d w
    rwa [ok] at kept
  · obtain ⟨config, new, journal, ok, rfl⟩ := of_replaced done
    have start : LawfulWith Acyclic (vacant config d g) := ⟨lawful_create .., acyclic_create _ _ _ _⟩
    have kept := keeps_loadInto keptByEdits_acyclic.toKeptByGrowth (fun _ _ h => h) sound
      (n := (vacant config d g).root) nofun d start
    rw [ok] at kept
    have same : SameFrame new { new with journal := journal } := sameFrame_of_nodes rfl rfl rfl
    exact kept.of_sameFrame same (same.acyclic kept.holds)

/-- With room the numbers of the document and those in use all lie below the next one in the end. -/
theorem ahead_loaded (w : g.Lawful) (room : g.ids.Room (none :: d.numbers)) (ahead : g.Ahead)
    (done : Loaded r d g h) :
    h.Ahead ∧ ∀ x, some x ∈ d.numbers → x.toNat < h.ids.next.toNat := by
  have stored {s : IdSupply} {l : List (Option UInt64)} {x : UInt64} (hx : some x ∈ l) :
      (⟨x⟩ : NodeId) ∈ (s.giveAll l).1 :=
    (s.giveAll_perm l).mem_iff.2 (List.mem_append_left _ ((IdSupply.mem_stored_iff ⟨x⟩).2 hx))
  rcases done with ⟨n, ok⟩ | done
  · have issued := issued_loadInto sound n d w
    rw [ok] at issued
    obtain ⟨issue, -⟩ := issued.ok
    refine ⟨(Upward.of_given room.tail issue.ids (by rw [issue.keys]; exact fun _ h => h)).ahead ahead,
      fun x hx => ?_⟩
    rw [issue.ids]
    exact (IdSupply.giveAll_lt room.tail).2 ⟨x⟩ (stored hx)
  · obtain ⟨config, new, journal, ok, rfl⟩ := of_replaced done
    have filled := (filled_of_ok sound config d g ok).2.told journal
    obtain ⟨-, below⟩ := IdSupply.giveAll_lt (room_reserved room).1
    rw [← filled.ids] at below
    refine ⟨fun c hc => below c (filled.keys ▸ hc), fun x hx => ?_⟩
    exact below ⟨x⟩ (stored (List.mem_cons_of_mem none hx))

end Loaded

/-- A document with numbers of its own is loaded beside what is there, or in place of it, only where the
numbers that the supply has to give are in nobody's way, and then no number is found to be in use. Its
nodes get the stored numbers and those of the supply in their order. Where there is room above all that
is in use or stored, nothing is in the way, and neither is it later. -/
theorem numbers_apart {g : Graph} (run : Grown g) {r : Registry}
    (sound : ∀ name t, r.find? name = some t → t.Sound) {d : NetworkDocument}
    (distinct : (d.numbers.filterMap id).Nodup) :
    (∀ n, (∀ x, some x ∈ d.numbers → (⟨x⟩ : NodeId) ∉ g.nodes.keys) →
      (g.ids.Unclaimed g.nodes.keys d.numbers → NoClash ((loadInto r n d).apply g).1) ∧
      ∀ h, (loadInto r n d).apply g = (.ok (), h) → g.ids.Unclaimed g.nodes.keys d.numbers ∧
        h.nodes.keys = g.nodes.keys ++ (g.ids.giveAll d.numbers).1 ∧ h.StandIn n g.ids d.nodes) ∧
    ((reserved g.ids d).Unclaimed [] (none :: d.numbers) →
      NoClash ((restore r d).apply g).1 ∧ NoClash ((ofDocument r d).apply g).1) ∧
    (∀ h, (restore r d).apply g = (.ok (), h) ∨ (ofDocument r d).apply g = (.ok (), h) →
      (reserved g.ids d).Unclaimed [] (none :: d.numbers) ∧ Furnished (reserved g.ids d) d h) ∧
    (g.ids.Room (none :: d.numbers) → (reserved g.ids d).Unclaimed [] (none :: d.numbers)) ∧
    (g.ids.Room (none :: d.numbers) → g.Ahead →
      ((∀ x, some x ∈ d.numbers → x.toNat < g.ids.next.toNat) →
        g.ids.Unclaimed g.nodes.keys d.numbers) ∧
      ∀ h k, Loaded r d g h → Later h k → k.Ahead ∧
        ∀ parent t name options, t.Sound → options.id = none →
          NoClash ((addNode parent t name options).apply k).1 ∧
          ∀ c, ((addNode parent t name options).apply k).1 = .ok c →
            c ∉ k.nodes.keys ∧ some c.raw ∉ d.numbers) := by
  have w := acyclic_of_grown run
  refine ⟨fun n unused => ?_, fun unclaimed => ?_, fun h done => ?_, fun room => ?_, fun room ahead =>
    ⟨fun low => ?_, fun h k done later => ?_⟩⟩
  · have issued := issued_loadInto sound n d w.lawful
    have nodup_iff := IdSupply.nodup_giveAll_iff (s := g.ids) (l := d.numbers)
      w.lawful.wellFormed.tree.keys distinct unused
    refine ⟨fun unclaimed => issued.noClash (nodup_iff.2 unclaimed), fun h ok => ?_⟩
    rw [ok] at issued
    obtain ⟨issue, stand⟩ := issued.ok
    refine ⟨nodup_iff.1 ?_, issue.keys, stand⟩
    have keys := issue.lawful.wellFormed.tree.keys
    rwa [issue.keys] at keys
  · exact noClash_replaced fun config => (unclaimed_vacant sound config d g distinct).1 unclaimed
  · obtain ⟨config, new, journal, ok, rfl⟩ := of_replaced done
    exact ⟨(unclaimed_vacant sound config d g distinct).2 new ok,
      (filled_of_ok sound config d g ok).2.told journal⟩
  · obtain ⟨room', -, below⟩ := room_reserved room
    exact IdSupply.unclaimed_of_room room' (fun _ h => nomatch h) below
  · exact IdSupply.unclaimed_of_room room.tail ahead low
  · obtain ⟨ahead', below⟩ := ahead_loaded sound w.lawful room ahead done
    obtain ⟨-, up⟩ := later.upward (acyclic_loaded sound w done)
    refine ⟨up.ahead ahead', fun parent t name options ht own => ?_⟩
    obtain ⟨clash, fresh⟩ := addNode_apart (up.ahead ahead') parent t name options ht own
    refine ⟨clash, fun c ok => ⟨(fresh c ok).1, fun mem => ?_⟩⟩
    have := below _ mem
    rw [(fresh c ok).2] at this
    exact Nat.lt_irrefl _ (this.trans_le up.next)

/-- Two relays, of which the second one has a number. -/
def numberedRelays (x : UInt64) : NetworkDocument :=
  ⟨[("a", ⟨"relay", none, [], none, none⟩), ("b", ⟨"relay", some x, [], none, none⟩)], [], []⟩

/-- Beside a new root the first relay takes the number of the second one. In place of the root the two
are apart. -/
theorem numberedRelays_two :
    (∀ h, (loadInto relayRegistry ⟨1⟩ (numberedRelays 2)).apply (create .standard .start 0 []) ≠
      (.ok (), h)) ∧
    NoClash ((restore relayRegistry (numberedRelays 2)).apply (create .standard .start 0 [])).1 := by
  have numbers : (numberedRelays 2).numbers = [none, some 2] := rfl
  obtain ⟨beside, inPlace, -, room, -⟩ := numbers_apart (g := create .standard .start 0 []) (.start ..)
    sound_relayRegistry (d := numberedRelays 2) (by rw [numbers]; decide)
  have two (x : UInt64) (hx : some x ∈ (numberedRelays 2).numbers) : x = 2 := by
    rw [numbers] at hx
    simpa using hx
  constructor
  · intro h ok
    obtain ⟨unclaimed, -⟩ := (beside ⟨1⟩ fun x hx => by rw [two x hx]; decide).2 h ok
    rw [numbers] at unclaimed
    exact (unclaimed.2 ⟨2⟩ (by decide)).2 (by decide)
  · refine (inPlace (room ⟨by decide, fun x hx => ?_⟩)).1
    obtain rfl := two x (by simpa using hx)
    decide

end Graph
end Dataflow
