import Dataflow.Proofs.Plain
import Dataflow.Wire.MessagePack
set_option autoImplicit false

/-!
What is packed into bytes is unpacked again, whatever bytes follow it, unless more containers stand
in one another than the reader has room for. Every number of bytes, items and members is written
with 32 bits at most, so longer texts and containers are left out.
-/

namespace Dataflow.Wire

/-- Texts, lists and records whose length has 32 bits. -/
def Packable : Wire → Prop
  | .text s => s.utf8ByteSize < 2 ^ 32
  | .list items => items.length < 2 ^ 32
  | .record members => members.length < 2 ^ 32
  | _ => True

instance : DecidablePred Packable
  | .text s => inferInstanceAs (Decidable (s.utf8ByteSize < 2 ^ 32))
  | .list items => inferInstanceAs (Decidable (items.length < 2 ^ 32))
  | .record members => inferInstanceAs (Decidable (members.length < 2 ^ 32))
  | .null | .bool _ | .int _ | .float _ | .bytes _ | .broken => inferInstanceAs (Decidable True)

/-! ### Numbers as bytes -/

theorem length_bigEndian (k x : Nat) : (bigEndian k x).length = k := by
  induction k with
  | zero => rfl
  | succ k ih => simp [bigEndian, ih]

theorem foldl_bigEndian (k x acc : Nat) :
    (bigEndian k x).foldl (fun y b => y * 256 + b.toNat) acc = acc * 256 ^ k + x % 256 ^ k := by
  induction k generalizing acc with
  | zero => simp [bigEndian, Nat.mod_one]
  | succ k ih =>
    have hbyte : (UInt8.ofNat (x >>> (8 * k))).toNat = x / 256 ^ k % 256 := by
      rw [UInt8.toNat_ofNat', Nat.shiftRight_eq_div_pow, Nat.pow_mul]
    rw [bigEndian, List.foldl_cons, ih, hbyte, Nat.mod_pow_succ]
    ring

theorem takeBytes_append (bs rest : List UInt8) :
    takeBytes bs.length (bs ++ rest) = some (bs, rest) := by
  simp [takeBytes]

theorem takeNat_bigEndian {k x : Nat} (h : x < 256 ^ k) (rest : List UInt8) :
    takeNat k (bigEndian k x ++ rest) = some (x, rest) := by
  have ht := takeBytes_append (bigEndian k x) rest
  rw [length_bigEndian] at ht
  rw [takeNat, ht, Option.map_some, foldl_bigEndian, Nat.mod_eq_of_lt h, Nat.zero_mul, Nat.zero_add]

/-- A negative number comes back if one bit is left for its sign. -/
theorem takeInt_bigEndian {k : Nat} {i : Int} (hk : 0 < k) (hlo : -(2 ^ (8 * k - 1) : Nat) ≤ i)
    (hi : i < 0) (rest : List UInt8) :
    takeInt k (bigEndian k (i + (256 ^ k : Nat)).toNat ++ rest) = some (i, rest) := by
  obtain ⟨m, hm⟩ : ∃ m, 8 * k = m + 1 := ⟨8 * k - 1, by omega⟩
  have hpow : 256 ^ k = 2 * 2 ^ m := by
    rw [show 256 = 2 ^ 8 from rfl, ← Nat.pow_mul, hm, Nat.pow_succ']
  rw [hm, Nat.add_sub_cancel] at hlo
  rw [takeInt, takeNat_bigEndian (by omega), Option.map_some, hm, Nat.add_sub_cancel, if_neg]
  · simp only [Nat.one_shiftLeft, Nat.pow_succ']
    congr 2
    omega
  · rw [Nat.one_shiftLeft]
    omega

/-! ### First bytes -/

/-- The bytes that carry a number or a length themselves. -/
theorem Head.ofByte_fixed {n : Nat} (h : n < 256) (hn : n < 0xc0 ∨ 0xe0 ≤ n) :
    ofByte (UInt8.ofNat n) =
      if n < 0x80 then .done (.int n)
      else if n < 0x90 then .record (n - 0x80)
      else if n < 0xa0 then .list (n - 0x90)
      else if n < 0xc0 then .text (n - 0xa0)
      else .done (.int (n - 256)) := by
  have hb : (UInt8.ofNat n).toNat = n := UInt8.toNat_ofNat_of_lt' h
  unfold ofByte
  simp only [hb]
  split_ifs <;> first | rfl | omega

theorem Head.ofByte_int {n : Nat} (h : n < 128) : ofByte (UInt8.ofNat n) = .done (.int n) := by
  rw [ofByte_fixed (by omega) (by omega), if_pos h]

theorem Head.ofByte_record {n : Nat} (h : n < 16) :
    ofByte (UInt8.ofNat (0x80 + n)) = .record n := by
  rw [ofByte_fixed (by omega) (by omega), if_neg (by omega), if_pos (by omega),
    Nat.add_sub_cancel_left]

theorem Head.ofByte_list {n : Nat} (h : n < 16) : ofByte (UInt8.ofNat (0x90 + n)) = .list n := by
  rw [ofByte_fixed (by omega) (by omega), if_neg (by omega), if_neg (by omega), if_pos (by omega),
    Nat.add_sub_cancel_left]

theorem Head.ofByte_text {n : Nat} (h : n < 32) : ofByte (UInt8.ofNat (0xa0 + n)) = .text n := by
  rw [ofByte_fixed (by omega) (by omega), if_neg (by omega), if_neg (by omega), if_neg (by omega),
    if_pos (by omega), Nat.add_sub_cancel_left]

theorem Head.ofByte_negative {n : Nat} (h : n < 256) (hn : 0xe0 ≤ n) :
    ofByte (UInt8.ofNat n) = .done (.int (n - 256)) := by
  rw [ofByte_fixed h (.inr hn), if_neg (by omega), if_neg (by omega), if_neg (by omega),
    if_neg (by omega)]

/-! ### Trees without trees in them -/

section
variable (room : Nat)

theorem unpackFrom_done {b : UInt8} {w : Wire} (hb : Head.ofByte b = .done w) (rest : List UInt8) :
    unpackFrom room (b :: rest) = some (w, rest) := by
  rw [unpackFrom, hb]

theorem unpackFrom_nat {b : UInt8} {k n : Nat} (hb : Head.ofByte b = .nat k) (h : n < 256 ^ k)
    (rest : List UInt8) :
    unpackFrom room (b :: bigEndian k n ++ rest) = some (.int n, rest) := by
  rw [List.cons_append, unpackFrom, hb]
  simp only [takeNat_bigEndian h, Option.map_some]

theorem unpackFrom_int {b : UInt8} {k : Nat} {i : Int} (hb : Head.ofByte b = .int k) (hk : 0 < k)
    (hlo : -(2 ^ (8 * k - 1) : Nat) ≤ i) (hi : i < 0) (rest : List UInt8) :
    unpackFrom room (b :: bigEndian k (i + (256 ^ k : Nat)).toNat ++ rest) =
      some (.int i, rest) := by
  rw [List.cons_append, unpackFrom, hb]
  simp only [takeInt_bigEndian hk hlo hi, Option.map_some]

theorem unpackFrom_packNat {n : Nat} (h : n < 2 ^ 64) (rest : List UInt8) :
    unpackFrom room (packNat n ++ rest) = some (.int n, rest) := by
  unfold packNat
  split
  · next h => exact unpackFrom_done room (Head.ofByte_int h) rest
  split
  · next h => exact unpackFrom_nat room rfl h rest
  split
  · next h => exact unpackFrom_nat room rfl h rest
  split
  · next h => exact unpackFrom_nat room rfl h rest
  · exact unpackFrom_nat room rfl h rest

theorem unpackFrom_packNegative {i : Int} (hlo : -(2 ^ 63) ≤ i) (hi : i < 0) (rest : List UInt8) :
    unpackFrom room (packNegative i ++ rest) = some (.int i, rest) := by
  unfold packNegative
  split
  · have hb := Head.ofByte_negative (n := (i + UInt8.size).toNat) (by simp; omega) (by simp; omega)
    have hn : (((i + UInt8.size).toNat : Int) - 256) = i := by
      simp only [UInt8.size]
      omega
    rw [hn] at hb
    exact unpackFrom_done room hb rest
  split
  · next h => exact unpackFrom_int room rfl (by decide) h hi rest
  split
  · next h => exact unpackFrom_int room rfl (by decide) h hi rest
  split
  · next h => exact unpackFrom_int room rfl (by decide) h hi rest
  · exact unpackFrom_int room rfl (by decide) hlo hi rest

theorem unpackFrom_packInt {i : Int} (hi : IsWord i) (rest : List UInt8) :
    unpackFrom room (packInt i ++ rest) = some (.int i, rest) := by
  obtain ⟨hlo, hhi⟩ := hi
  unfold packInt
  split
  · next h => exact unpackFrom_packNegative room hlo h rest
  · next h =>
    rw [unpackFrom_packNat room (by omega), Int.toNat_of_nonneg (by omega)]

/-- A length with bytes of its own stands between the first byte and what it is the length of. -/
theorem unpackFrom_length {b : UInt8} {k n : Nat}
    {read : Nat → List UInt8 → Option (Wire × List UInt8)}
    (hb : ∀ bs, unpackFrom room (b :: bs) = (takeNat k bs).bind fun p => read p.1 p.2)
    (h : n < 256 ^ k) (bs : List UInt8) :
    unpackFrom room (b :: bigEndian k n ++ bs) = read n bs := by
  rw [List.cons_append, hb, takeNat_bigEndian h, Option.bind_some]

theorem unpackFrom_packTextHead {n : Nat} (h : n < 2 ^ 32) (bs : List UInt8) :
    unpackFrom room (packTextHead n ++ bs) = takeText n bs := by
  have hlong {b : UInt8} {k : Nat} (hb : Head.ofByte b = .textLength k) (hk : n < 256 ^ k) :
      unpackFrom room (b :: bigEndian k n ++ bs) = takeText n bs :=
    unpackFrom_length room (fun _ => by rw [unpackFrom, hb]) hk bs
  unfold packTextHead
  split
  · next h => rw [List.singleton_append, unpackFrom, Head.ofByte_text h]
  split
  · next h => exact hlong rfl h
  split
  · next h => exact hlong rfl h
  · exact hlong rfl h

theorem unpackFrom_packText {s : String} (h : s.utf8ByteSize < 2 ^ 32) (rest : List UInt8) :
    unpackFrom room (packText s ++ rest) = some (.text s, rest) := by
  have hs : textOrBytes s.toUTF8.data.toList = .text s := by
    simp [textOrBytes, String.fromUTF8?, String.fromUTF8, s.isValidUTF8]
  have hl : s.toUTF8.data.toList.length < 2 ^ 32 := by simpa using h
  rw [packText, List.append_assoc, unpackFrom_packTextHead room hl, takeText, takeBytes_append,
    Option.map_some, hs]

theorem exists_packText_eq_cons (s : String) :
    ∃ b bs, packText s = b :: bs ∧ (Head.ofByte b).isSigned = false := by
  simp only [packText]
  unfold packTextHead
  split
  · next h =>
    exact ⟨_, _, rfl, by rw [Head.ofByte_text h]; rfl⟩
  split
  · exact ⟨_, _, rfl, rfl⟩
  split
  · exact ⟨_, _, rfl, rfl⟩
  · exact ⟨_, _, rfl, rfl⟩

end

/-! ### Containers -/

/-- The items of a list, if there is room for it. -/
def unpackItems : Nat → Nat → List UInt8 → Option (Wire × List UInt8)
  | 0, _, _ => none
  | room + 1, n, bs => (readMany (unpackFrom room) n bs).map fun p => (.list p.1, p.2)

/-- The members of a record, if there is room for it. -/
def unpackMembers : Nat → Nat → List UInt8 → Option (Wire × List UInt8)
  | 0, _, _ => none
  | room + 1, n, bs => (readMany (readPair (unpackFrom room)) n bs).map fun p => (.record p.1, p.2)

theorem unpackFrom_packListHead (room : Nat) {n : Nat} (h : n < 2 ^ 32) (bs : List UInt8) :
    unpackFrom room (packListHead n ++ bs) = unpackItems room n bs := by
  have hlong {b : UInt8} {k : Nat} (hb : Head.ofByte b = .listLength k) (hk : n < 256 ^ k) :
      unpackFrom room (b :: bigEndian k n ++ bs) = unpackItems room n bs :=
    unpackFrom_length room (fun _ => by rw [unpackFrom, hb]; cases room <;> rfl) hk bs
  unfold packListHead
  split
  · next h =>
    rw [List.singleton_append, unpackFrom, Head.ofByte_list h]
    cases room <;> rfl
  split
  · next h => exact hlong rfl h
  · exact hlong rfl h

theorem unpackFrom_packRecordHead (room : Nat) {n : Nat} (h : n < 2 ^ 32) (bs : List UInt8) :
    unpackFrom room (packRecordHead n ++ bs) = unpackMembers room n bs := by
  have hlong {b : UInt8} {k : Nat} (hb : Head.ofByte b = .recordLength k) (hk : n < 256 ^ k) :
      unpackFrom room (b :: bigEndian k n ++ bs) = unpackMembers room n bs :=
    unpackFrom_length room (fun _ => by rw [unpackFrom, hb]; cases room <;> rfl) hk bs
  unfold packRecordHead
  split
  · next h =>
    rw [List.singleton_append, unpackFrom, Head.ofByte_record h]
    cases room <;> rfl
  split
  · next h => exact hlong rfl h
  · exact hlong rfl h

/-- With this room exactly the trees come back that need no more of it. -/
def Unpacks (room : Nat) : Prop :=
  ∀ w : Wire, w.Every Plain → w.Every Packable → ∀ rest : List UInt8,
    unpackFrom room (w.pack ++ rest) = if w.depth ≤ room then some (w, rest) else none

section
variable {room : Nat} (ih : Unpacks room)
include ih

theorem Unpacks.items {ws : List Wire} (hp : EveryItem Plain ws) (hc : EveryItem Packable ws)
    (rest : List UInt8) : readMany (unpackFrom room) ws.length (packItems ws ++ rest) =
      if itemsDepth ws ≤ room then some (ws, rest) else none := by
  induction ws with
  | nil => simp [readMany, packItems, itemsDepth]
  | cons w ws ihs =>
    simp only [List.length_cons, readMany, packItems, List.append_assoc, ih w hp.1 hc.1, itemsDepth]
    have := ihs hp.2 hc.2
    grind

theorem Unpacks.members {ms : List (Wire × Wire)} (hk : Plain (.record ms))
    (hp : EveryMember Plain ms) (hc : EveryMember Packable ms) (rest : List UInt8) :
    readMany (readPair (unpackFrom room)) ms.length (packMembers ms ++ rest) =
      if membersDepth ms ≤ room then some (ms, rest) else none := by
  induction ms with
  | nil => simp [readMany, packMembers, membersDepth]
  | cons m ms ihs =>
    obtain ⟨k, w⟩ := m
    obtain ⟨s, rfl : k = .text s⟩ := hk _ List.mem_cons_self
    have hms := ihs (fun m hm => hk m (List.mem_cons_of_mem _ hm)) hp.2.2 hc.2.2
    have hpair (bs : List UInt8) : readPair (unpackFrom room) (packText s ++ (w.pack ++ bs)) =
        if w.depth ≤ room then some ((.text s, w), bs) else none := by
      obtain ⟨b, r, hb, hsigned⟩ := exists_packText_eq_cons s
      rw [readPair, unpackFrom_packText room hc.1, hb]
      simp only [List.cons_append, List.head?_cons, Option.any_some, hsigned,
        Option.bind_eq_bind, Option.bind_some, ih w hp.2.1 hc.2.1]
      grind
    simp only [List.length_cons, readMany, packMembers, pack, List.append_assoc, hpair,
      membersDepth]
    grind

end

theorem unpackFrom_pack_of_depth {w : Wire} (hp : w.Every Plain) (hc : w.Every Packable)
    (hd : w.depth = 0) (room : Nat) (rest : List UInt8) :
    unpackFrom room (w.pack ++ rest) = some (w, rest) := by
  cases w with
  | null => exact unpackFrom_done room rfl rest
  | bool b => cases b <;> exact unpackFrom_done room rfl rest
  | int i => exact unpackFrom_packInt room hp rest
  | float x =>
    have hx : x.toBits.toNat < 256 ^ 8 := x.toBits.toNat_lt
    rw [pack, List.cons_append, unpackFrom, show Head.ofByte 0xcb = .double from rfl]
    simp only [takeNat_bigEndian hx, Option.map_some, UInt64.ofNat_toNat, Float.ofBits_toBits]
  | text s => exact unpackFrom_packText room hc rest
  | bytes b | broken => exact hp.elim
  | list items | record members => simp [depth] at hd

/-- A tree is unpacked from its bytes exactly if there is room for its containers. -/
theorem unpacks (room : Nat) : Unpacks room := by
  induction room with
  | zero =>
    intro w hp hc rest
    cases w with
    | list items =>
      rw [pack, List.append_assoc, unpackFrom_packListHead _ hc.1]
      rfl
    | record members =>
      rw [pack, List.append_assoc, unpackFrom_packRecordHead _ hc.1]
      rfl
    | _ => exact unpackFrom_pack_of_depth hp hc rfl 0 rest
  | succ room ih =>
    intro w hp hc rest
    cases w with
    | list items =>
      rw [pack, List.append_assoc, unpackFrom_packListHead _ hc.1, unpackItems,
        ih.items hp.2 hc.2, depth]
      grind
    | record members =>
      rw [pack, List.append_assoc, unpackFrom_packRecordHead _ hc.1, unpackMembers,
        ih.members hp.1 hp.2 hc.2, depth]
      grind
    | _ => exact unpackFrom_pack_of_depth hp hc rfl (room + 1) rest

theorem unpack_pack {w : Wire} (hp : w.Every Plain) (hc : w.Every Packable) :
    unpack w.pack = if w.depth ≤ packRoom then some w else none := by
  have h := unpacks packRoom w hp hc []
  rw [List.append_nil] at h
  rw [unpack, h]
  split <;> rfl

end Dataflow.Wire
