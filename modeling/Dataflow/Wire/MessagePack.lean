import Dataflow.Value.Width
import Dataflow.Wire.Basic
set_option autoImplicit false

/-!
Trees as MessagePack. The writer takes the shortest form of every length and every whole number and
writes fractions with 64 bits. The reader takes every form and leaves what follows the tree alone.
-/

namespace Dataflow.Wire

/-! ### Writing -/

/-- The low `n` bytes of a number, the highest one first. -/
def bigEndian : Nat → Nat → List UInt8
  | 0, _ => []
  | n + 1, x => UInt8.ofNat (x >>> (8 * n)) :: bigEndian n x

def packNat (n : Nat) : List UInt8 :=
  if n < 128 then [UInt8.ofNat n]
  else if n < UInt8.size then 0xcc :: bigEndian 1 n
  else if n < UInt16.size then 0xcd :: bigEndian 2 n
  else if n < UInt32.size then 0xce :: bigEndian 4 n
  else 0xcf :: bigEndian 8 n

/-- A negative number in two's complement. -/
def packNegative (i : Int) : List UInt8 :=
  if -32 ≤ i then bigEndian 1 (i + UInt8.size).toNat
  else if -(UInt8.size / 2) ≤ i then 0xd0 :: bigEndian 1 (i + UInt8.size).toNat
  else if -(UInt16.size / 2) ≤ i then 0xd1 :: bigEndian 2 (i + UInt16.size).toNat
  else if -(UInt32.size / 2) ≤ i then 0xd2 :: bigEndian 4 (i + UInt32.size).toNat
  else 0xd3 :: bigEndian 8 (i + UInt64.size).toNat

def packInt (i : Int) : List UInt8 := if i < 0 then packNegative i else packNat i.toNat

def packTextHead (n : Nat) : List UInt8 :=
  if n < 32 then [UInt8.ofNat (0xa0 + n)]
  else if n < UInt8.size then 0xd9 :: bigEndian 1 n
  else if n < UInt16.size then 0xda :: bigEndian 2 n
  else 0xdb :: bigEndian 4 n

def packBytesHead (n : Nat) : List UInt8 :=
  if n < UInt8.size then 0xc4 :: bigEndian 1 n
  else if n < UInt16.size then 0xc5 :: bigEndian 2 n
  else 0xc6 :: bigEndian 4 n

def packListHead (n : Nat) : List UInt8 :=
  if n < 16 then [UInt8.ofNat (0x90 + n)]
  else if n < UInt16.size then 0xdc :: bigEndian 2 n
  else 0xdd :: bigEndian 4 n

def packRecordHead (n : Nat) : List UInt8 :=
  if n < 16 then [UInt8.ofNat (0x80 + n)]
  else if n < UInt16.size then 0xde :: bigEndian 2 n
  else 0xdf :: bigEndian 4 n

def packText (s : String) : List UInt8 :=
  let bytes := s.toUTF8.data.toList
  packTextHead bytes.length ++ bytes

mutual
def pack : Wire → List UInt8
  | .null | .broken => [0xc0]
  | .bool false => [0xc2]
  | .bool true => [0xc3]
  | .int i => packInt i
  | .float x => 0xcb :: bigEndian 8 x.toBits.toNat
  | .text s => packText s
  | .bytes b => packBytesHead b.length ++ b
  | .list items => packListHead items.length ++ packItems items
  | .record members => packRecordHead members.length ++ packMembers members

def packItems : List Wire → List UInt8
  | [] => []
  | item :: items => pack item ++ packItems items

def packMembers : List (Wire × Wire) → List UInt8
  | [] => []
  | (k, w) :: members => pack k ++ pack w ++ packMembers members
end

/-! ### Reading -/

/-- The first `n` bytes and what follows them. -/
def takeBytes (n : Nat) (bs : List UInt8) : Option (List UInt8 × List UInt8) :=
  let taken := bs.take n
  if taken.length = n then some (taken, bs.drop n) else none

def takeNat (n : Nat) (bs : List UInt8) : Option (Nat × List UInt8) :=
  (takeBytes n bs).map fun p => (p.1.foldl (fun x b => x * 256 + b.toNat) 0, p.2)

/-- A number of `n` bytes in two's complement. -/
def takeInt (n : Nat) (bs : List UInt8) : Option (Int × List UInt8) :=
  (takeNat n bs).map fun p =>
    (if p.1 < 1 <<< (8 * n - 1) then (p.1 : Int) else (p.1 : Int) - (1 <<< (8 * n) : Nat), p.2)

/-- A text whose bytes are no text stays a row of bytes. -/
def textOrBytes (bs : List UInt8) : Wire :=
  match String.fromUTF8? ⟨bs.toArray⟩ with
  | some s => .text s
  | none => .bytes bs

def takeText (n : Nat) (bs : List UInt8) : Option (Wire × List UInt8) :=
  (takeBytes n bs).map fun p => (textOrBytes p.1, p.2)

/-- An extension has a tag and `n` bytes, and no value here. -/
def takeExtension (n : Nat) (bs : List UInt8) : Option (Wire × List UInt8) :=
  (takeBytes (n + 1) bs).map fun p => (.broken, p.2)

def readMany {α : Type} (one : List UInt8 → Option (α × List UInt8)) :
    Nat → List UInt8 → Option (List α × List UInt8)
  | 0, bs => some ([], bs)
  | n + 1, bs => do
    let (a, bs) ← one bs
    let (as, bs) ← readMany one n bs
    pure (a :: as, bs)

/-- What the first byte announces. -/
inductive Head where
  | done (w : Wire)
  | int (bytes : Nat)
  | nat (bytes : Nat)
  | single
  | double
  | text (n : Nat)
  | textLength (bytes : Nat)
  | bytesLength (bytes : Nat)
  | list (n : Nat)
  | listLength (bytes : Nat)
  | record (n : Nat)
  | recordLength (bytes : Nat)
  | extension (n : Nat)
  | extensionLength (bytes : Nat)
  | reserved

def Head.ofByte (b : UInt8) : Head :=
  let n := b.toNat
  if n < 0x80 then .done (.int n)
  else if n < 0x90 then .record (n - 0x80)
  else if n < 0xa0 then .list (n - 0x90)
  else if n < 0xc0 then .text (n - 0xa0)
  else if 0xe0 ≤ n then .done (.int (n - 256))
  else match b with
    | 0xc0 => .done .null
    | 0xc2 => .done (.bool false)
    | 0xc3 => .done (.bool true)
    | 0xc4 => .bytesLength 1
    | 0xc5 => .bytesLength 2
    | 0xc6 => .bytesLength 4
    | 0xc7 => .extensionLength 1
    | 0xc8 => .extensionLength 2
    | 0xc9 => .extensionLength 4
    | 0xca => .single
    | 0xcb => .double
    | 0xcc => .nat 1
    | 0xcd => .nat 2
    | 0xce => .nat 4
    | 0xcf => .nat 8
    | 0xd0 => .int 1
    | 0xd1 => .int 2
    | 0xd2 => .int 4
    | 0xd3 => .int 8
    | 0xd4 => .extension 1
    | 0xd5 => .extension 2
    | 0xd6 => .extension 4
    | 0xd7 => .extension 8
    | 0xd8 => .extension 16
    | 0xd9 => .textLength 1
    | 0xda => .textLength 2
    | 0xdb => .textLength 4
    | 0xdc => .listLength 2
    | 0xdd => .listLength 4
    | 0xde => .recordLength 2
    | 0xdf => .recordLength 4
    | _ => .reserved

/-- Whether a number follows in a form that has room for a sign. -/
def Head.isSigned : Head → Bool
  | .int _ => true
  | _ => false

/-- A member of a record. A number in a form with a sign stands for no name, whichever it is. -/
def readPair (one : List UInt8 → Option (Wire × List UInt8)) (bs : List UInt8) :
    Option ((Wire × Wire) × List UInt8) := do
  let signed := bs.head?.any fun b => (Head.ofByte b).isSigned
  let (k, bs) ← one bs
  let (w, bs) ← one bs
  pure ((if signed then .broken else k, w), bs)

/-- A container must find room for what it holds, and so must an extension. -/
def unpackFrom : Nat → List UInt8 → Option (Wire × List UInt8)
  | _, [] => none
  | room, b :: bs =>
    let many := fun (wrap : List Wire → Wire) (n : Nat) (bs : List UInt8) =>
      match room with
      | 0 => none
      | room + 1 => (readMany (unpackFrom room) n bs).map fun p => (wrap p.1, p.2)
    let pairs := fun (n : Nat) (bs : List UInt8) =>
      match room with
      | 0 => none
      | room + 1 => (readMany (readPair (unpackFrom room)) n bs).map fun p => (.record p.1, p.2)
    match Head.ofByte b with
    | .done w => some (w, bs)
    | .int n => (takeInt n bs).map fun p => (.int p.1, p.2)
    | .nat n => (takeNat n bs).map fun p => (.int p.1, p.2)
    | .single => (takeNat 4 bs).map fun p =>
        (.float (widen (Float32.ofBits (UInt32.ofNat p.1))), p.2)
    | .double => (takeNat 8 bs).map fun p => (.float (Float.ofBits (UInt64.ofNat p.1)), p.2)
    | .text n => takeText n bs
    | .textLength k => (takeNat k bs).bind fun p => takeText p.1 p.2
    | .bytesLength k => do
      let (n, bs) ← takeNat k bs
      (takeBytes n bs).map fun p => (.bytes p.1, p.2)
    | .list n => many .list n bs
    | .listLength k => (takeNat k bs).bind fun p => many .list p.1 p.2
    | .record n => pairs n bs
    | .recordLength k => (takeNat k bs).bind fun p => pairs p.1 p.2
    | .extension n => if room = 0 then none else takeExtension n bs
    | .extensionLength k =>
      if room = 0 then none else (takeNat k bs).bind fun p => takeExtension p.1 p.2
    | .reserved => none

/-- Containers may stand in one another a thousand and twenty-three deep. -/
def packRoom : Nat := 1023

def unpack (bs : List UInt8) : Option Wire := (unpackFrom packRoom bs).map Prod.fst

end Dataflow.Wire
