set_option autoImplicit false

/-!
The tree that every written form of a document is read into and written from. It keeps what a
reader may still need to refuse: members in the order in which they stand, repeated names, and
tokens that are well formed but name no value.
-/

namespace Dataflow

inductive Wire where
  | null
  | bool (b : Bool)
  | int (i : Int)
  | float (x : Float)
  | text (s : String)
  | bytes (b : List UInt8)
  | list (items : List Wire)
  | record (members : List (Wire × Wire))
  /-- A well-formed token without a value, such as a number beyond every finite one. -/
  | broken
  deriving Repr

namespace Wire

mutual
/-- Numbers are compared as numbers, so the two zeros agree. -/
def beq : Wire → Wire → Bool
  | .null, .null => true
  | .bool a, .bool b => a == b
  | .int a, .int b => a == b
  | .float a, .float b => a == b
  | .text a, .text b => a == b
  | .bytes a, .bytes b => a == b
  | .list a, .list b => beqItems a b
  | .record a, .record b => beqMembers a b
  | _, _ => false

def beqItems : List Wire → List Wire → Bool
  | [], [] => true
  | a :: as, b :: bs => beq a b && beqItems as bs
  | _, _ => false

def beqMembers : List (Wire × Wire) → List (Wire × Wire) → Bool
  | [], [] => true
  | (k, a) :: as, (l, b) :: bs => beq k l && beq a b && beqMembers as bs
  | _, _ => false
end

instance : BEq Wire := ⟨beq⟩

/-- A text, which may also come as the bytes of one. -/
def asText? : Wire → Option String
  | .text s => some s
  | .bytes b => String.fromUTF8? ⟨b.toArray⟩
  | _ => none

/-- A list of things, which may also come as no bytes at all. -/
def asList? : Wire → Option (List Wire)
  | .list items => some items
  | .bytes [] => some []
  | _ => none

def asBool? : Wire → Option Bool
  | .bool b => some b
  | _ => none

/-- A whole number that fits into 64 bits without a sign. -/
def asWord? : Wire → Option UInt64
  | .int i => if 0 ≤ i ∧ i < UInt64.size then some (UInt64.ofNat i.toNat) else none
  | _ => none

/-- Null stands for nothing, anything else must be read. -/
def optional {α : Type} (read : Wire → Option α) : Wire → Option (Option α)
  | .null => some none
  | w => (read w).map some

/-- A field is named by its name or by its position. -/
inductive FieldKey where
  | field (position : Nat)
  | other
  | refused
  deriving DecidableEq, Repr

def fieldKey (names : List String) : Wire → FieldKey
  | .int i =>
    if i < 0 then .refused else if i.toNat < names.length then .field i.toNat else .other
  | .text s => match names.idxOf? s with
    | some n => .field n
    | none => .other
  | .bytes b => match (String.fromUTF8? ⟨b.toArray⟩).bind names.idxOf? with
    | some n => .field n
    | none => .other
  | _ => .refused

/-- Places the members of a record under its fields. Members of other names are passed over and a
field may come once only. -/
def place (names : List String) : List (Wire × Wire) → List (Option Wire) →
    Option (List (Option Wire))
  | [], found => some found
  | (k, w) :: rest, found =>
    match fieldKey names k with
    | .refused => none
    | .other => place names rest found
    | .field n =>
      match found[n]? with
      | some none => place names rest (found.set n (some w))
      | _ => none

/-- The fields of a record, written either with names or as a list in the order of the fields, from
which the last ones may be missing. -/
def fields (names : List String) : Wire → Option (List (Option Wire))
  | .record members => place names members (names.map fun _ => none)
  | .list items =>
    if items.length ≤ names.length then
      some (items.map some ++ List.replicate (names.length - items.length) none)
    else none
  | _ => none

end Wire
end Dataflow
