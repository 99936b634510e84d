import Dataflow.Proofs.Normal
import Dataflow.Proofs.Shown
import Dataflow.Proofs.Width
set_option autoImplicit false

/-!
Which data comes back from what is written for it. A number that is not finite is written as null,
which no type reads, and no check keeps it out of inputs and attachments. Main statement: data is
accepted wherever its type is, and is read back, as the same data, just if all numbers in it are
finite.
-/

namespace Dataflow

namespace Payload

/-- All numbers in the data are finite. -/
def isFinite : Payload → Bool
  | .float x => x.isFinite
  | .double x => x.isFinite
  | .floatArray xs => xs.all Float32.isFinite
  | .point x y => x.isFinite && y.isFinite
  | _ => true

end Payload

namespace DataType

theorem readDouble_ofFloat (x : Float) :
    readDouble (Json.ofFloat x) = if x.isFinite then some x else none := by
  rw [Json.ofFloat]
  split <;> rfl

theorem readFloat_floatJson (x : Float32) :
    readFloat (Payload.floatJson x) = if x.isFinite then some x else none := by
  rw [Payload.floatJson, Json.ofFloat, isFinite_widen]
  split
  · rw [readFloat, narrow_widen]
  · rfl

/-- One number that is not finite makes the whole list unreadable. -/
theorem readFloats_floatJson (xs : List Float32) : readFloats (xs.map Payload.floatJson) =
    if xs.all Float32.isFinite then some xs else none := by
  induction xs with
  | nil => rfl
  | cons x xs ih =>
    rw [List.map_cons, readFloats, readFloat_floatJson, ih, List.all_cons]
    cases x.isFinite <;> cases xs.all Float32.isFinite <;> rfl

/-- Data is read back from what is written for it, if all numbers in it are finite. -/
theorem decode?_toJson (x : Payload) :
    x.dataType.decode? x.toJson = if x.isFinite then some x else none := by
  cases x with
  | float x =>
    rw [Payload.dataType, decode?, Payload.toJson, readFloat_floatJson, apply_ite (Option.map _)]
    rfl
  | double x =>
    rw [Payload.dataType, decode?, Payload.toJson, readDouble_ofFloat, apply_ite (Option.map _)]
    rfl
  | int i => exact Graph.decode?_int i
  | long i =>
    simp only [Payload.dataType, decode?, Payload.toJson, readWhole]
    rw [if_pos ⟨i.le_toInt, i.toInt_lt⟩, Option.map_some, Int64.ofInt_toInt]
    rfl
  | uint n =>
    have high : (n.toNat : Int) < UInt32.size := by exact_mod_cast n.toNat_lt
    simp only [Payload.dataType, decode?, Payload.toJson, readWhole]
    rw [if_pos ⟨Int.natCast_nonneg _, high⟩, Option.map_some, Int.toNat_natCast, UInt32.ofNat_toNat]
    rfl
  | ulong n =>
    have high : (n.toNat : Int) < UInt64.size := by exact_mod_cast n.toNat_lt
    simp only [Payload.dataType, decode?, Payload.toJson, readWhole]
    rw [if_pos ⟨Int.natCast_nonneg _, high⟩, Option.map_some, Int.toNat_natCast, UInt64.ofNat_toNat]
    rfl
  | bool b => rfl
  | string s => rfl
  | floatArray xs =>
    simp only [Payload.dataType, decode?, Payload.toJson, readFloats_floatJson]
    rw [apply_ite (Option.map _)]
    rfl
  | point x y =>
    have first : member "x" [("x", Payload.floatJson x), ("y", Payload.floatJson y)] =
      some (Payload.floatJson x) := rfl
    have second : member "y" [("x", Payload.floatJson x), ("y", Payload.floatJson y)] =
      some (Payload.floatJson y) := rfl
    simp only [Payload.dataType, decode?, Payload.toJson, first, second, Option.bind_some,
      readFloat_floatJson, Payload.isFinite]
    by_cases hx : x.isFinite <;> by_cases hy : y.isFinite <;> simp [hx, hy]

end DataType

namespace Graph
variable {g : Graph} {p : Port}

/-- A value is accepted for its type alone. -/
theorem exists_checkAssign_iff {v : Value} : (∃ s, g.checkAssign p v = .ok s) ↔
    g.direction? p = some .input ∧ g.source? p = none ∧
      ∃ t, g.effectiveType p = some t ∧ v.portType = some t := by
  constructor
  · rintro ⟨s, ok⟩
    obtain ⟨input, free⟩ := free_of_checkAssign ok
    refine ⟨input, free, ?_⟩
    have slot := slot_of_checkAssign ok
    obtain ⟨s', hs, direction⟩ := Option.map_eq_some_iff.1 input
    rw [slot, Option.some.injEq] at hs
    subst hs
    cases typed : g.effectiveType p with
    | none =>
      simp [checkAssign, slot_eq_ok_iff.2 slot, direction, free, resolved, typed, bind, Except.bind]
        at ok
    | some t =>
      refine ⟨t, rfl, ?_⟩
      by_contra other
      simp [checkAssign, slot_eq_ok_iff.2 slot, direction, free, resolved, typed, other, bind,
        Except.bind, throw, throwThe, MonadExceptOf.throw] at ok
  · rintro ⟨input, free, t, typed, hv⟩
    obtain ⟨s, slot, direction⟩ := Option.map_eq_some_iff.1 input
    refine ⟨s, ?_⟩
    simp [checkAssign, slot_eq_ok_iff.2 slot, direction, free, resolved, typed, hv, bind, Except.bind]

theorem exists_assign_iff {v : Value} : (∃ h, g.assign p v = .ok h) ↔
    g.direction? p = some .input ∧ g.source? p = none ∧
      ∃ t, g.effectiveType p = some t ∧ v.portType = some t := by
  rw [← exists_checkAssign_iff]
  cases checked : g.checkAssign p v with
  | error e => simp [assign, checked, bind, Except.bind]
  | ok s => simp only [assign, checked, bind, Except.bind, ← apply_ite, Except.ok.injEq, exists_eq']

theorem exists_setAttachment_iff {n : NodeId} {v : Value} :
    (∃ h, g.setAttachment n v = .ok h) ↔ (g.type? n).isSome := by
  rw [type?]
  cases hm : g.node? n <;> simp [setAttachment, node, hm, bind, Except.bind]

/-- All that is written for a graph is read back just if all its numbers are finite. -/
theorem readable_iff : g.Readable ↔ (∀ n x, g.note? n = some x → x.isFinite = true) ∧
    ∀ p x, g.value p = some x → x.isFinite = true := by
  have back (x : Payload) : x.dataType.decode? x.toJson = some x ↔ x.isFinite = true := by
    rw [DataType.decode?_toJson]
    cases x.isFinite <;> simp
  constructor
  · exact fun r => ⟨fun n x hx => (back x).1 (r.note n x hx), fun p x hx => (back x).1 (r.value p x hx)⟩
  · exact fun r => ⟨fun n x hx => (back x).2 (r.1 n x hx), fun p x hx => (back x).2 (r.2 p x hx)⟩

/-- Inputs and nodes accept data for its type, whatever numbers are in it. What is written for it is
read back as the same data if they are all finite, and cannot be read else. -/
theorem stored_readable_iff (x : Payload) (mark : Option Nat) :
    (∀ (g : Graph) p, (∃ h, g.assign p (.data x mark) = .ok h) ↔ g.direction? p = some .input ∧
      g.source? p = none ∧ g.effectiveType p = some x.dataType) ∧
    (∀ (g : Graph) n, (∃ h, g.setAttachment n (.data x mark) = .ok h) ↔ (g.type? n).isSome) ∧
    PortType.decode (Value.data x mark).portType (Value.data x mark).toJson =
      (if x.isFinite then .ok (.fresh x) else .error .malformed) ∧
    ((∃ v, PortType.decode (Value.data x mark).portType (Value.data x mark).toJson = .ok v ∧
      v.portType = (Value.data x mark).portType ∧ v.toJson = (Value.data x mark).toJson) ↔
      x.isFinite = true) := by
  have back : PortType.decode (Value.data x mark).portType (Value.data x mark).toJson =
      if x.isFinite then .ok (.fresh x) else .error .malformed := by
    simp only [PortType.decode, Value.portType, Value.toJson, DataType.decode?_toJson]
    cases x.isFinite <;> rfl
  refine ⟨fun g p => ?_, fun g n => exists_setAttachment_iff, back, ?_⟩
  · rw [exists_assign_iff]
    simp [Value.portType]
  · rw [back]
    cases x.isFinite with
    | false => simp
    | true => exact ⟨fun _ => rfl, fun _ => ⟨.fresh x, rfl, rfl, rfl⟩⟩

/-- A dial takes a number beyond all others, and what is written for it cannot be read. -/
theorem oneDial_takes_infinity :
    (∃ h, oneDial.assign ⟨⟨2⟩, 0⟩ (.fresh (.float (1 / 0))) = .ok h) ∧
    (∃ h, oneDial.setAttachment ⟨2⟩ (.fresh (.float (1 / 0))) = .ok h) ∧
    (Value.fresh (.float (1 / 0))).toJson = .null ∧
    PortType.decode (some .float) (Value.fresh (.float (1 / 0))).toJson = .error .malformed := by
  obtain ⟨input, node, unreadable, -⟩ := stored_readable_iff (.float (1 / 0)) none
  have infinite : (Payload.float (1 / 0)).isFinite = false := by decide +kernel
  have typed : oneDial.effectiveType ⟨⟨2⟩, 0⟩ = some .float := by cbv
  refine ⟨(input oneDial ⟨⟨2⟩, 0⟩).2 ⟨by rfl, by rfl, typed⟩, (node oneDial ⟨2⟩).2 (by rfl), ?_, ?_⟩
  · rw [Value.fresh, Value.toJson, Payload.toJson, Payload.floatJson, Json.ofFloat, isFinite_widen]
    exact if_neg (by decide +kernel)
  · rw [infinite] at unreadable
    exact unreadable

end Graph
end Dataflow
