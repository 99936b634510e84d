import Dataflow.Proofs.Downstream
import Dataflow.Proofs.Firm
import Dataflow.Proofs.Saved
import Mathlib
set_option autoImplicit false

/-!
Where a value shows that has been given to an input. A value is not stored if it agrees with what the
input holds, and the two zeros agree. Main statements: values agree if they are the same but for the
signs of zeros, so a value is lost just if a zero of another sign has been there before it; and what
the input then holds is what a read gives, what each computation is given that reads the input, and
what stands in the document.
-/

namespace Dataflow

/-! ### Signs of zeros -/

section Unsigned
variable {F : Type} [BEq F]

/-- The number, or for either zero the one without a sign. -/
def unsigned (zero x : F) : F := if x == zero then zero else x

/-- Where only the zeros agree without being equal, and one number with nothing, numbers agree if they
are equal but for the signs of zeros. -/
theorem beq_iff_unsigned [DecidableEq F] {nan zero neg : F} (hz : zero ≠ nan) (hn : neg ≠ nan)
    (law : ∀ a b : F, (a == b) = true ↔
      a ≠ nan ∧ b ≠ nan ∧ (a = b ∨ a = zero ∧ b = neg ∨ a = neg ∧ b = zero)) (a b : F) :
    (a == b) = true ↔ (a == a) = true ∧ unsigned zero a = unsigned zero b := by
  simp only [unsigned, law]
  by_cases ha : a = zero <;> by_cases hb : b = zero <;> by_cases ha' : a = neg <;>
    by_cases hb' : b = neg <;> grind

end Unsigned
namespace Payload

def unsigned32 : Float32 → Float32 := unsigned 0

/-- The data with the zeros in it without a sign. -/
def unsigned : Payload → Payload
  | .float x => .float (unsigned32 x)
  | .double x => .double (Dataflow.unsigned 0 x)
  | .floatArray xs => .floatArray (xs.map unsigned32)
  | .point x y => .point (unsigned32 x) (unsigned32 y)
  | x => x

theorem beq_float32_iff (a b : Float32) :
    (a == b) = true ↔ (a == a) = true ∧ unsigned32 a = unsigned32 b :=
  beq_iff_unsigned (by decide) (by decide) (fun _ _ => Float32.beq_iff_ne_nan_and_eq) a b

theorem beq_float_iff (a b : Float) :
    (a == b) = true ↔ (a == a) = true ∧ Dataflow.unsigned 0 a = Dataflow.unsigned 0 b :=
  beq_iff_unsigned (by decide) (by decide) (fun _ _ => Float.beq_iff_ne_nan_and_eq) a b

theorem beq_floatArray_iff (as bs : List Float32) :
    (as == bs) = true ↔ (as == as) = true ∧ as.map unsigned32 = bs.map unsigned32 := by
  induction as generalizing bs with
  | nil => cases bs <;> simp
  | cons a as ih =>
    cases bs with
    | nil => simp
    | cons b bs =>
      simp only [List.cons_beq_cons, Bool.and_eq_true, List.map_cons, List.cons.injEq]
      rw [beq_float32_iff a b, ih]
      tauto

/-- Data agrees if it agrees with itself at all and is the same but for the signs of zeros. -/
theorem agrees_iff (x y : Payload) :
    x.agrees y = true ↔ x.agrees x = true ∧ x.unsigned = y.unsigned := by
  cases x <;> cases y <;> simp only [agrees, unsigned, reduceCtorEq, and_false, Bool.false_eq_true,
    Bool.and_eq_true, float.injEq, double.injEq, floatArray.injEq, point.injEq, int.injEq,
    long.injEq, uint.injEq, ulong.injEq, bool.injEq, string.injEq, beq_iff_eq, true_and]
  case float.float a b => exact beq_float32_iff a b
  case double.double a b => exact beq_float_iff a b
  case floatArray.floatArray as bs => exact beq_floatArray_iff as bs
  case point.point a b c d =>
    rw [beq_float32_iff a c, beq_float32_iff b d]
    tauto

end Payload

namespace Graph

/-! ### Inputs that are left alone -/

/-- Nothing has changed at `p`, and nothing in the frame. -/
structure Retains (p : Port) (g h : Graph) : Prop where
  frame : SameFrame g h
  slot : h.slot? p = g.slot? p

/-- The input counts as up to date. -/
def Valid (p : Port) (g : Graph) : Prop := g.direction? p = some .input ∧ g.isStale p = false

namespace Retains
variable {p : Port} {g h k : Graph}

theorem refl (g : Graph) : Retains p g g := ⟨.refl g, rfl⟩

theorem trans (a : Retains p g h) (b : Retains p h k) : Retains p g k :=
  ⟨a.frame.trans b.frame, b.slot.trans a.slot⟩

theorem valid (a : Retains p g h) (c : Valid p g) : Valid p h := by
  rw [Valid, a.frame.direction, isStale, a.slot]
  exact c

theorem steps : Edit.Steps fun g h => Valid p g → Retains p g h :=
  .under refl (fun c a => a.valid c) fun _ => trans

theorem of_quiet (a : Quiet g h) : Retains p g h := ⟨a.frame, by rw [a.slot]⟩

theorem of_stored {q : Port} (a : Stored q g h) (hq : p ≠ q) : Retains p g h := ⟨a.frame, a.slot p hq⟩

theorem setCurrent {q : Port} (hq : p ≠ q) : Retains p g (g.setCurrent q) :=
  ⟨g.sameFrame_setCurrent q, slot?_setCurrent_of_ne g hq⟩

theorem settle {q : Port} (hq : p ≠ q) (result : Except String Status) :
    Retains p g ((settle q result).apply g).2 := by
  have last (k : Graph) : Retains p k (k.settled q) := (setCurrent hq).trans (of_quiet (quiet_emit ..))
  have status (k : Graph) (s : Status) : Retains p k (k.setStatus q.node s) :=
    of_stored (.setStatus k q.node s) hq
  cases result with
  | ok s =>
    rw [settle_ok]
    exact (status g s).trans (last _)
  | error message =>
    cases hv : g.fallback? q with
    | some v =>
      rw [settle_error_of_some g q message hv]
      exact ((of_stored (.put g q v) hq).trans (status _ _)).trans (last _)
    | none =>
      rw [settle_error_of_none g q message hv]
      exact status g _

end Retains

section Reads
open Edit
variable {p : Port} {below : Port → Edit Value}
  (hb : ∀ q, Leads (fun g h => Valid p g → Retains p g h) (below q))

/-- Tasks write to outputs only. -/
theorem retains_writeFor (q : Port) (v : Value) :
    Leads (fun g h => Valid p g → Retains p g h) (writeFor q v) := by
  intro g c
  rcases writeFor_apply g q v with ⟨e, eq⟩ | ⟨eq, hd, -⟩
  · rw [eq]
    exact .refl g
  · rw [eq]
    refine .of_stored (.hold g q v) ?_
    rintro rfl
    rw [c.1] at hd
    cases hd

include hb

theorem retains_perform {α : Type} (n : NodeId) (t : Task α) :
    Leads (fun g h => Valid p g → Retains p g h) (t.perform below n) :=
  leads_perform Retains.steps hb (fun _ v => retains_writeFor _ v) t

theorem retains_attempt (q : Port) (c : Option Computation) (inputs : Except String Unit) :
    Leads (fun g h => Valid p g → Retains p g h) (attempt below q c inputs) := by
  intro g valid
  cases inputs with
  | error message => exact .refl g
  | ok u =>
    cases c with
    | none => exact .refl g
    | some c =>
      have noted : Retains p g (g.noted c q) := .of_quiet (quiet_noted g c q)
      rw [attempt, invoke_apply]
      exact noted.trans (retains_perform hb q.node _ _ (noted.valid valid))

theorem retains_compute {g : Graph} {q : Port} (valid : Valid p g) (hq : p ≠ q)
    (live : (g.direction? q).isSome) : Retains p g ((compute below q).apply g).2 := by
  obtain ⟨d, hd⟩ := Option.isSome_iff_exists.1 live
  obtain ⟨t, ht⟩ := exists_type?_of_direction? hd
  obtain ⟨m, hm, -⟩ := Option.map_eq_some_iff.1 ht
  have first := leads_readAll Retains.steps ((m.ports.inputsOf q.index).map (Port.mk q.node))
    (fun r _ => hb r) g valid
  refine compute_cases hm (motive := fun r => Retains p g r.2) ?stopped ?reached
  case stopped =>
    intro e h hr
    rw [hr] at first
    exact first
  case reached =>
    intro inputs h result k hr ha
    rw [hr] at first
    have second := retains_attempt hb q m.compute inputs h (first.valid valid)
    rw [ha] at second
    exact (first.trans second).trans (.settle hq result)

theorem retains_copyFrom {g : Graph} {q r : Port} (valid : Valid p g) (hq : p ≠ q) :
    Retains p g ((copyFrom below q r).apply g).2 := by
  have first := hb r g valid
  rw [copyFrom, apply_bind]
  rcases hr : (below r).apply g with ⟨e | v, k⟩
  · rw [hr] at first
    exact first
  · rw [hr] at first
    exact first.trans ((Retains.of_stored (.hold k q v) hq).trans (.setCurrent hq))

/-- What is brought up to date is another port. -/
theorem retains_freshen (q : Port) :
    Leads (fun g h => Valid p g → Retains p g h) (freshen below q) := by
  intro g valid
  have other (stale : g.isStale q = true) : p ≠ q := by
    rintro rfl
    rw [valid.2] at stale
    cases stale
  refine freshen_cases (motive := fun r => Retains p g r.2) (fun _ => .refl g) (fun _ _ => .refl g)
    ?_ ?_ ?_ ?_
  · exact fun r _ stale _ => retains_copyFrom hb valid (other stale)
  · exact fun _ stale _ => .setCurrent (other stale)
  · exact fun r _ stale _ => retains_copyFrom hb valid (other stale)
  · exact fun hd stale _ => retains_compute hb valid (other stale) (by rw [hd]; rfl)

end Reads

/-- No read touches an input that is up to date, whatever the computations do. -/
theorem retains_readWithin (p : Port) (levels : Nat) (q : Port) :
    Edit.Leads (fun g h => Valid p g → Retains p g h) (readWithin levels q) := by
  induction levels generalizing q with
  | zero => exact fun g _ => .refl g
  | succ levels ih => exact retains_freshen ih q

/-! ### Documents -/

end Graph

/-- The document of a node stands somewhere in the document of a network. -/
inductive NetworkOf.Holds (d : NetworkDocument) : NodeDocument → Prop where
  | here {name : String} {e : NodeDocument} (h : (name, e) ∈ d.nodes) : Holds d e
  | inside {e f : NodeDocument} {n : NetworkDocument} {name : String} (r : Holds d e)
      (hn : e.network = some n) (h : (name, f) ∈ n.nodes) : Holds d f

theorem Table.get?_of_mem {α β : Type} [DecidableEq α] {t : Table α β} {k : α} {b : β} (hb : (k, b) ∈ t)
    (only : ∀ c, (k, c) ∈ t → c = b) : t.get? k = some b := by
  induction t with
  | nil => cases hb
  | cons x t ih =>
    obtain ⟨a, c⟩ := x
    rw [Table.get?]
    split
    · next same => rw [only c (same ▸ List.mem_cons_self)]
    · next other =>
      refine ih (List.mem_of_ne_of_mem ?_ hb) fun c hc => only c (List.mem_cons_of_mem _ hc)
      rintro ⟨⟩
      exact other rfl

namespace Graph
section Documents
variable {g : Graph}

theorem SavedAs.network {levels : Nat} {c : NodeId} {name : String} {e : NodeDocument}
    (s : g.SavedAs levels c name e) {n : NetworkDocument} (hn : e.network = some n) :
    g.saveWithin levels c = .ok n := by
  cases inside : g.contents? c with
  | none =>
    rw [s.leaf inside] at hn
    cases hn
  | some x =>
    obtain ⟨n', hn', saved⟩ := s.inner (by rw [inside]; rfl)
    rw [hn, Option.some.injEq] at hn'
    rw [hn', saved]

/-- Whatever stands in the document of a network is what has been saved of some node. -/
theorem exists_savedAs {levels : Nat} {n : NodeId} {d : NetworkDocument}
    (saved : g.saveWithin levels n = .ok d) {e : NodeDocument} (he : d.Holds e) :
    ∃ levels' c name, g.SavedAs levels' c name e := by
  have listed {levels : Nat} {n : NodeId} {d : NetworkDocument} (saved : g.saveWithin levels n = .ok d)
      {name : String} {e : NodeDocument} (he : (name, e) ∈ d.nodes) :
      ∃ levels' c, g.SavedAs levels' c name e := by
    cases levels with
    | zero => cases saved
    | succ levels =>
      obtain ⟨c, -, hc⟩ := exists_of_forall₂_right ((saveWithin_succ_iff g).1 saved).nodes he
      exact ⟨levels, c, hc⟩
  induction he with
  | here h =>
    obtain ⟨levels', c, hc⟩ := listed saved h
    exact ⟨levels', c, _, hc⟩
  | inside _ hn h ih =>
    obtain ⟨levels', c, name, hc⟩ := ih
    obtain ⟨levels'', c', hc'⟩ := listed (hc.network hn) h
    exact ⟨levels'', c', _, hc'⟩

/-- Every node but the root stands in the document of the graph. -/
theorem exists_holds (w : g.WellFormed) {d : NetworkDocument} (saved : g.document = .ok d)
    {c : NodeId} (live : (g.type? c).isSome) (hc : c ≠ g.root) :
    ∃ levels name e, d.Holds e ∧ g.SavedAs levels c name e := by
  have child {levels : Nat} {n c : NodeId} {d : NetworkDocument} (saved : g.saveWithin levels n = .ok d)
      (around : g.around? c = some n) : ∃ levels' name e, (name, e) ∈ d.nodes ∧
        g.SavedAs levels' c name e := by
    cases levels with
    | zero => cases saved
    | succ levels =>
      have all := ((saveWithin_succ_iff g).1 saved).nodes
      obtain ⟨⟨name, e⟩, he, hs⟩ := exists_of_forall₂_left all ((w.tree.child n c).2 around)
      exact ⟨levels, name, e, he, hs⟩
  -- outwards, from network to network
  have inside := inside_root w.tree c live
  induction inside using Relation.ReflTransGen.head_induction_on with
  | refl => exact absurd rfl hc
  | @head c n around _ ih =>
    by_cases hn : n = g.root
    · subst hn
      obtain ⟨levels, name, e, he, hs⟩ := child saved around
      exact ⟨levels, name, e, .here he, hs⟩
    · have network := isSome_contents?_of_around? w.tree around
      obtain ⟨levels, name, e, he, hs⟩ := ih (isSome_type?_of_contents? network) hn
      obtain ⟨x, hx, saved'⟩ := hs.inner network
      obtain ⟨levels', name', f, hf, hs'⟩ := child saved' around
      exact ⟨levels', name', f, he.inside hx hf, hs'⟩

theorem name_of_entry {p : Port} {name : String} {j : Json} (h : g.entry p = some (name, j)) :
    (g.attr? p).map Attribute.name = some name := by
  obtain ⟨s, hs, he⟩ := Option.bind_eq_some_iff.1 h
  split at he
  · cases he
    simp [attr?, hs]
  · cases he

theorem get?_keptTable (w : g.WellFormed) {p : Port} {name : String} {j : Json}
    (h : g.entry p = some (name, j)) : (g.keptTable p.node).get? name = some j := by
  rw [keptTable_eq]
  have live : p.index < (g.portNames p.node).length := by
    have place := (g.getElem?_portNames p.node p.index).trans (name_of_entry h)
    exact (List.getElem?_eq_some_iff.1 place).1
  refine Table.get?_of_mem (List.mem_filterMap.2 ⟨p.index, List.mem_range.2 live, h⟩) fun j' hj => ?_
  obtain ⟨i, -, hi⟩ := List.mem_filterMap.1 hj
  rw [index_of_name w (name_of_entry hi) (name_of_entry h), h, Option.some.injEq, Prod.mk.injEq] at hi
  exact hi.2.symm

end Documents

/-! ### A new value -/

/-- Whoever looks at the input finds what it holds: a read, a computation that asks for it at any
later time while values are read, and a document of a network in which the input is. -/
structure Shows (p : Port) (g : Graph) : Prop where
  read : (read p).apply g = (.ok (g.held p), g)
  asked : ∀ h, Retains p g h → ∀ (α : Type) (levels : Nat) (next : Except Error Value → Task α),
    ((Task.read p.index next).perform (readWithin (levels + 1)) p.node).apply h =
      ((next (.ok (g.held p))).perform (readWithin (levels + 1)) p.node).apply h
  stays : ∀ levels q, Retains p g ((readWithin levels q).apply g).2
  saved : ∀ a, g.attr? p = some a → a.serializable = true → ∀ n d, g.documentOfNetwork n = .ok d →
    ∀ e, d.Holds e → e.id = some p.node.raw → e.ports.get? a.name = some (g.held p).toJson
  found : p.node ≠ g.root → ∃ d e, g.document = .ok d ∧ d.Holds e ∧ e.id = some p.node.raw

/-- The input holds something else than the value, but up to date, and the two agree, so that they
differ in the signs of zeros only. -/
structure Loses (g : Graph) (p : Port) (v : Value) : Prop where
  current : g.isStale p = false
  zeros : ∃ x y, g.value p = some x ∧ v.payload? = some y ∧ x ≠ y ∧ x.agrees x = true ∧
    x.unsigned = y.unsigned

section Shown
variable {g h : Graph} {p : Port} {t : DataType} {v : Value}

theorem entry_of_free {s : Slot} (hs : g.slot? p = some s) (hd : g.direction? p = some .input)
    (free : g.source? p = none) (typed : g.effectiveType p = some t) (full : (g.value p).isSome)
    (serial : s.attr.serializable = true) : g.entry p = some (s.attr.name, (g.held p).toJson) := by
  have input : s.attr.direction = .input := by simpa [direction?, hs] using hd
  have held : g.held p = s.held := by simp [held, hs]
  have some : s.held.isNull = false := by
    rw [value, held] at full
    cases hv : s.held with
    | null => simp [hv, Value.payload?] at full
    | data x mark => rfl
  have kept : g.isKept p s = true := by simp [isKept, input, serial, typed, free, some]
  rw [entry, hs, Option.bind_some, if_pos kept, held]

theorem readFor_of_valid (valid : Valid p g) (typed : g.effectiveType p = some t)
    (levels : Nat) : (readFor (readWithin (levels + 1)) p).apply g = (.ok (g.held p), g) := by
  obtain ⟨s, hs, input⟩ := Option.map_eq_some_iff.1 valid.1
  have resolved : g.resolved p = .ok t := by rw [Graph.resolved, typed]
  rw [readFor, Edit.apply_bind_ok (Edit.apply_look_ok (slot_eq_ok_iff.2 hs)),
    Edit.apply_bind_ok (Edit.apply_look_ok resolved), input]
  exact freshen_of_current (by rw [valid.1]; rfl) valid.2

theorem shows_of_valid (w : g.WellFormed) (valid : Valid p g) (free : g.source? p = none)
    (typed : g.effectiveType p = some t) (full : (g.value p).isSome) : Shows p g := by
  have live : (g.direction? p).isSome := by rw [valid.1]; rfl
  constructor
  case read =>
    rw [read_apply live]
    exact freshen_of_current live valid.2
  case asked =>
    intro h kept α levels next
    have typed' : h.effectiveType p = some t := by rw [kept.frame.effectiveType w.tree, typed]
    have held : h.held p = g.held p := by rw [held, kept.slot]; rfl
    rw [perform_read, Edit.apply_bind, Edit.apply_outcome,
      readFor_of_valid (kept.valid valid) typed', held]
  case stays => exact fun levels q => retains_readWithin p levels q g valid
  case saved =>
    intro a ha serial n d saved e he hid
    obtain ⟨levels, c, name, stored⟩ := exists_savedAs saved he
    obtain ⟨s, hs, rfl⟩ := Option.map_eq_some_iff.1 ha
    have same : c = p.node := congrArg NodeId.mk (Option.some.inj (stored.id.symm.trans hid))
    rw [stored.ports, same]
    exact get?_keptTable w (entry_of_free hs valid.1 free typed full serial)
  case found =>
    intro below
    obtain ⟨d, hd⟩ := exists_document w
    obtain ⟨type, ht⟩ := exists_type?_of_direction? valid.1
    obtain ⟨levels, name, e, he, stored⟩ := exists_holds w hd (by rw [ht]; rfl) below
    exact ⟨d, e, hd, he, stored.id⟩

theorem Loses.agrees (l : Loses g p v) : (g.held p).agrees v = true := by
  obtain ⟨x, y, hx, hy, -, proper, same⟩ := l.zeros
  rw [value] at hx
  cases hh : g.held p with
  | null => simp [hh, Value.payload?] at hx
  | data x' m =>
    cases v with
    | null => simp [Value.payload?] at hy
    | data y' n =>
      simp only [hh, Value.payload?, Option.some.injEq] at hx hy
      subst hx hy
      simp [Value.agrees, (Payload.agrees_iff x' y').2 ⟨proper, same⟩]

/-- An agreeing value is the same one, or it is lost. -/
theorem same_or_loses (current : g.isStale p = false) (agrees : (g.held p).agrees v = true)
    (piece : ∀ m x y, g.held p = .data x (some m) → v = .data y (some m) → x = y) :
    g.value p = v.payload? ∨ Loses g p v := by
  cases hh : g.held p with
  | null =>
    cases v with
    | null => exact .inl (by simp [value, hh, Value.payload?])
    | data y n => simp [hh, Value.agrees] at agrees
  | data x m =>
    cases v with
    | null => simp [hh, Value.agrees] at agrees
    | data y n =>
      have hx : g.value p = some x := by simp [value, hh, Value.payload?]
      rw [hh, Value.agrees, Bool.or_eq_true] at agrees
      by_cases same : x = y
      · exact .inl (by rw [hx, same]; rfl)
      · refine .inr ⟨current, x, y, hx, rfl, same, ?_⟩
        rcases agrees with marks | agrees
        · rw [Bool.and_eq_true, beq_iff_eq] at marks
          obtain ⟨some, rfl⟩ := marks
          obtain ⟨k, rfl⟩ := Option.isSome_iff_exists.1 some
          exact absurd (piece k x y hh rfl) same
        · exact (Payload.agrees_iff x y).1 agrees

/-- A value that is given to an input without a wire shows from then on, unless the input was up to
date with the value but for the signs of zeros. What the input holds in the end shows in any case. -/
theorem assign_shows (run : Grown g) (hd : g.direction? p = some .input) (free : g.source? p = none)
    (typed : g.effectiveType p = some t) (hv : v.portType = some t)
    (piece : ∀ m x y, g.held p = .data x (some m) → v = .data y (some m) → x = y) :
    ∃ h, g.assign p v = .ok h ∧ Shows p h ∧ (¬ Loses g p v → h.value p = v.payload?) ∧
      (Loses g p v → h = g ∧ g.value p ≠ v.payload?) := by
  have w := (acyclic_of_grown run).lawful.wellFormed
  obtain ⟨s, hs, input⟩ := Option.map_eq_some_iff.1 hd
  have held : g.held p = s.held := by simp [held, hs]
  have stale : g.isStale p = s.stale := by simp [isStale, hs]
  have some : v.payload?.isSome := by
    cases v with
    | null => cases hv
    | data y m => rfl
  have checked : g.checkAssign p v = .ok s := by
    have resolved : g.resolved p = .ok t := by rw [Graph.resolved, typed]
    simp [checkAssign, slot_eq_ok_iff.2 hs, input, free, resolved, hv, bind, Except.bind]
  have differ (l : Loses g p v) : g.value p ≠ v.payload? := by
    obtain ⟨x, y, hx, hy, other, -⟩ := l.zeros
    rw [hx, hy]
    exact fun same => other (Option.some.inj same)
  by_cases silent : g.isStale p = false ∧ (g.held p).agrees v = true
  · obtain ⟨current, agrees⟩ := silent
    have kept := same_or_loses current agrees piece
    refine ⟨g, ?_, shows_of_valid w ⟨hd, current⟩ free typed ?_, kept.resolve_right, fun l => ⟨rfl, differ l⟩⟩
    · simp only [assign, checked, bind, Except.bind]
      rw [if_pos (by simp [← stale, ← held, current, agrees])]
    · rcases kept with same | l
      · rw [same, some]
      · obtain ⟨x, -, hx, -⟩ := l.zeros
        rw [hx]
        rfl
  · have frame := g.sameFrame_replace p s v
    obtain ⟨current, new⟩ := replace_self w checked
    have value : (g.replace p s v).value p = v.payload? := by
      rw [value, new, Value.payload_stamp]
    refine ⟨g.replace p s v, ?_, ?_, fun _ => value, fun l => absurd ⟨l.current, l.agrees⟩ silent⟩
    · simp only [assign, checked, bind, Except.bind]
      rw [if_neg (by simpa [← stale, ← held] using silent)]
    · refine shows_of_valid (frame.wellFormed w) ⟨by rw [frame.direction, hd], current⟩ ?_ ?_ ?_ (t := t)
      · rw [frame.source, free]
      · rw [frame.effectiveType w.tree, typed]
      · rw [value, some]

end Shown

/-- One number, which is zero at first. -/
def dial : NodeType := ⟨"dial", ⟨[.ofValue "in" .input (.fresh (.float 0))], []⟩, none⟩

def oneDial : Graph :=
  (Action.addNode ⟨1⟩ dial "a" .standard).after (create .standard .start 0 [])

/-- The zero below zero is not taken by a new dial. -/
theorem oneDial_loses_sign : ∃ h, oneDial.assign ⟨⟨2⟩, 0⟩ (.fresh (.float (-0))) = .ok h ∧
    Shows ⟨⟨2⟩, 0⟩ h ∧ Loses oneDial ⟨⟨2⟩, 0⟩ (.fresh (.float (-0))) ∧ h = oneDial ∧
    h.value ⟨⟨2⟩, 0⟩ = some (.float 0) := by
  have run : Grown oneDial := .step (.start ..) ⟨by decide, by decide, by decide⟩
  have value : oneDial.value ⟨⟨2⟩, 0⟩ = some (.float 0) := by rfl
  have signs : (0 : Float32) ≠ -0 := by decide
  have loses : Loses oneDial ⟨⟨2⟩, 0⟩ (.fresh (.float (-0))) :=
    ⟨by rfl, _, _, value, rfl, fun same => signs (Payload.float.inj same), by decide, by rfl⟩
  obtain ⟨h, ok, shows', -, lost⟩ := assign_shows run (p := ⟨⟨2⟩, 0⟩) (v := .fresh (.float (-0)))
    (t := .float) (by rfl) (by rfl) (by cbv) (by rfl) (by rintro m x y - ⟨⟩)
  obtain ⟨rfl, -⟩ := lost loses
  exact ⟨_, ok, shows', loses, rfl, value⟩

end Graph
end Dataflow
