import Dataflow.Document.Save
import Dataflow.Proofs.Arena
import Dataflow.Proofs.Tended
set_option autoImplicit false

/-!
What stands in the document of a network. Main statements: a document has the nodes, the wires and the
boundary of its network in their order, with the values of those inputs that have a type of their own
and no wire, and every network has a document.
-/

namespace Dataflow

theorem Except.bind_eq_ok_iff {ε α β : Type} {x : Except ε α} {f : α → Except ε β} {b : β} :
    x >>= f = .ok b ↔ ∃ a, x = .ok a ∧ f a = .ok b := by
  cases x <;> simp [bind, Except.bind]

theorem mapM_eq_ok_iff {ε α β : Type} {f : α → Except ε β} {l : List α} {bs : List β} :
    l.mapM f = .ok bs ↔ List.Forall₂ (fun a b => f a = .ok b) l bs := by
  induction l generalizing bs with
  | nil => simp [pure, Except.pure, eq_comm]
  | cons a l ih =>
    rw [List.mapM_cons, Except.bind_eq_ok_iff, List.forall₂_cons_left_iff]
    refine exists_congr fun b => ?_
    simp only [Except.bind_eq_ok_iff, ih, pure, Except.pure, Except.ok.injEq]
    constructor
    · rintro ⟨ha, bs', hl, rfl⟩
      exact ⟨bs', ha, hl, rfl⟩
    · rintro ⟨bs', ha, hl, rfl⟩
      exact ⟨ha, bs', hl, rfl⟩

theorem filterMap_zipIdx {α β : Type} (l : List α) (f : α × Nat → Option β) :
    l.zipIdx.filterMap f = (List.range l.length).filterMap fun i => l[i]?.bind fun a => f (a, i) := by
  induction l using List.reverseRecOn with
  | nil => rfl
  | append_singleton l a ih =>
    rw [List.zipIdx_append, List.filterMap_append, ih, List.length_append, List.length_singleton,
      List.range_succ, List.filterMap_append]
    congr 1
    · refine List.filterMap_congr fun i hi => ?_
      rw [List.getElem?_append_left (List.mem_range.1 hi)]
    · have last : (l ++ [a])[l.length]? = some a := by simp
      rw [List.zipIdx_singleton, List.filterMap_cons, List.filterMap_cons, last, Nat.zero_add]
      rfl

namespace Graph

/-! ### Ports -/

/-- The names of the ports of a node, in order. -/
def portNames (g : Graph) (n : NodeId) : List String :=
  (g.type? n).elim [] fun t => t.ports.entries.map Attribute.name

/-- What a document writes for the value of a port. -/
def written (g : Graph) (p : Port) : Option Json := (g.value p).map Payload.toJson

/-- A port whose value documents keep. -/
structure Kept (g : Graph) (p : Port) : Prop where
  input : g.direction? p = some .input
  serial : (g.attr? p).map Attribute.serializable = some true
  typed : (g.declaredType p).isSome
  free : g.source? p = none

/-- What a document has of a port. -/
def entry (g : Graph) (p : Port) : Option (String × Json) :=
  (g.slot? p).bind fun s => if g.isKept p s then some (s.attr.name, s.held.toJson) else none

/-- What a document has of the ports of a node. -/
def keptTable (g : Graph) (n : NodeId) : Table String Json := (g.node? n).elim [] (g.keptPorts n)

section Ports
variable (g : Graph)

theorem getElem?_portNames (n : NodeId) (i : Nat) :
    (g.portNames n)[i]? = (g.attr? ⟨n, i⟩).map Attribute.name := by
  rw [portNames, attr?_eq]
  cases g.type? n with
  | none => rfl
  | some t => simp [Layout.get?]

theorem mem_portNames_iff (n : NodeId) (name : String) :
    name ∈ g.portNames n ↔ ∃ i, (g.attr? ⟨n, i⟩).map Attribute.name = some name := by
  rw [List.mem_iff_getElem?]
  exact exists_congr fun i => by rw [getElem?_portNames]

theorem portNames_of_node? {n : NodeId} {m : Node} (hm : g.node? n = some m) :
    g.portNames n = m.ports.entries.map fun s => s.attr.name := by
  simp [portNames, type?, hm, Node.type, Layout.map]

theorem keptTable_eq (n : NodeId) : g.keptTable n =
    (List.range (g.portNames n).length).filterMap fun i => g.entry ⟨n, i⟩ := by
  cases hm : g.node? n with
  | none => simp [keptTable, portNames, type?, hm]
  | some m =>
    rw [keptTable, hm, Option.elim_some, keptPorts, filterMap_zipIdx, portNames_of_node? g hm,
      List.length_map]
    refine List.filterMap_congr fun i _ => ?_
    simp [entry, slot?, hm, Layout.get?]

variable {g}

theorem nodup_portNames (w : g.WellFormed) (n : NodeId) : (g.portNames n).Nodup := by
  rw [portNames]
  cases ht : g.type? n with
  | none => exact List.nodup_nil
  | some t => exact (w.sound n t ht).names

theorem port_of_name (w : g.WellFormed) {p : Port} {name : String}
    (hp : (g.attr? p).map Attribute.name = some name) : g.port p.node name = .ok p := by
  obtain ⟨n, i⟩ := p
  obtain ⟨a, ha, rfl⟩ := Option.map_eq_some_iff.1 hp
  rw [attr?_eq] at ha
  obtain ⟨t, ht, hi⟩ := Option.bind_eq_some_iff.1 ha
  obtain ⟨m, hm, rfl⟩ := Option.map_eq_some_iff.1 ht
  cases hj : m.type.indexOf? a.name with
  | none =>
    rw [NodeType.indexOf?_eq_none_iff] at hj
    exact absurd (List.mem_map_of_mem (List.mem_of_getElem? hi)) hj
  | some j =>
    obtain ⟨low, hname, -⟩ := List.findIdx?_eq_some_iff_getElem.1 hj
    have here : (g.attr? ⟨n, j⟩).map Attribute.name = some a.name := by
      rw [attr?_eq, ht, Option.bind_some, Layout.get?, List.getElem?_eq_getElem low]
      simpa using hname
    rw [port, node, hm]
    simp only [bind, Except.bind, hj]
    rw [index_of_name w here hp]

variable (w : g.Lawful) (k : g.Suited)
include w k

theorem isKept_iff {p : Port} {s : Slot} (hs : g.slot? p = some s) :
    g.isKept p s = true ↔ g.Kept p := by
  have attr : g.attr? p = some s.attr := by simp [attr?, hs]
  have direction : g.direction? p = some s.attr.direction := by rw [direction?_eq, attr]; rfl
  have own (input : s.attr.direction = .input) (free : g.source? p = none) :
      g.effectiveType p = g.declaredType p := by
    refine k.effectiveType_unfed w (by rw [direction, input]) fun q hq => ?_
    rw [← source?_eq_some_iff w.wellFormed.wired, free] at hq
    cases hq
  simp only [isKept, Bool.and_eq_true, beq_iff_eq, Option.isNone_iff_eq_none, Bool.not_eq_true']
  constructor
  · rintro ⟨⟨⟨⟨input, serial⟩, typed⟩, free⟩, -⟩
    rw [own input free] at typed
    exact ⟨by rw [direction, input], by rw [attr, Option.map_some, serial], typed, free⟩
  · rintro ⟨input, serial, typed, free⟩
    rw [direction, Option.some.injEq] at input
    rw [attr, Option.map_some, Option.some.injEq] at serial
    refine ⟨⟨⟨⟨input, serial⟩, by rwa [own input free]⟩, free⟩, ?_⟩
    obtain ⟨t, ht⟩ := Option.isSome_iff_exists.1 typed
    have held := k.declared p t ht
    rw [heldType, Graph.held, hs, Option.elim_some] at held
    cases hv : s.held with
    | null => simp [hv, Value.portType] at held
    | data x mark => rfl

theorem entry_eq_some_iff {p : Port} {name : String} {j : Json} : g.entry p = some (name, j) ↔
    g.Kept p ∧ (g.attr? p).map Attribute.name = some name ∧ g.written p = some j := by
  rw [entry, Option.bind_eq_some_iff]
  constructor
  · rintro ⟨s, hs, he⟩
    split at he
    · next kept =>
      cases he
      refine ⟨(isKept_iff w k hs).1 kept, by simp [attr?, hs], ?_⟩
      have full : s.held.isNull = false := by simp_all [isKept]
      rw [written, value, Graph.held, hs, Option.elim_some]
      cases hv : s.held with
      | null => simp [hv, Value.isNull] at full
      | data x mark => rfl
    · cases he
  · rintro ⟨kept, hname, hj⟩
    obtain ⟨a, ha, rfl⟩ := Option.map_eq_some_iff.1 hname
    obtain ⟨s, hs, rfl⟩ := Option.map_eq_some_iff.1 ha
    refine ⟨s, hs, ?_⟩
    rw [if_pos ((isKept_iff w k hs).2 kept)]
    rw [written, value, Graph.held, hs, Option.elim_some] at hj
    cases hv : s.held with
    | null => simp [hv, Value.payload?] at hj
    | data x mark =>
      rw [hv] at hj
      cases hj
      rfl

end Ports

/-! ### Nodes and networks -/

/-- What a network's document has of a node in it. -/
def saveNode (g : Graph) (levels : Nat) (c : NodeId) : Except Error (String × NodeDocument) := do
  let m ← g.node c
  let inner ← match m.inner with
    | some _ => (g.saveWithin levels c).map some
    | none => pure none
  pure (m.name, ⟨m.typeName, some c.raw, g.keptPorts c m, keptAttachment m, inner⟩)

/-- The document `d` of a node is what `saveNode` makes of it. -/
structure SavedAs (g : Graph) (levels : Nat) (c : NodeId) (name : String) (d : NodeDocument) : Prop where
  name : g.name? c = some name
  typeName : (g.type? c).map NodeType.name = some d.typeName
  id : d.id = some c.raw
  ports : d.ports = g.keptTable c
  attachment : d.attachment = (g.note? c).map fun x => ⟨x.dataType.name, x.toJson⟩
  leaf : g.contents? c = none → d.network = none
  inner : (g.contents? c).isSome → ∃ e, d.network = some e ∧ g.saveWithin levels c = .ok e

/-- The document `d` of a network is what saving makes of it, with `levels` levels for its nodes. -/
structure Saves (g : Graph) (levels : Nat) (n : NodeId) (d : NetworkDocument) : Prop where
  network : (g.contents? n).isSome
  nodes : List.Forall₂ (fun c e => g.SavedAs levels c e.1 e.2) (g.children n) d.nodes
  connections : List.Forall₂ (fun e c => g.connectionDocument e = .ok c) (g.wires n) d.connections
  boundary : d.boundary = g.portNames n

section Save
variable (g : Graph)

theorem saveNode_eq_ok_iff {levels : Nat} {c : NodeId} {e : String × NodeDocument} :
    g.saveNode levels c = .ok e ↔ g.SavedAs levels c e.1 e.2 := by
  obtain ⟨name, typeName, id, ports, attachment, network⟩ := e
  constructor
  · intro h
    obtain ⟨m, hm, h⟩ := Except.bind_eq_ok_iff.1 h
    rw [node_eq_ok_iff] at hm
    have inside : g.contents? c = m.inner := by simp [contents?, hm]
    have fields (inner : Option NetworkDocument) (eq : (m.name, (⟨m.typeName, some c.raw,
        g.keptPorts c m, keptAttachment m, inner⟩ : NodeDocument)) =
          (name, ⟨typeName, id, ports, attachment, network⟩))
        (leaf : g.contents? c = none → inner = none)
        (nested : (g.contents? c).isSome → ∃ d, inner = some d ∧ g.saveWithin levels c = .ok d) :
        g.SavedAs levels c name ⟨typeName, id, ports, attachment, network⟩ := by
      cases eq
      exact ⟨by simp [name?, hm], by simp [type?, hm, Node.type], rfl, by simp [keptTable, hm],
        by simp [note?, hm, keptAttachment], leaf, nested⟩
    cases hx : m.inner with
    | none =>
      simp only [hx] at h
      exact fields none (Except.ok.inj h) (fun _ => rfl) (by simp [inside, hx])
    | some x =>
      simp only [hx] at h
      obtain ⟨inner, hi, h⟩ := Except.bind_eq_ok_iff.1 h
      refine fields inner (Except.ok.inj h) (by simp [inside, hx]) fun _ => ?_
      cases saved : g.saveWithin levels c with
      | error err => simp [saved, Except.map] at hi
      | ok d =>
        simp only [saved, Except.map, Except.ok.injEq] at hi
        exact ⟨d, hi.symm, rfl⟩
  · rintro ⟨hname, htype, hid, hports, hatt, hleaf, hinner⟩
    obtain ⟨m, hm, rfl⟩ := Option.map_eq_some_iff.1 hname
    have inside : g.contents? c = m.inner := by simp [contents?, hm]
    simp only [type?, hm, Option.map_some, Node.type, Option.some.injEq] at htype
    simp only [keptTable, hm, Option.elim_some] at hports
    simp only [note?, hm, Option.bind_some] at hatt
    simp only at hid hleaf hinner
    rw [saveNode, Except.bind_eq_ok_iff]
    refine ⟨m, node_eq_ok_iff.2 hm, ?_⟩
    rw [← htype, hid, hports, hatt]
    cases hx : m.inner with
    | none =>
      rw [hleaf (inside.trans hx)]
      rfl
    | some x =>
      obtain ⟨d, rfl, saved⟩ := hinner (by rw [inside, hx]; rfl)
      simp only [saved]
      rfl

theorem saveWithin_succ_iff {levels : Nat} {n : NodeId} {d : NetworkDocument} :
    g.saveWithin (levels + 1) n = .ok d ↔ g.Saves levels n d := by
  obtain ⟨nodes, connections, boundary⟩ := d
  have eq : g.saveWithin (levels + 1) n = (do
      let w ← g.network n
      let nodes ← w.children.mapM (g.saveNode levels)
      let connections ← w.wires.mapM g.connectionDocument
      let m ← g.node n
      pure ⟨nodes, connections, m.ports.entries.map fun s => s.attr.name⟩) := rfl
  rw [eq]
  simp only [Except.bind_eq_ok_iff, mapM_eq_ok_iff, network_eq_ok_iff, node_eq_ok_iff,
    saveNode_eq_ok_iff]
  constructor
  · rintro ⟨x, hx, ns, hn, cs, hc, m, hm, h⟩
    cases h
    refine ⟨by rw [hx]; rfl, ?_, ?_, (portNames_of_node? g hm).symm⟩
    · simpa [children, hx] using hn
    · simpa [wires, hx] using hc
  · rintro ⟨inside, hn, hc, hb⟩
    obtain ⟨x, hx⟩ := Option.isSome_iff_exists.1 inside
    obtain ⟨m, hm, -⟩ := Option.bind_eq_some_iff.1 hx
    refine ⟨x, hx, nodes, ?_, connections, ?_, m, hm, ?_⟩
    · simpa [children, hx] using hn
    · simpa [wires, hx] using hc
    · simp only at hb
      rw [hb, portNames_of_node? g hm]
      rfl

theorem portName_eq_ok_iff {p : Port} {name : String} :
    g.portName p = .ok name ↔ (g.attr? p).map Attribute.name = some name := by
  simp only [portName, Except.bind_eq_ok_iff, slot_eq_ok_iff, attr?, Option.map_map,
    Option.map_eq_some_iff, pure, Except.pure, Except.ok.injEq]
  rfl

theorem connectionDocument_eq_ok_iff {e : Edge} {c : ConnectionDocument} :
    g.connectionDocument e = .ok c ↔
      g.name? e.output.node = some c.outNode ∧ (g.attr? e.output).map Attribute.name = some c.outPort ∧
      g.name? e.input.node = some c.inNode ∧ (g.attr? e.input).map Attribute.name = some c.inPort := by
  obtain ⟨a, b, a', b'⟩ := c
  simp only [connectionDocument, Except.bind_eq_ok_iff, node_eq_ok_iff, portName_eq_ok_iff, name?,
    Option.map_eq_some_iff, pure, Except.pure, Except.ok.injEq, ConnectionDocument.mk.injEq]
  constructor
  · rintro ⟨m, hm, x, hx, m', hm', x', hx', rfl, rfl, rfl, rfl⟩
    exact ⟨⟨m, hm, rfl⟩, hx, ⟨m', hm', rfl⟩, hx'⟩
  · rintro ⟨⟨m, hm, rfl⟩, hx, ⟨m', hm', rfl⟩, hx'⟩
    exact ⟨m, hm, _, hx, m', hm', _, hx', rfl, rfl, rfl, rfl⟩

end Save

/-! ### Levels -/

section Levels
variable {g : Graph}

theorem SavedAs.imp {levels levels' : Nat} {c : NodeId} {name : String} {d : NodeDocument}
    (a : g.SavedAs levels c name d)
    (more : ∀ e, g.saveWithin levels c = .ok e → g.saveWithin levels' c = .ok e) :
    g.SavedAs levels' c name d :=
  ⟨a.name, a.typeName, a.id, a.ports, a.attachment, a.leaf,
    fun inside => (a.inner inside).imp fun e => And.imp_right (more e)⟩

/-- More levels than are needed change nothing. -/
theorem saveWithin_mono {levels : Nat} {n : NodeId} {d : NetworkDocument}
    (saved : g.saveWithin levels n = .ok d) : g.saveWithin (levels + 1) n = .ok d := by
  induction levels generalizing n d with
  | zero => cases saved
  | succ levels ih =>
    rw [saveWithin_succ_iff] at *
    exact ⟨saved.network, saved.nodes.imp fun c e a => a.imp fun _ => ih, saved.connections,
      saved.boundary⟩

theorem saveWithin_le {levels levels' : Nat} (le : levels ≤ levels') {n : NodeId}
    {d : NetworkDocument} (saved : g.saveWithin levels n = .ok d) : g.saveWithin levels' n = .ok d := by
  induction le with
  | refl => exact saved
  | step _ ih => exact saveWithin_mono ih

theorem exists_forall₂ {α β : Type} {R : α → β → Prop} {l : List α} (h : ∀ a ∈ l, ∃ b, R a b) :
    ∃ bs, List.Forall₂ R l bs := by
  induction l with
  | nil => exact ⟨[], .nil⟩
  | cons a l ih =>
    obtain ⟨b, hb⟩ := h a List.mem_cons_self
    obtain ⟨bs, hbs⟩ := ih fun c hc => h c (List.mem_cons_of_mem _ hc)
    exact ⟨b :: bs, .cons hb hbs⟩

theorem exists_connectionDocument (w : g.WellFormed) {n : NodeId} {e : Edge} (he : e ∈ g.wires n) :
    ∃ c, g.connectionDocument e = .ok c := by
  obtain ⟨a, ha, -⟩ := isSome_attr?_of_direction? (w.wired.output n e he)
  obtain ⟨b, hb, -⟩ := isSome_attr?_of_direction? (w.wired.input n e he)
  obtain ⟨o, ho, -⟩ := exists_node?_of_around? (w.wired.outputAround n e he)
  obtain ⟨i, hi, -⟩ := exists_node?_of_around? (w.wired.inputAround n e he)
  exact ⟨⟨o.name, a.name, i.name, b.name⟩, (connectionDocument_eq_ok_iff g).2
    ⟨by simp [name?, ho], by rw [ha]; rfl, by simp [name?, hi], by rw [hb]; rfl⟩⟩

/-- A network has a document as soon as there are levels for all nodes that came after it. -/
theorem exists_saveWithin (w : g.WellFormed) {levels : Nat} {n : NodeId}
    (inside : (g.contents? n).isSome) (enough : g.nodes.length ≤ g.rank n + levels) :
    ∃ d, g.saveWithin levels n = .ok d := by
  induction levels generalizing n with
  | zero =>
    have := rank_lt_length (isSome_type?_of_contents? inside)
    omega
  | succ levels ih =>
    have node (c : NodeId) (hc : c ∈ g.children n) :
        ∃ e : String × NodeDocument, g.SavedAs levels c e.1 e.2 := by
      have around := (w.tree.child n c).1 hc
      have below := rank_lt w.tree around
      obtain ⟨m, hm, -⟩ := exists_node?_of_around? around
      have name : g.name? c = some m.name := by simp [name?, hm]
      have type : (g.type? c).map NodeType.name = some m.typeName := by simp [type?, hm, Node.type]
      cases nested : g.contents? c with
      | none =>
        exact ⟨(m.name, ⟨m.typeName, some c.raw, g.keptTable c, _, none⟩), name, type, rfl, rfl, rfl,
          fun _ => rfl, by simp [nested]⟩
      | some x =>
        obtain ⟨d, hd⟩ := ih (n := c) (by rw [nested]; rfl) (by omega)
        exact ⟨(m.name, ⟨m.typeName, some c.raw, g.keptTable c, _, some d⟩), name, type, rfl, rfl, rfl,
          by simp [nested], fun _ => ⟨d, rfl, hd⟩⟩
    obtain ⟨nodes, hn⟩ := exists_forall₂ node
    obtain ⟨connections, hc⟩ := exists_forall₂ fun e he => exists_connectionDocument w (n := n) (e := e) he
    exact ⟨⟨nodes, connections, g.portNames n⟩, (saveWithin_succ_iff g).2 ⟨inside, hn, hc, rfl⟩⟩

/-- Every graph has a document. -/
theorem exists_document (w : g.WellFormed) : ∃ d, g.document = .ok d :=
  exists_saveWithin w w.tree.rootNetwork (by omega)

/-- What is saved with some number of levels is the document. -/
theorem document_of_saveWithin (w : g.WellFormed) {levels : Nat} {d : NetworkDocument}
    (saved : g.saveWithin levels g.root = .ok d) : g.document = .ok d := by
  obtain ⟨e, he⟩ := exists_document w
  have same := saveWithin_le (Nat.le_max_left levels (g.nodes.length + 1)) saved
  rw [saveWithin_le (Nat.le_max_right levels (g.nodes.length + 1)) he, Except.ok.injEq] at same
  rw [he, same]

end Levels

/-! ### Numbers -/

theorem largest_left {a b : Option UInt64} {x : UInt64} (ha : a = some x) :
    ∃ y, largest a b = some y ∧ x ≤ y := by
  subst ha
  cases b with
  | none => exact ⟨x, rfl, UInt64.le_refl x⟩
  | some y =>
    refine ⟨_, rfl, ?_⟩
    split
    · exact UInt64.le_of_lt ‹_›
    · exact UInt64.le_refl x

theorem largest_right {a b : Option UInt64} {x : UInt64} (hb : b = some x) :
    ∃ y, largest a b = some y ∧ x ≤ y := by
  subst hb
  cases a with
  | none => exact ⟨x, rfl, UInt64.le_refl x⟩
  | some y =>
    refine ⟨_, rfl, ?_⟩
    split
    · exact UInt64.le_refl x
    · exact UInt64.not_lt.1 ‹_›

theorem of_largest {a b : Option UInt64} {x : UInt64} (h : largest a b = some x) :
    a = some x ∨ b = some x := by
  cases a <;> cases b <;> simp only [largest] at h
  · cases h
  · exact .inr h
  · exact .inl h
  · split at h
    · exact .inr h
    · exact .inl h

theorem largestId_eq (d : NodeDocument) :
    d.largestId = largest d.id (d.network.bind NetworkOf.largestId) := by
  obtain ⟨typeName, id, ports, attachment, _ | ⟨nodes, connections, boundary⟩⟩ := d
  · cases id <;> rfl
  · rfl

theorem largestIdOf_of_mem {l : List (String × NodeDocument)} {e : String × NodeDocument} {x : UInt64}
    (he : e ∈ l) (hx : e.2.largestId = some x) : ∃ y, largestIdOf l = some y ∧ x ≤ y := by
  induction l with
  | nil => cases he
  | cons a l ih =>
    rcases List.mem_cons.1 he with rfl | he
    · exact largest_left hx
    · obtain ⟨y, hy, le⟩ := ih he
      obtain ⟨z, hz, le'⟩ := largest_right (a := a.2.largestId) hy
      exact ⟨z, hz, UInt64.le_trans le le'⟩

theorem mem_of_largestIdOf {l : List (String × NodeDocument)} {x : UInt64}
    (h : largestIdOf l = some x) : ∃ e ∈ l, e.2.largestId = some x := by
  induction l with
  | nil => cases h
  | cons a l ih =>
    rcases of_largest h with h | h
    · exact ⟨a, List.mem_cons_self, h⟩
    · obtain ⟨e, he, hx⟩ := ih h
      exact ⟨e, List.mem_cons_of_mem _ he, hx⟩

section Numbers
variable {g : Graph} {levels : Nat} {n : NodeId} {d : NetworkDocument}

theorem exists_of_forall₂_left {α β : Type} {R : α → β → Prop} {l : List α} {bs : List β}
    (h : List.Forall₂ R l bs) {a : α} (ha : a ∈ l) : ∃ b ∈ bs, R a b := by
  induction h with
  | nil => cases ha
  | cons hab _ ih =>
    rcases List.mem_cons.1 ha with rfl | ha
    · exact ⟨_, List.mem_cons_self, hab⟩
    · obtain ⟨b, hb, hr⟩ := ih ha
      exact ⟨b, List.mem_cons_of_mem _ hb, hr⟩

theorem exists_of_forall₂_right {α β : Type} {R : α → β → Prop} {l : List α} {bs : List β}
    (h : List.Forall₂ R l bs) {b : β} (hb : b ∈ bs) : ∃ a ∈ l, R a b :=
  exists_of_forall₂_left h.flip hb

/-- No number of a node in the network is above the largest in its document. -/
theorem le_largestId (w : g.WellFormed) (saved : g.saveWithin levels n = .ok d) {c : NodeId}
    (hc : g.Inside c n) (ne : c ≠ n) : ∃ x, d.largestId = some x ∧ c.raw ≤ x := by
  induction levels generalizing n d with
  | zero => cases saved
  | succ levels ih =>
    obtain ⟨-, nodes, -, -⟩ := (saveWithin_succ_iff g).1 saved
    rcases hc.cases_tail with rfl | ⟨p, below, last⟩
    · exact absurd rfl ne
    · obtain ⟨e, he, a⟩ := exists_of_forall₂_left nodes ((w.tree.child n p).2 last)
      have within : ∃ x, e.2.largestId = some x ∧ c.raw ≤ x := by
        rw [largestId_eq]
        by_cases hp : c = p
        · rw [hp]
          exact largest_left a.id
        · have network : (g.contents? p).isSome := by
            rcases below.cases_tail with rfl | ⟨q, -, hq⟩
            · exact absurd rfl hp
            · exact isSome_contents?_of_around? w.tree hq
          obtain ⟨d', hd', saved'⟩ := a.inner network
          obtain ⟨x, hx, le⟩ := ih saved' below hp
          obtain ⟨y, hy, le'⟩ := largest_right (a := e.2.id)
            (b := e.2.network.bind NetworkOf.largestId) (by rw [hd']; exact hx)
          exact ⟨y, hy, UInt64.le_trans le le'⟩
      obtain ⟨x, hx, le⟩ := within
      obtain ⟨y, hy, le'⟩ := largestIdOf_of_mem he hx
      exact ⟨y, hy, UInt64.le_trans le le'⟩

/-- The largest number in a document is that of a node. -/
theorem exists_of_largestId (w : g.WellFormed) (saved : g.saveWithin levels n = .ok d) {x : UInt64}
    (hx : d.largestId = some x) : ∃ c p, g.around? c = some p ∧ c.raw = x := by
  induction levels generalizing n d with
  | zero => cases saved
  | succ levels ih =>
    obtain ⟨-, nodes, -, -⟩ := (saveWithin_succ_iff g).1 saved
    obtain ⟨e, he, hx⟩ := mem_of_largestIdOf hx
    obtain ⟨c, hc, a⟩ := exists_of_forall₂_right nodes he
    rw [largestId_eq] at hx
    rcases of_largest hx with hx | hx
    · rw [a.id, Option.some.injEq] at hx
      exact ⟨c, n, (w.tree.child n c).1 hc, hx⟩
    · obtain ⟨d', hd', hx⟩ := Option.bind_eq_some_iff.1 hx
      have network : (g.contents? c).isSome := by
        cases inside : g.contents? c with
        | none =>
          rw [a.leaf inside] at hd'
          cases hd'
        | some y => rfl
      obtain ⟨d'', hd'', saved'⟩ := a.inner network
      rw [hd', Option.some.injEq] at hd''
      exact ih saved' (hd'' ▸ hx)

end Numbers
end Graph
end Dataflow
