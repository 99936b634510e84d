import Dataflow.Document.Encoding
import Dataflow.Proofs.Legible
import Dataflow.Proofs.Packed
set_option autoImplicit false

/-!
A document comes back from both of its written forms as it was: no field that is left out is read as
something else, no order changes, and only nesting beyond the room of a reader is refused. The
types of documents promise no more than that names come once and that JSON values are sound.
-/

namespace Dataflow

/-! ### Fields -/

namespace Wire

/-- The depth of a field that may be missing. -/
def fieldDepth (field : Option Wire) : Nat := field.elim 0 depth

section
variable {names : List String} {name : String} {n : Nat} {found : List (Option Wire)}
  (hn : names.idxOf? name = some n) (hfree : found[n]? = some none)
include hn hfree

theorem place_text (w : Wire) (rest : List (Wire × Wire)) :
    place names ((.text name, w) :: rest) found = place names rest (found.set n (some w)) := by
  simp only [place, fieldKey, hn, hfree]

theorem place_ifSome {α : Type} (f : α → Wire) (o : Option α) (rest : List (Wire × Wire)) :
    place names (NodeDocument.ifSome name f o ++ rest) found =
      place names rest (found.set n (o.map f)) := by
  cases o with
  | none =>
    obtain ⟨h, hx⟩ := List.getElem?_eq_some_iff.1 hfree
    rw [Option.map_none, ← hx, List.set_getElem_self]
    rfl
  | some a => exact place_text hn hfree (f a) rest

end

end Wire

namespace NodeDocument

/-- A list that is left out if nothing is in it. -/
def nonempty {α : Type} : List α → Option (List α)
  | [] => none
  | as => some as

theorem eq_of_mem_nonempty {α : Type} {as bs : List α} (h : bs ∈ nonempty as) : bs = as := by
  cases as with
  | nil => cases h
  | cons a as => exact (Option.some.inj h).symm

theorem ifAny_eq_ifSome {α : Type} (name : String) (f : List α → Wire) (as : List α) :
    ifAny name f as = ifSome name f (nonempty as) := by
  cases as <;> rfl

theorem wireInner_eq_ifSome (network : Option (NetworkOf NodeDocument)) :
    wireInner network = ifSome "network" wireNetwork network := by
  cases network <;> rfl

theorem membersDepth_ifSome {α : Type} (name : String) (f : α → Wire) (o : Option α) :
    Wire.membersDepth (ifSome name f o) = Wire.fieldDepth (o.map f) := by
  cases o <;> simp [ifSome, Wire.membersDepth, Wire.fieldDepth]

theorem wireNodes_eq_map (nodes : List (String × NodeDocument)) :
    wireNodes nodes = nodes.map fun p => (.text p.1, p.2.toWire) := by
  induction nodes with
  | nil => rfl
  | cons p nodes ih => simp [wireNodes, ih]

/-! ### Reading lists and tables -/

section
variable {α : Type} {room : Nat} {read : Wire → Option α} {f : α → Wire}

theorem mapM_items {as : List α}
    (h : ∀ a ∈ as, read (f a) = if (f a).depth ≤ room then some a else none) :
    (as.map f).mapM read = if Wire.itemsDepth (as.map f) ≤ room then some as else none := by
  induction as with
  | nil => simp [Wire.itemsDepth]
  | cons a as ih =>
    have ha := h a List.mem_cons_self
    have hr := ih fun b hb => h b (List.mem_cons_of_mem _ hb)
    simp only [List.map_cons, List.mapM_cons, ha, hr, Wire.itemsDepth, Nat.max_le]
    generalize Wire.itemsDepth (as.map f) = m
    by_cases h₁ : (f a).depth ≤ room <;> by_cases h₂ : m ≤ room <;> simp [h₁, h₂]

theorem mapM_members {t : Table String α}
    (h : ∀ p ∈ t, read (f p.2) = if (f p.2).depth ≤ room then some p.2 else none) :
    (t.map fun p => (Wire.text p.1, f p.2)).mapM
        (fun p => do pure (← p.1.asText?, ← read p.2)) =
      if Wire.membersDepth (t.map fun p => (.text p.1, f p.2)) ≤ room then some t else none := by
  induction t with
  | nil => simp [Wire.membersDepth]
  | cons p t ih =>
    obtain ⟨k, a⟩ := p
    have ha := h (k, a) List.mem_cons_self
    have hr := ih fun q hq => h q (List.mem_cons_of_mem _ hq)
    have hk : (Wire.text k).asText? = some k := rfl
    simp only [List.map_cons, List.mapM_cons, hk, ha, hr, Wire.membersDepth, Nat.max_le]
    generalize Wire.membersDepth (t.map fun p => (.text p.1, f p.2)) = m
    by_cases h₁ : (f a).depth ≤ room <;> by_cases h₂ : m ≤ room <;> simp [h₁, h₂]

/-- A field that is left out for nothing is read as nothing. -/
theorem orDefault_optional {o : Option α} (hnull : ∀ a, f a ≠ .null)
    (h : ∀ a ∈ o, read (f a) = if (f a).depth ≤ room then some a else none) :
    orDefault none (Wire.optional read) (o.map f) =
      if Wire.fieldDepth (o.map f) ≤ room then some o else none := by
  cases o with
  | none => simp [orDefault, Wire.fieldDepth]
  | some a =>
    have hopt : Wire.optional read (f a) = (read (f a)).map some := by
      rw [Wire.optional]
      exact hnull a
    rw [Option.map_some, orDefault, hopt, h a rfl]
    by_cases hd : (f a).depth ≤ room <;> simp [Wire.fieldDepth, hd]

/-- A field that is left out for a list without items is read as that list. -/
theorem orDefault_nonempty {read : Wire → Option (List α)} {f : List α → Wire} {as : List α}
    (h : read (f as) = if (f as).depth ≤ room then some as else none) :
    orDefault [] read ((nonempty as).map f) =
      if Wire.fieldDepth ((nonempty as).map f) ≤ room then some as else none := by
  cases as with
  | nil => simp [orDefault, nonempty, Wire.fieldDepth]
  | cons a as => exact h

end

section
variable {α : Type} (room : Nat) {read : Nat → Wire → Option α} {f : α → Wire}

theorem listOf_map {as : List α}
    (h : ∀ room, ∀ a ∈ as, read room (f a) = if (f a).depth ≤ room then some a else none) :
    listOf room read (.list (as.map f)) =
      if (Wire.list (as.map f)).depth ≤ room then some as else none := by
  cases room with
  | zero => simp [listOf, Wire.depth]
  | succ room =>
    simp only [listOf, Wire.asList?, Option.bind_some, mapM_items (h room), Wire.depth,
      Nat.add_le_add_iff_right]

theorem tableOf_map {t : Table String α} (nodup : (Table.keys t).Nodup)
    (h : ∀ room, ∀ p ∈ t, read room (f p.2) = if (f p.2).depth ≤ room then some p.2 else none) :
    tableOf room read (.record (t.map fun p => (.text p.1, f p.2))) =
      if (Wire.record (t.map fun p => (.text p.1, f p.2))).depth ≤ room then some t else none := by
  cases room with
  | zero => simp [tableOf, Wire.depth]
  | succ room =>
    simp only [tableOf, mapM_members (h room), Wire.depth, Nat.add_le_add_iff_right]
    split <;> simp [Table.ofPairs_of_nodup nodup]

end

/-! ### What the types of documents promise -/

mutual
/-- Ports and nodes have names of their own, and what is kept of a port or left with a node is a
JSON value. -/
def Sound : NodeDocument → Prop
  | ⟨_, _, ports, attachment, network⟩ =>
    (Table.keys ports).Nodup ∧ (∀ p ∈ ports, p.2.Sound) ∧ (∀ b ∈ attachment, b.value.Sound) ∧
      InnerSound network

def InnerSound : Option (NetworkOf NodeDocument) → Prop
  | some d => NetworkSound d
  | none => True

def NetworkSound : NetworkOf NodeDocument → Prop
  | ⟨nodes, _, _⟩ => (Table.keys nodes).Nodup ∧ NodesSound nodes

def NodesSound : List (String × NodeDocument) → Prop
  | [] => True
  | (_, d) :: rest => d.Sound ∧ NodesSound rest
end

theorem sound_iff (d : NodeDocument) : d.Sound ↔
    (Table.keys d.ports).Nodup ∧ (∀ p ∈ d.ports, p.2.Sound) ∧ (∀ b ∈ d.attachment, b.value.Sound) ∧
      ∀ e ∈ d.network, NetworkSound e := by
  obtain ⟨type, id, ports, attachment, network⟩ := d
  cases network <;> simp [Sound, InnerSound]

theorem nodesSound_iff {nodes : List (String × NodeDocument)} :
    NodesSound nodes ↔ ∀ p ∈ nodes, p.2.Sound := by
  induction nodes with
  | nil => simp [NodesSound]
  | cons p nodes ih => simp [NodesSound, ih]

theorem networkSound_iff (d : NetworkDocument) :
    NetworkSound d ↔ (Table.keys d.nodes).Nodup ∧ ∀ p ∈ d.nodes, p.2.Sound := by
  obtain ⟨nodes, connections, boundary⟩ := d
  rw [← nodesSound_iff, NetworkSound]

/-! ### Parts without networks in them -/

theorem inside_connection (room : Nat) (c : ConnectionDocument) :
    inside room (fun _ => ConnectionDocument.ofWire?) c.toWire =
      if c.toWire.depth ≤ room then some c else none := by
  have hd : c.toWire.depth = 1 := rfl
  cases room with
  | zero => rfl
  | succ room =>
    rw [hd, if_pos (by omega)]
    rfl

theorem inside_attachment (room : Nat) {b : AttachmentDocument} (h : b.value.Sound) :
    inside room AttachmentDocument.ofWire? b.toWire =
      if b.toWire.depth ≤ room then some b else none := by
  have hd : b.toWire.depth = b.value.toWire.depth + 1 := by
    simp [AttachmentDocument.toWire, Wire.depth, Wire.membersDepth]
  cases room with
  | zero => simp [hd, inside]
  | succ room =>
    have hread : AttachmentDocument.ofWire? room b.toWire =
        (Json.ofWire? room b.value.toWire).bind fun v => some ⟨b.typeName, v⟩ := rfl
    rw [hd, inside, hread, Json.ofWire?_toWire room b.value h]
    split_ifs <;> first | rfl | omega

theorem orDefault_id (id : Option UInt64) :
    orDefault none (Wire.optional Wire.asWord?) (id.map fun n => .int n.toNat) = some id := by
  cases id with
  | none => rfl
  | some n =>
    have hn : (0 : Int) ≤ n.toNat ∧ (n.toNat : Int) < UInt64.size := by
      have := n.toNat_lt_size
      omega
    rw [Option.map_some, orDefault, Wire.optional, Wire.asWord?, if_pos hn]
    · simp
    · simp

/-! ### Documents -/

theorem fields_toWire (d : NodeDocument) : d.toWire.fields fieldNames =
    some [some (.text d.typeName), d.id.map fun n => .int n.toNat, (nonempty d.ports).map wirePorts,
      d.attachment.map AttachmentDocument.toWire, d.network.map wireNetwork] := by
  obtain ⟨type, id, ports, attachment, network⟩ := d
  rw [toWire, Wire.fields, ifAny_eq_ifSome, wireInner_eq_ifSome]
  simp only [List.append_assoc, List.cons_append]
  rw [← List.append_nil (ifSome "network" _ _), Wire.place_text rfl rfl, Wire.place_ifSome rfl rfl,
    Wire.place_ifSome rfl rfl, Wire.place_ifSome rfl rfl, Wire.place_ifSome rfl rfl]
  rfl

theorem depth_toWire (d : NodeDocument) : d.toWire.depth =
    max (Wire.fieldDepth ((nonempty d.ports).map wirePorts))
      (max (Wire.fieldDepth (d.attachment.map AttachmentDocument.toWire))
        (Wire.fieldDepth (d.network.map wireNetwork))) + 1 := by
  obtain ⟨type, id, ports, attachment, network⟩ := d
  have hid : Wire.fieldDepth (id.map fun n => .int n.toNat) = 0 := by cases id <;> rfl
  rw [toWire, Wire.depth, ifAny_eq_ifSome, wireInner_eq_ifSome]
  simp [Wire.membersDepth, Wire.membersDepth_append, membersDepth_ifSome, hid, Wire.depth]

theorem fields_wireNetwork (d : NetworkDocument) : (wireNetwork d).fields networkFieldNames =
    some [some (.record (wireNodes d.nodes)), some (wireConnections d.connections),
      (nonempty d.boundary).map wireNames] := by
  obtain ⟨nodes, connections, boundary⟩ := d
  rw [wireNetwork, Wire.fields, ifAny_eq_ifSome, Wire.place_text rfl rfl, Wire.place_text rfl rfl,
    ← List.append_nil (ifSome _ _ _), Wire.place_ifSome rfl rfl]
  rfl

theorem depth_wireNetwork (d : NetworkDocument) : (wireNetwork d).depth =
    max (Wire.record (wireNodes d.nodes)).depth
      (max (wireConnections d.connections).depth
        (Wire.fieldDepth ((nonempty d.boundary).map wireNames))) + 1 := by
  obtain ⟨nodes, connections, boundary⟩ := d
  rw [wireNetwork, Wire.depth, ifAny_eq_ifSome]
  simp only [Wire.membersDepth, membersDepth_ifSome]

/-- With this room exactly the documents come back that need no more of it. -/
structure Restores (room : Nat) : Prop where
  network : ∀ d, NetworkSound d → readNetwork room (wireNetwork d) =
    if (wireNetwork d).depth ≤ room then some d else none
  nodes : ∀ nodes, (Table.keys nodes).Nodup → (∀ p ∈ nodes, p.2.Sound) →
    readNodes room (.record (wireNodes nodes)) =
      if (Wire.record (wireNodes nodes)).depth ≤ room then some nodes else none
  node : ∀ d : NodeDocument, d.Sound → readNode room d.toWire =
    if d.toWire.depth ≤ room then some d else none

theorem restores_zero : Restores 0 where
  network d _ := by simp [readNetwork, depth_wireNetwork]
  nodes nodes _ _ := by simp [readNodes, Wire.depth]
  node d _ := by simp [readNode, depth_toWire]

section
variable {room : Nat} (ih : Restores room)
include ih

theorem Restores.succ_nodes {nodes : Table String NodeDocument} (nodup : (Table.keys nodes).Nodup)
    (h : ∀ p ∈ nodes, p.2.Sound) : readNodes (room + 1) (.record (wireNodes nodes)) =
      if (Wire.record (wireNodes nodes)).depth ≤ room + 1 then some nodes else none := by
  have hnode : ∀ p ∈ nodes, readNode room p.2.toWire =
      if p.2.toWire.depth ≤ room then some p.2 else none :=
    fun p hp => ih.node p.2 (h p hp)
  rw [readNodes, wireNodes_eq_map, mapM_members hnode, Wire.depth]
  simp only [Nat.add_le_add_iff_right]
  split_ifs <;> simp [Table.ofPairs_of_nodup nodup]

theorem Restores.succ_network {d : NetworkDocument} (h : NetworkSound d) :
    readNetwork (room + 1) (wireNetwork d) =
      if (wireNetwork d).depth ≤ room + 1 then some d else none := by
  obtain ⟨nodup, hsound⟩ := (networkSound_iff d).1 h
  have hnodes := ih.nodes d.nodes nodup hsound
  have hconnections : orDefault [] (listOf room fun room => inside room fun _ =>
      ConnectionDocument.ofWire?) (some (wireConnections d.connections)) =
        if (wireConnections d.connections).depth ≤ room then some d.connections else none :=
    listOf_map room fun room c _ => inside_connection room c
  have hboundary : orDefault [] (listOf room fun _ => Wire.asText?)
      ((nonempty d.boundary).map wireNames) =
        if Wire.fieldDepth ((nonempty d.boundary).map wireNames) ≤ room then some d.boundary
        else none :=
    orDefault_nonempty (listOf_map room fun room s _ => by simp [Wire.asText?, Wire.depth])
  simp only [readNetwork, fields_wireNetwork, depth_wireNetwork, hnodes, hconnections, hboundary,
    Option.bind_eq_bind, Option.bind_some, Nat.add_le_add_iff_right, Nat.max_le]
  split_ifs <;> simp_all

theorem Restores.succ_node {d : NodeDocument} (h : d.Sound) :
    readNode (room + 1) d.toWire = if d.toWire.depth ≤ room + 1 then some d else none := by
  obtain ⟨nodup, hvalues, hvalue, hinner⟩ := (sound_iff d).1 h
  have hports : orDefault [] (tableOf room Json.ofWire?) ((nonempty d.ports).map wirePorts) =
      if Wire.fieldDepth ((nonempty d.ports).map wirePorts) ≤ room then some d.ports else none :=
    orDefault_nonempty
      (tableOf_map room nodup fun room p hp => Json.ofWire?_toWire room p.2 (hvalues p hp))
  have hattachment : orDefault none (Wire.optional (inside room AttachmentDocument.ofWire?))
      (d.attachment.map AttachmentDocument.toWire) =
        if Wire.fieldDepth (d.attachment.map AttachmentDocument.toWire) ≤ room then
          some d.attachment else none :=
    orDefault_optional (fun b => by simp [AttachmentDocument.toWire])
      fun b hb => inside_attachment room (hvalue b hb)
  have hnetwork : orDefault none (Wire.optional fun w => readNetwork room w)
      (d.network.map wireNetwork) =
        if Wire.fieldDepth (d.network.map wireNetwork) ≤ room then some d.network else none :=
    orDefault_optional (fun ⟨_, _, _⟩ => by simp [wireNetwork])
      fun e he => ih.network e (hinner e he)
  obtain ⟨type, id, ports, attachment, network⟩ := d
  simp only [readNode, fields_toWire, depth_toWire, orDefault_id, hports, hattachment, hnetwork,
    Option.bind_eq_bind, Option.bind_some, Nat.add_le_add_iff_right, Nat.max_le, Wire.asText?]
  split_ifs <;> simp_all

end

-- The induction is on the room, as each reader leaves less of it to the next: no induction on the
-- nested documents is needed.
theorem restores (room : Nat) : Restores room := by
  induction room with
  | zero => exact restores_zero
  | succ room ih =>
    exact ⟨fun _ => ih.succ_network, fun _ => ih.succ_nodes, fun _ => ih.succ_node⟩

/-! ### Trees of documents -/

theorem plain_ifSome {α : Type} {name : String} {f : α → Wire} {o : Option α}
    (h : ∀ a ∈ o, (f a).Every Wire.Plain) : (Wire.record (ifSome name f o)).Every Wire.Plain := by
  cases o with
  | none => exact Wire.plain_record_nil
  | some a => exact Wire.plain_record_cons.2 ⟨h a rfl, Wire.plain_record_nil⟩

theorem plain_wirePorts {ports : Table String Json} (h : ∀ p ∈ ports, p.2.Sound) :
    (wirePorts ports).Every Wire.Plain := by
  induction ports with
  | nil => exact Wire.plain_record_nil
  | cons p ports ih =>
    exact Wire.plain_record_cons.2 ⟨Json.plain_toWire p.2 (h p List.mem_cons_self),
      ih fun q hq => h q (List.mem_cons_of_mem _ hq)⟩

theorem plain_attachment {b : AttachmentDocument} (h : b.value.Sound) :
    b.toWire.Every Wire.Plain := by
  simp only [AttachmentDocument.toWire, Wire.plain_record_cons]
  exact ⟨trivial, Json.plain_toWire b.value h, Wire.plain_record_nil⟩

theorem plain_connection (c : ConnectionDocument) : c.toWire.Every Wire.Plain := by
  simp only [ConnectionDocument.toWire, Wire.plain_record_cons]
  exact ⟨trivial, trivial, trivial, trivial, Wire.plain_record_nil⟩

theorem plain_list_map {α : Type} {f : α → Wire} {as : List α}
    (h : ∀ a, (f a).Every Wire.Plain) : (Wire.list (as.map f)).Every Wire.Plain := by
  refine ⟨trivial, Wire.everyItem_iff.2 fun w hw => ?_⟩
  obtain ⟨a, -, rfl⟩ := List.mem_map.1 hw
  exact h a

mutual
theorem plain_toWire : (d : NodeDocument) → d.Sound → d.toWire.Every Wire.Plain
  | ⟨type, id, ports, attachment, network⟩, h => by
    obtain ⟨-, hports, hvalue, hinner⟩ := h
    rw [toWire, ifAny_eq_ifSome]
    simp only [List.append_assoc, List.cons_append, Wire.plain_record_cons,
      Wire.plain_record_append]
    refine ⟨trivial, plain_ifSome fun n _ => ?_, plain_ifSome fun ps hps => ?_,
      plain_ifSome fun b hb => plain_attachment (hvalue b hb), plain_wireInner network hinner⟩
    · have := n.toNat_lt
      exact ⟨by omega, by omega⟩
    · obtain rfl := eq_of_mem_nonempty hps
      exact plain_wirePorts hports

theorem plain_wireInner : (network : Option (NetworkOf NodeDocument)) → InnerSound network →
    (Wire.record (wireInner network)).Every Wire.Plain
  | none, _ => Wire.plain_record_nil
  | some d, h => Wire.plain_record_cons.2 ⟨plain_wireNetwork d h, Wire.plain_record_nil⟩

theorem plain_wireNetwork :
    (d : NetworkOf NodeDocument) → NetworkSound d → (wireNetwork d).Every Wire.Plain
  | ⟨nodes, connections, boundary⟩, h => by
    rw [wireNetwork, ifAny_eq_ifSome]
    simp only [Wire.plain_record_cons]
    exact ⟨plain_wireNodes nodes h.2, plain_list_map plain_connection,
      plain_ifSome fun _ _ => plain_list_map fun _ => trivial⟩

theorem plain_wireNodes : (nodes : List (String × NodeDocument)) → NodesSound nodes →
    (Wire.record (wireNodes nodes)).Every Wire.Plain
  | [], _ => Wire.plain_record_nil
  | (_, d) :: rest, h =>
    Wire.plain_record_cons.2 ⟨plain_toWire d h.1, plain_wireNodes rest h.2⟩
end

end NodeDocument

namespace NetworkOf

/-- What the type of documents promises. -/
def Sound (d : NetworkDocument) : Prop := NodeDocument.NetworkSound d

/-- Reading takes back what was written, all of it and in its order, if there is room for its
containers, and nothing otherwise. Bytes count their lengths with 32 bits. Fractions in a text are
asked to come back from their own numerals, while all other parts of it do. -/
theorem lossless (d : NetworkDocument) (h : d.Sound) :
    (d.toWire.Every Wire.Packable →
      ofBytes? d.toBytes = if d.toWire.depth ≤ Wire.packRoom then some d else none) ∧
    (d.toWire.Every Wire.Legible →
      ofJsonText? d.toJsonText = if d.toWire.depth ≤ Json.textRoom then some d else none) := by
  have hp : d.toWire.Every Wire.Plain := NodeDocument.plain_wireNetwork d h
  have hr (room : Nat) := (NodeDocument.restores room).network d h
  refine ⟨fun hc => ?_, fun hl => ?_⟩
  · rw [ofBytes?, toBytes, Wire.unpack_pack hp hc]
    split_ifs with hd
    · rw [Option.bind_some]
      exact (hr _).trans (if_pos hd)
    · rfl
  · rw [ofJsonText?, toJsonText, Wire.toPrettyText,
      Wire.ofJsonText_write Wire.Style.spaced_pretty hp hl, Option.bind_some]
    exact hr _

/-- A network in a network, with a null left with one node and a list and a fraction under names
that need escapes. -/
def layered : NetworkDocument where
  nodes := [
    ("inner", {
      typeName := "network"
      id := some 7
      ports := [
        ("gain", .float 0.5),
        ("a \"b\"\n", .object [("k", .list [.int (-3)]), ("l", .null)])]
      attachment := some ⟨"style", .null⟩
      network := some ⟨[("leaf", ⟨"value", none, [], none, none⟩)], [], ["leaf"]⟩ }),
    ("outer", ⟨"value", some 8, [], some ⟨"", .object []⟩, some ⟨[], [], []⟩⟩)]
  connections := [⟨"inner", "out", "outer", "in"⟩, ⟨"inner", "out", "outer", "in"⟩]
  boundary := []

theorem layered_comes_back :
    layered.Sound ∧ layered.toWire.Every Wire.Packable ∧ layered.toWire.Every Wire.Legible ∧
      ofBytes? layered.toBytes = some layered ∧ ofJsonText? layered.toJsonText = some layered := by
  have hs : layered.Sound := by
    have hhalf : (0.5 : Float).isFinite = true := by decide +kernel
    have hobject : (Json.object [("k", .list [.int (-3)]), ("l", .null)]).Sound :=
      ⟨by decide, ⟨⟨by decide, by decide⟩, trivial⟩, trivial, trivial⟩
    refine ⟨by decide, ⟨by decide, ?ports, ?inner, by decide, ?leaf, trivial⟩,
      ⟨by decide, by simp, ?outer, by decide, trivial⟩, trivial⟩
    case ports => simpa using ⟨hhalf, hobject⟩
    case inner => simp [Json.Sound]
    case leaf => exact ⟨by decide, by simp, by simp, trivial⟩
    case outer => simp [Json.Sound, Json.MembersSound]
  have hc : layered.toWire.Every Wire.Packable := by decide +kernel
  have hl : layered.toWire.Every Wire.Legible := by
    have hhalf : Wire.Legible (.float 0.5) := by with_unfolding_all rfl
    repeat' first | exact trivial | exact hhalf | constructor
  have hd : layered.toWire.depth = 6 := by
    rfl
  have h := lossless layered hs
  exact ⟨hs, hc, hl, (h.1 hc).trans (if_pos (by rw [hd]; decide)),
    (h.2 hl).trans (if_pos (by rw [hd]; decide))⟩

end NetworkOf
end Dataflow
