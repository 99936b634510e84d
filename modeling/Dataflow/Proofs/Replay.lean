import Dataflow.Document.Load
import Dataflow.Proofs.Rearrange
import Dataflow.Proofs.Run
set_option autoImplicit false

/-!
Loading step by step. Main statements: what a document has of a node, of a wire and of a value is put
in its place in the copy, without an error unless there is no room in the copy for a number or a type is
not told by the wires that are left.
-/

namespace Dataflow

/-- All node types and data types that the document of `g` names are registered. Networks are taken
to start from the standard type. -/
structure Registry.Knows (reg : Registry) (g : Graph) : Prop where
  types : ∀ n t, g.type? n = some t → g.contents? n = none → reg.find? t.name = some t
  networks : ∀ n, (g.contents? n).isSome → (g.around? n).isSome →
    reg.find? NodeType.network.name = some .network
  data : ∀ n x, g.note? n = some x → reg.data? x.dataType.name = some x.dataType

namespace Graph
variable {g k h : Graph} {r n : NodeId} {stack : List NodeId} {reg : Registry} {p : Port}

/-- What is held is read back from what is written for it. -/
structure Readable (g : Graph) : Prop where
  note : ∀ n x, g.note? n = some x → x.dataType.decode? x.toJson = some x
  value : ∀ p x, g.value p = some x → x.dataType.decode? x.toJson = some x

/-- No value that is kept agrees with the default of its port but is written in another way, as one
zero is to the other. The ports of networks start from any default. -/
def Distinct (g : Graph) : Prop :=
  ∀ p q a x y, g.Kept p → g.value p = some y → g.attr? q = some a → a.default.payload? = some x →
    (g.contents? p.node = none → q = p) → x.agrees y = true → x.toJson = y.toJson

/-- No value that is kept agrees with what its port starts with but is written in another way. -/
def Discernible (g : Graph) : Prop :=
  ∀ p x y, g.Kept p → g.value p = some y → g.Starts p x → x.agrees y = true → x.toJson = y.toJson

theorem Distinct.discernible (d : g.Distinct) : g.Discernible := by
  intro p x y kept hy starts agrees
  cases leaf : g.contents? p.node with
  | none =>
    obtain ⟨a, ha, hx⟩ := starts.default leaf kept.typed
    exact d p p a x y kept hy ha hx (fun _ => rfl) agrees
  | some w =>
    obtain ⟨q, a, ha, hx⟩ := starts.exists_default
    exact d p q a x y kept hy ha hx (fun h => by rw [leaf] at h; cases h) agrees

/-! ### Nodes -/

theorem readAttachment_ok (known : reg.Knows g) (readable : g.Readable) (c : NodeId) :
    ∃ v, readAttachment reg ((g.note? c).map fun x => ⟨x.dataType.name, x.toJson⟩) = .ok v ∧
      (v.getD .null).payload? = g.note? c := by
  cases hx : g.note? c with
  | none => exact ⟨none, rfl, rfl⟩
  | some x =>
    refine ⟨some (.fresh x), ?_, rfl⟩
    simp [readAttachment, Registry.getData, known.data c x hx, PortType.decode, readable.note c x hx,
      bind, Except.bind]

/-- The type that is registered for a node of the model. -/
structure Registered (reg : Registry) (g : Graph) (c : NodeId) (t : NodeType) : Prop where
  known : reg.get t.name = .ok t
  name : (g.type? c).map NodeType.name = some t.name
  fits : Fits t (.ofType t)
  network : t.name = NodeType.network.name ↔ (g.contents? c).isSome
  leaf : g.contents? c = none → g.type? c = some t
  bare : (g.contents? c).isSome → t = .network

theorem registered (b : g.Buildable) (known : reg.Knows g) {c p : NodeId}
    (hc : g.around? c = some p) : ∃ t, Registered reg g c t := by
  have w := b.lawful.wellFormed
  obtain ⟨u, hu⟩ := Option.isSome_iff_exists.1 (isSome_type?_of_around? hc)
  have kind := w.tree.kind c u hu
  cases inside : g.contents? c with
  | none =>
    have apart : u.name ≠ NodeType.network.name := fun hn => by
      have := kind.2 hn
      simp [inside] at this
    have consistent : u.Consistent := fun a ha => by
      obtain ⟨i, hi⟩ := List.mem_iff_getElem?.1 ha
      refine b.defaults ⟨c, i⟩ a ?_
      rw [attr?_eq, hu]
      exact hi
    refine ⟨u, ?_, by rw [hu]; rfl, ⟨?_, consistent, Datablock.suits_ofType consistent⟩, ?_, fun _ => hu, ?_⟩
    · rw [Registry.get, known.types c u hu inside]
    · exact ⟨w.sound c u hu, b.standard.input c u hu, b.standard.output c u hu, fun hn => absurd hn apart⟩
    · simp [apart, inside]
    · simp [inside]
  | some x =>
    have inside : (g.contents? c).isSome := by rw [inside]; rfl
    have consistent : NodeType.network.Consistent := by decide
    refine ⟨.network, ?_, ?_, ⟨NodeType.standard_network, consistent, Datablock.suits_ofType consistent⟩,
      ?_, ?_, fun _ => rfl⟩
    · rw [Registry.get, known.networks c inside (by rw [hc]; rfl)]
    · rw [hu, Option.map_some, kind.1 inside]
    · simp [inside]
    · intro leaf
      simp [leaf] at inside

theorem find?_of_child (w : k.Tree) {c : NodeId} {name : String} (hc : c ∈ k.children n)
    (hn : k.name? c = some name) : k.find? n name = some c := by
  cases found : k.find? n name with
  | none => exact absurd hn ((find?_eq_none_iff k n name).1 found c hc)
  | some d =>
    have there := mem_children_of_find? found
    rw [w.distinct n c d hc there.1 (hn.trans there.2.symm)]

theorem addNode_ok {c : NodeId} {t : NodeType} {name : String} (v : Option Value)
    (a : Insertable c n t name (.ofType t) k) :
    (addNode n t name ⟨some c, v, none⟩).apply k =
      (.ok c, k.insert c n t name (.ofType t) (v.getD .null)) := by
  obtain ⟨x, hx⟩ := Option.isSome_iff_exists.1 a.network
  have free : k.freeName n name = .ok name := by
    simp [freeName, (find?_eq_none_iff k n name).2 a.free]
    rfl
  have fresh : k.nodes.has c = false := by
    have := a.node?
    simp only [node?] at this
    simp [Table.has, this]
  rw [addNode_eq, Edit.apply_bind_ok (Edit.apply_look_ok (network_eq_ok_iff.2 hx)),
    Edit.apply_bind_ok (Edit.apply_look_ok free)]
  have number : (numberFor ⟨some c, v, none⟩).apply k = (.ok c, k) := rfl
  rw [Edit.apply_bind_ok number, place, Edit.apply_bind, Edit.apply_get]
  have length := a.length
  simp only [fresh, Option.getD_none, length, ne_eq, not_true_eq_false, if_false, Bool.false_eq_true]
  rfl

theorem addNode_taken {c : NodeId} (taken : (k.type? c).isSome) (t : NodeType) (name : String)
    (v : Option Value) : ∃ e h, (addNode n t name ⟨some c, v, none⟩).apply k = (.error e, h) := by
  have there : k.nodes.has c = true := by
    obtain ⟨m, hm, -⟩ := Option.map_eq_some_iff.1 (Option.isSome_iff_exists.1 taken).choose_spec
    simp only [node?] at hm
    simp [Table.has, hm]
  rw [addNode_eq, Edit.apply_bind, Edit.apply_look]
  cases k.network n with
  | error e => exact ⟨e, k, rfl⟩
  | ok w =>
    simp only
    rw [Edit.apply_bind, Edit.apply_look]
    cases k.freeName n name with
    | error e => exact ⟨e, k, rfl⟩
    | ok name' =>
      have number : (numberFor ⟨some c, v, none⟩).apply k = (.ok c, k) := rfl
      simp only
      rw [Edit.apply_bind_ok number, place, Edit.apply_bind, Edit.apply_get]
      simp only [there, if_true]
      exact ⟨_, _, rfl⟩

theorem Registered.regular {c : NodeId} {t : NodeType} (a : Registered reg g c t) (k : g.Computes) :
    t.Regular := by
  refine ⟨a.fits.standard, fun compute => ?_⟩
  cases inside : g.contents? c with
  | none => exact k c t (a.leaf inside) compute
  | some x =>
    rw [a.bare (by rw [inside]; rfl)] at compute
    cases compute

/-- Nothing in the model keeps a copy with the root `r` from being made: no node of the model has the
number of that root, and the first wire of each output without a type of its own tells its type. -/
structure Copyable (g : Graph) (r : NodeId) : Prop where
  vacant : g.around? r = none
  leading : g.Leading

section Node
variable (b : g.Buildable) (known : reg.Knows g) (readable : g.Readable)
  (s : Draft g r (n :: stack) k) (inside : (k.contents? n).isSome) {c : NodeId} {name : String}
  (hc : c ∈ g.children (g.origin r n)) (new : c ∉ k.children n) (hn : g.name? c = some name)
include b s inside hc new hn

theorem Draft.insertable (ne : c ≠ r) {t : NodeType} (ht : t.Sound) :
    Insertable c n t name (.ofType t) k := by
  have w := b.lawful.wellFormed
  have around := (w.tree.child _ _).1 hc
  refine ⟨inside, fun hk => ?_, fun c' hc' same => ?_, Datablock.length_ofType t, ht⟩
  · rw [← isSome_type?_iff] at hk
    rcases s.root_or_child hk with rfl | ⟨p, hp⟩
    · exact ne rfl
    · have there := s.placed c p hp
      rw [around, Option.some.injEq] at there
      have same := s.origin_injective (isSome_type?_of_contents? inside)
        (isSome_type?_of_contents? (isSome_contents?_of_around? s.tree hp)) there w.tree
      exact new ((s.tree.child n c).2 (same ▸ hp))
  · have here := (s.tree.child _ _).1 hc'
    rw [s.name_of_child here] at same
    have child := (w.tree.child _ _).2 (s.placed _ _ here)
    exact new (w.tree.distinct _ _ _ child hc (same.trans hn.symm) ▸ hc')

include known readable

/-- A node that is still missing is added under its own number. -/
theorem Draft.add {levels : Nat} {d : NodeDocument} (saved : g.SavedAs levels c name d)
    (bare : k.wires n = []) : (loadHead reg n name d).Goes (¬ Copyable g r)
      (fun new h => new.2 = c ∧ Registered reg g c new.1 ∧ Draft g r (c :: n :: stack) h ∧
        (∀ m, h.children m = if m = n then k.children m ++ [c] else k.children m) ∧
        h.wires = k.wires ∧ (∀ m, m ≠ c → (h.contents? m).isSome = (k.contents? m).isSome) ∧
        h.contents? c = if (g.contents? c).isSome then some .empty else none) k := by
  have w := b.lawful.wellFormed
  have around := (w.tree.child _ _).1 hc
  obtain ⟨t, reg'⟩ := registered b known around
  obtain ⟨v, hv, note⟩ := readAttachment_ok known readable c
  have quiet : Quiet k (k.passOver c.raw) := .of_nodes rfl rfl rfl
  have s' : Draft g r (n :: stack) (k.passOver c.raw) := s.quiet quiet rfl
  have type : d.typeName = t.name := by
    have := saved.typeName
    rw [reg'.name, Option.some.injEq] at this
    exact this.symm
  have kept : (keptId d.id).apply k = (.ok (some c), k.passOver c.raw) := by
    rw [saved.id]
    rfl
  refine .step_bind (Edit.apply_look_ok (by rw [type]; exact reg'.known)) <|
    .step_bind (Edit.apply_look_ok (by rw [saved.attachment]; exact hv)) <| .step_bind kept ?_
  by_cases ne : c = r
  · obtain ⟨x, h, stops⟩ := addNode_taken (n := n) (k := k.passOver c.raw) (c := c)
      (by rw [ne, ← s'.root]; exact isSome_type?_of_contents? s'.tree.rootNetwork) t name v
    refine .error x h (by rw [Edit.apply_bind, stops]) fun copyable => ?_
    rw [ne, copyable.vacant] at around
    cases around
  have a : Insertable c n t name (.ofType t) (k.passOver c.raw) :=
    s'.insertable b inside hc new hn ne reg'.fits.standard.sound
  have x := inserted _ (v.getD .null) a
  have added (m : NodeId) :
      ((k.passOver c.raw).insert c n t name (.ofType t) (v.getD .null)).note? m =
        if m = c then (v.getD .null).payload? else k.note? m :=
    note?_insert (k.passOver c.raw) m
  refine .step_bind (addNode_ok v a) (.ok (t, c) _ rfl ⟨rfl, reg',
    s'.insert x a ?_ bare around ⟨?_, ?_, ?_, ?_⟩ ?_ ?_, x.children a, ?_, fun m hm => ?_, ?_⟩)
  · exact s'.neat.insert a x (keptByGrowth_neat.insert _ _ _ _ _ _ _ s'.wellFormed reg'.fits a s'.neat.holds)
  · rw [x.name, if_pos rfl, hn]
  · rw [added, if_pos rfl, note]
  · rw [x.type, if_pos rfl, reg'.name]
    rfl
  · intro leaf
    rw [x.contents, if_pos rfl] at leaf
    rw [x.type, if_pos rfl]
    refine (reg'.leaf ?_).symm
    cases inner : g.contents? c with
    | none => rfl
    | some y =>
      rw [if_pos (reg'.network.2 (by rw [inner]; rfl))] at leaf
      cases leaf
  · intro m hm
    rw [added, if_neg hm]
    rfl
  · exact fun computes => keptByEdits_coherent.insert _ _ _ _ _ _ _ s'.wellFormed (reg'.regular computes) a
  · rw [x.wires a]
    rfl
  · exact x.network_old hm
  · rw [x.contents, if_pos rfl]
    simp only [reg'.network]

end Node

/-! ### Wires -/

section Wires
variable (b : g.Buildable) (s : Draft g r (n :: stack) k) (inside : (k.contents? n).isSome)
  (children : k.children n = g.children (g.origin r n))
include b s inside children

/-- The next wire of the model is found by the names in the document, and drawn. -/
theorem Draft.loadConnection {e : Edge} {rest : Wiring} {c : ConnectionDocument}
    (next : g.wires (g.origin r n) = k.wires n ++ e :: rest) (doc : g.connectionDocument e = .ok c) :
    (loadConnection n c).Goes (¬ Copyable g r) (fun _ h => Draft g r (n :: stack) h ∧ Tended n k h ∧
      h.wires n = k.wires n ++ [e]) k := by
  obtain ⟨outNode, outPort, inNode, inPort⟩ := (g.connectionDocument_eq_ok_iff).1 doc
  obtain ⟨ho, hi⟩ := s.around_next b children next
  have found {c' : NodeId} {name : String} (hc : k.around? c' = some n) (hn : g.name? c' = some name) :
      k.childNamed n name = .ok c' := by
    rw [childNamed, find?_of_child s.tree ((s.tree.child _ _).2 hc) (by rw [s.name_of_child hc, hn])]
  have port {p : Port} {name : String} (hp : k.around? p.node = some n)
      (hn : (g.attr? p).map Attribute.name = some name) : k.port p.node name = .ok p := by
    refine port_of_name s.wellFormed ?_
    rw [s.portName b.lawful b.standard hp (s.nest.child_not_mem s.tree hp), hn]
  have run : (Graph.loadConnection n c).apply k = (Edit.step (·.connect e.output e.input)).apply k := by
    rw [Graph.loadConnection, Edit.apply_step, Edit.apply_step]
    simp only [found ho outNode, found hi inNode, port ho outPort, port hi inPort, bind, Except.bind]
  rcases s.connect b inside children next with ⟨h, ok, done⟩ | ⟨⟨x, stops⟩, cause⟩
  · exact .ok ⟨⟩ h (run.trans (Edit.apply_step_ok ok)) done
  · refine .error x k ?_ fun copyable => cause copyable.leading
    rw [run, Edit.apply_step, stops]

/-- All wires of the model are drawn, one after the other. -/
theorem Draft.loadConnections {cs : List ConnectionDocument} (bare : k.wires n = [])
    (docs : List.Forall₂ (fun e c => g.connectionDocument e = .ok c) (g.wires (g.origin r n)) cs) :
    (cs.forM (Graph.loadConnection n)).Goes (¬ Copyable g r) (fun _ h => Draft g r (n :: stack) h ∧
      SameTree k h ∧ h.wires n = g.wires (g.origin r n) ∧ ∀ m, m ≠ n → h.wires m = k.wires m) k := by
  refine (Edit.goes_forM (Graph.loadConnection n)
    (fun cs h => ∃ es, List.Forall₂ (fun e c => g.connectionDocument e = .ok c) es cs ∧
      g.wires (g.origin r n) = h.wires n ++ es ∧ Draft g r (n :: stack) h ∧ SameTree k h ∧
      ∀ m, m ≠ n → h.wires m = k.wires m)
    (fun c cs h ⟨_, all, next, draft, tree, others⟩ => ?_)
    cs k ⟨_, docs, by rw [bare]; rfl, s, .refl k, fun _ _ => rfl⟩).mono ?_
  · obtain ⟨e, es, doc, rest, rfl⟩ := List.forall₂_cons_right_iff.1 all
    refine (draft.loadConnection b (by rwa [tree.network]) (by rw [tree.children, children]) next doc).mono
      fun _ h' ⟨draft', tended, wires⟩ => ⟨es, rest, ?_, draft', tree.trans tended.tree, fun m hm => ?_⟩
    · rw [next, wires, List.append_assoc]
      rfl
    · rw [tended.wires m hm, others m hm]
  · rintro _ h ⟨es, rest, next, draft, tree, others⟩
    rw [List.forall₂_nil_right_iff] at rest
    subst rest
    exact ⟨draft, tree, by rw [next, List.append_nil], others⟩

end Wires

/-! ### Values -/

/-- Values of the model have been stored at ports of nodes in `n`. All other values there are as they
were. -/
structure Filling (g : Graph) (n : NodeId) (k h : Graph) : Prop extends Filled n k h where
  child : ∀ p, k.around? p.node = some n → h.value p = k.value p ∨ Restored g h p

theorem checkAssign_ok {t : DataType} {v : Value} (w : h.Lawful) (typed : h.Matching)
    (input : h.direction? p = some .input) (unfed : ∀ q, ¬ h.Feeds q p)
    (ht : h.declaredType p = some t) (hv : v.portType = some t) :
    ∃ sl, h.checkAssign p v = .ok sl ∧ h.slot? p = some sl := by
  obtain ⟨sl, hsl, direction⟩ := Option.map_eq_some_iff.1 input
  have free : h.source? p = none := by
    cases hs : h.source? p with
    | none => rfl
    | some o => exact absurd ((source?_eq_some_iff w.wellFormed.wired o p).1 hs) (unfed o)
  have resolved : h.resolved p = .ok t := by
    rw [Graph.resolved, typed.effectiveType_unfed w input unfed, ht]
  refine ⟨sl, ?_, hsl⟩
  simp [checkAssign, slot_eq_ok_iff.2 hsl, direction, free, resolved, hv, bind, Except.bind]

/-- What agrees with the value is left as it is, and what does not is replaced by it. -/
theorem value_assign {t : DataType} {x : Payload} (f : LawfulWith Neat h)
    (input : h.direction? p = some .input) (unfed : ∀ q, ¬ h.Feeds q p)
    (declared : h.declaredType p = some t) (hx : x.dataType = t) :
    ∃ h' y, h.assign p (.fresh x) = .ok h' ∧ h.value p = some y ∧
      h'.value p = some (if y.agrees x = true then y else x) ∧ (h' = h ∨ ∃ sl,
        h.checkAssign p (.fresh x) = .ok sl ∧ h' = h.replace p sl (.fresh x)) := by
  have typed := f.holds.typed
  obtain ⟨sl, check, hsl⟩ := checkAssign_ok (v := .fresh x) f.lawful typed.toMatching input unfed
    declared (by rw [← hx]; rfl)
  have type := typed.declared p t declared
  rw [heldType_eq_value, Option.map_eq_some_iff] at type
  obtain ⟨y, hy, -⟩ := type
  have held : sl.held.payload? = some y := by rw [← hy, value, Graph.held, hsl]; rfl
  have fresh : sl.stale = false := by
    by_contra stale
    obtain ⟨o, ho⟩ := f.holds.awake p input (by rw [isStale, hsl]; simpa using stale)
    exact unfed o ho
  have agrees : (!sl.stale && sl.held.agrees (.fresh x)) = y.agrees x := by
    rw [fresh]
    cases hv : sl.held with
    | null => simp [hv, Value.payload?] at held
    | data z mark =>
      rw [hv] at held
      obtain rfl := Option.some.inj held
      cases mark <;> simp [Value.agrees, Value.fresh]
  by_cases same : y.agrees x = true
  · refine ⟨h, y, ?_, hy, by rw [if_pos same, hy], .inl rfl⟩
    simp only [assign, check, bind, Except.bind, agrees, same, if_true]
  · refine ⟨h.replace p sl (.fresh x), y, ?_, hy, ?_, .inr ⟨sl, check, rfl⟩⟩
    · simp only [assign, check, bind, Except.bind, agrees, same]
      rfl
    · rw [if_neg same]
      exact value_replace (by rw [input]; rfl)

section Values
variable (b : g.Buildable) (readable : g.Readable) (s : Draft g r (n :: stack) k)
  (f : Filling g n k h) (hp : k.around? p.node = some n)
include b readable s f hp

/-- A value of the model is stored where it belongs, unless it agrees with what stands there. -/
theorem Draft.loadValue {name : String} {j : Json} (he : g.entry p = some (name, j)) :
    ∃ h', (Graph.loadValue p.node name j).apply h = (.ok (), h') ∧ Filling g n k h' ∧
      Restored g h' p ∧ ∀ q, q ≠ p → h'.value q = h.value q := by
  obtain ⟨kept, hname, hj⟩ := (entry_eq_some_iff b.lawful b.toSuited).1 he
  obtain ⟨x, hx, rfl⟩ := Option.map_eq_some_iff.1 hj
  obtain ⟨t, ht⟩ := Option.isSome_iff_exists.1 kept.typed
  have type : x.dataType = t := by
    have := b.declared p t ht
    rw [heldType_eq_value, hx, Option.map_some, Option.some.injEq] at this
    exact this
  have w := b.lawful
  have done := s.nest.child_not_mem s.tree hp
  have frame := f.frame
  have input : h.direction? p = some .input := by
    rw [frame.direction, s.direction w b.standard hp done, kept.input]
  have declared : h.declaredType p = some t := by
    rw [frame.declaredType, s.declaredType w b.standard hp done, ht]
  have unfed (q : Port) : ¬ h.Feeds q p := by
    intro hf
    rw [frame.feeds] at hf
    have := (source?_eq_some_iff w.wellFormed.wired q p).2 (s.feeds hf)
    rw [kept.free] at this
    cases this
  have port : h.port p.node name = .ok p := by
    refine port_of_name f.neat.lawful.wellFormed ?_
    rw [frame.attr, s.portName w b.standard hp done, hname]
  have resolved : h.resolved p = .ok t := by
    rw [Graph.resolved, f.neat.holds.typed.effectiveType_unfed f.neat.lawful input unfed, declared]
  have decoded : PortType.decode (some t) x.toJson = .ok (.fresh x) := by
    have := readable.value p x hx
    rw [type] at this
    simp [PortType.decode, this]
  obtain ⟨h', y, ok, hy, stored, cases⟩ := value_assign f.neat input unfed declared type
  have run : (Graph.loadValue p.node name x.toJson).apply h = (.ok (), h') := by
    refine Edit.apply_step_ok ?_
    simp only [port, resolved, decoded, bind, Except.bind]
    exact ok
  have restored : Restored g h' p := by
    rcases f.child p hp with old | ⟨z, x', hz, hx', held⟩
    · refine ⟨y, x, ?_, hx, stored⟩
      exact (s.planted b).starts s.wellFormed.wired (s.unset p y (fun m hm => by
        rw [hp, Option.some.injEq] at hm
        exact hm ▸ List.mem_cons_self) (old ▸ hy)) ⟨⟨n, hp⟩, done⟩
    · -- it has been stored before, so storing it again changes nothing
      rw [hx, Option.some.injEq] at hx'
      subst hx'
      rw [held, Option.some.injEq] at hy
      refine ⟨z, x, hz, hx, stored.trans ?_⟩
      subst hy
      split <;> simp_all
  have others (q : Port) (hq : q ≠ p) : h'.value q = h.value q := by
    rcases cases with rfl | ⟨sl, -, rfl⟩
    · rfl
    · rw [value, held_replace hq]
      rfl
  refine ⟨h', run, ⟨⟨?_, ?_, ?_, fun q hq => ?_, fun coherent => ?_⟩, fun q hq => ?_⟩, restored, others⟩
  · rcases cases with rfl | ⟨sl, -, rfl⟩
    · exact frame
    · exact frame.trans (h.sameFrame_replace _ _ _)
  · exact f.neat.assign (fun sl wf ok k' => keptByGrowth_neat.assign h p _ sl wf ok k') ok
  · rcases cases with rfl | ⟨sl, -, rfl⟩
    · exact f.note
    · rw [(Aside.replace h p _ _).note, f.note]
  · rw [others q, f.value q hq]
    rintro rfl
    exact hq hp
  · rcases cases with rfl | ⟨sl, check, rfl⟩
    · exact f.coherent coherent
    · exact keptByEdits_coherent.assign h p _ sl f.neat.lawful.wellFormed check (f.coherent coherent)
  · by_cases hqp : q = p
    · subst hqp
      exact .inr restored
    · rw [others q hqp]
      exact (f.child q hq).imp_right fun a => a.congr (others q hqp)

end Values
end Graph
end Dataflow
