import Dataflow.Proofs.Cut
import Dataflow.Proofs.Edit
set_option autoImplicit false

/-!
Adding a node. Main statements: a node comes to a graph as the last one, with ports that have
neither wires nor peers, and a lawful graph stays lawful and an acyclic one acyclic.
-/

namespace Dataflow.Graph

/-- What holds where a node of type `t` may come to the network `parent`. -/
structure Insertable (id parent : NodeId) (t : NodeType) (name : String) (values : Datablock)
    (g : Graph) : Prop where
  network : (g.contents? parent).isSome
  fresh : id ∉ g.nodes.keys
  free : ∀ c ∈ g.children parent, g.name? c ≠ some name
  length : values.length = t.ports.length
  sound : t.Sound

/-- The node `id` of type `t` has come to the network `parent`, and its ports hold what is like
`values`. -/
structure Inserted (id parent : NodeId) (t : NodeType) (name : String) (values : Datablock)
    (g h : Graph) : Prop where
  keys : h.nodes.keys = g.nodes.keys ++ [id]
  root : h.root = g.root
  config : h.config = g.config
  around : ∀ k, h.around? k = if k = id then some parent else g.around? k
  contents : ∀ k, h.contents? k =
    if k = id then if t.name = NodeType.network.name then some .empty else none
    else if k = parent then (g.contents? k).map fun w => { w with children := w.children ++ [id] }
    else g.contents? k
  type : ∀ k, h.type? k = if k = id then some t else g.type? k
  name : ∀ k, h.name? k = if k = id then some name else g.name? k
  slot : ∀ p, p.node ≠ id → h.slot? p = g.slot? p
  new : ∀ p s, p.node = id → h.slot? p = some s → ∃ v, s = newSlot s.attr v ∧
    values[p.index]?.map Value.payload? = some v.payload?

theorem inserted (g : Graph) {id parent : NodeId} {t : NodeType} {name : String}
    {values : Datablock} (attachment : Value) (a : Insertable id parent t name values g) :
    Inserted id parent t name values g (g.insert id parent t name values attachment) := by
  let values' := (Value.stampAll g.marks values).1
  let slots := (t.ports.entries.zip values').map fun p => newSlot p.1 p.2
  let inner := if t.name = NodeType.network.name then some Network.empty else none
  let m : Node :=
    ⟨name, some parent, t.name, ⟨slots, t.ports.influences⟩, t.compute, .empty, attachment, inner⟩
  let g₁ : Graph :=
    { g with nodes := g.nodes.put id m, marks := (Value.stampAll g.marks values).2 }
  let change (m : Node) : Node :=
    { m with inner := m.inner.map fun w => { w with children := w.children ++ [id] } }
  have eq : g.insert id parent t name values attachment =
      (g₁.modifyNode parent change).emit (.nodeAdded id) := rfl
  have absent : g.node? id = none := (Table.get?_eq_none_iff g.nodes id).2 a.fresh
  have hne : parent ≠ id := by
    rintro rfl
    have := a.network
    simp [contents?, absent] at this
  have node₁ (k : NodeId) : g₁.node? k = if k = id then some m else g.node? k := by
    have := Table.get?_put g.nodes id k m
    simp only [eq_comm (a := id)] at this
    exact this
  have node (k : NodeId) : (g.insert id parent t name values attachment).node? k =
      if k = id then some m else if k = parent then (g.node? k).map change else g.node? k := by
    change (g₁.modifyNode parent change).node? k = _
    rw [node?_modifyNode, node₁]
    by_cases hk : k = id
    · subst hk
      simp [hne]
    · by_cases hp : k = parent
      · subst hp
        simp [hk]
      · simp [hk, hp, Ne.symm hp]
  have type_m : m.type = t := by
    have attrs : slots.map Slot.attr = t.ports.entries := by
      simp only [slots, List.map_map]
      have : values'.length = t.ports.entries.length := by
        have := a.length
        simpa [values', Value.length_stampAll, Layout.length] using this
      apply List.map_fst_zip
      omega
    simp only [Node.type, m, Layout.map, attrs]
  constructor
  case keys =>
    change (g₁.modifyNode parent change).nodes.keys = _
    rw [keys_modifyNode]
    exact Table.keys_put g.nodes id m a.fresh
  case root | config => rfl
  case around =>
    intro k
    simp only [around?, node]
    split
    · rfl
    · split
      · cases g.node? k <;> rfl
      · rfl
  case contents =>
    intro k
    simp only [contents?, node]
    split
    · rfl
    · split
      · cases g.node? k <;> rfl
      · rfl
  case type =>
    intro k
    simp only [type?, node]
    split
    · rw [Option.map_some, type_m]
    · split
      · cases g.node? k <;> rfl
      · rfl
  case name =>
    intro k
    simp only [name?, node]
    split
    · rfl
    · split
      · cases g.node? k <;> rfl
      · rfl
  case slot =>
    intro p hp
    simp only [slot?, node, hp, if_false]
    split
    · cases g.node? p.node <;> rfl
    · rfl
  case new =>
    intro p s hp hs
    simp only [slot?, node, hp, if_true, Option.bind_eq_bind, Option.bind_some, m, Layout.get?] at hs
    have hs' : slots[p.index]? = some s := hs
    simp only [slots, List.getElem?_map, Option.map_eq_some_iff] at hs'
    obtain ⟨x, hx, rfl⟩ := hs'
    refine ⟨x.2, rfl, ?_⟩
    have like := congrArg (·[p.index]?) (Value.map_payload_stampAll g.marks values)
    simp only [List.getElem?_map] at like
    rw [← like, (List.getElem?_zip_eq_some.1 hx).2]
    rfl

/-! ### What has come -/

section Absent
variable {id parent : NodeId} {t : NodeType} {name : String} {values : Datablock} {g : Graph}
  (a : Insertable id parent t name values g)
include a

theorem Insertable.node? : g.node? id = none := (Table.get?_eq_none_iff g.nodes id).2 a.fresh

theorem Insertable.contents? : g.contents? id = none := by simp [Graph.contents?, a.node?]

theorem Insertable.ne : parent ≠ id := by
  rintro rfl
  have := a.network
  simp [a.contents?] at this

theorem Insertable.node_ne {p : Port} (h : (g.direction? p).isSome) : p.node ≠ id := by
  rintro rfl
  simp [direction?, slot?, a.node?] at h

theorem Insertable.around?_ne (w : g.Tree) (c : NodeId) : g.around? c ≠ some id := by
  intro h
  have := isSome_contents?_of_around? w h
  simp [a.contents?] at this

end Absent

namespace Inserted
variable {id parent : NodeId} {t : NodeType} {name : String} {values : Datablock} {g h : Graph}
  (x : Inserted id parent t name values g h) (a : Insertable id parent t name values g)
include x a

theorem children (k : NodeId) :
    h.children k = if k = parent then g.children k ++ [id] else g.children k := by
  simp only [Graph.children, x.contents]
  by_cases hk : k = id
  · subst hk
    simp only [if_true, Ne.symm a.ne, if_false, a.contents?]
    split <;> rfl
  · by_cases hp : k = parent
    · subst hp
      obtain ⟨c, hc⟩ := Option.isSome_iff_exists.1 a.network
      simp [hk, hc]
    · simp [hk, hp]

theorem wires : h.wires = g.wires := by
  funext k
  simp only [Graph.wires, x.contents]
  by_cases hk : k = id
  · subst hk
    simp only [if_true, a.contents?]
    split <;> rfl
  · rw [if_neg hk]
    split
    · cases g.contents? k <;> rfl
    · rfl

theorem feeds : h.Feeds = g.Feeds := by
  funext o i
  simp only [Feeds, x.wires a]

theorem connected : h.Connected = g.Connected := by
  funext p
  simp only [Connected, x.feeds a]

theorem peer : h.peer? = g.peer? := by
  funext p
  by_cases hp : p.node = id
  · have old : g.slot? p = none := by simp [slot?, hp, a.node?]
    simp only [peer?, old, Option.bind_none]
    cases hs : h.slot? p with
    | none => rfl
    | some s =>
      obtain ⟨v, hv, -⟩ := x.new p s hp hs
      rw [hv]
      rfl
  · simp only [peer?, x.slot p hp]

theorem direction_old {p : Port} {d : Direction} (hd : g.direction? p = some d) :
    h.direction? p = some d := by
  rw [direction?, x.slot p (a.node_ne (by simp [hd]))]
  exact hd

omit a in
theorem terminal_old {p : Port} (hp : p.node ≠ id) : h.terminal? p = g.terminal? p := by
  refine terminal?_congr ?_ ?_
  · rw [x.type, if_neg hp]
  · rw [direction?, direction?, x.slot p hp]

theorem faces_old {p q : Port} (hf : g.Faces p q) : h.Faces p q := by
  obtain ⟨side, hs, hd, ha⟩ := hf
  have hp : p.node ≠ id := a.node_ne (terminal?_direction hs).2
  refine ⟨side, ?_, x.direction_old a hd, ?_⟩
  · rw [x.terminal_old hp]
    exact hs
  · rw [x.around, if_neg hp]
    exact ha

variable (w : g.WellFormed)
include w

theorem tree : h.Tree := by
  have kids := x.children a
  have around_id (c : NodeId) : g.around? c ≠ some id := a.around?_ne w.tree c
  have not_child (k : NodeId) : id ∉ g.children k := by
    intro h
    have := (w.tree.child k id).1 h
    simp [around?, a.node?] at this
  have old {k c : NodeId} (hc : c ∈ g.children k) : c ≠ id := by
    rintro rfl
    exact not_child k hc
  constructor
  case keys =>
    rw [x.keys]
    refine List.nodup_append.2 ⟨w.tree.keys, by simp, ?_⟩
    intro k hk c hc hkc
    obtain rfl := List.mem_singleton.1 hc
    exact a.fresh (hkc ▸ hk)
  case root =>
    have hne : g.root ≠ id := by
      intro h
      have := w.tree.rootNetwork
      simp [h, a.contents?] at this
    rw [x.root, x.around, if_neg hne]
    exact w.tree.root
  case rootNetwork =>
    have hne : g.root ≠ id := by
      intro h
      have := w.tree.rootNetwork
      simp [h, a.contents?] at this
    rw [x.root, x.contents, if_neg hne]
    split
    · rw [Option.isSome_map]
      exact w.tree.rootNetwork
    · exact w.tree.rootNetwork
  case orphan =>
    intro k hk ha
    rw [x.around] at ha
    split at ha
    · cases ha
    · next hne =>
      rw [x.type, if_neg hne] at hk
      rw [x.root]
      exact w.tree.orphan k hk ha
  case child =>
    intro k c
    rw [kids, x.around]
    by_cases hc : c = id
    · subst hc
      by_cases hk : k = parent
      · simp [hk]
      · simp [hk, Ne.symm hk, not_child]
    · by_cases hk : k = parent
      · simp [hk, hc, w.tree.child]
      · simp [hk, hc, w.tree.child]
  case order =>
    intro k c hc
    rw [x.around] at hc
    rw [x.keys]
    split at hc
    · next hci =>
      obtain rfl := Option.some.inj hc
      subst hci
      have hmem : parent ∈ g.nodes.keys := by
        refine (isSome_type?_iff g parent).1 ?_
        have := a.network
        simp only [Graph.contents?, type?] at *
        cases hm : g.node? parent <;> simp_all
      exact List.Sublist.append (List.singleton_sublist.2 hmem) (.refl [c])
    · exact (w.tree.order k c hc).trans (List.sublist_append_left _ _)
  case nodup =>
    intro k
    rw [kids]
    split
    · refine List.nodup_append.2 ⟨w.tree.nodup k, by simp, ?_⟩
      intro c hc d hd hcd
      obtain rfl := List.mem_singleton.1 hd
      exact not_child k (hcd ▸ hc)
    · exact w.tree.nodup k
  case distinct =>
    intro k c d hc hd hn
    rw [kids] at hc hd
    rw [x.name, x.name] at hn
    split at hc
    · next hk =>
      subst hk
      rw [if_pos rfl] at hd
      rcases List.mem_append.1 hc with hc' | hc' <;> rcases List.mem_append.1 hd with hd' | hd'
      · rw [if_neg (old hc'), if_neg (old hd')] at hn
        exact w.tree.distinct k c d hc' hd' hn
      · rw [if_neg (old hc'), if_pos (List.mem_singleton.1 hd')] at hn
        exact absurd hn (a.free c hc')
      · rw [if_neg (old hd'), if_pos (List.mem_singleton.1 hc')] at hn
        exact absurd hn.symm (a.free d hd')
      · rw [List.mem_singleton.1 hc', List.mem_singleton.1 hd']
    · next hk =>
      rw [if_neg hk] at hd
      rw [if_neg (old hc), if_neg (old hd)] at hn
      exact w.tree.distinct k c d hc hd hn
  case kind =>
    intro k u hu
    rw [x.type] at hu
    rw [x.contents]
    split at hu
    · next hk =>
      obtain rfl := Option.some.inj hu
      rw [if_pos hk]
      split <;> simp_all
    · next hk =>
      rw [if_neg hk]
      split
      · rw [Option.isSome_map]
        exact w.tree.kind k u hu
      · exact w.tree.kind k u hu

theorem wellFormed : h.WellFormed := by
  refine ⟨x.tree a w, ?wired, ?linked, ?sound⟩
  case wired =>
    constructor
    case output =>
      rw [x.wires a]
      exact fun n e he => x.direction_old a (w.wired.output n e he)
    case input =>
      rw [x.wires a]
      exact fun n e he => x.direction_old a (w.wired.input n e he)
    case outputAround =>
      rw [x.wires a]
      intro n e he
      rw [x.around, if_neg (a.node_ne (by simp [w.wired.output n e he]))]
      exact w.wired.outputAround n e he
    case inputAround =>
      rw [x.wires a]
      intro n e he
      rw [x.around, if_neg (a.node_ne (by simp [w.wired.input n e he]))]
      exact w.wired.inputAround n e he
    case single =>
      rw [x.wires a]
      exact w.wired.single
  case linked =>
    constructor
    · rw [x.peer a]
      exact w.linked.back
    · intro p q hp
      rw [x.peer a] at hp
      exact (w.linked.faces p q hp).imp (x.faces_old a) (x.faces_old a)
  case sound =>
    intro k u hu
    rw [x.type] at hu
    split at hu
    · obtain rfl := Option.some.inj hu
      exact a.sound
    · exact w.sound k u hu

theorem fitted (hf : ∀ p, g.Fitted p) (p : Port) : h.Fitted p := by
  intro ht
  rw [x.peer a, x.connected a]
  by_cases hp : p.node = id
  · have no_slot : g.slot? p = none := by simp [slot?, hp, a.node?]
    have no_wire : ¬ g.Connected p := by
      rintro ⟨q, h | h⟩
      · have := h.output w.wired
        simp [direction?, no_slot] at this
      · have := h.input w.wired
        simp [direction?, no_slot] at this
    simp [peer?, no_slot, no_wire]
  · rw [x.terminal_old hp] at ht
    exact hf p ht

theorem lawful (hf : ∀ p, g.Fitted p) : h.Lawful := ⟨x.wellFormed a w, x.fitted a w hf⟩

omit w in
/-- What flows on the new node flows through its influences. -/
theorem flows_old {p q : Port} (hf : h.Flows p q) :
    g.Flows p q ∨ p.node = id ∧ h.Influences p q := by
  rcases hf with ⟨hn, u, hu, hm⟩ | hf | ⟨hd, hp⟩
  · by_cases hp : p.node = id
    · exact .inr ⟨hp, hn, u, hu, hm⟩
    · rw [x.type, if_neg hp] at hu
      exact .inl (.inl ⟨hn, u, hu, hm⟩)
  · rw [x.feeds a] at hf
    exact .inl (.inr (.inl hf))
  · rw [x.peer a] at hp
    refine .inl (.inr (.inr ⟨?_, hp⟩))
    obtain ⟨b, hb⟩ := Option.isSome_iff_exists.1 (isSome_attr?_of_peer? g hp)
    have old : g.direction? p = some b.direction := by rw [direction?_eq, hb]; rfl
    rw [old, ← x.direction_old a old]
    exact hd

theorem acyclic (ha : g.Acyclic) : h.Acyclic := by
  have w' := x.wellFormed a w
  refine ha.of_sinks (fun q => q.node = id ∧ h.direction? q = some .output)
    (fun p q hf => ?_) ?_
  · refine (x.flows_old a hf).imp_right fun ⟨hp, hi⟩ => ⟨?_, hi.output w'⟩
    rw [← hi.1, hp]
  · rintro p q hf ⟨hp, hd⟩
    rcases x.flows_old a hf with hg | ⟨-, hi⟩
    · exact a.node_ne (hg.isSome_left w) hp
    · rw [hi.input w'] at hd
      cases hd

end Inserted

/-! ### The edit -/

theorem find?_eq_none_iff (g : Graph) (n : NodeId) (name : String) :
    g.find? n name = none ↔ ∀ c ∈ g.children n, g.name? c ≠ some name := by
  have member (c : NodeId) :
      (g.node? c).any (fun m => m.name == name) = true ↔ g.name? c = some name := by
    simp only [name?]
    cases g.node? c <;> simp
  simp only [find?, children, contents?]
  cases (g.node? n).bind Node.inner with
  | none => simp
  | some w => simp only [List.find?_eq_none, member, Option.elim_some]

/-- What is found is a child of that name. -/
theorem mem_children_of_find? {g : Graph} {n c : NodeId} {name : String}
    (h : g.find? n name = some c) : c ∈ g.children n ∧ g.name? c = some name := by
  simp only [find?] at h
  split at h
  · next w hw =>
    have inner : g.contents? n = some w := hw
    have named := List.find?_some h
    simp only [Option.any_eq_true, beq_iff_eq] at named
    obtain ⟨m, hm, hn⟩ := named
    refine ⟨?_, by rw [name?, hm, Option.map_some, hn]⟩
    rw [children, inner]
    exact List.mem_of_find?_eq_some h
  · cases h

theorem find?_of_freeName {g : Graph} {n : NodeId} {name free : String}
    (h : g.freeName n name = .ok free) : g.find? n free = none := by
  simp only [freeName, bind, Except.bind, pure, Except.pure, throw, throwThe,
    MonadExceptOf.throw] at h
  split at h
  · next hnone =>
    cases h
    simpa using hnone
  · split at h
    · cases h
    · split at h
      · cases h
      · split at h
        · next hfind =>
          cases h
          simpa using List.find?_some hfind
        · cases h

/-- A number that was handed out is all that has changed. -/
def SpentId (g h : Graph) : Prop := ∃ ids, h = { g with ids := ids }

theorem SpentId.sameFrame {g h : Graph} (a : SpentId g h) : SameFrame g h := by
  obtain ⟨ids, rfl⟩ := a
  exact sameFrame_of_nodes rfl rfl rfl

/-- The number that a new node gets. -/
def numberFor (options : NodeExtras) : Edit NodeId :=
  match options.id with
  | some id => pure id
  | none => takeId

/-- That number, and the supply after it. -/
def numbering (options : NodeExtras) (s : IdSupply) : NodeId × IdSupply :=
  match options.id with
  | some id => (id, s)
  | none => s.take

theorem numberFor_apply (g : Graph) (options : NodeExtras) : (numberFor options).apply g =
    (.ok (numbering options g.ids).1, { g with ids := (numbering options g.ids).2 }) := by
  rw [numberFor, numbering]
  cases options.id <;> rfl

/-- What is left to do once the number of a new node is known. -/
def place (parent : NodeId) (t : NodeType) (name : String) (options : NodeExtras) (id : NodeId) :
    Edit NodeId := do
  if (← get).nodes.has id then throw (.duplicateId id)
  let values := options.values.getD (Datablock.ofType t)
  if values.length ≠ t.ports.length then
    throw (.datablockMismatch t.ports.length values.length)
  Edit.change fun g => g.insert id parent t name values (options.attachment.getD .null)
  pure id

theorem addNode_eq (parent : NodeId) (t : NodeType) (name : String) (options : NodeExtras) :
    addNode parent t name options =
      (do let _ ← Edit.look (·.network parent)
          let name ← Edit.look (·.freeName parent name)
          let id ← numberFor options
          place parent t name options id) := by
  simp only [addNode, place, numberFor]
  cases options.id <;> rfl

/-- How adding a node ends, in the order of its checks. -/
theorem addNode_cases (g : Graph) (parent : NodeId) (t : NodeType) (name : String)
    (options : NodeExtras) (sound : t.Sound) :
    (∃ x, (g.network parent = .error x ∨ g.freeName parent name = .error x) ∧
      (addNode parent t name options).apply g = (.error x, g)) ∨
    (numbering options g.ids).1 ∈ g.nodes.keys ∧ (addNode parent t name options).apply g =
      (.error (.duplicateId (numbering options g.ids).1),
        { g with ids := (numbering options g.ids).2 }) ∨
    (∃ a b, (addNode parent t name options).apply g =
      (.error (.datablockMismatch a b), { g with ids := (numbering options g.ids).2 })) ∨
    ∃ name', Insertable (numbering options g.ids).1 parent t name' (options.values.getD (.ofType t))
        { g with ids := (numbering options g.ids).2 } ∧
      (addNode parent t name options).apply g = (.ok (numbering options g.ids).1,
        insert { g with ids := (numbering options g.ids).2 } (numbering options g.ids).1 parent t name'
          (options.values.getD (.ofType t)) (options.attachment.getD .null)) := by
  rw [addNode_eq, Edit.apply_bind, Edit.apply_look]
  cases hw : g.network parent with
  | error x => exact .inl ⟨x, .inl rfl, rfl⟩
  | ok c =>
    simp only
    rw [Edit.apply_bind, Edit.apply_look]
    cases hname : g.freeName parent name with
    | error x => exact .inl ⟨x, .inr rfl, rfl⟩
    | ok name' =>
      simp only
      rw [Edit.apply_bind, numberFor_apply]
      generalize numbering options g.ids = number
      have frame : SameFrame g { g with ids := number.2 } := sameFrame_of_nodes rfl rfl rfl
      simp only [place, Edit.apply_bind, Edit.apply_get]
      split
      · next known =>
        refine .inr (.inl ⟨(isSome_type?_iff g _).1 ?_, rfl⟩)
        simpa [type?, node?, Table.has] using known
      · next absent =>
        split
        · exact .inr (.inr (.inl ⟨_, _, rfl⟩))
        · next length =>
          refine .inr (.inr (.inr ⟨name', ?_, rfl⟩))
          constructor
          case network =>
            rw [frame.contents]
            rw [network_eq_ok_iff.1 hw]
            rfl
          case fresh =>
            rw [← Table.get?_eq_none_iff]
            simpa [Table.has] using absent
          case free =>
            rw [frame.children, frame.name]
            exact (find?_eq_none_iff g parent name').1 (find?_of_freeName hname)
          case length => simpa using length
          case sound => exact sound

/-- A node is added as a whole, or at most a number is spent. -/
theorem addNode_apply (g : Graph) (parent : NodeId) (t : NodeType) (name : String)
    (options : NodeExtras) (sound : t.Sound) :
    (∃ x h, (addNode parent t name options).apply g = (.error x, h) ∧ SpentId g h) ∨
    ∃ id name' g₁, SpentId g g₁ ∧
      Insertable id parent t name' (options.values.getD (.ofType t)) g₁ ∧
      (addNode parent t name options).apply g =
        (.ok id, g₁.insert id parent t name' (options.values.getD (.ofType t))
          (options.attachment.getD .null)) := by
  rcases addNode_cases g parent t name options sound with
    ⟨x, -, eq⟩ | ⟨-, eq⟩ | ⟨a, b, eq⟩ | ⟨name', insertable, eq⟩
  · exact .inl ⟨x, g, eq, g.ids, rfl⟩
  · exact .inl ⟨_, _, eq, _, rfl⟩
  · exact .inl ⟨_, _, eq, _, rfl⟩
  · exact .inr ⟨_, name', _, ⟨_, rfl⟩, insertable, eq⟩

end Dataflow.Graph
