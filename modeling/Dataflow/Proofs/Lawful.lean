import Dataflow.Proofs.Frame
set_option autoImplicit false

/-!
Lawful graphs. The nodes form a tree of networks, every wire joins an output to an input of two
nodes side by side, and every network port and its terminal know each other. Laws speak of the frame
only. The last law, that a terminal has a peer just while it has a wire, may fail for a few
terminals while an edit is under way, so it is kept apart from the others.
-/

namespace Dataflow

/-- Influences lead from inputs to outputs, and every attribute has a name of its own. -/
structure NodeType.Sound (t : NodeType) : Prop where
  sources : ∀ p ∈ t.ports.influences, (t.ports.get? p.1).map Attribute.direction = some .input
  targets : ∀ p ∈ t.ports.influences, (t.ports.get? p.2).map Attribute.direction = some .output
  names : (t.ports.entries.map Attribute.name).Nodup

theorem NodeType.indexOf?_eq_none_iff (t : NodeType) (name : String) :
    t.indexOf? name = none ↔ name ∉ t.ports.entries.map Attribute.name := by
  simp [indexOf?, List.findIdx?_eq_none_iff]

namespace Graph

/-- There is a wire from `o` to `i`. -/
def Feeds (g : Graph) (o i : Port) : Prop := ∃ n, (⟨o, i⟩ : Edge) ∈ g.wires n

def Connected (g : Graph) (p : Port) : Prop := ∃ q, g.Feeds p q ∨ g.Feeds q p

/-- `t` is a terminal, and `b` is a port on that side of the network around it. -/
def Faces (g : Graph) (t b : Port) : Prop :=
  ∃ side, g.terminal? t = some side ∧ g.direction? b = some side ∧
    g.around? t.node = some b.node

structure Tree (g : Graph) : Prop where
  keys : g.nodes.keys.Nodup
  root : g.around? g.root = none
  rootNetwork : (g.contents? g.root).isSome
  orphan : ∀ n, (g.type? n).isSome → g.around? n = none → n = g.root
  child : ∀ n c, c ∈ g.children n ↔ g.around? c = some n
  /-- Networks came before what is in them. -/
  order : ∀ n c, g.around? c = some n → [n, c].Sublist g.nodes.keys
  nodup : ∀ n, (g.children n).Nodup
  distinct : ∀ n c d, c ∈ g.children n → d ∈ g.children n → g.name? c = g.name? d → c = d
  kind : ∀ n t, g.type? n = some t → ((g.contents? n).isSome ↔ t.name = NodeType.network.name)

structure Wired (g : Graph) : Prop where
  output : ∀ n, ∀ e ∈ g.wires n, g.direction? e.output = some .output
  input : ∀ n, ∀ e ∈ g.wires n, g.direction? e.input = some .input
  outputAround : ∀ n, ∀ e ∈ g.wires n, g.around? e.output.node = some n
  inputAround : ∀ n, ∀ e ∈ g.wires n, g.around? e.input.node = some n
  single : ∀ n, ((g.wires n).map Edge.input).Nodup

structure Linked (g : Graph) : Prop where
  back : ∀ p q, g.peer? p = some q → g.peer? q = some p
  faces : ∀ p q, g.peer? p = some q → g.Faces p q ∨ g.Faces q p

structure WellFormed (g : Graph) : Prop where
  tree : g.Tree
  wired : g.Wired
  linked : g.Linked
  sound : ∀ n t, g.type? n = some t → t.Sound

/-- If `t` is a terminal, it has a peer just while it has a wire. -/
def Fitted (g : Graph) (t : Port) : Prop :=
  (g.terminal? t).isSome → ((g.peer? t).isSome ↔ g.Connected t)

structure Lawful (g : Graph) : Prop where
  wellFormed : g.WellFormed
  fitted : ∀ t, g.Fitted t

/-- The trees of the two graphs agree. -/
structure SameTree (g h : Graph) : Prop where
  keys : h.nodes.keys = g.nodes.keys
  root : h.root = g.root
  config : h.config = g.config
  around : h.around? = g.around?
  children : h.children = g.children
  name : h.name? = g.name?
  network : ∀ n, (h.contents? n).isSome = (g.contents? n).isSome
  typeName : ∀ n, (h.type? n).map NodeType.name = (g.type? n).map NodeType.name
  compute : ∀ n, (h.type? n).map NodeType.compute = (g.type? n).map NodeType.compute

namespace SameTree
variable {g h k : Graph}

theorem trans (a : SameTree g h) (b : SameTree h k) : SameTree g k :=
  ⟨b.keys.trans a.keys, b.root.trans a.root, b.config.trans a.config, b.around.trans a.around,
    b.children.trans a.children, b.name.trans a.name, fun n => (b.network n).trans (a.network n),
    fun n => (b.typeName n).trans (a.typeName n), fun n => (b.compute n).trans (a.compute n)⟩

theorem of_sameFrame (a : SameFrame g h) : SameTree g h :=
  ⟨a.keys, a.root, a.config, a.around, a.children, a.name, fun n => by rw [a.contents],
    fun n => by rw [a.type], fun n => by rw [a.type]⟩

theorem refl (g : Graph) : SameTree g g := of_sameFrame (.refl g)

theorem isSome_type (a : SameTree g h) (n : NodeId) : (h.type? n).isSome = (g.type? n).isSome := by
  have := congrArg Option.isSome (a.typeName n)
  simpa using this

theorem tree (a : SameTree g h) (w : g.Tree) : h.Tree := by
  constructor
  · rw [a.keys]; exact w.keys
  · rw [a.around, a.root]; exact w.root
  · rw [a.network, a.root]; exact w.rootNetwork
  · intro n hn
    rw [a.isSome_type] at hn
    rw [a.around, a.root]
    exact w.orphan n hn
  · rw [a.children, a.around]; exact w.child
  · rw [a.around, a.keys]; exact w.order
  · rw [a.children]; exact w.nodup
  · rw [a.children, a.name]; exact w.distinct
  · intro n t ht
    have hn := a.typeName n
    rw [ht] at hn
    obtain ⟨u, hu, hun⟩ := Option.map_eq_some_iff.1 hn.symm
    rw [a.network, ← hun]
    exact w.kind n u hu

end SameTree

theorem sameTree_modifyNode (g : Graph) (n : NodeId) (f : Node → Node)
    (hparent : ∀ m, (f m).parent = m.parent) (hinner : ∀ m, (f m).inner = m.inner)
    (hname : ∀ m, (f m).name = m.name) (htype : ∀ m, (f m).typeName = m.typeName)
    (hcompute : ∀ m, (f m).compute = m.compute) : SameTree g (g.modifyNode n f) := by
  have contents := contents?_modifyNode g n f hinner
  constructor
  case keys => exact keys_modifyNode g n f
  case root | config => rfl
  case around => exact around?_modifyNode g n f hparent
  case name => exact name?_modifyNode g n f hname
  case children => exact funext fun k => by rw [children, contents]; rfl
  case network => exact fun k => by rw [contents]
  case typeName =>
    intro k
    simp only [type?, Option.map_map]
    exact map_node?_modifyNode g n f (NodeType.name ∘ Node.type) htype k
  case compute =>
    intro k
    simp only [type?, Option.map_map]
    exact map_node?_modifyNode g n f (NodeType.compute ∘ Node.type) hcompute k

/-! ### A new peer for one port -/

section SetPeer
variable (g : Graph) (p : Port) (r : Option Port)

theorem slot?_setPeer (q : Port) :
    (g.setPeer p r).slot? q =
      if p = q then (g.slot? q).map fun s => { s with peer := r } else g.slot? q :=
  slot?_modifySlot g p q fun s => { s with peer := r }

theorem sameTree_setPeer : SameTree g (g.setPeer p r) :=
  sameTree_modifyNode g p.node _ (fun _ => rfl) (fun _ => rfl) (fun _ => rfl) (fun _ => rfl)
    fun _ => rfl

theorem contents?_setPeer : (g.setPeer p r).contents? = g.contents? :=
  contents?_modifyNode g p.node _ fun _ => rfl

theorem type?_setPeer : (g.setPeer p r).type? = g.type? := by
  refine type?_modifyNode g p.node _ fun m => ?_
  have same := map_modify_of_eq m.ports.entries p.index
    (fun s : Slot => { s with peer := r }) Slot.attr fun _ => rfl
  simp only [Node.type, Layout.map, Layout.modify, same]

end SetPeer

/-! ### Laws depend on the frame only -/

namespace SameFrame
variable {g h : Graph}

theorem feeds (a : SameFrame g h) : h.Feeds = g.Feeds := by
  funext o i
  simp only [Feeds, a.wires]

theorem connected (a : SameFrame g h) : h.Connected = g.Connected := by
  funext p
  simp only [Connected, a.feeds]

theorem faces (a : SameFrame g h) : h.Faces = g.Faces := by
  funext t b
  simp only [Faces, a.terminal, a.direction, a.around]

theorem wired (a : SameFrame g h) (w : g.Wired) : h.Wired := by
  constructor
  · rw [a.wires, a.direction]; exact w.output
  · rw [a.wires, a.direction]; exact w.input
  · rw [a.wires, a.around]; exact w.outputAround
  · rw [a.wires, a.around]; exact w.inputAround
  · rw [a.wires]; exact w.single

theorem linked (a : SameFrame g h) (w : g.Linked) : h.Linked := by
  constructor
  · rw [a.peer]; exact w.back
  · rw [a.peer, a.faces]; exact w.faces

theorem wellFormed (a : SameFrame g h) (w : g.WellFormed) : h.WellFormed := by
  refine ⟨(SameTree.of_sameFrame a).tree w.tree, a.wired w.wired, a.linked w.linked, ?_⟩
  rw [a.type]
  exact w.sound

theorem fitted (a : SameFrame g h) : h.Fitted = g.Fitted := by
  funext t
  simp only [Fitted, a.terminal, a.peer, a.connected]

theorem lawful (a : SameFrame g h) (w : g.Lawful) : h.Lawful := by
  refine ⟨a.wellFormed w.wellFormed, ?_⟩
  rw [a.fitted]
  exact w.fitted

end SameFrame

/-! ### What the laws say of single ports -/

section Ports
variable {g : Graph}

theorem isSome_type?_iff (g : Graph) (n : NodeId) : (g.type? n).isSome ↔ n ∈ g.nodes.keys := by
  have h := Table.get?_eq_none_iff g.nodes n
  simp only [type?, node?, Option.isSome_map, Option.isSome_iff_ne_none, ne_eq, h,
    Classical.not_not]

theorem isSome_type?_of_contents? {n : NodeId} (h : (g.contents? n).isSome) :
    (g.type? n).isSome := by
  simp only [contents?, type?] at *
  cases hn : g.node? n <;> simp_all

theorem isSome_type?_of_around? {n p : NodeId} (h : g.around? n = some p) :
    (g.type? n).isSome := by
  simp only [around?, type?] at *
  cases hn : g.node? n with
  | none => simp [hn] at h
  | some m => rfl

theorem isSome_attr?_of_direction? {p : Port} {d : Direction} (h : g.direction? p = some d) :
    ∃ a, g.attr? p = some a ∧ a.direction = d := by
  rw [direction?_eq] at h
  exact Option.map_eq_some_iff.1 h

theorem exists_type?_of_direction? {p : Port} {d : Direction} (h : g.direction? p = some d) :
    ∃ t, g.type? p.node = some t := by
  rw [direction?_eq, attr?_eq] at h
  cases ht : g.type? p.node with
  | none => simp [ht] at h
  | some t => exact ⟨t, rfl⟩

/-- The direction of a terminal is against its side. -/
theorem terminal?_eq_some_iff {p : Port} {side : Direction} :
    g.terminal? p = some side ↔ ∃ t, g.type? p.node = some t ∧
      (side = .input ∧ g.direction? p = some .output ∧ t.name = NodeType.networkInput.name ∨
        side = .output ∧ g.direction? p = some .input ∧ t.name = NodeType.networkOutput.name) := by
  rw [terminal?_eq]
  cases g.type? p.node with
  | none => simp
  | some t =>
    cases g.direction? p with
    | none => simp
    | some d => cases d <;> cases side <;> simp

theorem terminal?_direction {p : Port} {side : Direction} (h : g.terminal? p = some side) :
    g.direction? p ≠ some side ∧ (g.direction? p).isSome := by
  obtain ⟨t, -, ⟨rfl, hd, -⟩ | ⟨rfl, hd, -⟩⟩ := terminal?_eq_some_iff.1 h <;> simp [hd]

/-- No terminal stands on a network. -/
theorem contents?_of_terminal? (w : g.Tree) {p : Port} (h : (g.terminal? p).isSome) :
    g.contents? p.node = none := by
  obtain ⟨side, hs⟩ := Option.isSome_iff_exists.1 h
  obtain ⟨t, ht, hk⟩ := terminal?_eq_some_iff.1 hs
  have kind := w.kind p.node t ht
  have other : t.name ≠ NodeType.network.name := by
    rcases hk with ⟨-, -, hn⟩ | ⟨-, -, hn⟩ <;> rw [hn] <;> decide
  cases hc : g.contents? p.node with
  | none => rfl
  | some c =>
    rw [hc] at kind
    exact absurd (kind.1 rfl) other

theorem terminal?_of_contents? (w : g.Tree) {p : Port} (h : (g.contents? p.node).isSome) :
    g.terminal? p = none := by
  cases ht : g.terminal? p with
  | none => rfl
  | some side =>
    have hc := contents?_of_terminal? w (p := p) (by simp [ht])
    simp [hc] at h

theorem isSome_contents?_of_mem_children {n c : NodeId} (h : c ∈ g.children n) :
    (g.contents? n).isSome := by
  cases hc : g.contents? n with
  | none => simp [children, hc] at h
  | some w => rfl

theorem isSome_contents?_of_around? (w : g.Tree) {n c : NodeId} (h : g.around? c = some n) :
    (g.contents? n).isSome := isSome_contents?_of_mem_children ((w.child n c).2 h)

theorem Faces.isSome_contents? (w : g.Tree) {t b : Port} (h : g.Faces t b) :
    (g.contents? b.node).isSome := by
  obtain ⟨side, -, -, ha⟩ := h
  exact isSome_contents?_of_around? w ha

theorem Faces.isSome_terminal? {t b : Port} (h : g.Faces t b) : (g.terminal? t).isSome := by
  obtain ⟨side, ht, -⟩ := h
  simp [ht]

theorem Faces.direction_ne {t b : Port} (h : g.Faces t b) : g.direction? t ≠ g.direction? b := by
  obtain ⟨side, ht, hb, -⟩ := h
  rw [hb]
  exact (terminal?_direction ht).1

/-- The peer of a terminal lies on the network around it. -/
theorem faces_of_terminal? (w : g.WellFormed) {t b : Port} (h : g.peer? t = some b)
    (ht : (g.terminal? t).isSome) : g.Faces t b := by
  rcases w.linked.faces t b h with hf | hf
  · exact hf
  · have hc := hf.isSome_contents? w.tree
    simp [contents?_of_terminal? w.tree ht] at hc

/-- The peer of a port of a network is a terminal in it. -/
theorem faces_of_contents? (w : g.WellFormed) {t b : Port} (h : g.peer? b = some t)
    (hb : (g.contents? b.node).isSome) : g.Faces t b := by
  rcases w.linked.faces b t h with hf | hf
  · simp [contents?_of_terminal? w.tree hf.isSome_terminal?] at hb
  · exact hf

theorem peer_direction_ne (w : g.Linked) {p q : Port} (h : g.peer? p = some q) :
    g.direction? p ≠ g.direction? q := by
  rcases w.faces p q h with hf | hf
  · exact hf.direction_ne
  · exact hf.direction_ne.symm

end Ports

/-! ### Wires -/

section Wires
variable {g : Graph}

theorem mem_wiresAround_iff (w : g.Wired) (e : Edge) :
    e ∈ g.wiresAround e.input.node ↔ g.Feeds e.output e.input := by
  rw [wiresAround_eq]
  constructor
  · intro h
    cases ha : g.around? e.input.node with
    | none => simp [ha] at h
    | some n =>
      rw [ha] at h
      exact ⟨n, h⟩
  · rintro ⟨n, hn⟩
    have ha := w.inputAround n _ hn
    rw [ha]
    exact hn

theorem wiresAround_of_around? {n p : NodeId} (h : g.around? n = some p) :
    g.wiresAround n = g.wires p := by rw [wiresAround_eq, h]; rfl

theorem mem_sinks_iff (w : g.Wired) (o i : Port) : i ∈ g.sinks o ↔ g.Feeds o i := by
  rw [sinks, Wiring.mem_sinks, wiresAround_eq]
  constructor
  · intro h
    cases ha : g.around? o.node with
    | none => simp [ha] at h
    | some n =>
      rw [ha] at h
      exact ⟨n, h⟩
  · rintro ⟨n, hn⟩
    rw [w.outputAround n _ hn]
    exact hn

theorem source?_eq_some_iff (w : g.Wired) (o i : Port) :
    g.source? i = some o ↔ g.Feeds o i := by
  constructor
  · intro h
    have hm := Wiring.mem_of_source? _ _ _ h
    exact (mem_wiresAround_iff w ⟨o, i⟩).1 hm
  · rintro ⟨n, hn⟩
    have ha := w.inputAround n _ hn
    have single := w.single n
    rw [source?, wiresAround_of_around? ha, Wiring.source?]
    have found : (g.wires n).find? (fun e => e.input == i) = some ⟨o, i⟩ := by
      obtain ⟨l, r, hl⟩ := List.append_of_mem hn
      rw [hl, List.map_append, List.map_cons] at single
      rw [hl, List.find?_append]
      have none_before : l.find? (fun e => e.input == i) = none := by
        rw [List.find?_eq_none]
        intro e he hi
        simp only [beq_iff_eq] at hi
        exact (List.nodup_append.1 single).2.2 e.input (List.mem_map_of_mem he) i (by simp) hi
      simp [none_before]
    rw [found]
    rfl

theorem source?_eq_none_iff (w : g.Wired) (i : Port) : g.source? i = none ↔ ∀ o, ¬ g.Feeds o i := by
  rw [Option.eq_none_iff_forall_ne_some]
  exact forall_congr' fun o => not_congr (source?_eq_some_iff w o i)

/-- The wires of a port are those at it among the wires around its node. -/
theorem isConnected_iff (w : g.Wired) (p : Port) :
    (g.wiresAround p.node).isConnected p = true ↔ g.Connected p := by
  simp only [Wiring.isConnected, List.any_eq_true, Edge.endsAt, Bool.or_eq_true, beq_iff_eq]
  have around (e : Edge) :
      e ∈ g.wiresAround p.node ↔ ∃ n, g.around? p.node = some n ∧ e ∈ g.wires n := by
    rw [wiresAround_eq]
    cases g.around? p.node <;> simp
  constructor
  · rintro ⟨e, he, rfl | rfl⟩
    · obtain ⟨n, -, hn⟩ := (around e).1 he
      exact ⟨e.input, .inl ⟨n, hn⟩⟩
    · obtain ⟨n, -, hn⟩ := (around e).1 he
      exact ⟨e.output, .inr ⟨n, hn⟩⟩
  · rintro ⟨q, ⟨n, h⟩ | ⟨n, h⟩⟩
    · exact ⟨_, (around _).2 ⟨n, w.outputAround n _ h, h⟩, .inl rfl⟩
    · exact ⟨_, (around _).2 ⟨n, w.inputAround n _ h, h⟩, .inr rfl⟩

theorem connected_iff (w : g.Wired) {p : Port} {n : NodeId} (ha : g.around? p.node = some n) :
    g.Connected p ↔ ∃ e ∈ g.wires n, e.endsAt p = true := by
  rw [← isConnected_iff w, wiresAround_of_around? ha, Wiring.isConnected, List.any_eq_true]

theorem not_connected_of_around?_eq_none (w : g.Wired) {p : Port} (ha : g.around? p.node = none) :
    ¬ g.Connected p := by
  rw [← isConnected_iff w, wiresAround_eq, ha]
  exact Bool.false_ne_true

theorem Feeds.unique (w : g.Wired) {o o' i : Port} (h : g.Feeds o i) (k : g.Feeds o' i) :
    o = o' := by
  have a := (source?_eq_some_iff w o i).2 h
  have b := (source?_eq_some_iff w o' i).2 k
  rw [a] at b
  exact Option.some.inj b

theorem Feeds.output (w : g.Wired) {o i : Port} (h : g.Feeds o i) :
    g.direction? o = some .output := by
  obtain ⟨n, hn⟩ := h
  exact w.output n _ hn

theorem Feeds.input (w : g.Wired) {o i : Port} (h : g.Feeds o i) :
    g.direction? i = some .input := by
  obtain ⟨n, hn⟩ := h
  exact w.input n _ hn

theorem not_connected_of_sinks (w : g.Wired) {o : Port} (ho : g.direction? o = some .output)
    (free : g.sinks o = []) : ¬ g.Connected o := by
  rintro ⟨q, h | h⟩
  · rw [← mem_sinks_iff w, free] at h
    cases h
  · rw [h.input w] at ho
    cases ho

theorem nodup_wires (w : g.Wired) (n : NodeId) : (g.wires n).Nodup :=
  List.Pairwise.of_map Edge.input (fun _ _ h e => h (congrArg _ e)) (w.single n)

end Wires

/-- A node has no two ports of one name. -/
theorem index_of_name {g : Graph} (w : g.WellFormed) {n : NodeId} {i j : Nat} {name : String}
    (hi : (g.attr? ⟨n, i⟩).map Attribute.name = some name)
    (hj : (g.attr? ⟨n, j⟩).map Attribute.name = some name) : i = j := by
  rw [attr?_eq] at hi hj
  cases ht : g.type? n with
  | none => simp [ht] at hi
  | some t =>
    simp only [ht, Option.bind_some, Layout.get?, ← List.getElem?_map] at hi hj
    obtain ⟨low, -⟩ := List.getElem?_eq_some_iff.1 hi
    exact (List.getElem?_inj low (w.sound n t ht).names).1 (hi.trans hj.symm)

end Graph
end Dataflow
