import Dataflow.Graph.Assign
import Dataflow.Graph.Build
import Dataflow.Graph.Lemmas
set_option autoImplicit false

/-!
The frame of a graph: everything but what its ports hold, which of them are out of date, and what
nodes have to say. Main statements: the frame fixes all look-ups that a structural property needs,
and storing values, marking ports and telling news leave it as it is.
-/

namespace Dataflow

theorem Node.peer_get? (m : Node) (i : Nat) :
    (m.ports.get? i).bind Slot.peer = ((m.ports.entries.map Slot.peer)[i]?).join := by
  simp only [Layout.get?, List.getElem?_map]
  cases m.ports.entries[i]? <;> rfl

namespace Graph

/-! ### Look-ups -/

/-- The nodes and wires in a network. -/
def contents? (g : Graph) (n : NodeId) : Option Network := (g.node? n).bind Node.inner

def children (g : Graph) (n : NodeId) : List NodeId := (g.contents? n).elim [] Network.children

def wires (g : Graph) (n : NodeId) : Wiring := (g.contents? n).elim [] Network.wires

def type? (g : Graph) (n : NodeId) : Option NodeType := (g.node? n).map Node.type

def name? (g : Graph) (n : NodeId) : Option String := (g.node? n).map Node.name

def attr? (g : Graph) (p : Port) : Option Attribute := (g.slot? p).map Slot.attr

section LookUps
variable (g : Graph)

theorem wiresAround_eq (n : NodeId) : g.wiresAround n = (g.around? n).elim [] g.wires := by
  simp only [wiresAround]
  cases g.around? n with
  | none => rfl
  | some p =>
    simp only [Option.bind_some, Option.elim_some, wires, contents?]
    cases (g.node? p).bind Node.inner <;> rfl

theorem attr?_eq (p : Port) :
    g.attr? p = (g.type? p.node).bind fun t => t.ports.get? p.index := by
  simp only [attr?, slot?, type?]
  cases g.node? p.node with
  | none => rfl
  | some m => simp [Node.type, Layout.get?_map]

theorem direction?_eq (p : Port) : g.direction? p = (g.attr? p).map Attribute.direction := by
  simp only [direction?, attr?]
  cases g.slot? p <;> rfl

theorem declaredType_eq (p : Port) : g.declaredType p = (g.attr? p).bind Attribute.type := by
  simp only [declaredType, attr?]
  cases g.slot? p <;> rfl

theorem isSome_slot? (p : Port) : (g.slot? p).isSome = (g.attr? p).isSome := by simp [attr?]

theorem terminal?_eq (p : Port) :
    g.terminal? p = (g.type? p.node).bind fun t => (g.direction? p).bind fun d =>
      match d with
      | .output => if t.name = NodeType.networkInput.name then some .input else none
      | .input => if t.name = NodeType.networkOutput.name then some .output else none := by
  simp only [terminal?, type?, Option.bind_eq_bind]
  cases g.node? p.node <;> rfl

theorem peer?_eq (p : Port) :
    g.peer? p = (g.node? p.node).bind fun m => ((m.ports.entries.map Slot.peer)[p.index]?).join := by
  simp only [peer?, slot?, Option.bind_eq_bind]
  cases g.node? p.node with
  | none => rfl
  | some m => exact m.peer_get? p.index

theorem isSome_attr?_of_peer? {p q : Port} (h : g.peer? p = some q) : (g.attr? p).isSome := by
  simp only [peer?, attr?] at *
  cases hs : g.slot? p with
  | none => simp [hs] at h
  | some s => rfl

end LookUps

section Found
variable {g : Graph} {n : NodeId}

theorem node_eq_ok_iff {m : Node} : g.node n = .ok m ↔ g.node? n = some m := by
  rw [node]
  cases g.node? n <;> simp

theorem network_eq_ok_iff {w : Network} : g.network n = .ok w ↔ g.contents? n = some w := by
  simp only [network, node, contents?]
  cases g.node? n with
  | none => simp [bind, Except.bind]
  | some m => cases h : m.inner <;> simp [bind, Except.bind, h]

theorem slot_eq_ok_iff {p : Port} {s : Slot} : g.slot p = .ok s ↔ g.slot? p = some s := by
  simp only [slot, node, slot?]
  cases g.node? p.node with
  | none => simp [bind, Except.bind]
  | some m => cases h : m.ports.get? p.index <;> simp [bind, Except.bind, h]

theorem children_of_network {w : Network} (h : g.network n = .ok w) :
    g.children n = w.children := by
  rw [children, network_eq_ok_iff.1 h]
  rfl

theorem slot_of_checkAssign {p : Port} {s : Slot} {v : Value} (ok : g.checkAssign p v = .ok s) :
    g.slot? p = some s := by
  rw [← slot_eq_ok_iff]
  simp only [checkAssign, bind, Except.bind, throw, throwThe, MonadExceptOf.throw] at ok
  cases hs : g.slot p with
  | error x => simp [hs] at ok
  | ok t =>
    simp only [hs] at ok
    split at ok
    · cases ok
    · split at ok
      · cases ok
      · split at ok
        · cases ok
        · split at ok
          · cases ok
          · exact ok

end Found

/-! ### Equal frames -/

structure SameFrame (g h : Graph) : Prop where
  keys : h.nodes.keys = g.nodes.keys
  root : h.root = g.root
  config : h.config = g.config
  around : h.around? = g.around?
  contents : h.contents? = g.contents?
  type : h.type? = g.type?
  name : h.name? = g.name?
  peer : h.peer? = g.peer?

namespace SameFrame
variable {g h k : Graph}

theorem refl (g : Graph) : SameFrame g g := ⟨rfl, rfl, rfl, rfl, rfl, rfl, rfl, rfl⟩

theorem trans (a : SameFrame g h) (b : SameFrame h k) : SameFrame g k :=
  ⟨b.keys.trans a.keys, b.root.trans a.root, b.config.trans a.config, b.around.trans a.around,
    b.contents.trans a.contents, b.type.trans a.type, b.name.trans a.name, b.peer.trans a.peer⟩

theorem symm (a : SameFrame g h) : SameFrame h g :=
  ⟨a.keys.symm, a.root.symm, a.config.symm, a.around.symm, a.contents.symm, a.type.symm,
    a.name.symm, a.peer.symm⟩

theorem children (a : SameFrame g h) : h.children = g.children := by
  funext n
  simp only [Graph.children, a.contents]

theorem wires (a : SameFrame g h) : h.wires = g.wires := by
  funext n
  simp only [Graph.wires, a.contents]

theorem wiresAround (a : SameFrame g h) : h.wiresAround = g.wiresAround := by
  funext n
  simp only [wiresAround_eq, a.around, a.wires]

theorem attr (a : SameFrame g h) : h.attr? = g.attr? := by
  funext p
  simp only [attr?_eq, a.type]

theorem direction (a : SameFrame g h) : h.direction? = g.direction? := by
  funext p
  simp only [direction?_eq, a.attr]

theorem declaredType (a : SameFrame g h) : h.declaredType = g.declaredType := by
  funext p
  simp only [declaredType_eq, a.attr]

theorem terminal (a : SameFrame g h) : h.terminal? = g.terminal? := by
  funext p
  simp only [terminal?_eq, a.type, a.direction]

theorem source (a : SameFrame g h) : h.source? = g.source? := by
  funext p
  simp only [source?, a.wiresAround]

theorem sinks (a : SameFrame g h) : h.sinks = g.sinks := by
  funext p
  simp only [Graph.sinks, a.wiresAround]

end SameFrame

/-! ### What a change of one node does -/

section ModifyNode
variable (g : Graph) (n : NodeId) (f : Node → Node)

theorem map_node?_modifyNode {β : Type} (h : Node → β) (hf : ∀ m, h (f m) = h m) (k : NodeId) :
    ((g.modifyNode n f).node? k).map h = (g.node? k).map h := by
  rw [node?_modifyNode]
  split
  · cases g.node? k <;> simp [hf]
  · rfl

theorem bind_node?_modifyNode {β : Type} (h : Node → Option β) (hf : ∀ m, h (f m) = h m)
    (k : NodeId) : ((g.modifyNode n f).node? k).bind h = (g.node? k).bind h := by
  rw [node?_modifyNode]
  split
  · cases g.node? k <;> simp [hf]
  · rfl

theorem around?_modifyNode (hf : ∀ m, (f m).parent = m.parent) :
    (g.modifyNode n f).around? = g.around? :=
  funext (bind_node?_modifyNode g n f Node.parent hf)

theorem contents?_modifyNode (hf : ∀ m, (f m).inner = m.inner) :
    (g.modifyNode n f).contents? = g.contents? :=
  funext (bind_node?_modifyNode g n f Node.inner hf)

theorem type?_modifyNode (hf : ∀ m, (f m).type = m.type) :
    (g.modifyNode n f).type? = g.type? :=
  funext (map_node?_modifyNode g n f Node.type hf)

theorem name?_modifyNode (hf : ∀ m, (f m).name = m.name) :
    (g.modifyNode n f).name? = g.name? :=
  funext (map_node?_modifyNode g n f Node.name hf)

theorem peer?_modifyNode
    (hf : ∀ m, (f m).ports.entries.map Slot.peer = m.ports.entries.map Slot.peer) :
    (g.modifyNode n f).peer? = g.peer? := by
  funext p
  simp only [peer?_eq]
  exact bind_node?_modifyNode g n f _ (fun m => by rw [hf]) p.node

theorem sameFrame_modifyNode (hp : ∀ m, (f m).parent = m.parent) (hi : ∀ m, (f m).inner = m.inner)
    (ht : ∀ m, (f m).type = m.type) (hn : ∀ m, (f m).name = m.name)
    (hq : ∀ m, (f m).ports.entries.map Slot.peer = m.ports.entries.map Slot.peer) :
    SameFrame g (g.modifyNode n f) where
  keys := keys_modifyNode g n f
  root := rfl
  config := rfl
  around := around?_modifyNode g n f hp
  contents := contents?_modifyNode g n f hi
  type := type?_modifyNode g n f ht
  name := name?_modifyNode g n f hn
  peer := peer?_modifyNode g n f hq

end ModifyNode

theorem map_modify_of_eq {α β : Type} (l : List α) (i : Nat) (f : α → α) (h : α → β)
    (hf : ∀ a, h (f a) = h a) : (l.modify i f).map h = l.map h := by
  apply List.ext_getElem?
  intro j
  simp only [List.getElem?_map, List.getElem?_modify]
  split <;> cases l[j]? <;> simp [hf]

theorem sameFrame_modifySlot (g : Graph) (p : Port) (f : Slot → Slot)
    (ha : ∀ s, (f s).attr = s.attr) (hq : ∀ s, (f s).peer = s.peer) :
    SameFrame g (g.modifySlot p f) := by
  apply sameFrame_modifyNode
  case hp | hi | hn => intro m; rfl
  case ht =>
    intro m
    simp only [Node.type, Layout.map, Layout.modify]
    rw [map_modify_of_eq _ _ _ _ ha]
  case hq => exact fun m => map_modify_of_eq _ _ _ _ hq

theorem sameFrame_of_nodes {g h : Graph} (hn : h.nodes = g.nodes) (hr : h.root = g.root)
    (hc : h.config = g.config) : SameFrame g h := by
  have node (n : NodeId) : h.node? n = g.node? n := by rw [node?, hn]; rfl
  constructor
  case keys => rw [hn]
  case root => exact hr
  case config => exact hc
  case peer => funext p; simp only [peer?_eq, node]
  all_goals
    funext n
    simp only [around?, contents?, type?, name?, node]

/-- The first half of `resetEnds`. -/
def resetInput (g : Graph) (p : Port) : Graph :=
  match g.slot? p with
  | some s => if s.attr.type.isNone || !s.attr.serializable then g.hold p s.attr.default else g
  | none => g

/-- The second half of `resetEnds`. -/
def resetOutput (g : Graph) (p : Port) : Graph :=
  match g.slot? p with
  | some s => if s.attr.type.isNone && (g.sinks p).isEmpty then g.hold p s.attr.default else g
  | none => g

theorem resetEnds_eq (g : Graph) (e : Edge) :
    g.resetEnds e = (g.resetInput e.input).resetOutput e.output := rfl

section Values
variable (g : Graph)

theorem sameFrame_emit (e : Event) : SameFrame g (g.emit e) := sameFrame_of_nodes rfl rfl rfl

theorem sameFrame_put (p : Port) (v : Value) : SameFrame g (g.put p v) := by
  have first : SameFrame g (g.stamp v).2 := sameFrame_of_nodes rfl rfl rfl
  exact first.trans (sameFrame_modifySlot _ p (fun s => { s with held := (g.stamp v).1 })
    (fun _ => rfl) (fun _ => rfl))

theorem sameFrame_hold (p : Port) (v : Value) : SameFrame g (g.hold p v) :=
  (g.sameFrame_put p v).trans (sameFrame_emit _ _)

theorem sameFrame_setCurrent (p : Port) : SameFrame g (g.setCurrent p) :=
  (g.sameFrame_modifySlot p (fun s => { s with stale := false }) (fun _ => rfl) (fun _ => rfl)).trans
    (sameFrame_emit _ _)

theorem sameFrame_setStale (p : Port) : SameFrame g (g.setStale p) :=
  ((g.sameFrame_modifySlot p (fun s => { s with stale := true }) (fun _ => rfl)
    (fun _ => rfl)).trans (sameFrame_emit _ _)).trans (sameFrame_emit _ _)

theorem sameFrame_setStatus (n : NodeId) (s : Status) : SameFrame g (g.setStatus n s) := by
  simp only [setStatus]
  split
  · split
    · exact .refl g
    · exact (g.sameFrame_modifyNode n (fun m => { m with status := s }) (fun _ => rfl)
        (fun _ => rfl) (fun _ => rfl) (fun _ => rfl) (fun _ => rfl)).trans (sameFrame_emit _ _)
  · exact .refl g

theorem sameFrame_foldl_setStale (l : List Port) : SameFrame g (l.foldl setStale g) := by
  induction l generalizing g with
  | nil => exact .refl g
  | cons p l ih => exact (g.sameFrame_setStale p).trans (ih _)

theorem sameFrame_spread (starts : List Port) : SameFrame g (g.spread starts) :=
  g.sameFrame_foldl_setStale _

theorem sameFrame_seedEnds (e : Edge) : SameFrame g (g.seedEnds e) := by
  simp only [seedEnds]
  split <;> split <;>
    first
    | exact .refl _
    | exact sameFrame_hold _ _ _
    | exact (sameFrame_hold _ _ _).trans (sameFrame_hold _ _ _)

theorem sameFrame_resetInput (p : Port) : SameFrame g (g.resetInput p) := by
  simp only [resetInput]
  split
  · split
    · exact sameFrame_hold _ _ _
    · exact .refl g
  · exact .refl g

theorem sameFrame_resetOutput (p : Port) : SameFrame g (g.resetOutput p) := by
  simp only [resetOutput]
  split
  · split
    · exact sameFrame_hold _ _ _
    · exact .refl g
  · exact .refl g

theorem sameFrame_resetEnds (e : Edge) : SameFrame g (g.resetEnds e) := by
  rw [resetEnds_eq]
  exact (g.sameFrame_resetInput e.input).trans (sameFrame_resetOutput _ e.output)

theorem sameFrame_replace (p : Port) (s : Slot) (v : Value) : SameFrame g (g.replace p s v) := by
  refine (g.sameFrame_hold p v).trans ?_
  simp only [replace]
  split
  · exact (sameFrame_setCurrent _ p).trans (sameFrame_spread _ _)
  · exact sameFrame_spread _ _

end Values

/-! ### Changes beside the ports -/

/-- Frame and ports are the same. Only news, marks, counts and attachments differ. -/
structure Quiet (g h : Graph) : Prop where
  frame : SameFrame g h
  slot : h.slot? = g.slot?

namespace Quiet
variable {g h k : Graph}

theorem refl (g : Graph) : Quiet g g := ⟨.refl g, rfl⟩

theorem trans (a : Quiet g h) (b : Quiet h k) : Quiet g k :=
  ⟨a.frame.trans b.frame, b.slot.trans a.slot⟩

theorem of_nodes (hn : h.nodes = g.nodes) (hr : h.root = g.root) (hc : h.config = g.config) :
    Quiet g h := by
  refine ⟨sameFrame_of_nodes hn hr hc, funext fun p => ?_⟩
  simp only [slot?, node?, hn]

theorem isStale (a : Quiet g h) : h.isStale = g.isStale := by
  funext p
  simp only [Graph.isStale, a.slot]

theorem held (a : Quiet g h) : h.held = g.held := by
  funext p
  simp only [Graph.held, a.slot]

end Quiet

theorem quiet_emit (g : Graph) (e : Event) : Quiet g (g.emit e) := .of_nodes rfl rfl rfl

theorem quiet_setAttachment {g h : Graph} {n : NodeId} {v : Value}
    (ok : g.setAttachment n v = .ok h) : Quiet g h := by
  simp only [setAttachment, bind, Except.bind] at ok
  split at ok
  · cases ok
  · cases ok
    refine ⟨g.sameFrame_modifyNode n (fun m => { m with attachment := v }) (fun _ => rfl)
      (fun _ => rfl) (fun _ => rfl) (fun _ => rfl) (fun _ => rfl), funext fun p => ?_⟩
    simp only [slot?, Option.bind_eq_bind]
    exact bind_node?_modifyNode g n (fun m => { m with attachment := v })
      (fun m => m.ports.get? p.index) (fun _ => rfl) p.node

end Graph
end Dataflow
