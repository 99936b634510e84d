import Dataflow.Proofs.Insert
set_option autoImplicit false

/-!
Giving a node another name. A network port takes over the name of its terminal. Main statements: all
but names stays as it was, and a lawful graph stays lawful and an acyclic one acyclic.
-/

namespace Dataflow

theorem nodup_set {α : Type} {l : List α} (h : l.Nodup) (i : Nat) (a : α) (ha : a ∉ l) :
    (l.set i a).Nodup := by
  induction l generalizing i with
  | nil => exact h
  | cons b l ih =>
    have h' := List.nodup_cons.1 h
    simp only [List.mem_cons, not_or] at ha
    cases i with
    | zero => exact List.nodup_cons.2 ⟨ha.2, h'.2⟩
    | succ i =>
      refine List.nodup_cons.2 ⟨fun hb => ?_, ih h'.2 i ha.2⟩
      rcases List.mem_or_eq_of_mem_set hb with hb | hb
      · exact h'.1 hb
      · exact ha.1 hb.symm

/-- The attribute in one place has got another name. -/
def NodeType.renamed (t : NodeType) (i : Nat) (name : String) : NodeType :=
  { t with ports := t.ports.modify i fun a => { a with name := name } }

theorem NodeType.Sound.renamed {t : NodeType} (s : t.Sound) (i : Nat) (name : String)
    (free : name ∉ t.ports.entries.map Attribute.name) : (t.renamed i name).Sound := by
  have direction (j : Nat) : ((t.renamed i name).ports.get? j).map Attribute.direction =
      (t.ports.get? j).map Attribute.direction := by
    rw [NodeType.renamed, Layout.get?_modify]
    split
    · cases t.ports.get? j <;> rfl
    · rfl
  have names : (t.renamed i name).ports.entries.map Attribute.name =
      (t.ports.entries.map Attribute.name).set i name := by
    apply List.ext_getElem?
    intro j
    simp only [NodeType.renamed, Layout.modify, List.getElem?_map, List.getElem?_modify,
      List.getElem?_set, List.length_map]
    by_cases hj : i = j
    · subst hj
      by_cases hi : i < t.ports.entries.length
      · simp [hi]
      · simp [hi]
    · cases t.ports.entries[j]? <;> simp [hj]
  constructor
  case sources =>
    intro p hp
    rw [direction]
    exact s.sources p hp
  case targets =>
    intro p hp
    rw [direction]
    exact s.targets p hp
  case names =>
    rw [names]
    exact nodup_set s.names i name free

namespace Graph

/-- The node `n` has got a new name, and the port `b?`, if there is one, has it too. -/
structure Renamed (n : NodeId) (b? : Option Port) (new : String) (g h : Graph) : Prop where
  keys : h.nodes.keys = g.nodes.keys
  root : h.root = g.root
  config : h.config = g.config
  around : h.around? = g.around?
  contents : h.contents? = g.contents?
  name : ∀ k, h.name? k = if k = n then (g.name? k).map fun _ => new else g.name? k
  type : ∀ k, h.type? k = (g.type? k).map fun t =>
    match b? with
    | some b => if k = b.node then t.renamed b.index new else t
    | none => t
  slot : ∀ p, h.slot? p = (g.slot? p).map fun s =>
    if some p = b? then { s with attr := { s.attr with name := new } } else s

/-- The new name is free in the network of the node and on the node of the port. -/
structure Renameable (n : NodeId) (b? : Option Port) (new : String) (g : Graph) : Prop where
  free : ∀ parent c, g.around? n = some parent → c ∈ g.children parent → g.name? c ≠ some new
  unused : ∀ b t, b? = some b → g.type? b.node = some t →
    new ∉ t.ports.entries.map Attribute.name

section Edit
variable {g h : Graph} {n : NodeId}

theorem renamed_modifyNode (name : String) :
    Renamed n none name g (g.modifyNode n fun m => { m with name := name }) := by
  let change (m : Node) : Node := { m with name := name }
  constructor
  case keys => exact keys_modifyNode g n change
  case root | config => rfl
  case around => exact around?_modifyNode g n change fun _ => rfl
  case contents => exact contents?_modifyNode g n change fun _ => rfl
  case name =>
    intro k
    simp only [name?, node?_modifyNode, eq_comm (a := k)]
    split
    · cases g.node? k <;> rfl
    · rfl
  case type =>
    intro k
    rw [type?_modifyNode g n change fun _ => rfl]
    simp
  case slot =>
    intro p
    simp only [slot?, Option.bind_eq_bind]
    rw [bind_node?_modifyNode g n change (fun m => m.ports.get? p.index) fun _ => rfl]
    simp

theorem renamed_renamePort (b : Port) (name : String) :
    Renamed n (some b) name g
      ((g.renamePort b name).modifyNode n fun m => { m with name := name }) := by
  let f (s : Slot) : Slot := { s with attr := { s.attr with name := name } }
  let change (m : Node) : Node := { m with ports := m.ports.modify b.index f }
  let g₁ := g.modifyNode b.node change
  let g₂ := g.renamePort b name
  have news : SameFrame g₁ g₂ := sameFrame_emit _ _
  have slots (p : Port) : g₂.slot? p = g₁.slot? p := rfl
  have x := renamed_modifyNode (g := g₂) (n := n) name
  constructor
  case keys => rw [x.keys, news.keys, keys_modifyNode]
  case root => rw [x.root, news.root]; rfl
  case config => rw [x.config, news.config]; rfl
  case around => rw [x.around, news.around, around?_modifyNode g b.node change fun _ => rfl]
  case contents => rw [x.contents, news.contents, contents?_modifyNode g b.node change fun _ => rfl]
  case name =>
    intro k
    rw [x.name, news.name, name?_modifyNode g b.node change fun _ => rfl]
  case type =>
    intro k
    rw [x.type, news.type]
    simp only [type?, g₁, node?_modifyNode, eq_comm (a := k)]
    split
    · cases g.node? k with
      | none => rfl
      | some m =>
        have entries : (m.ports.entries.modify b.index f).map Slot.attr =
            (m.ports.entries.map Slot.attr).modify b.index fun a => { a with name := name } := by
          apply List.ext_getElem?
          intro j
          simp only [List.getElem?_map, List.getElem?_modify]
          cases m.ports.entries[j]? with
          | none => simp
          | some s => by_cases hj : b.index = j <;> simp [hj, f]
        simp [change, Node.type, NodeType.renamed, Layout.map, Layout.modify, entries]
    · simp
  case slot =>
    intro p
    rw [x.slot, slots]
    have := slot?_modifySlot g b p f
    change (g₁.slot? p).map _ = _
    change g₁.slot? p = _ at this
    rw [this]
    by_cases hp : b = p
    · subst hp
      cases g.slot? b <;> simp [f]
    · have hp' : ¬ some p = some b := fun h => hp (Option.some.inj h).symm
      cases g.slot? p <;> simp [hp, hp']

/-- A node keeps its name, or gets one that is free. -/
theorem renamed {name : String} (ok : g.rename n name = .ok h) :
    h = g ∨ ∃ name' , Renameable n (g.exposedPort? n) name' g ∧
      Renamed n (g.exposedPort? n) name' g h := by
  simp only [rename, bind, Except.bind] at ok
  cases hm : g.node n with
  | error x => simp [hm] at ok
  | ok m =>
    have hm' := node_eq_ok_iff.1 hm
    simp only [hm] at ok
    split at ok
    · cases ok
    · next parent hparent =>
      split at ok
      · cases ok
        exact .inl rfl
      · cases hname : g.freeName parent name with
        | error x => simp [hname] at ok
        | ok name' =>
          simp only [hname] at ok
          have free (p c : NodeId) (hp : g.around? n = some p) (hc : c ∈ g.children p) :
              g.name? c ≠ some name' := by
            have same : parent = p := by
              simpa [around?, hm', hparent] using hp
            exact (find?_eq_none_iff g parent name').1 (find?_of_freeName hname) c (same ▸ hc)
          refine .inr ⟨name', ?_⟩
          cases hb : g.exposedPort? n with
          | none =>
            simp only [renameBoundary, hb, Except.ok.injEq] at ok
            refine ⟨⟨free, fun b t h => (by cases h)⟩, ?_⟩
            rw [← ok]
            exact renamed_modifyNode name'
          | some b =>
            simp only [renameBoundary, hb, bind, Except.bind] at ok
            cases hk : g.node b.node with
            | error x => simp [hk] at ok
            | ok k =>
              simp only [hk] at ok
              split at ok
              · cases ok
              · next x r hr =>
                split at hr
                · cases hr
                · next unused =>
                  cases hr
                  cases ok
                  refine ⟨⟨free, ?_⟩, renamed_renamePort b name'⟩
                  rintro _ t ⟨⟩ ht
                  rw [type?, node_eq_ok_iff.1 hk, Option.map_some, Option.some.injEq] at ht
                  rw [← ht, ← NodeType.indexOf?_eq_none_iff]
                  simpa using unused

end Edit

/-! ### What stays -/

namespace Renamed
variable {n : NodeId} {b? : Option Port} {new : String} {g h : Graph} (x : Renamed n b? new g h)
include x

theorem children : h.children = g.children := by
  funext k
  simp only [Graph.children, x.contents]

theorem wires : h.wires = g.wires := by
  funext k
  simp only [Graph.wires, x.contents]

theorem feeds : h.Feeds = g.Feeds := by
  funext o i
  simp only [Feeds, x.wires]

theorem connected : h.Connected = g.Connected := by
  funext p
  simp only [Connected, x.feeds]

theorem direction : h.direction? = g.direction? := by
  funext p
  simp only [direction?, x.slot, Option.map_map]
  cases g.slot? p with
  | none => rfl
  | some s =>
    simp only [Option.map_some, Function.comp_apply]
    split <;> rfl

theorem peer : h.peer? = g.peer? := by
  funext p
  simp only [peer?, x.slot]
  cases g.slot? p with
  | none => rfl
  | some s =>
    simp only [Option.map_some, Option.bind_some]
    split <;> rfl

theorem isStale : h.isStale = g.isStale := by
  funext p
  simp only [Graph.isStale, x.slot]
  cases g.slot? p with
  | none => rfl
  | some s =>
    simp only [Option.map_some, Option.elim_some]
    split <;> rfl

theorem held : h.held = g.held := by
  funext p
  simp only [Graph.held, x.slot]
  cases g.slot? p with
  | none => rfl
  | some s =>
    simp only [Option.map_some, Option.elim_some]
    split <;> rfl

theorem typeName (k : NodeId) :
    (h.type? k).map NodeType.name = (g.type? k).map NodeType.name := by
  rw [x.type, Option.map_map]
  congr 1
  funext t
  cases b? with
  | none => rfl
  | some b =>
    simp only [Function.comp_apply]
    split <;> rfl

theorem terminal : h.terminal? = g.terminal? := by
  funext p
  exact terminal?_congr (x.typeName p.node) (by rw [x.direction])

theorem faces : h.Faces = g.Faces := by
  funext p q
  simp only [Faces, x.terminal, x.direction, x.around]

theorem influences : h.Influences = g.Influences := by
  have same (t : NodeType) (k : NodeId) : (match b? with
      | some b => if k = b.node then t.renamed b.index new else t
      | none => t).ports.influences = t.ports.influences := by
    cases b? with
    | none => rfl
    | some b =>
      simp only
      split <;> rfl
  funext p q
  simp only [Influences, x.type]
  cases g.type? p.node with
  | none => rfl
  | some t => simp [same]

theorem flows : h.Flows = g.Flows := by
  funext p q
  simp only [Flows, x.influences, x.feeds, x.direction, x.peer]

theorem acyclic (ha : g.Acyclic) : h.Acyclic := by
  rw [Acyclic, x.flows]
  exact ha

theorem tree (r : Renameable n b? new g) (w : g.Tree) : h.Tree := by
  constructor
  case keys => rw [x.keys]; exact w.keys
  case root => rw [x.around, x.root]; exact w.root
  case rootNetwork => rw [x.contents, x.root]; exact w.rootNetwork
  case orphan =>
    intro k hk ha
    rw [x.type, Option.isSome_map] at hk
    rw [x.around] at ha
    rw [x.root]
    exact w.orphan k hk ha
  case child => rw [x.children, x.around]; exact w.child
  case order => rw [x.around, x.keys]; exact w.order
  case nodup => rw [x.children]; exact w.nodup
  case distinct =>
    intro k c d hc hd hn
    rw [x.children] at hc hd
    rw [x.name, x.name] at hn
    have named {c : NodeId} (hc : c ∈ g.children k) : ∃ s, g.name? c = some s := by
      have live := isSome_type?_of_around? ((w.child k c).1 hc)
      simp only [type?, name?] at *
      cases hm : g.node? c <;> simp_all
    by_cases hcn : c = n <;> by_cases hdn : d = n
    · rw [hcn, hdn]
    · obtain ⟨s, hs⟩ := named hc
      rw [if_pos hcn, if_neg hdn, hs] at hn
      exact absurd hn.symm (r.free k d (hcn ▸ (w.child k c).1 hc) hd)
    · obtain ⟨s, hs⟩ := named hd
      rw [if_neg hcn, if_pos hdn, hs] at hn
      exact absurd hn (r.free k c (hdn ▸ (w.child k d).1 hd) hc)
    · rw [if_neg hcn, if_neg hdn] at hn
      exact w.distinct k c d hc hd hn
  case kind =>
    intro k t ht
    have hn := x.typeName k
    rw [ht] at hn
    obtain ⟨u, hu, hun⟩ := Option.map_eq_some_iff.1 hn.symm
    rw [x.contents, ← hun]
    exact w.kind k u hu

theorem wellFormed (r : Renameable n b? new g) (w : g.WellFormed) : h.WellFormed := by
  refine ⟨x.tree r w.tree, ?wired, ?linked, ?sound⟩
  case wired =>
    constructor
    · rw [x.wires, x.direction]; exact w.wired.output
    · rw [x.wires, x.direction]; exact w.wired.input
    · rw [x.wires, x.around]; exact w.wired.outputAround
    · rw [x.wires, x.around]; exact w.wired.inputAround
    · rw [x.wires]; exact w.wired.single
  case linked =>
    constructor
    · rw [x.peer]; exact w.linked.back
    · rw [x.peer, x.faces]; exact w.linked.faces
  case sound =>
    intro k t ht
    rw [x.type] at ht
    obtain ⟨u, hu, rfl⟩ := Option.map_eq_some_iff.1 ht
    cases hb : b? with
    | none => exact w.sound k u hu
    | some b =>
      simp only
      split
      · next hk =>
        exact (w.sound k u hu).renamed _ _ (r.unused b u hb (hk ▸ hu))
      · exact w.sound k u hu

theorem lawful (r : Renameable n b? new g) (w : g.Lawful) : h.Lawful := by
  refine ⟨x.wellFormed r w.wellFormed, fun t => ?_⟩
  rw [Fitted, x.terminal, x.peer, x.connected]
  exact w.fitted t

end Renamed
end Graph
end Dataflow
