import Dataflow.Proofs.Cut
set_option autoImplicit false

/-!
Removing nodes. A node that is removed has lost its contents and its wires by then, and with its
wires all peers. Main statements: the removal of a node and of all it contains leaves a lawful graph
lawful, and what cuts and the removal of bare nodes keep is kept.
-/

namespace Dataflow.Graph

/-- What holds of a node that can go. -/
structure Bare (n : NodeId) (g : Graph) : Prop where
  inside : (g.around? n).isSome
  empty : g.children n = []
  unwired : ∀ p, p.node = n → ¬ g.Connected p
  alone : ∀ p, p.node = n → g.peer? p = none

/-- The node `n` has left the network around it. -/
structure Removed (n : NodeId) (g h : Graph) : Prop where
  keys : h.nodes.keys = g.nodes.keys.erase n
  root : h.root = g.root
  config : h.config = g.config
  around : ∀ k, h.around? k = if k = n then none else g.around? k
  contents : ∀ k, h.contents? k = if k = n then none
    else if g.around? n = some k then
      (g.contents? k).map fun w => { w with children := w.children.erase n }
    else g.contents? k
  type : ∀ k, h.type? k = if k = n then none else g.type? k
  name : ∀ k, h.name? k = if k = n then none else g.name? k
  slot : ∀ p, h.slot? p = if p.node = n then none else g.slot? p

/-- Takes a node from the network around it. -/
def detach (g : Graph) (n parent : NodeId) : Graph :=
  let g := g.modifyNetwork parent fun w => { w with children := w.children.erase n }
  { g with nodes := g.nodes.erase n }

theorem removed (g : Graph) {n parent : NodeId} (nodup : g.nodes.keys.Nodup)
    (hp : g.around? n = some parent) : Removed n g (g.detach n parent) := by
  let change (m : Node) : Node :=
    { m with inner := m.inner.map fun w => { w with children := w.children.erase n } }
  have nodup' : (g.modifyNode parent change).nodes.keys.Nodup := by
    rw [keys_modifyNode]
    exact nodup
  have node (k : NodeId) : (g.detach n parent).node? k =
      if k = n then none else if k = parent then (g.node? k).map change else g.node? k := by
    have := Table.get?_erase (g.modifyNode parent change).nodes n k nodup'
    change Table.get? ((g.modifyNode parent change).nodes.erase n) k = _
    rw [this]
    by_cases hk : k = n
    · simp [hk]
    · change (if n = k then none else (g.modifyNode parent change).node? k) = _
      rw [node?_modifyNode]
      simp [hk, Ne.symm hk, eq_comm]
  have lift {β : Type} (f : Node → β) (hf : ∀ m, f (change m) = f m) (k : NodeId) :
      ((g.detach n parent).node? k).map f = if k = n then none else (g.node? k).map f := by
    rw [node]
    split
    · rfl
    · split
      · cases g.node? k <;> simp [hf]
      · rfl
  constructor
  case keys =>
    change ((g.modifyNode parent change).nodes.erase n).keys = _
    rw [Table.keys_erase, keys_modifyNode]
  case root | config => rfl
  case around =>
    intro k
    simp only [around?, node]
    split
    · rfl
    · split
      · cases g.node? k <;> rfl
      · rfl
  case contents =>
    intro k
    rw [hp]
    simp only [contents?, node, Option.some.injEq, eq_comm (a := parent)]
    split
    · rfl
    · split
      · cases g.node? k <;> rfl
      · rfl
  case type => exact lift Node.type fun _ => rfl
  case name => exact lift Node.name fun _ => rfl
  case slot =>
    intro p
    simp only [slot?, node]
    split
    · rfl
    · split
      · cases g.node? p.node <;> rfl
      · rfl

theorem Bare.end_ne {n : NodeId} {g : Graph} (b : Bare n g) {k : NodeId} {e : Edge}
    (he : e ∈ g.wires k) : e.output.node ≠ n ∧ e.input.node ≠ n :=
  ⟨fun h => b.unwired _ h ⟨e.input, .inl ⟨k, he⟩⟩, fun h => b.unwired _ h ⟨e.output, .inr ⟨k, he⟩⟩⟩

namespace Removed
variable {n : NodeId} {g h : Graph} (x : Removed n g h)
include x

theorem children (k : NodeId) (hk : k ≠ n) :
    h.children k = if g.around? n = some k then (g.children k).erase n else g.children k := by
  simp only [Graph.children, x.contents, if_neg hk]
  split
  · cases g.contents? k <;> rfl
  · rfl

theorem wires (k : NodeId) (hk : k ≠ n) : h.wires k = g.wires k := by
  simp only [Graph.wires, x.contents, if_neg hk]
  split
  · cases g.contents? k <;> rfl
  · rfl

theorem wires_self : h.wires n = [] := by simp [Graph.wires, x.contents]

theorem terminal {p : Port} (hp : p.node ≠ n) : h.terminal? p = g.terminal? p := by
  refine terminal?_congr ?_ ?_
  · rw [x.type, if_neg hp]
  · rw [direction?, direction?, x.slot, if_neg hp]

theorem direction {p : Port} (hp : p.node ≠ n) : h.direction? p = g.direction? p := by
  rw [direction?, direction?, x.slot, if_neg hp]

theorem direction_old {p : Port} {d : Direction} (hd : h.direction? p = some d) :
    p.node ≠ n ∧ g.direction? p = some d := by
  have hp : p.node ≠ n := by
    intro hp
    simp [direction?, x.slot, hp] at hd
  exact ⟨hp, x.direction hp ▸ hd⟩

theorem peer_old {p q : Port} (h : h.peer? p = some q) : p.node ≠ n ∧ g.peer? p = some q := by
  have hp : p.node ≠ n := by
    intro hp
    simp [peer?, x.slot, hp] at h
  rw [peer?, x.slot, if_neg hp] at h
  exact ⟨hp, h⟩

theorem feeds_old {o i : Port} (hf : h.Feeds o i) : g.Feeds o i := by
  obtain ⟨k, hk⟩ := hf
  by_cases hkn : k = n
  · rw [hkn, x.wires_self] at hk
    cases hk
  · rw [x.wires k hkn] at hk
    exact ⟨k, hk⟩

theorem flows_old {p q : Port} (hf : h.Flows p q) : g.Flows p q := by
  rcases hf with ⟨hn, t, ht, hm⟩ | hf | ⟨hd, hp⟩
  · rw [x.type] at ht
    split at ht
    · cases ht
    · exact .inl ⟨hn, t, ht, hm⟩
  · exact .inr (.inl (x.feeds_old hf))
  · exact .inr (.inr ⟨(x.direction_old hd).2, (x.peer_old hp).2⟩)

theorem acyclic (ha : g.Acyclic) : h.Acyclic := ha.of_map id fun _ _ hf => x.flows_old hf

theorem faces {p q : Port} (hp : p.node ≠ n) (hq : q.node ≠ n) (hf : g.Faces p q) :
    h.Faces p q := by
  obtain ⟨side, ht, hd, ha⟩ := hf
  refine ⟨side, ?_, ?_, ?_⟩
  · rw [x.terminal hp]
    exact ht
  · rw [x.direction hq]
    exact hd
  · rw [x.around, if_neg hp]
    exact ha

variable (b : Bare n g)
include b

theorem peer : h.peer? = g.peer? := by
  funext p
  by_cases hp : p.node = n
  · rw [b.alone p hp]
    simp [peer?, x.slot, hp]
  · simp [peer?, x.slot, hp]

variable (w : g.WellFormed)
include w

/-- No wire of another network is lost with the node. -/
theorem wires_eq : h.wires = g.wires := by
  funext k
  by_cases hk : k = n
  · subst hk
    rw [x.wires_self]
    cases hw : g.wires k with
    | nil => rfl
    | cons e es =>
      have := (w.tree.child k e.output.node).2 (w.wired.outputAround k e (by simp [hw]))
      rw [b.empty] at this
      cases this
  · exact x.wires k hk

theorem feeds : h.Feeds = g.Feeds := by
  funext o i
  simp only [Feeds, x.wires_eq b w]

theorem connected : h.Connected = g.Connected := by
  funext p
  simp only [Connected, x.feeds b w]

theorem tree : h.Tree := by
  obtain ⟨parent, hp⟩ := Option.isSome_iff_exists.1 b.inside
  have root_ne : g.root ≠ n := by
    intro h
    rw [← h, w.tree.root] at hp
    cases hp
  have kids (k : NodeId) (hk : k ≠ n) (c : NodeId) :
      c ∈ h.children k ↔ c ≠ n ∧ c ∈ g.children k := by
    rw [x.children k hk]
    split
    · exact (w.tree.nodup k).mem_erase_iff
    · next hne =>
      refine ⟨fun hc => ⟨?_, hc⟩, And.right⟩
      rintro rfl
      exact hne ((w.tree.child k c).1 hc)
  have no_kids (c : NodeId) : g.around? c ≠ some n := by
    intro hc
    have := (w.tree.child n c).2 hc
    rw [b.empty] at this
    cases this
  constructor
  case keys =>
    rw [x.keys]
    exact w.tree.keys.erase n
  case root =>
    rw [x.root, x.around, if_neg root_ne]
    exact w.tree.root
  case rootNetwork =>
    rw [x.root, x.contents, if_neg root_ne]
    split
    · rw [Option.isSome_map]
      exact w.tree.rootNetwork
    · exact w.tree.rootNetwork
  case orphan =>
    intro k hk ha
    rw [x.type] at hk
    split at hk
    · cases hk
    · next hne =>
      rw [x.around, if_neg hne] at ha
      rw [x.root]
      exact w.tree.orphan k hk ha
  case child =>
    intro k c
    by_cases hk : k = n
    · subst hk
      have gone : h.children k = [] := by simp [Graph.children, x.contents]
      rw [gone, x.around]
      split
      · simp
      · simpa using no_kids c
    · rw [kids k hk, x.around, w.tree.child]
      by_cases hc : c = n <;> simp [hc]
  case order =>
    intro k c hc
    rw [x.around] at hc
    split at hc
    · cases hc
    · next hcn =>
      have hkn : k ≠ n := by
        rintro rfl
        exact no_kids c hc
      have sub := (w.tree.order k c hc).filter (· != n)
      rw [x.keys, w.tree.keys.erase_eq_filter]
      simpa [hcn, hkn] using sub
  case nodup =>
    intro k
    by_cases hk : k = n
    · simp [Graph.children, x.contents, hk]
    · rw [x.children k hk]
      split
      · exact (w.tree.nodup k).erase n
      · exact w.tree.nodup k
  case distinct =>
    intro k c d hc hd hn
    by_cases hk : k = n
    · simp [Graph.children, x.contents, hk] at hc
    · rw [kids k hk] at hc hd
      rw [x.name, x.name, if_neg hc.1, if_neg hd.1] at hn
      exact w.tree.distinct k c d hc.2 hd.2 hn
  case kind =>
    intro k t ht
    rw [x.type] at ht
    split at ht
    · cases ht
    · next hne =>
      rw [x.contents, if_neg hne]
      split
      · rw [Option.isSome_map]
        exact w.tree.kind k t ht
      · exact w.tree.kind k t ht

theorem wellFormed : h.WellFormed := by
  refine ⟨x.tree b w, ?wired, ?linked, ?sound⟩
  case wired =>
    constructor
    case output =>
      rw [x.wires_eq b w]
      intro k e he
      rw [x.direction (b.end_ne he).1]
      exact w.wired.output k e he
    case input =>
      rw [x.wires_eq b w]
      intro k e he
      rw [x.direction (b.end_ne he).2]
      exact w.wired.input k e he
    case outputAround =>
      rw [x.wires_eq b w]
      intro k e he
      rw [x.around, if_neg (b.end_ne he).1]
      exact w.wired.outputAround k e he
    case inputAround =>
      rw [x.wires_eq b w]
      intro k e he
      rw [x.around, if_neg (b.end_ne he).2]
      exact w.wired.inputAround k e he
    case single =>
      rw [x.wires_eq b w]
      exact w.wired.single
  case linked =>
    constructor
    · rw [x.peer b]
      exact w.linked.back
    · intro p q hp
      rw [x.peer b] at hp
      have hpn : p.node ≠ n := by
        intro h
        rw [b.alone p h] at hp
        cases hp
      have hqn : q.node ≠ n := by
        intro h
        have := w.linked.back p q hp
        rw [b.alone q h] at this
        cases this
      exact (w.linked.faces p q hp).imp (x.faces hpn hqn) (x.faces hqn hpn)
  case sound =>
    intro k t ht
    rw [x.type] at ht
    split at ht
    · cases ht
    · exact w.sound k t ht

theorem fitted (hf : ∀ p, g.Fitted p) (p : Port) : h.Fitted p := by
  intro ht
  have hp : p.node ≠ n := by
    obtain ⟨side, hs⟩ := Option.isSome_iff_exists.1 ht
    have := (terminal?_direction hs).2
    intro hp
    simp [direction?, x.slot, hp] at this
  rw [x.terminal hp] at ht
  rw [x.peer b, x.connected b w]
  exact hf p ht

end Removed

/-! ### One node with its wires -/

/-- What is kept by cuts, of wires that are asked for, and by the removal of bare nodes. -/
structure KeptByRemoving (asked : Graph → Edge → Prop) (I : Graph → Prop) : Prop
    extends KeptByCutting asked I where
  remove : ∀ g h n, g.WellFormed → Bare n g → Removed n g h → I g → I h

/-- What is kept by all cuts and by the removal of bare nodes. -/
structure KeptByRemovals (I : Graph → Prop) : Prop extends KeptByCuts I where
  remove : ∀ g h n, g.WellFormed → Bare n g → Removed n g h → I g → I h

theorem KeptByRemovals.removing {I : Graph → Prop} (k : KeptByRemovals I)
    (asked : Graph → Edge → Prop) : KeptByRemoving asked I :=
  { k.toKeptByCuts.cutting asked with remove := k.remove }

theorem KeptByRemoving.removals {I : Graph → Prop} (k : KeptByRemoving (fun _ _ => True) I) :
    KeptByRemovals I :=
  ⟨⟨k.quiet, fun g m e w he => k.sever g m e w he (.inl trivial),
    fun g b t w hb hf hc ht => k.drop g b t w ⟨hb, hf, ht⟩ hc⟩, k.remove⟩

theorem keptByRemovals_true : KeptByRemovals fun _ => True :=
  ⟨⟨fun _ _ _ _ => trivial, fun _ _ _ _ _ _ => trivial, fun _ _ _ _ _ _ _ _ _ => trivial⟩,
    fun _ _ _ _ _ _ _ => trivial⟩

/-- A lawful graph with the property. -/
structure LawfulWith (I : Graph → Prop) (g : Graph) : Prop where
  lawful : g.Lawful
  holds : I g

section Leaf
variable {asked : Graph → Edge → Prop} {I : Graph → Prop}

theorem LawfulWith.cut (k : KeptByCutting asked I) {g : Graph} (w : LawfulWith I g) {e : Edge}
    (why : asked g e) : LawfulWith I (g.cut e) :=
  ⟨lawful_cut w.lawful e, keeps_cut k w.lawful.wellFormed why w.holds⟩

theorem LawfulWith.of_sameFrame {g h : Graph} (w : LawfulWith I g) (a : SameFrame g h)
    (hI : I h) : LawfulWith I h := ⟨a.lawful w.lawful, hI⟩

/-- The node has lost its wires, each with what it alone keeps. -/
def stripped (g : Graph) (n : NodeId) : Graph :=
  ((g.wiresAround n).filter (Edge.touches n)).foldl cut g

theorem removeLeaf_eq (g : Graph) {n parent : NodeId} (h : g.around? n = some parent) :
    g.removeLeaf n = ((g.stripped n).emit (.nodeRemoved n)).detach n parent := by
  simp only [removeLeaf, h]
  rfl

theorem removeLeaf_of_none (g : Graph) {n : NodeId} (h : g.around? n = none) :
    g.removeLeaf n = g := by simp only [removeLeaf, h]

/-- A node without contents is bare once its wires are gone. -/
theorem stripped_spec (k : KeptByRemoving asked I) {g : Graph} {n parent : NodeId}
    (why : ∀ g e, e.touches n = true → asked g e) (w : LawfulWith I g)
    (ha : g.around? n = some parent) (empty : g.children n = []) :
    LawfulWith I (g.stripped n) ∧ Bare n (g.stripped n) ∧ SameTree g (g.stripped n) := by
  let l := (g.wiresAround n).filter (Edge.touches n)
  let g₁ := g.stripped n
  obtain ⟨w₁, fitted, outward, keeps, wires⟩ : g₁.WellFormed ∧
      (∀ t, g.Fitted t → g₁.Fitted t) ∧ Outward parent g g₁ ∧ (I g → I g₁) ∧
      ∀ e, e ∈ g₁.wires parent ↔ e ∈ g.wires parent ∧ e ∉ l := by
    have low : g.rank parent < g.rank parent + 1 := by omega
    refine foldl_cut (R := fun _ => True)
      (fun g m e w he why _ => cut_spec k.toKeptByCutting w he why) (fun _ _ _ _ _ _ => trivial)
      (fun g _ e he => .inl (why g e (List.mem_filter.1 he).2)) w.lawful.wellFormed trivial ?_ ?_
      low
    · intro e he
      have := (List.mem_filter.1 he).1
      rwa [wiresAround_of_around? ha] at this
    · simp only [wiresAround_of_around? ha]
      exact (nodup_wires w.lawful.wellFormed.wired parent).filter _
  have lawful₁ : g₁.Lawful := ⟨w₁, fun t => fitted t (w.lawful.fitted t)⟩
  have tree := outward.tree
  have around₁ : g₁.around? n = some parent := by rw [tree.around, ha]
  have unwired (p : Port) (hp : p.node = n) : ¬ g₁.Connected p := by
    have none_left (e : Edge) (he : e ∈ g₁.wires parent) : ¬ e.touches n = true := by
      intro ht
      have := (wires e).1 he
      exact this.2 (List.mem_filter.2 ⟨by rw [wiresAround_of_around? ha]; exact this.1, ht⟩)
    rw [connected_iff w₁.wired (by rw [hp, around₁])]
    rintro ⟨e, he, ends⟩
    refine none_left e he ?_
    simp only [Edge.endsAt, Edge.touches, Bool.or_eq_true, beq_iff_eq] at ends ⊢
    exact ends.imp (fun h => by rw [h, hp]) fun h => by rw [h, hp]
  refine ⟨⟨lawful₁, keeps w.holds⟩, ?_, tree⟩
  refine ⟨by simp [g₁, around₁], by rw [tree.children, empty], unwired, fun p hp => ?_⟩
  cases hq : g₁.peer? p with
  | none => rfl
  | some q =>
    rcases w₁.linked.faces p q hq with hf | ⟨side, -, -, hf⟩
    · have := (lawful₁.fitted p hf.isSome_terminal?).1 (by simp [hq])
      exact absurd this (unwired p hp)
    · have := (w₁.tree.child _ _).2 hf
      rw [hp, tree.children, empty] at this
      cases this

/-- A node without contents goes, with its wires. -/
theorem removeLeaf_spec (k : KeptByRemoving asked I) {g : Graph} {n : NodeId}
    (why : ∀ g e, e.touches n = true → asked g e) (w : LawfulWith I g)
    (empty : g.children n = []) :
    LawfulWith I (g.removeLeaf n) ∧
      ∀ c, (g.removeLeaf n).around? c = if c = n then none else g.around? c := by
  cases ha : g.around? n with
  | none =>
    rw [g.removeLeaf_of_none ha]
    refine ⟨w, fun c => ?_⟩
    split
    · next h => rw [h, ha]
    · rfl
  | some parent =>
    obtain ⟨w₁, bare, tree⟩ := stripped_spec k why w ha empty
    let g₁ := g.stripped n
    have news := g₁.sameFrame_emit (.nodeRemoved n)
    let g₂ := g₁.emit (.nodeRemoved n)
    have bare₂ : Bare n g₂ :=
      ⟨by rw [news.around]; exact bare.inside, by rw [news.children]; exact bare.empty,
        by rw [news.connected]; exact bare.unwired, by rw [news.peer]; exact bare.alone⟩
    have lawful₂ : g₂.Lawful := news.lawful w₁.lawful
    have x : Removed n g₂ (g₂.detach n parent) :=
      removed g₂ lawful₂.wellFormed.tree.keys (by rw [news.around, tree.around, ha])
    rw [removeLeaf_eq g ha]
    refine ⟨⟨⟨x.wellFormed bare₂ lawful₂.wellFormed,
      x.fitted bare₂ lawful₂.wellFormed lawful₂.fitted⟩, ?_⟩, fun c => ?_⟩
    · exact k.remove _ _ n lawful₂.wellFormed bare₂ x (k.quiet _ _ (quiet_emit _ _) w₁.holds)
    · rw [x.around, news.around, tree.around]

end Leaf

/-! ### The order of removal -/

/-- Each node of the list comes after all that is in it, or finds it done. -/
def BottomUp (g : Graph) : List NodeId → List NodeId → Prop
  | _, [] => True
  | done, n :: l => (∀ c, g.around? c = some n → c ∈ done) ∧ BottomUp g (n :: done) l

section Order
variable {g : Graph}

/-- Where the nodes that are done are gone, the next one is empty. -/
theorem BottomUp.empty {h : Graph} {done l : List NodeId} {n : NodeId} (order : BottomUp g done (n :: l))
    (w : h.Tree) (around : ∀ c, h.around? c = if c ∈ done then none else g.around? c) :
    h.children n = [] := by
  cases hc : h.children n with
  | nil => rfl
  | cons c cs =>
    have inside := (w.child n c).1 (by simp [hc])
    rw [around] at inside
    split at inside
    · cases inside
    · next hd => exact absurd (order.1 c inside) hd

theorem BottomUp.append {done l₁ l₂ : List NodeId} (h₁ : BottomUp g done l₁)
    (h₂ : BottomUp g (l₁.reverse ++ done) l₂) : BottomUp g done (l₁ ++ l₂) := by
  induction l₁ generalizing done with
  | nil => exact h₂
  | cons n l ih =>
    refine ⟨h₁.1, ih h₁.2 ?_⟩
    simpa using h₂

theorem BottomUp.flatMap {f : NodeId → List NodeId} {l : List NodeId}
    (h : ∀ c ∈ l, ∀ done, BottomUp g done (f c)) (done : List NodeId) :
    BottomUp g done (l.flatMap f) := by
  induction l generalizing done with
  | nil => trivial
  | cons c l ih =>
    rw [List.flatMap_cons]
    exact (h c (by simp) done).append (ih (fun d hd => h d (by simp [hd])) _)

theorem below_succ (levels : Nat) (n : NodeId) :
    g.below (levels + 1) n = (g.children n).reverse.flatMap (g.below levels) ++ [n] := by
  rw [below]
  simp only [children, contents?]
  cases (g.node? n).bind Node.inner <;> rfl

theorem mem_below (levels : Nat) (n : NodeId) (h : 0 < levels) : n ∈ g.below levels n := by
  obtain ⟨l, rfl⟩ : ∃ l, levels = l + 1 := ⟨levels - 1, by omega⟩
  simp [below_succ]

theorem bottomUp_below (w : g.Tree) (levels : Nat) (n : NodeId)
    (h : g.nodes.length ≤ g.rank n + levels) (done : List NodeId) :
    BottomUp g done (g.below levels n) := by
  induction levels generalizing n done with
  | zero => trivial
  | succ levels ih =>
    rw [below_succ]
    have deeper (c : NodeId) (hc : g.around? c = some n) : g.nodes.length ≤ g.rank c + levels := by
      have := rank_lt w hc
      omega
    refine BottomUp.append (.flatMap (fun c hc done => ?_) done) ⟨fun c hc => ?_, trivial⟩
    · exact ih c (deeper c ((w.child n c).1 (List.mem_reverse.1 hc))) done
    · have live := rank_lt_length (isSome_type?_of_around? hc)
      have hc' := deeper c hc
      refine List.mem_append_left _ (List.mem_reverse.2 (List.mem_flatMap.2 ⟨c, ?_, ?_⟩))
      · exact List.mem_reverse.2 ((w.child n c).2 hc)
      · exact mem_below levels c (by omega)

end Order

section Tree
variable {asked : Graph → Edge → Prop} {I : Graph → Prop}

theorem foldl_removeLeaf (k : KeptByRemoving asked I) {g h : Graph} {done l : List NodeId}
    (why : ∀ n ∈ l, ∀ g e, e.touches n = true → asked g e) (order : BottomUp g done l)
    (w : LawfulWith I h) (around : ∀ c, h.around? c = if c ∈ done then none else g.around? c) :
    LawfulWith I (l.foldl removeLeaf h) ∧
      ∀ c, (l.foldl removeLeaf h).around? c = if c ∈ l then none else h.around? c := by
  induction l generalizing h done with
  | nil => exact ⟨w, fun c => by simp⟩
  | cons n l ih =>
    have empty := order.empty w.lawful.wellFormed.tree around
    obtain ⟨w', around'⟩ := removeLeaf_spec k (why n List.mem_cons_self) w empty
    obtain ⟨w'', around''⟩ := ih (fun m hm => why m (List.mem_cons_of_mem _ hm)) order.2 w' fun c => by
      rw [around', around]
      by_cases hc : c = n <;> simp [hc]
    refine ⟨w'', fun c => ?_⟩
    rw [List.foldl_cons, around'', around']
    by_cases hc : c = n <;> simp [hc]

/-- A node goes with all that it contains, and nothing else does. -/
theorem removeTree_spec (k : KeptByRemoving asked I) {g : Graph} (w : LawfulWith I g) (n : NodeId)
    (why : ∀ m ∈ g.below g.nodes.length n, ∀ g e, e.touches m = true → asked g e) :
    LawfulWith I (g.removeTree n) ∧
      ∀ c, (g.removeTree n).around? c =
        if c ∈ g.below g.nodes.length n then none else g.around? c :=
  foldl_removeLeaf k why (bottomUp_below w.lawful.wellFormed.tree _ n (by omega) []) w
    fun c => by simp

theorem clear_eq (g : Graph) :
    g.clear = ((g.children g.root).reverse.foldl Graph.removeTree g).emit .cleared := by
  simp only [Graph.clear, children, contents?]
  cases (g.node? g.root).bind Node.inner <;> rfl

theorem removeNode_ok {g h : Graph} {n : NodeId} (ok : g.removeNode n = .ok h) :
    h = g.removeTree n := by
  simp only [Graph.removeNode, bind, Except.bind, throw, throwThe, MonadExceptOf.throw] at ok
  split at ok
  · cases ok
  · split at ok
    · cases ok
    · split at ok
      · cases ok
      · cases ok
        rfl

variable (k : KeptByRemovals I)
include k

theorem LawfulWith.removeTree {g : Graph} (w : LawfulWith I g) (n : NodeId) :
    LawfulWith I (g.removeTree n) :=
  (removeTree_spec (k.removing fun _ _ => True) w n fun _ _ _ _ _ => trivial).1

theorem LawfulWith.removeNode {g h : Graph} (w : LawfulWith I g) {n : NodeId}
    (ok : g.removeNode n = .ok h) : LawfulWith I h := by
  rw [removeNode_ok ok]
  exact w.removeTree k n

theorem LawfulWith.clear {g : Graph} (w : LawfulWith I g) : LawfulWith I g.clear := by
  have removed (l : List NodeId) (h : Graph) (wh : LawfulWith I h) :
      LawfulWith I (l.foldl Graph.removeTree h) := by
    induction l generalizing h with
    | nil => exact wh
    | cons n l ih => exact ih _ (wh.removeTree k n)
  have w' := removed (g.children g.root).reverse g w
  rw [clear_eq]
  exact w'.of_sameFrame (sameFrame_emit _ _) (k.quiet _ _ (quiet_emit _ _) w'.holds)

end Tree
end Dataflow.Graph
