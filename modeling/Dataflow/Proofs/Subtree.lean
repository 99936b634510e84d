import Dataflow.Proofs.Selected
set_option autoImplicit false

/-!
Removing a node with all that is nested in it. The removal goes down through the networks, contents
before their network, and checks every node on its way. Main statement: in every graph of a run no
check fails, exactly the nodes of the subtree go, the others stay in their order, and a wire between
two of these goes only with a terminal behind one of its ends; and nothing but an empty root is left
after all children of the root are removed.
-/

namespace Dataflow.Graph

/-! ### Removal with its checks -/

/-- Takes a node from its network, with its wires, if that network is still there. -/
def detachChecked (n parent : NodeId) : Edit Unit := do
  Edit.change fun g => (g.stripped n).emit (.nodeRemoved n)
  let _ ← Edit.look (·.network parent)
  Edit.change (·.detach n parent)

/-- Removes a node, its contents first, down to `levels` levels. Stops at a node that is not there,
has no network around it, or has lost that network by the time its contents are gone. -/
def removeWithin : Nat → NodeId → Edit Unit
  | 0, n => throw (.nodeNotFound n)
  | levels + 1, n => do
    if n = (← get).root then throw .rootRemoval
    let m ← Edit.look (·.node n)
    match m.parent with
    | none => throw .rootRemoval
    | some parent =>
      (m.inner.elim [] Network.children).reverse.forM (removeWithin levels)
      detachChecked n parent

/-- Networks stand in one another no deeper than there are nodes. -/
def removeChecked (n : NodeId) : Edit Unit := do removeWithin (← get).nodes.length n

/-- Removes the children of the root one after the other. -/
def clearChecked : Edit Unit := do
  let g ← get
  (g.children g.root).reverse.forM removeChecked
  Edit.change (·.emit .cleared)

/-! ### What is nested in what -/

section Inside
variable {g : Graph} (w : g.Tree)
include w

/-- Networks came before what is nested in them. -/
theorem rank_le_of_inside {n m : NodeId} (inside : g.Inside n m) : g.rank m ≤ g.rank n := by
  induction inside with
  | refl => exact Nat.le_refl _
  | tail _ around ih => exact (Nat.le_of_lt (rank_lt w around)).trans ih

/-- No node is nested in two nodes of one network. -/
theorem inside_sibling {c d n m : NodeId} (hc : g.around? c = some n) (hd : g.around? d = some n)
    (inC : g.Inside m c) (inD : g.Inside m d) : c = d := by
  have apart {c d : NodeId} (hc : g.around? c = some n) (hd : g.around? d = some n)
      (inside : g.Inside c d) : c = d := by
    rcases Relation.ReflTransGen.cases_head_iff.1 inside with same | ⟨p, hp, above⟩
    · exact same
    · obtain rfl := Option.some.inj (hp.symm.trans hc)
      have := rank_le_of_inside w above
      have := rank_lt w hd
      omega
  have unique : Relator.RightUnique fun n m => g.around? n = some m := fun _ _ _ h k =>
    Option.some.inj (h.symm.trans k)
  rcases Relation.ReflTransGen.total_of_right_unique unique inC inD with down | down
  · exact apart hc hd down
  · exact (apart hd hc down).symm

end Inside

/-! ### What is left -/

theorem isSome_node?_eq (g : Graph) (n : NodeId) : (g.node? n).isSome = (g.type? n).isSome := by
  simp [type?]

/-- The nodes that are left stand in their networks under their names and in their order. -/
structure Thinned (g h : Graph) : Prop where
  root : h.root = g.root
  place : ∀ n, (h.node? n).isSome → h.around? n = g.around? n ∧ h.name? n = g.name? n
  children : ∀ n, (h.node? n).isSome →
    h.children n = (g.children n).filter fun c => (h.node? c).isSome

theorem thinned_refl {g : Graph} (w : g.Tree) : Thinned g g := by
  refine ⟨rfl, fun _ _ => ⟨rfl, rfl⟩, fun n _ => (List.filter_eq_self.2 fun c hc => ?_).symm⟩
  rw [isSome_node?_eq]
  exact isSome_type?_of_around? ((w.child n c).1 hc)

theorem Thinned.of_sameTree {g h k : Graph} (x : Thinned g h) (a : SameTree h k) : Thinned g k := by
  have live : (fun c => (k.node? c).isSome) = fun c => (h.node? c).isSome := by
    funext c
    rw [isSome_node?_eq, isSome_node?_eq, a.isSome_type]
  refine ⟨a.root.trans x.root, fun n hn => ?_, fun n hn => ?_⟩
  · rw [a.around, a.name]
    exact x.place n (by rwa [← congrFun live n])
  · rw [a.children, live]
    exact x.children n (by rwa [← congrFun live n])

theorem Thinned.remove {g h k : Graph} {n : NodeId} (x : Thinned g h) (w : h.Tree)
    (r : Removed n h k) : Thinned g k := by
  have live (c : NodeId) : (k.node? c).isSome = (decide (c ≠ n) && (h.node? c).isSome) := by
    rw [isSome_node?_eq, isSome_node?_eq, r.type]
    by_cases hc : c = n <;> simp [hc]
  refine ⟨r.root.trans x.root, fun m hm => ?_, fun m hm => ?_⟩ <;>
    simp only [live, Bool.and_eq_true, decide_eq_true_eq] at hm
  · rw [r.around, r.name, if_neg hm.1, if_neg hm.1]
    exact x.place m hm.2
  rw [funext live, ← List.filter_filter, ← x.children m hm.2, r.children m hm.1]
  split
  · simp [(w.nodup m).erase_eq_filter, bne, beq_eq_decide]
  · next elsewhere =>
    refine (List.filter_eq_self.2 fun c hc => decide_eq_true ?_).symm
    rintro rfl
    exact elsewhere ((w.child m c).1 hc)

theorem keptByRemovals_thinned (g : Graph) : KeptByRemovals (Thinned g) where
  quiet _ _ a x := x.of_sameTree (.of_sameFrame a.frame)
  sever _ _ _ w he x := x.of_sameTree (sameTree_sever w he)
  drop _ _ _ w hb _ hc _ x := x.of_sameTree (sameTree_dropPort w hb hc)
  remove _ _ _ w _ r x := x.remove w.tree r

/-! ### No check fails -/

section Checks
variable {g h : Graph}

theorem detachChecked_apply (w : g.Lawful) {n parent : NodeId} (around : g.around? n = some parent) :
    (detachChecked n parent).apply g = (.ok (), g.removeLeaf n) := by
  have tree : SameTree g (g.stripped n) := sameTree_foldl_cut w _
  have there : (((g.stripped n).emit (.nodeRemoved n)).contents? parent).isSome := by
    rw [(sameFrame_emit _ _).contents, tree.network]
    exact isSome_contents?_of_around? w.wellFormed.tree around
  obtain ⟨v, hv⟩ := Option.isSome_iff_exists.1 there
  rw [detachChecked, Edit.apply_bind_ok (Edit.apply_change _ _),
    Edit.apply_bind_ok (Edit.apply_look_ok (network_eq_ok_iff.2 hv)), Edit.apply_change,
    removeLeaf_eq g around]

/-- A node that is found where it is expected goes on with its contents. -/
theorem removeWithin_succ {levels : Nat} {n parent : NodeId} (apart : n ≠ g.root)
    (around : g.around? n = some parent) : (removeWithin (levels + 1) n).apply g =
      ((g.children n).reverse.forM (removeWithin levels) >>= fun _ => detachChecked n parent).apply
        g := by
  obtain ⟨m, hm, parent_m⟩ := exists_node?_of_around? around
  have contents : m.inner.elim [] Network.children = g.children n := by
    rw [children, contents?, hm]
    rfl
  rw [removeWithin, Edit.apply_bind_ok (Edit.apply_get g), if_neg apart,
    Edit.apply_bind_ok (Edit.apply_look_ok (node_eq_ok_iff.2 hm)), parent_m, contents]

/-- What is left of a graph after the subtrees of some nodes of one network are gone. -/
theorem foldl_below (tree : g.Tree) {levels : Nat} {n : NodeId} {l done : List NodeId}
    (sub : ∀ c ∈ l, g.around? c = some n) (enough : g.nodes.length ≤ g.rank n + (levels + 1))
    (w : LawfulWith (Thinned g) h)
    (around : ∀ c, h.around? c = if c ∈ done then none else g.around? c) :
    LawfulWith (Thinned g) ((l.flatMap (g.below levels)).foldl removeLeaf h) ∧
      ∀ c, ((l.flatMap (g.below levels)).foldl removeLeaf h).around? c =
        if c ∈ l.flatMap (g.below levels) then none else h.around? c := by
  refine foldl_removeLeaf ((keptByRemovals_thinned g).removing fun _ _ => True)
    (fun _ _ _ _ _ => trivial) (.flatMap (fun c hc done => ?_) done) w around
  have := rank_lt tree (sub c hc)
  exact bottomUp_below tree levels c (by omega) done

theorem mem_below_child (tree : g.Tree) {levels : Nat} {n c : NodeId} (hc : g.around? c = some n)
    (enough : g.nodes.length ≤ g.rank n + (levels + 1)) (d : NodeId) :
    d ∈ g.below levels c ↔ g.Inside d c := by
  have later := rank_lt tree hc
  have last := rank_lt_length (isSome_type?_of_around? hc)
  exact mem_below_iff tree levels c d (by omega) (by omega)

/-- `h` is what is left of `g` without the nodes in `done`, which are not nested in `n`. -/
structure Sparing (g : Graph) (done : List NodeId) (n : NodeId) (h : Graph) : Prop where
  lawful : LawfulWith (Thinned g) h
  around : ∀ c, h.around? c = if c ∈ done then none else g.around? c
  whole : ∀ c ∈ done, ¬ g.Inside c n

namespace Sparing
variable {n : NodeId} {done : List NodeId} (s : Sparing g done n h)
include s

theorem around_inside {c p : NodeId} (hc : g.Inside c n) (hp : g.around? c = some p) :
    h.around? c = some p := by
  rw [s.around, if_neg fun hd => s.whole c hd hc, hp]

theorem children (tree : g.Tree) {parent : NodeId} (inside : g.around? n = some parent) :
    h.children n = g.children n := by
  have live : (h.node? n).isSome := by
    rw [isSome_node?_eq]
    exact isSome_type?_of_around? (s.around_inside .refl inside)
  rw [s.lawful.holds.children n live]
  refine List.filter_eq_self.2 fun c hc => ?_
  have around_c := (tree.child n c).1 hc
  rw [isSome_node?_eq]
  exact isSome_type?_of_around? (s.around_inside (.single around_c) around_c)

/-- After the subtrees of some children, that of another child is still there. -/
theorem next (tree : g.Tree) {levels : Nat} (enough : g.nodes.length ≤ g.rank n + (levels + 1))
    {first rest : List NodeId} {c : NodeId} (eq : (g.children n).reverse = first ++ c :: rest) :
    Sparing g (first.flatMap (g.below levels) ++ done) c
      ((first.flatMap (g.below levels)).foldl removeLeaf h) := by
  have sibling {d : NodeId} (hd : d ∈ first ++ c :: rest) : g.around? d = some n :=
    (tree.child n d).1 (List.mem_reverse.1 (eq ▸ hd))
  have around_c := sibling (d := c) (by simp)
  have distinct : c ∉ first := by
    have nodup := List.nodup_reverse.2 (tree.nodup n)
    rw [eq, List.nodup_append'] at nodup
    exact fun hc => nodup.2.2 hc (by simp)
  obtain ⟨lawful, around⟩ := foldl_below tree (l := first)
    (fun d hd => sibling (List.mem_append_left _ hd)) enough s.lawful s.around
  refine ⟨lawful, fun d => ?_, fun d hd inner => ?_⟩
  · rw [around, s.around]
    by_cases hd : d ∈ first.flatMap (g.below levels) <;> simp [hd]
  · rcases List.mem_append.1 hd with hd | hd
    · obtain ⟨e, he, hd⟩ := List.mem_flatMap.1 hd
      have around_e := sibling (List.mem_append_left _ he)
      have inside := (mem_below_child tree around_e enough d).1 hd
      exact distinct (inside_sibling tree around_c around_e inner inside ▸ he)
    · exact s.whole d hd (inner.tail around_c)

end Sparing

/-- In what is left of `g`, a node is removed with all that is nested in it, if that is there. -/
theorem removeWithin_apply (tree : g.Tree) {levels : Nat} {n parent : NodeId}
    (inside : g.around? n = some parent) (enough : g.nodes.length ≤ g.rank n + levels)
    {done : List NodeId} (s : Sparing g done n h) :
    (removeWithin levels n).apply h = (.ok (), (g.below levels n).foldl removeLeaf h) := by
  induction levels generalizing n parent h done with
  | zero =>
    have := rank_lt_length (isSome_type?_of_around? inside)
    omega
  | succ levels ih =>
    have apart : n ≠ h.root := by
      rintro rfl
      have := s.around_inside .refl inside
      rw [s.lawful.lawful.wellFormed.tree.root] at this
      cases this
    have child {c : NodeId} (hc : c ∈ (g.children n).reverse) : g.around? c = some n :=
      (tree.child n c).1 (List.mem_reverse.1 hc)
    -- what is left once the subtrees of the first children are gone
    let Rest (rest : List NodeId) (k : Graph) : Prop := ∃ first,
      (g.children n).reverse = first ++ rest ∧ k = (first.flatMap (g.below levels)).foldl removeLeaf h
    have pass (c : NodeId) (rest : List NodeId) (k : Graph) (hk : Rest (c :: rest) k) :
        ∃ k', (removeWithin levels c).apply k = (.ok (), k') ∧ Rest rest k' := by
      obtain ⟨first, eq, rfl⟩ := hk
      have around_c : g.around? c = some n := child (by simp [eq])
      have := rank_lt tree around_c
      exact ⟨_, ih around_c (by omega) (s.next tree enough eq), first ++ [c], by simp [eq], by simp⟩
    obtain ⟨k, ok, first, eq, rfl⟩ :=
      Edit.forM_ok (removeWithin levels) Rest pass (g.children n).reverse h ⟨[], rfl, rfl⟩
    rw [List.append_nil] at eq
    subst eq
    obtain ⟨w', around'⟩ := foldl_below tree (fun c hc => child hc) enough s.lawful s.around
    have left : n ∉ (g.children n).reverse.flatMap (g.below levels) := by
      intro hn
      obtain ⟨c, hc, hn⟩ := List.mem_flatMap.1 hn
      have := rank_le_of_inside tree ((mem_below_child tree (child hc) enough n).1 hn)
      have := rank_lt tree (child hc)
      omega
    rw [removeWithin_succ apart (s.around_inside .refl inside), s.children tree inside,
      Edit.apply_bind_ok ok,
      detachChecked_apply w'.lawful (by rw [around', if_neg left, s.around_inside .refl inside]),
      below_succ, List.foldl_append]
    rfl

theorem removeChecked_apply (w : g.Lawful) {n parent : NodeId} (inside : g.around? n = some parent) :
    (removeChecked n).apply g = (.ok (), g.removeTree n) := by
  have tree := w.wellFormed.tree
  have all (c : NodeId) : g.around? c = if c ∈ ([] : List NodeId) then none else g.around? c := by simp
  rw [removeChecked, Edit.apply_bind_ok (Edit.apply_get g)]
  exact removeWithin_apply tree inside (Nat.le_add_left _ _) ⟨⟨w, thinned_refl tree⟩, all, by simp⟩

theorem removeNode_of_around? {n parent : NodeId} (w : g.Tree) (inside : g.around? n = some parent) :
    g.removeNode n = .ok (g.removeTree n) := by
  obtain ⟨m, hm, parent_m⟩ := exists_node?_of_around? inside
  have apart : n ≠ g.root := by
    rintro rfl
    rw [w.root] at inside
    cases inside
  simp [removeNode, apart, node, hm, parent_m, bind, Except.bind]

end Checks

/-! ### What goes -/

section Gone
variable {g : Graph} (w : g.Lawful)
include w

theorem mem_subtree_iff (n c : NodeId) : c ∈ g.below g.nodes.length n ↔ g.Inside c n := by
  have tree := w.wellFormed.tree
  have some_node : 0 < g.nodes.length :=
    Nat.zero_lt_of_lt (rank_lt_length (isSome_type?_of_contents? tree.rootNetwork))
  exact mem_below_iff tree _ n c some_node (Nat.le_add_left _ _)

/-- What is kept by the cuts of wires in the subtree is kept, and exactly the subtree goes. -/
theorem removeTree_pruned {I : Graph → Prop} {asked : Graph → Edge → Prop}
    (k : KeptByRemoving asked I) (holds : I g) {n : NodeId}
    (why : ∀ m, g.Inside m n → ∀ g e, e.touches m = true → asked g e) :
    LawfulWith I (g.removeTree n) ∧ Pruned g [n] (g.removeTree n) := by
  obtain ⟨w', around⟩ := removeTree_spec k ⟨w, holds⟩ n fun m hm => why m ((mem_subtree_iff w n m).1 hm)
  refine ⟨w', fun m hm c inside => ?_, fun c out => ?_⟩
  · obtain rfl := List.mem_singleton.1 hm
    rw [around, if_pos ((mem_subtree_iff w m c).2 inside)]
  · rw [around, if_neg fun hc => out n (by simp) ((mem_subtree_iff w n c).1 hc)]

/-- The nodes are removed one after the other, each with all that is nested in it. -/
theorem foldl_removeTree (l : List NodeId) :
    LawfulWith (Thinned g) (l.foldl removeTree g) ∧ Pruned g l (l.foldl removeTree g) := by
  induction l using List.reverseRecOn with
  | nil => exact ⟨⟨w, thinned_refl w.wellFormed.tree⟩, by simp, fun _ _ => rfl⟩
  | append_singleton l n ih =>
    obtain ⟨wh, x⟩ := ih
    rw [List.foldl_append]
    obtain ⟨wk, y⟩ := removeTree_pruned wh.lawful
      ((keptByRemovals_thinned g).removing fun _ _ => True) wh.holds (fun _ _ _ _ _ => trivial)
    exact ⟨wk, x.remove (y.gone n (by simp)) fun c out => y.kept c (by simpa using out)⟩

/-- The children of the root are removed one after the other, and each is still there when its turn
comes. -/
theorem clearChecked_apply : clearChecked.apply g = (.ok (), g.clear) := by
  have tree := w.wellFormed.tree
  let Rest (rest : List NodeId) (k : Graph) : Prop := ∃ first,
    (g.children g.root).reverse = first ++ rest ∧ k = first.foldl removeTree g
  have pass (c : NodeId) (rest : List NodeId) (k : Graph) (hk : Rest (c :: rest) k) :
      ∃ k', (removeChecked c).apply k = (.ok (), k') ∧ Rest rest k' := by
    obtain ⟨first, eq, rfl⟩ := hk
    obtain ⟨wk, x⟩ := foldl_removeTree w first
    have child {d : NodeId} (hd : d ∈ first ++ c :: rest) : g.around? d = some g.root :=
      (tree.child _ d).1 (List.mem_reverse.1 (eq ▸ hd))
    have around_c := child (d := c) (by simp)
    have nodup := List.nodup_reverse.2 (tree.nodup g.root)
    rw [eq, List.nodup_append'] at nodup
    have still := x.kept c fun d hd inside => by
      have same := inside_sibling tree around_c (child (List.mem_append_left _ hd)) .refl inside
      exact nodup.2.2 (same ▸ hd) (by simp)
    exact ⟨_, removeChecked_apply wk.lawful (still.trans around_c), first ++ [c], by simp [eq],
      by simp⟩
  obtain ⟨k, ok, first, eq, rfl⟩ :=
    Edit.forM_ok removeChecked Rest pass (g.children g.root).reverse g ⟨[], rfl, rfl⟩
  rw [List.append_nil] at eq
  rw [clearChecked, Edit.apply_bind_ok (Edit.apply_get g), Edit.apply_bind_ok ok, Edit.apply_change,
    clear_eq, eq]

/-- Every node is nested in a child of the root, but for the root. -/
theorem node?_clear (m : NodeId) : (g.clear.node? m).isSome ↔ m = g.root := by
  have tree := w.wellFormed.tree
  obtain ⟨wk, x⟩ := foldl_removeTree w (g.children g.root).reverse
  have apart : g.root ∉ (g.children g.root).reverse := fun hr => by
    have := (tree.child _ _).1 (List.mem_reverse.1 hr)
    rw [tree.root] at this
    cases this
  rw [clear_eq, isSome_node?_eq, (sameFrame_emit _ _).type, ← isSome_node?_eq,
    x.isSome_node?_iff tree wk.lawful.wellFormed.tree wk.holds.root apart]
  constructor
  · rintro ⟨live, out⟩
    rw [isSome_node?_eq] at live
    rcases Relation.ReflTransGen.cases_tail_iff _ _ _ |>.1 (inside_root tree m live) with
      rfl | ⟨c, inside, around⟩
    · rfl
    · exact absurd inside (out c (List.mem_reverse.2 ((tree.child _ c).2 around)))
  · rintro rfl
    refine ⟨isSome_node?_eq g _ ▸ isSome_type?_of_contents? tree.rootNetwork, fun c hc inside => ?_⟩
    rcases Relation.ReflTransGen.cases_head_iff.1 inside with rfl | ⟨p, hp, -⟩
    · exact apart hc
    · rw [tree.root] at hp
      cases hp

/-- An empty root without ports is left. -/
theorem bare_clear (run : StandardRun g) : g.clear.root = g.root ∧ g.clear.children g.root = [] ∧
    g.clear.wires g.root = [] ∧ ∀ i, g.clear.attr? ⟨g.root, i⟩ = none := by
  have next : StandardRun g.clear := .step (o := .clear) run trivial
  obtain ⟨wh, standard⟩ := standard_of_run next
  have wf := wh.wellFormed
  have root : g.clear.root = g.root := by
    rw [clear_eq]
    exact (foldl_removeTree w (g.children g.root).reverse).1.holds.root
  have childless (c : NodeId) : g.clear.around? c ≠ some g.root := by
    intro hc
    have live := isSome_type?_of_around? hc
    rw [← isSome_node?_eq, node?_clear w] at live
    rw [live, ← root, wf.tree.root] at hc
    cases hc
  refine ⟨root, ?_, ?_, fun i => ?_⟩
  · exact List.eq_nil_iff_forall_not_mem.2 fun c hc => childless c ((wf.tree.child _ c).1 hc)
  · exact List.eq_nil_iff_forall_not_mem.2 fun e he => childless _ (wf.wired.outputAround _ e he)
  · have network : (g.clear.contents? g.root).isSome := root ▸ wf.tree.rootNetwork
    by_contra here
    obtain ⟨t, ht⟩ := Option.isSome_iff_exists.1
      (standard.projected ⟨g.root, i⟩ network (Option.isSome_iff_ne_none.2 here))
    obtain ⟨-, -, -, around⟩ := faces_of_contents? wf ht network
    exact childless t.node around

end Gone

/-- A wire that was not asked for stays with the terminals behind its ends. -/
theorem Trimmed.survives_iff {g h : Graph} {gone : Edge → Prop} (x : Trimmed g gone h) (w : h.Lawful)
    {e : Edge} (he : g.Feeds e.output e.input) (spared : ¬ gone e) :
    Survives g h e ↔ Upheld g h e := by
  refine ⟨fun there => there.upheld x w, fun upheld => ?_⟩
  rcases x.lost e he with there | asked | ⟨b, t, ends, hosts, bare⟩
  · exact there
  · exact absurd asked spared
  · exact absurd (upheld b t ends hosts) bare

/-- A node can always be removed, with every check on the way, and it goes with what is nested in it
and nothing else. The nodes that are left are where they were, in their order, and of the wires between
them those go of which an end stands for a terminal that has no wire any more. Everything can be
removed at once as well, and then the root is left without contents and ports. -/
theorem removal_exact {g : Graph} (run : StandardRun g) :
    (∀ n, (g.node? n).isSome → n ≠ g.root →
      ∃ h, g.removeNode n = .ok h ∧ (removeChecked n).apply g = (.ok (), h) ∧
        (∀ m, (h.node? m).isSome ↔ (g.node? m).isSome ∧ ¬ g.Inside m n) ∧
        (∀ m, (h.node? m).isSome → h.around? m = g.around? m ∧ h.name? m = g.name? m ∧
          h.children m = (g.children m).filter fun c => (h.node? c).isSome) ∧
        (∀ d, h.Feeds d.output d.input → ∃ e, g.Feeds e.output e.input ∧ Kin g h e d) ∧
        ∀ e, g.Feeds e.output e.input → (h.node? e.output.node).isSome →
          (h.node? e.input.node).isSome → (Survives g h e ↔ Upheld g h e)) ∧
    clearChecked.apply g = (.ok (), g.clear) ∧ g.clear.root = g.root ∧
      (∀ m, (g.clear.node? m).isSome ↔ m = g.root) ∧ g.clear.children g.root = [] ∧
      g.clear.wires g.root = [] ∧ ∀ i, g.clear.attr? ⟨g.root, i⟩ = none := by
  have w := (standard_of_run run).lawful
  have wf := w.wellFormed
  obtain ⟨root, contents, wires, ports⟩ := bare_clear w run
  refine ⟨fun n live apart => ?_, clearChecked_apply w, root, node?_clear w, contents, wires, ports⟩
  obtain ⟨p, inside⟩ := Option.isSome_iff_exists.1
    (((isSome_node?_iff wf.tree n).1 live).resolve_left apart)
  let gone (e : Edge) : Prop := ∃ m, g.Inside m n ∧ e.touches m = true
  -- a wire that is asked for is one at a node of the subtree
  have asked : KeptByRemoving (fun _ e => gone e) fun h => h.WellFormed ∧ Trimmed g gone h := by
    refine keptByRemoving_trimmed wf fun h e d struck _ same => ?_
    obtain ⟨m, inside, touches⟩ := struck
    refine ⟨m, inside, ?_⟩
    simpa only [Edge.touches, same.1.node, same.2.node] using touches
  obtain ⟨wh, pruned⟩ := removeTree_pruned w asked ⟨wf, trimmed_refl wf⟩ (n := n)
    fun m inside _ _ touches => ⟨m, inside, touches⟩
  have trimmed := wh.holds.2
  obtain ⟨⟨-, thinned⟩, -⟩ := removeTree_pruned w ((keptByRemovals_thinned g).removing fun _ _ => True)
    (thinned_refl wf.tree) (n := n) fun _ _ _ _ _ => trivial
  have nodes (m : NodeId) : ((g.removeTree n).node? m).isSome ↔
      (g.node? m).isSome ∧ ¬ g.Inside m n := by
    rw [pruned.isSome_node?_iff wf.tree wh.lawful.wellFormed.tree thinned.root (by simpa using Ne.symm apart)]
    simp
  refine ⟨g.removeTree n, removeNode_of_around? wf.tree inside, removeChecked_apply w inside, nodes,
    fun m there => ⟨(thinned.place m there).1, (thinned.place m there).2, thinned.children m there⟩,
    trimmed.feeds, fun e he output input => trimmed.survives_iff wh.lawful he ?_⟩
  rintro ⟨m, inside, touches⟩
  simp only [Edge.touches, Bool.or_eq_true, beq_iff_eq] at touches
  rcases touches with rfl | rfl
  · exact ((nodes _).1 output).2 inside
  · exact ((nodes _).1 input).2 inside

theorem standardRun_fedTwin : StandardRun fedTwin := by
  have relay := NodeType.Standard.of_name sound_relay (by decide) (by decide) (by decide)
  exact .step (.step (.step (.step (.step standardRun_inputRelay NodeType.standard_networkInput) relay)
    trivial) relay) trivial

theorem fedTwin_without : fedTwin.root = ⟨1⟩ ∧
    ((fedTwin.removeTree ⟨4⟩).node? ⟨7⟩).isSome ∧ ((fedTwin.removeTree ⟨4⟩).node? ⟨2⟩).isSome ∧
      (fedTwin.removeTree ⟨4⟩).wires ⟨2⟩ = [⟨⟨⟨5⟩, 0⟩, ⟨⟨6⟩, 0⟩⟩] := by
  cbv

/-- Without the first relay the first port of the network goes, and the outer wire stays at the other
one, which has become the first. -/
theorem fedTwin_removed : (fedTwin.node? ⟨4⟩).isSome ∧
    ∃ h, fedTwin.removeNode ⟨4⟩ = .ok h ∧ ¬ (h.node? ⟨4⟩).isSome ∧ Survives fedTwin h fedTwin.outer := by
  have there : (fedTwin.node? ⟨4⟩).isSome := by cbv
  obtain ⟨root, source, network, inner⟩ := fedTwin_without
  obtain ⟨-, around₁, -, peers⟩ := fedTwin_shape
  simp only [Prod.mk.injEq] at peers
  have fed : fedTwin.Feeds fedTwin.outer.output fedTwin.outer.input := ⟨⟨1⟩, by simp [around₁]⟩
  obtain ⟨h, ok, -, nodes, -, -, wires⟩ :=
    (removal_exact standardRun_fedTwin).1 ⟨4⟩ there (by rw [root]; decide)
  obtain rfl := removeNode_ok ok
  refine ⟨there, _, ok, fun left => ((nodes ⟨4⟩).1 left).2 .refl, ?_⟩
  refine (wires fedTwin.outer fed source network).2 fun b t ends hosts => ?_
  simp only [Edge.endsAt, Bool.or_eq_true, beq_iff_eq] at ends
  rcases ends with rfl | rfl
  · exact absurd (peers.1.symm.trans hosts.1) (by simp)
  · obtain rfl : ⟨⟨5⟩, 0⟩ = t := Option.some.inj (peers.2.symm.trans hosts.1)
    exact ⟨⟨⟨6⟩, 0⟩, .inl ⟨⟨2⟩, by simp [inner]⟩⟩

end Dataflow.Graph
