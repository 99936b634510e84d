import Dataflow.Proofs.Listening
import Dataflow.Proofs.Selected
set_option autoImplicit false

/-!
What is left of an operation that stops on an error. Loading and the removal of a selection take many
steps, and none of them is taken back. Main statement: the nodes are as they were before just when the
very first step was refused, in a removal when nothing that is asked for was there before the root came.
-/

namespace Dataflow.Graph
open Edit

/-! ### Loading -/

/-- How much there is. -/
def bulk (g : Graph) : Nat := g.nodes.keys.length + g.strands.card

theorem Minor.bulk {g h : Graph} (a : Minor g h) : h.bulk = g.bulk := by
  rw [Graph.bulk, Graph.bulk, a.keys, a.strands]

theorem bulk_of_nodes {g h : Graph} (nodes : h.nodes = g.nodes) : h.bulk = g.bulk := by
  simp only [bulk, strands, nodes]

section Grow
variable {g h : Graph}

theorem bulk_insert {id parent : NodeId} {t : NodeType} {name : String} {values : Datablock}
    (v : Value) (a : Insertable id parent t name values g) :
    (g.insert id parent t name values v).bulk = g.bulk + 1 := by
  rw [bulk, bulk, (inserted g v a).keys, strands_insert v a.fresh, List.length_append]
  simp only [List.length_singleton]
  omega

theorem bulk_drawWire (w : g.WellFormed) {n : NodeId} {e : Edge} (d : Drawable n e g) :
    (g.drawWire e).bulk = g.bulk + 1 := by
  rw [bulk, bulk, keys_drawWire w d, strands_drawWire w.tree d, Multiset.card_cons]
  omega

theorem growing : Building fun g h => g.Lawful → h.Lawful ∧ g.bulk ≤ h.bulk :=
  building_of_lawful ⟨fun _ => Nat.le_refl _, fun a b => Nat.le_trans a b⟩
    (fun g h a => by
      obtain ⟨ids, rfl⟩ := a
      exact (bulk_of_nodes rfl).ge)
    (fun _ _ _ _ _ _ v _ a => by rw [bulk_insert v a]; exact Nat.le_succ _)
    (fun _ _ _ w d => by rw [bulk_drawWire w.wellFormed d]; exact Nat.le_succ _)
    (fun _ _ _ _ ok => (minor_arrangeBoundary _ ok).bulk.ge)
    fun _ _ _ _ ok => (minor_assign ok).bulk.ge

/-- The edit stops on an error. -/
def Refuses {α : Type} (x : Edit α) (g : Graph) : Prop := ∃ e, (x.apply g).1 = .error e

/-- If it is refused, the edit spends at most a number, and otherwise there is more than before, also
where it stops on an error later on. -/
structure Opens {α : Type} (refused : Graph → Prop) (x : Edit α) : Prop where
  halts : ∀ g, refused g → ∃ e h, x.apply g = (.error e, h) ∧ SpentId g h
  grows : ∀ g, g.Lawful → ¬ refused g → (x.apply g).2.Lawful ∧ g.bulk < (x.apply g).2.bulk

/-- What comes after the first step does not take it back. -/
theorem Opens.bind {α β : Type} {refused : Graph → Prop} {x : Edit α} {f : α → Edit β}
    (first : Opens refused x)
    (rest : ∀ a, Leads (fun g h => g.Lawful → h.Lawful ∧ g.bulk ≤ h.bulk) (f a)) :
    Opens refused (x >>= f) where
  halts g bad := by
    obtain ⟨e, h, eq, spent⟩ := first.halts g bad
    exact ⟨e, h, by rw [apply_bind, eq], spent⟩
  grows g w good := by
    obtain ⟨w', more⟩ := first.grows g w good
    rw [apply_bind]
    cases (x.apply g).1 with
    | error e => exact ⟨w', more⟩
    | ok a =>
      obtain ⟨w'', most⟩ := rest a _ w'
      exact ⟨w'', Nat.lt_of_lt_of_le more most⟩

section Load
variable {r : Registry} (sound : ∀ name t, r.find? name = some t → t.Sound)
include sound

theorem opens_loadHead (n : NodeId) (name : String) (d : NodeDocument) :
    Opens (Refuses (loadHead r n name d)) (loadHead r n name d) where
  halts g bad := by
    obtain ⟨e, he⟩ := bad
    rcases loadHead_apply sound n name d g with ⟨x, h, eq, spent⟩ | ⟨t, id, v, name', h, -, -, -, -, eq⟩
    · exact ⟨x, h, eq, spent⟩
    · rw [eq] at he
      cases he
  grows g w good := by
    rcases loadHead_apply sound n name d g with
      ⟨x, h, eq, -⟩ | ⟨t, id, v, name', h, -, -, ⟨ids, rfl⟩, a, eq⟩
    · exact absurd ⟨x, by rw [eq]⟩ good
    · rw [eq]
      have w' : ({ g with ids := ids } : Graph).Lawful := SpentId.sameFrame ⟨ids, rfl⟩ |>.lawful w
      refine ⟨(inserted _ _ a).lawful a w'.wellFormed w'.fitted, ?_⟩
      rw [bulk_insert _ a]
      exact Nat.lt_succ_of_le (bulk_of_nodes rfl).ge

omit sound in
theorem opens_loadConnection (n : NodeId) (c : ConnectionDocument) :
    Opens (Refuses (loadConnection n c)) (loadConnection n c) where
  halts g bad := by
    obtain ⟨e, he⟩ := bad
    rw [loadConnection, apply_step] at he ⊢
    split at he
    · cases he
    · exact ⟨_, g, rfl, g.ids, rfl⟩
  grows g w good := by
    rcases eq : (loadConnection n c).apply g with ⟨x | u, h⟩
    · exact absurd ⟨x, by rw [eq]⟩ good
    · obtain ⟨e, -, -, ok⟩ := connect_of_loadConnection eq
      obtain ⟨m, d, rfl⟩ := drawable_of_connect ok
      have w' : LawfulWith (fun _ => True) g := ⟨w, trivial⟩
      refine ⟨(w'.draw (J := fun _ => True) d trivial).lawful, ?_⟩
      simp only
      rw [bulk_drawWire w.wellFormed d]
      exact Nat.lt_succ_self _

omit sound in
/-- The first step of loading is refused: the first node, without nodes the first wire. -/
def FirstRefused (r : Registry) (n : NodeId) (d : NetworkDocument) (g : Graph) : Prop :=
  match d.nodes, d.connections with
  | (name, x) :: _, _ => Refuses (loadHead r n name x) g
  | [], c :: _ => Refuses (loadConnection n c) g
  | [], [] => True

theorem opens_loadInto (n : NodeId) (d : NetworkDocument)
    (work : d.nodes ≠ [] ∨ d.connections ≠ []) :
    Opens (FirstRefused r n d) (loadInto r n d) := by
  obtain ⟨nodes, connections, boundary⟩ := d
  rw [loadInto_eq]
  cases nodes with
  | cons x rest =>
    obtain ⟨name, d⟩ := x
    simp only [loadNodes, loadNode_eq, bind_assoc, pure_bind]
    refine (opens_loadHead sound n name d).bind fun new => ?_
    refine leads_bind growing.toSteps (leads_loadContents growing sound new.1 new.2 d.network) fun _ => ?_
    refine leads_bind growing.toSteps (leads_loadNodes growing sound n rest) fun loaded => ?_
    exact leads_bind growing.toSteps (leads_loadConnections growing.toFinishing n connections) fun _ =>
      leads_finish growing.toFinishing n boundary _
  | nil =>
    cases connections with
    | nil => simp at work
    | cons c cs =>
      simp only [loadNodes, pure_bind, List.forM_eq_forM, List.forM_cons, bind_assoc]
      refine (opens_loadConnection n c).bind fun _ => ?_
      exact leads_bind growing.toSteps (leads_loadConnections growing.toFinishing n cs) fun _ =>
        leads_finish growing.toFinishing n boundary _

theorem unchanged_loadInto_iff {g : Graph} (w : g.Lawful) (n : NodeId) (d : NetworkDocument)
    (halted : Refuses (loadInto r n d) g) :
    ((loadInto r n d).apply g).2.nodes = g.nodes ↔ FirstRefused r n d g := by
  by_cases work : d.nodes ≠ [] ∨ d.connections ≠ []
  · have opens := opens_loadInto sound n d work
    constructor
    · intro same
      by_contra good
      exact absurd (bulk_of_nodes same) (opens.grows g w good).2.ne'
    · intro bad
      obtain ⟨e, h, eq, ids, rfl⟩ := opens.halts g bad
      rw [eq]
  · obtain ⟨nodes, connections, boundary⟩ := d
    simp only [not_or, not_not] at work
    obtain ⟨rfl, rfl⟩ := work
    refine iff_of_true ?_ trivial
    obtain ⟨e, he⟩ := halted
    have eq : loadInto r n ⟨[], [], boundary⟩ = (do
        Edit.step (·.arrangeBoundary n boundary)
        loadTables []) := by
      simp [loadInto_eq, loadNodes]
    rw [eq, apply_bind, apply_step] at he ⊢
    cases ok : g.arrangeBoundary n boundary with
    | error x => rfl
    | ok h =>
      rw [ok] at he
      cases he

end Load
end Grow

/-! ### Removal of a selection -/

section Remove
variable {g : Graph}

/-- Removing what is not there does nothing. -/
theorem foldl_removeTree_of_absent {l : List NodeId} (absent : ∀ n ∈ l, g.node? n = none) :
    l.foldl removeTree g = g := by
  have alone (n : NodeId) (hn : g.node? n = none) : g.removeTree n = g := by
    have children : g.children n = [] := by simp [Graph.children, contents?, hn]
    have outside : g.around? n = none := by simp [around?, hn]
    rw [removeTree]
    cases g.nodes.length with
    | zero => rfl
    | succ levels => simp [below_succ, children, removeLeaf_of_none g outside]
  induction l with
  | nil => rfl
  | cons n l ih =>
    rw [List.foldl_cons, alone n (absent n List.mem_cons_self)]
    exact ih fun m hm => absent m (List.mem_cons_of_mem _ hm)

/-- Cutting wires that are not there does nothing, and a wire that is there does not come back. -/
theorem nodes_foldl_cut_eq_iff (w : g.Lawful) (l : List Edge) :
    ((l.foldl cut g).nodes = g.nodes ↔ ∀ e ∈ l, ¬ g.Feeds e.output e.input) ∧
      ((∀ e ∈ l, ¬ g.Feeds e.output e.input) → l.foldl cut g = g) := by
  have idle {l : List Edge} (absent : ∀ e ∈ l, ¬ g.Feeds e.output e.input) : l.foldl cut g = g := by
    induction l with
    | nil => rfl
    | cons e l ih =>
      rw [List.foldl_cons, cut_of_not_mem w.wellFormed e (absent e List.mem_cons_self)]
      exact ih fun d hd => absent d (List.mem_cons_of_mem _ hd)
  refine ⟨⟨fun same => ?_, fun absent => by rw [idle absent]⟩, idle⟩
  induction l with
  | nil => exact fun e he => nomatch he
  | cons e l ih =>
    by_cases he : g.Feeds e.output e.input
    · obtain ⟨n, mem⟩ := he
      have less : (g.cut e).strands.card < g.strands.card := card_strands_cut_lt w.wellFormed mem
      obtain ⟨es, -, -, rest⟩ := (Lessened.foldl lessened_cut l (g.cut e)).told
      have card : ((e :: l).foldl cut g).strands.card = g.strands.card := by simp only [strands, same]
      have fewer := congrArg Multiset.card rest
      rw [Multiset.card_add] at fewer
      rw [List.foldl_cons] at card
      omega
    · rw [List.foldl_cons, cut_of_not_mem w.wellFormed e he] at same
      exact List.forall_mem_cons.2 ⟨he, ih same⟩

/-- Nodes are removed in their order until the root comes, which is refused. -/
theorem removeSelected_apply (w : LawfulWith Acyclic g) (s : Selection) :
    (removeSelected s).apply g =
      (if g.root ∈ s.nodes then .error .rootRemoval else .ok (),
        (s.nodes.takeWhile (· ≠ g.root)).foldl removeTree (s.edges.foldl cut g)) := by
  let pass (n : NodeId) : Edit Unit :=
    Edit.step fun g => if (g.node? n).isSome then g.removeNode n else .ok g
  have root {h : Graph} (w : h.Tree) : (pass h.root).apply h = (.error .rootRemoval, h) := by
    have known : (h.node? h.root).isSome := by
      have typed := isSome_type?_of_contents? w.rootNetwork
      simpa [type?] using typed
    simp [pass, apply_step, known, removeNode, bind, Except.bind, throw, throwThe, MonadExceptOf.throw]
  have other {h : Graph} (w : h.Tree) {n : NodeId} (hn : n ≠ h.root) :
      (pass n).apply h = (.ok (), h.removeTree n) := by
    cases hm : h.node? n with
    | none =>
      have same : h.removeTree n = h := foldl_removeTree_of_absent (l := [n]) (by simp [hm])
      simp [pass, apply_step, hm, same]
    | some m =>
      obtain ⟨p, hp⟩ : ∃ p, m.parent = some p := by
        refine Option.ne_none_iff_exists'.1 fun none => hn (w.orphan n (by simp [type?, hm]) ?_)
        simp [around?, hm, none]
      simp [pass, apply_step, hm, removeNode, hn, node, hp, bind, Except.bind, throw, throwThe,
        MonadExceptOf.throw]
  have passes (l : List NodeId) (h : Graph) (w : LawfulWith Acyclic h) : (l.forM pass).apply h =
      (if h.root ∈ l then .error .rootRemoval else .ok (),
        (l.takeWhile (· ≠ h.root)).foldl removeTree h) := by
    induction l generalizing h with
    | nil => rfl
    | cons n l ih =>
      have tree := w.lawful.wellFormed.tree
      change (pass n >>= fun _ => l.forM pass).apply h = _
      by_cases hn : n = h.root
      · subst hn
        rw [apply_bind, root tree]
        simp
      · have kept : (h.removeTree n).root = h.root := (reported_removeTree w n).root
        have rest := ih _ (w.removeTree keptByEdits_acyclic.toKeptByRemovals n)
        rw [apply_bind_ok (other tree hn), rest, kept]
        simp [hn, Ne.symm hn]
  rw [removeSelected, apply_bind_ok (apply_change _ g), passes _ _ (acyclic_foldl_cut w s.edges),
    (Lessened.foldl lessened_cut s.edges g).root]

theorem unchanged_removeSelected_iff (w : LawfulWith Acyclic g) (s : Selection) :
    (Refuses (removeSelected s) g ↔ g.root ∈ s.nodes) ∧
      (((removeSelected s).apply g).2.nodes = g.nodes ↔
        (∀ e ∈ s.edges, ¬ g.Feeds e.output e.input) ∧
          ∀ n ∈ s.nodes.takeWhile (· ≠ g.root), g.node? n = none) := by
  rw [Refuses, removeSelected_apply w s]
  refine ⟨by split <;> simp [*], ?_⟩
  simp only
  have cuts := acyclic_foldl_cut w s.edges
  obtain ⟨-, -, gone⟩ := foldl_removeTree_spec cuts (s.nodes.takeWhile (· ≠ g.root))
  obtain ⟨uncut, idle⟩ := nodes_foldl_cut_eq_iff w.lawful s.edges
  constructor
  · intro same
    have absent : ∀ n ∈ s.nodes.takeWhile (· ≠ g.root), g.node? n = none := by
      intro n hn
      by_contra known
      have live : (g.type? n).isSome := by
        simpa [type?] using Option.isSome_iff_ne_none.2 known
      have ne : n ≠ g.root := by
        simpa using List.all_eq_true.1 List.all_takeWhile n hn
      obtain ⟨p, hp⟩ := Option.ne_none_iff_exists'.1 fun none => ne (w.lawful.wellFormed.tree.orphan n live none)
      refine (gone n p ?_).1 hn
      rw [← hp]
      simp only [around?, node?, same]
    have still : ∀ n ∈ s.nodes.takeWhile (· ≠ g.root), (s.edges.foldl cut g).node? n = none := by
      intro n hn
      have known := (sameTree_foldl_cut w.lawful s.edges).isSome_type n
      simpa [type?, absent n hn] using known
    rw [foldl_removeTree_of_absent still] at same
    exact ⟨uncut.1 same, absent⟩
  · rintro ⟨unwired, absent⟩
    rw [idle unwired, foldl_removeTree_of_absent absent]

end Remove

/-- Where loading stops on an error, the nodes with their ports, values and wires are as they were just
when the first step was refused. The removal of a selection stops on an error just when the root is
selected, and then all is as it was just when none of the selected wires was there and none of the nodes
that were selected before the root. -/
theorem halted_unchanged_iff {g : Graph} (run : Grown g) :
    (∀ (r : Registry) n d, (∀ name t, r.find? name = some t → t.Sound) → Refuses (loadInto r n d) g →
      (((loadInto r n d).apply g).2.nodes = g.nodes ↔ FirstRefused r n d g)) ∧
    ∀ s, (Refuses (removeSelected s) g ↔ g.root ∈ s.nodes) ∧
      (Refuses (removeSelected s) g → (((removeSelected s).apply g).2.nodes = g.nodes ↔
        (∀ e ∈ s.edges, ¬ g.Feeds e.output e.input) ∧
          ∀ n ∈ s.nodes.takeWhile (· ≠ g.root), g.node? n = none)) := by
  have w := acyclic_of_grown run
  refine ⟨fun r n d sound halted => unchanged_loadInto_iff sound w.lawful n d halted, fun s => ?_⟩
  obtain ⟨refuses, unchanged⟩ := unchanged_removeSelected_iff w s
  exact ⟨refuses, fun _ => unchanged⟩

/-- A document with a relay and a node of a type that is not known. -/
def halfKnown : NetworkDocument :=
  ⟨[("b", ⟨"relay", none, [], none, none⟩), ("c", ⟨"lost", none, [], none, none⟩)], [], []⟩

/-- The first node of the document stays, and a relay that is selected before the root goes. -/
theorem oneRelay_changed :
    ((loadInto relayRegistry ⟨1⟩ halfKnown).apply oneRelay).2.nodes ≠ oneRelay.nodes ∧
      ((removeSelected ⟨[⟨2⟩, ⟨1⟩], []⟩).apply oneRelay).2.nodes ≠ oneRelay.nodes := by
  have run : Grown oneRelay := .step (.start ..) sound_relay
  constructor
  · intro same
    obtain ⟨e, he⟩ := ((halted_unchanged_iff run).1 _ _ halfKnown sound_relayRegistry
      ⟨.unknownNodeType "lost", by cbv⟩).1 same
    have first : ((loadHead relayRegistry ⟨1⟩ "b" ⟨"relay", none, [], none, none⟩).apply
        oneRelay).1 = .ok (relay, ⟨3⟩) := by cbv
    rw [first] at he
    cases he
  · intro same
    obtain ⟨refuses, unchanged⟩ := (halted_unchanged_iff run).2 ⟨[⟨2⟩, ⟨1⟩], []⟩
    have absent := ((unchanged (refuses.2 (by decide))).1 same).2 ⟨2⟩ (by decide)
    have live : (oneRelay.node? ⟨2⟩).isSome := by cbv
    rw [absent] at live
    cases live

end Dataflow.Graph
