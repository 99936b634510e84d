import Dataflow.Graph.Selection
import Dataflow.Proofs.Arrange
import Dataflow.Proofs.Naming
import Dataflow.Proofs.Remove
import Dataflow.Proofs.Rename
import Dataflow.Proofs.StrictWires
set_option autoImplicit false

/-!
Strict removal, ordering, naming and assignment. Where ports change places, tables tell for each old
place the new one, and no place may be missing from them. Where contents are listed, the levels have
to be enough for them, and where a free name is looked for, one has to be found. Main statements: in
a lawful graph, nothing is missing for any of these.
-/

namespace Dataflow.Graph
namespace Strict

/-! ### Removal -/

def removeLeaf (g : Graph) (n : NodeId) : Option Graph :=
  match g.around? n with
  | some parent => do
    let g ← ((g.wiresAround n).filter (Edge.touches n)).foldlM cut g
    some ((g.emit (.nodeRemoved n)).detach n parent)
  | none => some g

/-- The contents of a node and the node, if they lie within so many levels. -/
def below (g : Graph) : Nat → NodeId → Option (List NodeId)
  | 0, _ => none
  | levels + 1, n => do
    let contents ← (g.children n).reverse.mapM (below g levels)
    some (contents.flatten ++ [n])

def removeTree (g : Graph) (n : NodeId) : Option Graph := do
  (← below g g.nodes.length n).foldlM removeLeaf g

def removeNode (g : Graph) (n : NodeId) : Check Graph := do
  if n = g.root then throw .rootRemoval
  if (← g.node n).parent.isNone then throw .rootRemoval
  removeTree g n

def clear (g : Graph) : Option Graph := do
  let g ← (g.children g.root).reverse.foldlM removeTree g
  some (g.emit .cleared)

section Removal
variable {g : Graph}

theorem foldlM_cut (w : g.Lawful) (l : List Edge) : l.foldlM cut g = some (l.foldl Graph.cut g) :=
  foldlM_eq_some (fun _ g => g.Lawful)
    (fun e _ _ w => ⟨cut_eq w.wellFormed e, lawful_cut w e⟩) l g w

theorem removeLeaf_eq (w : g.Lawful) (n : NodeId) : removeLeaf g n = some (g.removeLeaf n) := by
  rw [removeLeaf]
  cases ha : g.around? n with
  | none => rw [g.removeLeaf_of_none ha]
  | some parent =>
    rw [Graph.removeLeaf_eq g ha, foldlM_cut w]
    rfl

theorem below_eq (w : g.Tree) (levels : Nat) (n : NodeId) (some_level : 0 < levels)
    (h : g.nodes.length ≤ g.rank n + levels) : below g levels n = some (g.below levels n) := by
  induction levels generalizing n with
  | zero => omega
  | succ levels ih =>
    rw [below, below_succ, List.flatMap_def, mapM_eq_some fun c hc => ?deeper]
    · rfl
    case deeper =>
      have hc := (w.child n c).1 (List.mem_reverse.1 hc)
      have step := rank_lt w hc
      have low := rank_lt_length (isSome_type?_of_around? hc)
      exact ih c (by omega) (by omega)

theorem removeTree_eq (w : g.Lawful) (n : NodeId) : removeTree g n = some (g.removeTree n) := by
  have tree := w.wellFormed.tree
  have levels : 0 < g.nodes.length :=
    Nat.zero_lt_of_lt (rank_lt_length (isSome_type?_of_contents? tree.rootNetwork))
  rw [removeTree, below_eq tree _ n levels (by omega)]
  refine foldlM_eq_some (fun l h => ∃ done, BottomUp g done l ∧ LawfulWith (fun _ => True) h ∧
    ∀ c, h.around? c = if c ∈ done then none else g.around? c) ?_ _ g
    ⟨[], bottomUp_below w.wellFormed.tree _ n (by omega) [], ⟨w, trivial⟩, fun c => by simp⟩
  rintro n l h ⟨done, order, w, around⟩
  have empty := order.empty w.lawful.wellFormed.tree around
  obtain ⟨w', around'⟩ := removeLeaf_spec (keptByRemovals_true.removing fun _ _ => True)
    (fun _ _ _ => trivial) w empty
  refine ⟨removeLeaf_eq w.lawful n, n :: done, order.2, w', fun c => ?_⟩
  rw [around', around]
  by_cases hc : c = n <;> simp [hc]

theorem removeNode_eq (w : g.Lawful) (n : NodeId) : removeNode g n = sure (g.removeNode n) := by
  refine sure_ite (fun _ => rfl) fun _ => sure_bind rfl fun _ _ => sure_ite (fun _ => rfl) fun _ => ?_
  rw [removeTree_eq w]
  rfl

theorem clear_eq (w : g.Lawful) : clear g = some g.clear := by
  have all : (g.children g.root).reverse.foldlM removeTree g =
      some ((g.children g.root).reverse.foldl Graph.removeTree g) :=
    foldlM_eq_some (fun _ (h : Graph) => h.Lawful) (fun n _ h w => ⟨removeTree_eq w n,
      (LawfulWith.removeTree keptByRemovals_true ⟨w, trivial⟩ n).lawful⟩) _ g w
  rw [clear, all, Graph.clear_eq]
  rfl

end Removal

/-! ### Order -/

/-- The table of the new places, in which each thing of the order is entered by its old place. -/
def moveTable (order : List Nat) : Option (List Nat) :=
  order.zipIdx.foldlM (fun table x => if x.1 < table.length then some (table.set x.1 x.2) else none)
    (List.replicate order.length 0)

def reorder (l : Layout Slot) (order table : List Nat) : Option (Layout Slot) := do
  let entries ← order.mapM l.get?
  let influences ← l.influences.mapM fun p => do
    let i ← table[p.1]?
    let o ← table[p.2]?
    some (i, o)
  some ⟨entries, influences⟩

def move (n : NodeId) (table : List Nat) (p : Port) : Option Port :=
  if p.node = n then do
    let i ← table[p.index]?
    some ⟨n, i⟩
  else some p

def remap (w : Wiring) (n : NodeId) (table : List Nat) : Option Wiring :=
  w.mapM fun e => do
    let o ← move n table e.output
    let i ← move n table e.input
    some ⟨o, i⟩

def arrangeBoundary (g : Graph) (n : NodeId) (names : List String) : Check Graph := do
  let m ← g.node n
  let order := boundaryOrder (m.ports.entries.map fun s => s.attr.name) names
  if order = List.range order.length then pure g
  else do
    let table ← moveTable order
    let ports ← reorder m.ports order table
    let g := g.modifyNode n fun m => { m with ports := ports }
    let g ← readdress g n 0
    let w ← remap (g.wiresAround n) n table
    let g := g.modifyWiresAround n fun _ => w
    pure (g.emit (.metadataChanged n))

section Table
variable {order : List Nat}

theorem getElem?_foldl_set (l : List Nat) (nodup : l.Nodup) (k : Nat) (table : List Nat)
    (low : ∀ i ∈ l, i < table.length) (i : Nat) :
    ((l.zipIdx k).foldl (fun t x => t.set x.1 x.2) table)[i]? =
      if i ∈ l then some (k + l.idxOf i) else table[i]? := by
  induction l generalizing k table with
  | nil => simp
  | cons a l ih =>
    obtain ⟨new, nodup⟩ := List.nodup_cons.1 nodup
    rw [List.zipIdx_cons, List.foldl_cons, ih nodup]
    · by_cases hi : i = a
      · subst hi
        simp [new, low i (by simp)]
      · have later : (a :: l).idxOf i = l.idxOf i + 1 := by
          simp [List.idxOf_cons, beq_eq_false_iff_ne.2 (Ne.symm hi)]
        simp only [List.mem_cons, hi, false_or, later, List.getElem?_set_ne (Ne.symm hi)]
        congr 2
        omega
    · intro j hj
      rw [List.length_set]
      exact low j (List.mem_cons_of_mem _ hj)

/-- The table has the new place of each thing. -/
theorem moveTable_eq (nodup : order.Nodup) (low : ∀ i ∈ order, i < order.length) :
    ∃ table, moveTable order = some table ∧
      ∀ i ∈ order, table[i]? = some (order.idxOf i) := by
  refine ⟨order.zipIdx.foldl (fun t x => t.set x.1 x.2) (List.replicate order.length 0), ?_,
    fun i hi => ?_⟩
  · refine foldlM_eq_some (fun l t => ∀ x ∈ l, x.1 < t.length) ?_ _ _ fun x hx => ?_
    · intro x l t low
      refine ⟨if_pos (low x (by simp)), fun y hy => ?_⟩
      rw [List.length_set]
      exact low y (List.mem_cons_of_mem _ hy)
    · rw [List.length_replicate]
      exact low x.1 (List.fst_mem_of_mem_zipIdx hx)
  · rw [getElem?_foldl_set order nodup 0 _ (by simpa using low) i, if_pos hi, Nat.zero_add]

theorem reorder_eq {l : Layout Slot} {table : List Nat} (entries : ∀ i ∈ order, i < l.length)
    (influences : ∀ p ∈ l.influences, p.1 ∈ order ∧ p.2 ∈ order)
    (place : ∀ i ∈ order, table[i]? = some (order.idxOf i)) :
    reorder l order table = some (l.reorder order) := by
  have slots : order.mapM l.get? = some (order.filterMap l.get?) :=
    mapM_eq_filterMap fun i hi => by
      simpa [Layout.get?, Layout.length] using entries i hi
  have pairs : (l.influences.mapM fun p => do
      let i ← table[p.1]?
      let o ← table[p.2]?
      some (i, o)) = some (l.influences.map fun p => (order.idxOf p.1, order.idxOf p.2)) := by
    refine mapM_eq_some fun p hp => ?_
    rw [place p.1 (influences p hp).1, place p.2 (influences p hp).2]
    rfl
  rw [reorder, slots, pairs]
  rfl

theorem remap_eq {w : Wiring} {n : NodeId} {table : List Nat} {goes : Nat → Nat}
    (place : ∀ e ∈ w, ∀ p, e.endsAt p = true → p.node = n →
      table[p.index]? = some (goes p.index)) :
    remap w n table = some (w.remap n goes) := by
  have moved (e : Edge) (he : e ∈ w) (p : Port) (hp : e.endsAt p = true) :
      move n table p = some (p.moved n goes) := by
    rw [move, Port.moved]
    split
    · next h =>
      rw [place e he p hp h]
      rfl
    · rfl
  refine mapM_eq_some fun e he => ?_
  rw [moved e he e.output (by simp [Edge.endsAt]), moved e he e.input (by simp [Edge.endsAt])]
  rfl

end Table

section Arrange
variable {g : Graph}

theorem arrangeBoundary_eq (w : g.WellFormed) (n : NodeId) (names : List String) :
    arrangeBoundary g n names = sure (g.arrangeBoundary n names) := by
  refine sure_bind rfl fun m hm => sure_ite (fun _ => rfl) fun _ => ?_
  have hm := node_eq_ok_iff.1 hm
  obtain ⟨mem, length⟩ := places_boundaryOrder w hm names
  have nodup : (boundaryOrder (m.ports.entries.map fun s => s.attr.name) names).Nodup :=
    nodup_boundaryOrder names
  generalize boundaryOrder (m.ports.entries.map fun s => s.attr.name) names = order at *
  obtain ⟨table, made, place⟩ := moveTable_eq nodup fun i hi => by
    rw [length]
    exact (mem i).1 hi
  have inside {p : Port} (hp : g.Live p) (hn : p.node = n) : p.index ∈ order := by
    obtain ⟨m', s, hm', hs, -⟩ := hp.node
    rw [hn, hm, Option.some.injEq] at hm'
    rw [mem, hm']
    exact (List.getElem?_eq_some_iff.1 hs).1
  have sound := w.sound n m.type (by simp [type?, hm])
  have low {i : Nat} {d : Direction}
      (hd : (m.type.ports.get? i).map Attribute.direction = some d) : i ∈ order := by
    have := congrArg Option.isSome hd
    rw [mem]
    simpa [Node.type, Layout.map, Layout.get?, Layout.length] using this
  have ports : reorder m.ports order table = some (m.ports.reorder order) :=
    reorder_eq (fun i hi => (mem i).1 hi)
      (fun p hp => ⟨low (sound.sources p hp), low (sound.targets p hp)⟩) place
  let g₁ := g.modifyNode n fun m => { m with ports := m.ports.reorder order }
  have moved : (g.modifyNode n fun k => { k with ports := m.ports.reorder order }) = g₁ := by
    refine modifyNode_congr fun k hk => ?_
    rw [hm, Option.some.injEq] at hk
    rw [hk]
  have told : readdress g₁ n 0 = some (g₁.readdress n 0) :=
    readdress_eq 0 (live_peer_of_moves w hm (moves_reorder w hm nodup mem length))
  have wires : (g₁.readdress n 0).wiresAround n = g.wiresAround n := by
    have contents : g₁.contents? = g.contents? := contents?_modifyNode g n _ fun _ => rfl
    have around : g₁.around? = g.around? := around?_modifyNode g n _ fun _ => rfl
    rw [wiresAround_readdress, wiresAround_eq, wiresAround_eq, around]
    cases g.around? n with
    | none => rfl
    | some k => simp only [Option.elim_some, Graph.wires, contents]
  have along : remap ((g₁.readdress n 0).wiresAround n) n table =
      some (((g₁.readdress n 0).wiresAround n).remap n order.idxOf) := by
    rw [wires]
    refine remap_eq fun e he p hp hn => place _ (inside (live_of_mem_wiresAround w he hp) hn)
  refine sure_look made (sure_look ports ?_)
  rw [moved]
  have rewired : ((g₁.readdress n 0).modifyWiresAround n fun _ =>
        ((g₁.readdress n 0).wiresAround n).remap n order.idxOf) =
      (g₁.readdress n 0).modifyWiresAround n fun w => w.remap n order.idxOf :=
    modifyWiresAround_congr rfl
  refine sure_look told (sure_look along ?_)
  exact congrArg (fun h : Graph => sure (.ok (h.emit (.metadataChanged n)))) rewired

end Arrange

/-! ### Names -/

/-- Numbers are tried until a name is free. -/
def freeName (g : Graph) (network : NodeId) (name : String) : Check String := do
  if (g.find? network name).isNone then return name
  if g.config.uniqueNames then throw (.duplicateName name)
  let children := (← g.network network).children
  let candidates := (List.range (children.length + 1)).map fun k => numbered name (k + 1)
  (candidates.find? fun c => (g.find? network c).isNone : Option String)

def exposedPort? (g : Graph) (n : NodeId) : Option (Option Port) :=
  match (g.node? n).bind fun m => m.ports.get? 0 with
  | some s => do
    let side ← terminal? g ⟨n, 0⟩
    some (if side.isSome then s.peer else none)
  | none => some none

def renameBoundary (g : Graph) (n : NodeId) (name : String) : Check Graph := do
  let _ ← exposedPort? g n
  g.renameBoundary n name

def rename (g : Graph) (n : NodeId) (name : String) : Check Graph := do
  let m ← g.node n
  match m.parent with
  | none => throw .rootRemoval
  | some parent =>
    if m.name = name then pure g
    else
      let name ← freeName g parent name
      let g ← renameBoundary g n name
      pure (g.modifyNode n fun m => { m with name := name })

section Names
variable {g : Graph}

theorem freeName_eq (n : NodeId) (name : String) : freeName g n name = sure (g.freeName n name) := by
  refine sure_ite (fun _ => rfl) fun found => sure_ite (fun _ => rfl) fun _ =>
    sure_bind rfl fun w hw => ?_
  obtain ⟨k, le, least⟩ := exists_least (taken_of_find? found)
  rw [children_of_network hw] at le
  simp only [find?_numbered least (Nat.le_succ_of_le le)]
  rfl

theorem exposedPort?_eq (n : NodeId) : exposedPort? g n = some (g.exposedPort? n) := by
  have slot : ((g.node? n).bind fun m => m.ports.get? 0) = g.slot? ⟨n, 0⟩ := rfl
  rw [exposedPort?, slot, Graph.exposedPort?]
  cases hs : g.slot? ⟨n, 0⟩ with
  | none =>
    have peer : g.peer? ⟨n, 0⟩ = none := by simp [Graph.peer?, hs]
    simp [peer]
  | some s =>
    have live : g.Live ⟨n, 0⟩ := by simp [Live, hs]
    have peer : g.peer? ⟨n, 0⟩ = s.peer := by simp [Graph.peer?, hs]
    simp only [terminal?_eq live, peer, Option.bind_eq_bind, Option.bind_some]

theorem rename_eq (n : NodeId) (name : String) : rename g n name = sure (g.rename n name) := by
  refine sure_bind rfl fun m _ => ?_
  cases m.parent with
  | none => rfl
  | some parent =>
    refine sure_ite (fun _ => rfl) fun _ => sure_bind (freeName_eq parent name) fun name _ => ?_
    exact sure_bind (sure_look (exposedPort?_eq n) rfl) fun _ _ => rfl

end Names

/-! ### Values and selections -/

def resolved (g : Graph) (p : Port) : Check DataType := do
  match ← effectiveType g p with
  | some t => pure t
  | none => throw (.unconnectedUntypedRead p)

def checkAssign (g : Graph) (p : Port) (v : Value) : Check Slot := do
  let s ← g.slot p
  if s.attr.direction = .output then throw (.invalidDirection p)
  if (g.source? p).isSome then throw (.alreadyConnected p)
  let t ← resolved g p
  if v.portType ≠ some t then throw (.mismatch (some t) v.portType)
  pure s

def replace (g : Graph) (p : Port) (s : Slot) (v : Value) : Option Graph := do
  let g := g.hold p v
  let g ← touch g p (if s.stale then g.setCurrent p else g)
  spread g (← successors g p)

def assign (g : Graph) (p : Port) (v : Value) : Check Graph := do
  let s ← checkAssign g p v
  if !s.stale && s.held.agrees v then pure g else replace g p s v

section Assign
variable {g : Graph} {p : Port}

theorem resolved_eq (w : g.WellFormed) (hp : g.Live p) : resolved g p = sure (g.resolved p) := by
  refine sure_look (effectiveType_eq w hp) ?_
  rw [Graph.resolved]
  cases g.effectiveType p <;> rfl

theorem live_of_slot {s : Slot} (hs : g.slot p = .ok s) : g.Live p := by
  rw [Live, slot_eq_ok_iff.1 hs]
  rfl

theorem checkAssign_eq (w : g.WellFormed) (p : Port) (v : Value) :
    checkAssign g p v = sure (g.checkAssign p v) := by
  refine sure_bind rfl fun s hs => sure_ite (fun _ => rfl) fun _ => sure_ite (fun _ => rfl) fun _ => ?_
  exact sure_bind (resolved_eq w (live_of_slot hs)) fun _ _ => sure_ite (fun _ => rfl) fun _ => rfl

theorem replace_eq (w : g.WellFormed) (hp : g.Live p) (s : Slot) (v : Value) :
    replace g p s v = some (g.replace p s v) := by
  let g₁ := g.hold p v
  let g₂ := if s.stale then g₁.setCurrent p else g₁
  have frame₁ : SameFrame g g₁ := g.sameFrame_hold p v
  have frame₂ : SameFrame g g₂ := by
    by_cases hs : s.stale
    · simp only [g₂, if_pos hs]
      exact frame₁.trans (g₁.sameFrame_setCurrent p)
    · simp only [g₂, if_neg hs]
      exact frame₁
  have w₂ := frame₂.wellFormed w
  have live₁ : g₁.Live p := by rwa [frame₁.live]
  have live₂ : g₂.Live p := by rwa [frame₂.live]
  have touched : touch g₁ p g₂ = some g₂ := touch_eq live₁ g₂
  have onward : spread g₂ (g₂.successors p) = some (g₂.spread (g₂.successors p)) :=
    spread_eq w₂ fun q => live_of_mem_successors w₂
  change touch g₁ p g₂ >>= (fun g => successors g p >>= spread g) = _
  rw [touched, Option.bind_eq_bind, Option.bind_some, successors_eq live₂]
  exact onward

theorem assign_eq (w : g.WellFormed) (p : Port) (v : Value) : assign g p v = sure (g.assign p v) := by
  refine sure_bind (checkAssign_eq w p v) fun s ok => sure_ite (fun _ => rfl) fun _ => ?_
  have live : g.Live p := by
    rw [Live, slot_of_checkAssign ok]
    rfl
  rw [replace_eq w live]
  rfl

end Assign

end Strict
end Dataflow.Graph
