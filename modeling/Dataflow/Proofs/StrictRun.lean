import Dataflow.Proofs.Arena
import Dataflow.Proofs.Saved
import Dataflow.Proofs.StrictReads
set_option autoImplicit false

/-!
Strict operations. Main statement: in every graph of a run, every operation with whatever arguments
comes to the result or error, and to the graph, to which it comes where nothing is looked up
strictly. No place that is taken for granted is ever missing.
-/

namespace Dataflow

/-- What can be asked about a port. -/
structure PortView where
  attr : Attribute
  /-- The type that the wiring gives to it. -/
  type : PortType
  held : Value
  stale : Bool

def Graph.view (g : Graph) (p : Port) : Except Error PortView := do
  let s ← g.slot p
  pure ⟨s.attr, g.effectiveType p, s.held, s.stale⟩

namespace Graph
namespace Strict
open StrictEdit

/-! ### Loading -/

def addNode (parent : NodeId) (t : NodeType) (name : String) (options : NodeExtras) :
    StrictEdit NodeId := do
  let _ ← plain (Edit.look (·.network parent))
  let name ← look fun g => freeName g parent name
  plain do
    let id ← numberFor options
    place parent t name options id

def loadConnection (network : NodeId) (c : ConnectionDocument) : StrictEdit Unit :=
  step fun g => do
    let o ← g.childNamed network c.outNode
    let i ← g.childNamed network c.inNode
    let output ← g.port o c.outPort
    let input ← g.port i c.inPort
    connect g output input

def loadValue (n : NodeId) (name : String) (v : Json) : StrictEdit Unit :=
  step fun g => do
    let p ← g.port n name
    let t ← resolved g p
    let v ← PortType.decode (some t) v
    assign g p v

def loadHead (reg : Registry) (network : NodeId) (name : String) (d : NodeDocument) :
    StrictEdit (NodeType × NodeId) := do
  let t ← plain (Edit.look fun _ => reg.get d.typeName)
  let attachment ← plain (Edit.look fun _ => readAttachment reg d.attachment)
  let id ← plain (keptId d.id)
  let id ← addNode network t name ⟨id, attachment, none⟩
  pure (t, id)

mutual
def loadNode (r : Registry) (network : NodeId) (name : String) : NodeDocument → StrictEdit NodeId
  | ⟨typeName, id, ports, attachment, inner⟩ => do
    let new ← loadHead r network name ⟨typeName, id, ports, attachment, inner⟩
    loadContents r new.1 new.2 inner
    pure new.2

def loadContents (r : Registry) (t : NodeType) (id : NodeId) :
    Option (NetworkOf NodeDocument) → StrictEdit Unit
  | none => pure ()
  | some d => if t.name = NodeType.network.name then loadInto r id d else throw (.notANetwork id)

def loadNodes (r : Registry) (network : NodeId) :
    List (String × NodeDocument) → StrictEdit (List (NodeId × NodeDocument))
  | [] => pure []
  | (name, d) :: rest => do
    let id ← loadNode r network name d
    let ids ← loadNodes r network rest
    pure ((id, d) :: ids)

def loadInto (r : Registry) (network : NodeId) : NetworkOf NodeDocument → StrictEdit Unit
  | ⟨nodes, connections, boundary⟩ => do
    let loaded ← loadNodes r network nodes
    connections.forM (loadConnection network)
    step fun g => arrangeBoundary g network boundary
    loaded.forM fun n => n.2.ports.forM fun p => loadValue n.1 p.1 p.2
end

def rebuild (config : Config) (r : Registry) (d : NetworkDocument) : StrictEdit Graph := do
  plain (passOverIds d)
  let old ← get
  let fresh := create config old.ids old.marks old.calls
  match ← find fun _ => (loadInto r fresh.root d).apply fresh with
  | (.ok (), new) => pure new
  | (.error e, new) => do
    plain (set { old with ids := new.ids })
    throw e

def restore (r : Registry) (d : NetworkDocument) : StrictEdit Unit := do
  let new ← rebuild (← get).config r d
  let journal := (← get).journal
  plain (set ({ new with journal := journal }.emit .cleared))

/-- Every step of loading leaves a lawful graph. -/
theorem building_lawful : Building fun g h => g.Lawful → h.Lawful ∧ True :=
  building_of_lawful (R := fun _ _ => True) ⟨fun _ => trivial, fun _ _ => trivial⟩
    (fun _ _ _ => trivial) (fun _ _ _ _ _ _ _ _ _ => trivial) (fun _ _ _ _ _ => trivial)
    (fun _ _ _ _ _ => trivial) fun _ _ _ _ _ => trivial

theorem keeps_lawful {α : Type} {x : Edit α}
    (h : Edit.Leads (fun g h => g.Lawful → h.Lawful ∧ True) x) : Edit.Keeps Graph.Lawful x :=
  fun g w => (h g w).1

theorem tallies_addNode {t : NodeType} (sound : t.Sound) (parent : NodeId) (name : String)
    (options : NodeExtras) :
    Tallies Graph.Lawful (addNode parent t name options) (Graph.addNode parent t name options) := by
  refine fun g w => ⟨?_, keeps_lawful (leads_addNode building_lawful parent t name options sound) g w⟩
  rw [addNode_eq]
  refine apply_bind_eq rfl fun _ h _ => apply_bind_eq ?_ fun _ _ _ => rfl
  exact (tallies_look (P := fun _ => True) (fun g _ => freeName_eq parent name) h trivial).1

theorem tallies_loadConnection (n : NodeId) (c : ConnectionDocument) :
    Tallies Graph.Lawful (loadConnection n c) (Graph.loadConnection n c) := by
  refine tallies_step (fun g w => ?_) (keeps_loadConnection n c fun g e h w _ _ ok => ?_)
  · refine sure_bind rfl fun o _ => sure_bind rfl fun i _ => ?_
    exact sure_bind rfl fun _ _ => sure_bind rfl fun _ _ => connect_eq w.wellFormed _ _
  · exact (building_lawful.connect _ _ _ _ ok w).1

theorem live_of_port {g : Graph} {n : NodeId} {name : String} {p : Port}
    (h : g.port n name = .ok p) : g.Live p := by
  simp only [port, bind, Except.bind] at h
  cases hm : g.node n with
  | error e => simp [hm] at h
  | ok m =>
    simp only [hm] at h
    cases hi : m.type.indexOf? name with
    | none => simp [hi] at h
    | some i =>
      simp only [hi, Except.ok.injEq] at h
      subst h
      obtain ⟨low, -⟩ := List.findIdx?_eq_some_iff_getElem.1 hi
      have low : i < m.ports.entries.length := by simpa [Node.type, Layout.map] using low
      simp [Live, slot?, node_eq_ok_iff.1 hm, Layout.get?, List.getElem?_eq_getElem low]

theorem tallies_loadValue (n : NodeId) (name : String) (j : Json) :
    Tallies Graph.Lawful (loadValue n name j) (Graph.loadValue n name j) := by
  refine tallies_step (fun g w => ?_) (keeps_loadValue n name j fun g p v h w _ ok => ?_)
  · refine sure_bind rfl fun p hp => ?_
    refine sure_bind (resolved_eq w.wellFormed (live_of_port hp)) fun t _ => ?_
    exact sure_bind rfl fun v _ => assign_eq w.wellFormed p v
  · exact (building_lawful.assign _ _ _ _ ok w).1

section Load
variable {r : Registry}

theorem tallies_loadHead (sound : ∀ name t, r.find? name = some t → t.Sound) (n : NodeId) (name : String) (d : NodeDocument) :
    Tallies Graph.Lawful (loadHead r n name d) (Graph.loadHead r n name d) := by
  refine tallies_checked_bind fun t _ _ ht => tallies_checked_bind fun attachment _ _ _ => ?_
  have kept : Edit.Keeps Graph.Lawful (keptId d.id) := by
    intro g w
    cases d.id with
    | none => exact w
    | some x => exact SameFrame.lawful (SpentId.sameFrame ⟨_, rfl⟩) w
  refine (tallies_plain kept).bind fun id => ?_
  exact (tallies_addNode (sound _ t (Registry.find?_of_get ht)) n name _).bind fun _ => tallies_pure _

mutual
theorem tallies_loadNode (sound : ∀ name t, r.find? name = some t → t.Sound)
    (n : NodeId) (name : String) (d : NodeDocument) :
    Tallies Graph.Lawful (loadNode r n name d) (Graph.loadNode r n name d) := by
  match d with
  | ⟨typeName, id, ports, attachment, inner⟩ =>
    rw [loadNode_eq, loadNode]
    refine (tallies_loadHead sound n name _).bind fun new => ?_
    exact (tallies_loadContents sound new.1 new.2 inner).bind fun _ => tallies_pure _

theorem tallies_loadContents (sound : ∀ name t, r.find? name = some t → t.Sound)
    (t : NodeType) (c : NodeId) (inner : Option (NetworkOf NodeDocument)) :
    Tallies Graph.Lawful (loadContents r t c inner) (Graph.loadContents r t c inner) := by
  match inner with
  | none => exact tallies_pure _
  | some d =>
    rw [loadContents, Graph.loadContents]
    exact tallies_ite (fun _ => tallies_loadInto sound c d) fun _ => tallies_throw _

theorem tallies_loadNodes (sound : ∀ name t, r.find? name = some t → t.Sound)
    (n : NodeId) (l : List (String × NodeDocument)) :
    Tallies Graph.Lawful (loadNodes r n l) (Graph.loadNodes r n l) := by
  match l with
  | [] => exact tallies_pure _
  | (name, d) :: rest =>
    rw [loadNodes, Graph.loadNodes]
    refine (tallies_loadNode sound n name d).bind fun c => ?_
    exact (tallies_loadNodes sound n rest).bind fun _ => tallies_pure _

theorem tallies_loadInto (sound : ∀ name t, r.find? name = some t → t.Sound)
    (n : NodeId) (d : NetworkOf NodeDocument) :
    Tallies Graph.Lawful (loadInto r n d) (Graph.loadInto r n d) := by
  match d with
  | ⟨nodes, connections, boundary⟩ =>
    rw [loadInto_eq, loadInto]
    refine (tallies_loadNodes sound n nodes).bind fun loaded => ?_
    refine (tallies_forM _ fun c _ => tallies_loadConnection n c).bind fun _ => ?_
    have order : Edit.Keeps Graph.Lawful (Edit.step (·.arrangeBoundary n boundary)) :=
      Edit.keeps_step fun g h w ok => lawful_arrange w boundary ok
    refine (tallies_step (fun g w => arrangeBoundary_eq w.wellFormed n boundary) order).bind fun _ => ?_
    exact tallies_forM _ fun x _ => tallies_forM _ fun p _ => tallies_loadValue x.1 p.1 p.2
end

theorem tallies_rebuild (sound : ∀ name t, r.find? name = some t → t.Sound) (config : Config)
    (d : NetworkDocument) :
    Tallies Graph.Lawful (rebuild config r d) (Graph.rebuild config r d) := by
  have passed : Edit.Keeps Graph.Lawful (passOverIds d) := fun g w =>
    (spent_passOverIds d g).sameFrame.lawful w
  refine (tallies_plain passed).bind fun _ => tallies_get_bind fun old w => ?_
  have lawful := lawful_create config old.ids old.marks old.calls
  obtain ⟨loaded, -⟩ := tallies_loadInto sound _ d _ lawful
  refine tallies_found_bind loaded ?_
  dsimp only
  rcases (Graph.loadInto r _ d).apply (create config old.ids old.marks old.calls) with ⟨e | u, new⟩
  · have spent : Edit.Keeps Graph.Lawful (set { old with ids := new.ids }) := fun _ _ =>
      SameFrame.lawful (SpentId.sameFrame ⟨_, rfl⟩) w
    exact (tallies_plain spent).bind fun _ => tallies_throw e
  · exact tallies_pure new

theorem restore_eq {g : Graph} (w : g.Lawful) (sound : ∀ name t, r.find? name = some t → t.Sound)
    (d : NetworkDocument) : (restore r d).apply g = some ((Graph.restore r d).apply g) := by
  refine apply_bind_eq rfl fun h h' eq => ?_
  cases eq
  exact apply_bind_eq (tallies_rebuild sound g.config d g w).1 fun _ _ _ => rfl

end Load

/-! ### Saving and asking -/

def isKept (g : Graph) (p : Port) (s : Slot) : Option Bool := do
  let t ← effectiveType g p
  some (s.attr.direction == .input && s.attr.serializable && t.isSome && (g.source? p).isNone &&
    !s.held.isNull)

def keptPorts (g : Graph) (n : NodeId) (m : Node) : Option (Table String Json) := do
  let entries ← m.ports.entries.zipIdx.mapM fun s => do
    let kept ← isKept g ⟨n, s.2⟩ s.1
    some (if kept then some (s.1.attr.name, s.1.held.toJson) else none)
  some (entries.filterMap id)

def saveNode (g : Graph) (inner : NodeId → Check NetworkDocument) (c : NodeId) :
    Check (String × NodeDocument) := do
  let m ← g.node c
  let inner ← match m.inner with
    | some _ => some <$> inner c
    | none => pure none
  let ports ← keptPorts g c m
  pure (m.name, ⟨m.typeName, some c.raw, ports, keptAttachment m, inner⟩)

def saveWithin (g : Graph) : Nat → NodeId → Check NetworkDocument
  | 0, _ => liftM (none : Option NetworkDocument)
  | levels + 1, n => do
    let w ← g.network n
    let nodes ← w.children.mapM (saveNode g (saveWithin g levels))
    let connections ← w.wires.mapM fun e => (g.connectionDocument e : Check ConnectionDocument)
    let m ← g.node n
    pure ⟨nodes, connections, m.ports.entries.map fun s => s.attr.name⟩

def documentOfNetwork (g : Graph) (n : NodeId) : Check NetworkDocument :=
  saveWithin g (g.nodes.length + 1) n

/-- The port is checked once, and looked up again for what it holds. -/
def view (g : Graph) (p : Port) : Check PortView := do
  let s ← g.slot p
  let type ← effectiveType g p
  let now ← g.slot? p
  pure ⟨s.attr, type, now.held, now.stale⟩

section Save
variable {g : Graph} (w : g.WellFormed)
include w

theorem isKept_eq {p : Port} (hp : g.Live p) (s : Slot) : isKept g p s = some (g.isKept p s) := by
  rw [isKept, effectiveType_eq w hp]
  rfl

theorem keptPorts_eq {n : NodeId} {m : Node} (hm : g.node? n = some m) :
    keptPorts g n m = some (g.keptPorts n m) := by
  have entry (s : Slot × Nat) (hs : s ∈ m.ports.entries.zipIdx) :
      (do let kept ← isKept g ⟨n, s.2⟩ s.1
          some (if kept then some (s.1.attr.name, s.1.held.toJson) else none)) =
        some (if g.isKept ⟨n, s.2⟩ s.1 then some (s.1.attr.name, s.1.held.toJson) else none) := by
    have live : g.Live ⟨n, s.2⟩ := by
      have := List.mem_zipIdx_iff_getElem?.1 hs
      simp [Live, slot?, hm, Layout.get?, this]
    rw [isKept_eq w live]
    rfl
  rw [keptPorts, mapM_eq_some entry]
  simp [Graph.keptPorts, List.filterMap_map]

theorem saveNode_eq {levels : Nat} {c : NodeId} {inner : NodeId → Check NetworkDocument}
    (h : (g.contents? c).isSome → inner c = sure (g.saveWithin levels c)) :
    saveNode g inner c = sure (g.saveNode levels c) := by
  refine sure_bind rfl fun m hm => ?_
  have hm := node_eq_ok_iff.1 hm
  cases hi : m.inner with
  | none => exact sure_look (keptPorts_eq w hm) rfl
  | some x =>
    have saved : some <$> inner c = sure ((g.saveWithin levels c).map some) := by
      rw [h (by simp [contents?, hm, hi])]
      cases g.saveWithin levels c <;> rfl
    refine sure_bind saved fun inner _ => ?_
    exact sure_look (keptPorts_eq w hm) rfl

theorem saveWithin_eq (levels : Nat) (n : NodeId) (some_level : 0 < levels)
    (h : g.nodes.length ≤ g.rank n + levels) : saveWithin g levels n = sure (g.saveWithin levels n) := by
  induction levels generalizing n with
  | zero => omega
  | succ levels ih =>
    refine sure_bind rfl fun x hx => sure_bind (sure_mapM fun c hc => ?node) fun nodes _ => ?_
    case node =>
      refine saveNode_eq w fun _ => ?_
      have hc := (w.tree.child n c).1 (by rwa [children_of_network hx])
      have step := rank_lt w.tree hc
      have low := rank_lt_length (isSome_type?_of_around? hc)
      exact ih c (by omega) (by omega)
    exact sure_bind (sure_mapM fun _ _ => rfl) fun _ _ => sure_bind rfl fun _ _ => rfl

theorem documentOfNetwork_eq (n : NodeId) :
    documentOfNetwork g n = sure (g.documentOfNetwork n) :=
  saveWithin_eq w _ n (Nat.succ_pos _) (by omega)

theorem view_eq (p : Port) : view g p = sure (g.view p) := by
  refine sure_bind rfl fun s hs => sure_look (effectiveType_eq w (live_of_slot hs)) ?_
  exact sure_look (slot_eq_ok_iff.1 hs) rfl

end Save

/-! ### All operations -/

def removeSelected (s : Selection) : StrictEdit Unit := do
  change fun g => s.edges.foldlM cut g
  s.nodes.forM fun n => step fun g => if (g.node? n).isSome then removeNode g n else pure g

theorem removeSelected_eq {g : Graph} (w : g.Lawful) (s : Selection) :
    (removeSelected s).apply g = some ((Graph.removeSelected s).apply g) := by
  let lawful : Graph → Prop := LawfulWith fun _ => True
  have cuts : Tallies lawful (change fun g => s.edges.foldlM cut g)
      (Edit.change fun g => s.edges.foldl Graph.cut g) := by
    refine tallies_change (fun g w => foldlM_cut w.lawful _) fun g w => ?_
    refine List.foldlRecOn s.edges Graph.cut w fun g w e _ => ?_
    exact w.cut (keptByRemovals_true.toKeptByCuts.cutting fun _ _ => True) trivial
  have removals : Tallies lawful
      (s.nodes.forM fun n => step fun g =>
        if (g.node? n).isSome then removeNode g n else pure g)
      (s.nodes.forM fun n => Edit.step fun g =>
        if (g.node? n).isSome then g.removeNode n else .ok g) := by
    refine tallies_forM _ fun n _ => tallies_step (fun g w => ?_) (Edit.keeps_step fun g h w ok => ?_)
    · exact sure_ite (fun _ => removeNode_eq w.lawful n) fun _ => rfl
    · split at ok
      · exact w.removeNode keptByRemovals_true ok
      · cases ok
        exact w
  exact (cuts.bind fun _ => removals) g ⟨w, trivial⟩ |>.1

/-- What the operation does if all is looked up strictly that is taken for granted. -/
def edit : Action → StrictEdit Unit
  | .addNode parent t name options => do let _ ← addNode parent t name options
  | .addNetwork parent name => do let _ ← addNode parent .network name .standard
  | .removeNode n => step fun g => removeNode g n
  | .rename n name => step fun g => rename g n name
  | .clear => change clear
  | .connect output input => step fun g => connect g output input
  | .disconnect output input => step fun g => disconnect g output input
  | .assign p v => step fun g => assign g p v
  | .setAttachment n v => plain (Edit.step (·.setAttachment n v))
  | .read p => do let _ ← read p
  | .readAs t p => do let _ ← readAs t p
  | .refresh => refresh
  | .removeSelected s => removeSelected s
  | .loadInto r n d => loadInto r n d
  | .restore r d => restore r d
  | .elsewhere ids marks calls =>
    plain (Edit.change fun g => { g with ids := ids, marks := marks, calls := calls })

theorem edit_eq {g : Graph} (w : g.Lawful) (o : Action) (uses : o.Uses NodeType.Sound) :
    (edit o).apply g = some (o.edit.apply g) := by
  have here {α : Type} {x : StrictEdit α} {y : Edit α} (same : Tallies g.SameFrame x y) :
      x.apply g = some (y.apply g) := (same g (.refl g)).1
  have whole {f : Graph → Check Graph} {f' : Graph → Except Error Graph} (eq : f g = sure (f' g)) :
      (step f).apply g = some ((Edit.step f').apply g) :=
    apply_bind_eq (by rw [apply_look, eq, Edit.apply_look]; rfl) fun _ _ _ => rfl
  have wf := w.wellFormed
  cases o with
  | addNode parent t name options =>
    exact apply_bind_eq (tallies_addNode uses parent name options g w).1 fun _ _ _ => rfl
  | addNetwork parent name =>
    exact apply_bind_eq (tallies_addNode uses parent name .standard g w).1 fun _ _ _ => rfl
  | removeNode n => exact whole (removeNode_eq w n)
  | rename n name => exact whole (rename_eq n name)
  | clear => rw [edit, apply_change, clear_eq w]; rfl
  | connect output input => exact whole (connect_eq wf output input)
  | disconnect output input => exact whole (disconnect_eq wf output input)
  | assign p v => exact whole (assign_eq wf p v)
  | setAttachment n v => rfl
  | read p => exact apply_bind_eq (here (tallies_read wf p)) fun _ _ _ => rfl
  | readAs t p => exact apply_bind_eq (here (tallies_readAs wf t p)) fun _ _ _ => rfl
  | refresh => exact here (tallies_refresh wf)
  | removeSelected s => exact removeSelected_eq w s
  | loadInto r n d => exact (tallies_loadInto uses n d g w).1
  | restore r d => exact restore_eq w uses d
  | elsewhere ids marks calls => rfl

end Strict

/-- Whatever is asked of a graph of a run, no port is missing that is taken for granted, nor a place in
a table, a name or a level. What is looked up strictly comes to the result or error, and to the graph,
to which all comes that is looked up otherwise. -/
theorem strict_of_grown {g : Graph} (r : Grown g) :
    (∀ o : Action, o.Uses NodeType.Sound → (Strict.edit o).apply g = some (o.edit.apply g)) ∧
    (∀ config reg d, (∀ name t, reg.find? name = some t → t.Sound) →
      (Strict.rebuild config reg d).apply g = some ((rebuild config reg d).apply g)) ∧
    (∀ p, Strict.view g p = Strict.sure (g.view p)) ∧
    ∀ n, Strict.documentOfNetwork g n = Strict.sure (g.documentOfNetwork n) := by
  have w := (acyclic_of_grown r).lawful
  have wf := w.wellFormed
  exact ⟨Strict.edit_eq w, fun config _ d sound => (Strict.tallies_rebuild sound config d g w).1,
    Strict.view_eq wf, Strict.documentOfNetwork_eq wf⟩

/-- Cutting the wire of the nested network takes the port of that network along, and a wire between
ports that are not there is refused. Neither misses a port. -/
theorem strict_inputRelay :
    (∃ h, (Strict.edit (.disconnect ⟨⟨3⟩, 0⟩ ⟨⟨4⟩, 0⟩)).apply inputRelay = some (.ok (), h) ∧
      (inputRelay.slot? ⟨⟨2⟩, 0⟩).isSome ∧ h.slot? ⟨⟨2⟩, 0⟩ = none) ∧
    (Strict.edit (.connect ⟨⟨9⟩, 5⟩ ⟨⟨4⟩, 7⟩)).apply inputRelay =
      some (.error (.nodeNotFound ⟨9⟩), inputRelay) := by
  obtain ⟨edits, -⟩ := strict_of_grown grown_inputRelay
  have cutting := edits (.disconnect ⟨⟨3⟩, 0⟩ ⟨⟨4⟩, 0⟩) trivial
  have drawing := edits (.connect ⟨⟨9⟩, 5⟩ ⟨⟨4⟩, 7⟩) trivial
  rw [cutting, drawing]
  refine ⟨⟨_, Option.some_inj.2 (Prod.ext ?_ rfl), by cbv, by cbv⟩, ?_⟩
  · cbv
  · have refused : inputRelay.connect ⟨⟨9⟩, 5⟩ ⟨⟨4⟩, 7⟩ = .error (.nodeNotFound ⟨9⟩) := by cbv
    rw [Action.edit, Edit.apply_step, refused]

end Graph
end Dataflow
