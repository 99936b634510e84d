import Dataflow.Graph.Selection
import Dataflow.Proofs.Loading
import Dataflow.Proofs.Reading
import Dataflow.Proofs.Rename
set_option autoImplicit false

/-!
Runs. A run starts from a graph without nodes and makes any operations in any order, also such as
stop on an error. Main statements: every graph of a run is lawful, and a property that each of the
steps keeps holds of every graph of a run.
-/

namespace Dataflow

/-- What a client may do with a graph. Other graphs may take numbers, marks and runs meanwhile. -/
inductive Action where
  | addNode (parent : NodeId) (t : NodeType) (name : String) (options : NodeExtras)
  | addNetwork (parent : NodeId) (name : String)
  | removeNode (n : NodeId)
  | rename (n : NodeId) (name : String)
  | clear
  | connect (output input : Port)
  | disconnect (output input : Port)
  | assign (p : Port) (v : Value)
  | setAttachment (n : NodeId) (v : Value)
  | read (p : Port)
  | readAs (t : DataType) (p : Port)
  | refresh
  | removeSelected (s : Selection)
  | loadInto (r : Registry) (n : NodeId) (d : NetworkDocument)
  | restore (r : Registry) (d : NetworkDocument)
  | elsewhere (ids : IdSupply) (marks : Nat) (calls : Table Nat Nat)

namespace Action

def edit : Action → Edit Unit
  | .addNode parent t name options => do let _ ← Graph.addNode parent t name options
  | .addNetwork parent name => do let _ ← Graph.addNetwork parent name
  | .removeNode n => Edit.step (·.removeNode n)
  | .rename n name => Edit.step (·.rename n name)
  | .clear => Edit.change Graph.clear
  | .connect output input => Edit.step (·.connect output input)
  | .disconnect output input => Edit.step (·.disconnect output input)
  | .assign p v => Edit.step (·.assign p v)
  | .setAttachment n v => Edit.step (·.setAttachment n v)
  | .read p => do let _ ← Graph.read p
  | .readAs t p => do let _ ← Graph.readAs t p
  | .refresh => Graph.refresh
  | .removeSelected s => Graph.removeSelected s
  | .loadInto r n d => Graph.loadInto r n d
  | .restore r d => Graph.restore r d
  | .elsewhere ids marks calls =>
    Edit.change fun g => { g with ids := ids, marks := marks, calls := calls }

/-- The graph after the operation, also if it stopped on an error. -/
def after (o : Action) (g : Graph) : Graph := (o.edit.apply g).2

/-- All types of which the operation may make nodes are as `A` says. -/
def Uses (A : NodeType → Prop) : Action → Prop
  | .addNode _ t _ _ => A t
  | .addNetwork _ _ => A .network
  | .loadInto r _ _ => ∀ name t, r.find? name = some t → A t
  | .restore r _ => ∀ name t, r.find? name = some t → A t
  | _ => True

/-- All types of which the operation may make nodes, with what the nodes start with, are as `A`
says. -/
def Makes (A : NodeType → Datablock → Prop) : Action → Prop
  | .addNode _ t _ options => A t (options.values.getD (.ofType t))
  | .addNetwork _ _ => A .network (.ofType .network)
  | .loadInto r _ _ => ∀ name t, r.find? name = some t → A t (.ofType t)
  | .restore r _ => ∀ name t, r.find? name = some t → A t (.ofType t)
  | _ => True

theorem Uses.makes {A : NodeType → Prop} {o : Action} (h : o.Uses A) : o.Makes fun t _ => A t := by
  cases o <;> exact h

/-- Whether the operation does nothing but reading. -/
def reads : Action → Bool
  | .read _ => true
  | .readAs _ _ => true
  | .refresh => true
  | _ => false

end Action

namespace Graph

/-- The graphs of runs in which every operation is permitted where it is made. -/
inductive Reachable (permits : Graph → Action → Prop) : Graph → Prop where
  | start (config : Config) (ids : IdSupply) (marks : Nat) (calls : Table Nat Nat) :
    Reachable permits (create config ids marks calls)
  | step {g : Graph} {o : Action} (r : Reachable permits g) (ok : permits g o) :
    Reachable permits (o.after g)

theorem Reachable.mono {P Q : Graph → Action → Prop} (h : ∀ g o, P g o → Q g o) {g : Graph}
    (r : Reachable P g) : Reachable Q g := by
  induction r with
  | start config ids marks calls => exact .start ..
  | step _ ok ih => exact .step ih (h _ _ ok)

/-! ### The start -/

section Create
variable (config : Config) (ids : IdSupply) (marks : Nat) (calls : Table Nat Nat)

theorem node?_create (n : NodeId) : (create config ids marks calls).node? n =
    if n = ids.take.1 then
      some ⟨"", none, NodeType.network.name, .empty, none, .empty, .null, some .empty⟩
    else none := by
  simp only [create, node?, Table.get?, eq_comm (a := n)]
  split <;> rfl

theorem slot?_create (p : Port) : (create config ids marks calls).slot? p = none := by
  simp only [slot?, node?_create]
  split <;> rfl

theorem wires_create (n : NodeId) : (create config ids marks calls).wires n = [] := by
  simp only [wires, contents?, node?_create]
  split <;> rfl

theorem around?_create (n : NodeId) : (create config ids marks calls).around? n = none := by
  simp only [around?, node?_create]
  split <;> rfl

theorem type?_create (n : NodeId) (t : NodeType)
    (h : (create config ids marks calls).type? n = some t) : t = .network := by
  simp only [type?, node?_create] at h
  split at h
  · exact (Option.some.inj h).symm
  · cases h

theorem sound_network : NodeType.network.Sound := ⟨by decide, by decide, by decide⟩

theorem lawful_create : (create config ids marks calls).Lawful := by
  have children (n : NodeId) : (create config ids marks calls).children n = [] := by
    simp only [Graph.children, contents?, node?_create]
    split <;> rfl
  have peer (p : Port) : (create config ids marks calls).peer? p = none := by
    simp [peer?, slot?_create]
  refine ⟨⟨?tree, ?wired, ?linked, ?sound⟩, fun t => ?fitted⟩
  case tree =>
    constructor
    case keys => simp [create, Table.keys]
    case root => exact around?_create ..
    case rootNetwork =>
      have here : (create config ids marks calls).root = ids.take.1 := rfl
      simp [contents?, node?_create, here]
    case orphan =>
      intro n hn _
      simp only [type?, node?_create] at hn
      split at hn
      · assumption
      · cases hn
    case child =>
      intro n c
      rw [children, around?_create]
      simp
    case order =>
      intro n c h
      rw [around?_create] at h
      cases h
    case nodup => intro n; rw [children]; exact List.nodup_nil
    case distinct =>
      intro n c d hc
      rw [children] at hc
      cases hc
    case kind =>
      intro n t ht
      obtain rfl := type?_create _ _ _ _ n t ht
      simp only [type?, node?_create, contents?] at ht ⊢
      split at ht
      · next h => simp [h]
      · cases ht
  case wired =>
    constructor <;> intro n <;> rw [wires_create] <;> simp
  case linked =>
    constructor <;> intro p q h <;> rw [peer] at h <;> cases h
  case sound =>
    intro n t ht
    rw [type?_create _ _ _ _ n t ht]
    exact sound_network
  case fitted =>
    intro ht
    obtain ⟨side, hs⟩ := Option.isSome_iff_exists.1 ht
    have := (terminal?_direction hs).2
    simp [direction?, slot?_create] at this

theorem acyclic_create : (create config ids marks calls).Acyclic := by
  intro p h
  obtain ⟨q, hf, -⟩ := Relation.TransGen.head'_iff.1 h
  have := hf.isSome_left (lawful_create config ids marks calls).wellFormed
  simp [direction?, slot?_create] at this

end Create

/-! ### What every operation keeps -/

section Load
variable {strict : Bool} {A : NodeType → Datablock → Prop}

/-- A graph is replaced by what was loaded into a new one, or only a number is spent. -/
theorem keeps_restore (sound : ∀ t values, A t values → t.Sound) (r : Registry)
    (hr : ∀ name t, r.find? name = some t → A t (.ofType t)) {I : Graph → Prop}
    (k : KeptByGrowth strict A I) (start : ∀ c ids m n, I (create c ids m n))
    (d : NetworkDocument) : Edit.Keeps (LawfulWith I) (restore r d) := by
  intro g w
  rw [restore_apply]
  -- what is loaded into a new graph
  have w' : LawfulWith I ((loadInto r (vacant g.config d g).root d).apply (vacant g.config d g)).2 := by
    let old := ((passOverIds d).apply g).2
    have lawful := lawful_create g.config old.ids old.marks old.calls
    exact keeps_loadInto k sound hr (fun _ => lawful.wellFormed.tree.rootNetwork) d
      ⟨lawful, start _ _ _ _⟩
  rcases h : (loadInto r (vacant g.config d g).root d).apply (vacant g.config d g) with ⟨e | u, new⟩
  · have a : Quiet g { g with ids := new.ids } := .of_nodes rfl rfl rfl
    exact w.quiet a (k.quiet _ _ a w.holds)
  · rw [h] at w'
    have a : Quiet new ({ new with journal := g.journal }.emit .cleared) := .of_nodes rfl rfl rfl
    exact w'.quiet a (k.quiet _ _ a w'.holds)

end Load

/-! ### All operations -/

/-- What is kept by all operations but reads. -/
structure KeptByEdits (strict : Bool) (A : NodeType → Datablock → Prop) (I : Graph → Prop) :
    Prop extends KeptByGrowth strict A I, KeptByRemovals I where
  start : ∀ config ids marks calls, I (create config ids marks calls)
  rename : ∀ g h n new, g.WellFormed → Renameable n (g.exposedPort? n) new g →
    Renamed n (g.exposedPort? n) new g h → I g → I h

/-- Where a document is loaded into an existing node, that node is a target. -/
def Aimed (strict : Bool) (g : Graph) : Action → Prop
  | .loadInto _ n _ => Target strict n g
  | _ => True

theorem aimed_false (g : Graph) (o : Action) : Aimed false g o := by
  cases o with
  | loadInto r n d => exact fun h => nomatch h
  | _ => trivial

section Edits
variable {strict : Bool} {A : NodeType → Datablock → Prop} {I : Graph → Prop}

theorem LawfulWith.rename {g h : Graph} (w : LawfulWith I g) {n : NodeId} {name : String}
    (rename : ∀ new, g.WellFormed → Renameable n (g.exposedPort? n) new g →
      Renamed n (g.exposedPort? n) new g h → I g → I h)
    (ok : g.rename n name = .ok h) : LawfulWith I h := by
  rcases renamed ok with rfl | ⟨new, r, x⟩
  · exact w
  · exact ⟨x.lawful r w.lawful, rename new w.lawful.wellFormed r x w.holds⟩

theorem disconnect_ok {g h : Graph} {o i : Port} (ok : g.disconnect o i = .ok h) :
    h = g.cut ⟨o, i⟩ := by
  simp only [Graph.disconnect, bind, Except.bind] at ok
  split at ok
  · cases ok
  · split at ok
    · cases ok
    · split at ok
      · cases ok
        rfl
      · cases ok

theorem LawfulWith.disconnect {g h : Graph} (k : KeptByCuts I) (w : LawfulWith I g) {o i : Port}
    (ok : g.disconnect o i = .ok h) : LawfulWith I h := by
  rw [disconnect_ok ok]
  exact w.cut (k.cutting fun _ _ => True) trivial

theorem keeps_removeSelected (k : KeptByRemovals I) (s : Selection) :
    Edit.Keeps (LawfulWith I) (removeSelected s) := by
  refine Edit.keeps_bind (Edit.keeps_change fun g w => ?_) fun _ => ?_
  · generalize s.edges = l
    induction l generalizing g with
    | nil => exact w
    | cons e l ih => exact ih _ (w.cut (k.toKeptByCuts.cutting fun _ _ => True) trivial)
  · refine Edit.keeps_forM _ fun n _ => Edit.keeps_step fun g h w ok => ?_
    split at ok
    · exact w.removeNode k ok
    · cases ok
      exact w

/-- Every operation keeps what its steps keep. Reads are looked at on their own. -/
theorem LawfulWith.after (k : KeptByEdits strict A I) (sound : ∀ t values, A t values → t.Sound) {g : Graph}
    {o : Action} (w : LawfulWith I g) (makes : o.Makes A) (aimed : Aimed strict g o)
    (read : o.reads = true → LawfulWith I (o.after g)) : LawfulWith I (o.after g) := by
  have drop {α : Type} (x : Edit α) (hx : Edit.Keeps (LawfulWith I) x) :
      Edit.Keeps (LawfulWith I) (do let _ ← x) :=
    Edit.keeps_bind hx fun _ => Edit.keeps_pure _
  cases o with
  | addNode parent t name options =>
    exact drop _ (keeps_addNode k.toKeptByGrowth sound parent t name options makes) g w
  | addNetwork parent name =>
    exact drop _ (keeps_addNode k.toKeptByGrowth sound parent .network name .standard makes) g w
  | removeNode n =>
    exact Edit.keeps_step (fun g h w ok => w.removeNode k.toKeptByRemovals ok) g w
  | rename n name =>
    exact Edit.keeps_step (fun g h w ok => w.rename (k.rename g h n) ok) g w
  | clear => exact w.clear k.toKeptByRemovals
  | connect output input => exact Edit.keeps_step (fun g h w ok => w.connect (k.draw g) ok) g w
  | disconnect output input =>
    exact Edit.keeps_step (fun g h w ok => w.disconnect k.toKeptByCuts ok) g w
  | assign p v => exact Edit.keeps_step (fun g h w ok => w.assign (k.assign g p v) ok) g w
  | setAttachment n v =>
    refine Edit.keeps_step (fun g h w ok => ?_) g w
    have a := quiet_setAttachment ok
    exact w.quiet a (k.quiet g h a w.holds)
  | read p => exact read rfl
  | readAs t p => exact read rfl
  | refresh => exact read rfl
  | removeSelected s => exact keeps_removeSelected k.toKeptByRemovals s g w
  | loadInto r n d =>
    exact keeps_loadInto k.toKeptByGrowth sound makes aimed d w
  | restore r d => exact keeps_restore sound r makes k.toKeptByGrowth k.start d g w
  | elsewhere ids marks calls =>
    have a : Quiet g { g with ids := ids, marks := marks, calls := calls } := .of_nodes rfl rfl rfl
    exact w.quiet a (k.quiet _ _ a w.holds)

/-- What the single reads lead along, all operations that only read lead along. -/
theorem leads_reads {R : Graph → Graph → Prop} (s : Edit.Steps R)
    (within : ∀ levels p, Edit.Leads R (readWithin levels p)) {o : Action}
    (ho : o.reads = true) : Edit.Leads R o.edit := by
  cases o with
  | read p => exact Edit.leads_bind s (leads_read s within p) fun _ => Edit.leads_pure s _
  | readAs t p => exact Edit.leads_bind s (leads_readAs s within t p) fun _ => Edit.leads_pure s _
  | refresh => exact leads_refresh s within
  | _ => cases ho

theorem read_apply {g : Graph} {p : Port} (live : (g.direction? p).isSome) :
    (read p).apply g = (readWithin (g.config.maxDepth + 1) p).apply g := by
  have found : ∃ s, g.slot p = .ok s := by
    simp only [direction?, slot?, Option.isSome_map] at live
    cases hm : g.node? p.node with
    | none => simp [hm] at live
    | some m =>
      cases hs : m.ports.get? p.index with
      | none => simp [hm, hs] at live
      | some s => exact ⟨s, by simp [slot, node, hm, hs, bind, Except.bind]⟩
  obtain ⟨s, hs⟩ := found
  rw [Graph.read, Edit.apply_bind, Edit.apply_look, hs]
  simp only
  rw [Edit.apply_bind, Edit.apply_get]

theorem after_read {g : Graph} {p : Port} (live : (g.direction? p).isSome) :
    (Action.read p).after g = ((readWithin (g.config.maxDepth + 1) p).apply g).2 := by
  rw [← read_apply live]
  simp only [Action.after, Action.edit]
  rw [Edit.apply_bind]
  cases ((read p).apply g).1 <;> rfl

theorem calmer_reads {o : Action} (ho : o.reads = true) (g : Graph) : Calmer g (o.after g) :=
  leads_reads Calmer.steps leads_readWithin ho g

theorem keeps_reads {P : Graph → Prop} (within : ∀ levels p, Edit.Keeps P (readWithin levels p))
    {o : Action} (ho : o.reads = true) : Edit.Keeps P o.edit :=
  leads_reads (R := fun g h => P g → P h) ⟨fun _ h => h, fun a b h => b (a h)⟩ within ho

/-- What holds at the start and is kept by every permitted operation holds in every graph of a run. -/
theorem Reachable.lawfulWith {permits : Graph → Action → Prop} (k : KeptByEdits strict A I)
    (sound : ∀ t values, A t values → t.Sound) (makes : ∀ g o, permits g o → o.Makes A)
    (aimed : ∀ g o, permits g o → Aimed strict g o)
    (read : ∀ g o, permits g o → o.reads = true → LawfulWith I g → LawfulWith I (o.after g))
    {g : Graph} (r : Reachable permits g) : LawfulWith I g := by
  induction r with
  | start config ids marks calls => exact ⟨lawful_create .., k.start ..⟩
  | step _ ok w => exact w.after k sound (makes _ _ ok) (aimed _ _ ok) (read _ _ ok · w)

end Edits

/-- One input that influences one output. -/
def relay : NodeType :=
  ⟨"relay", ⟨[.ofValue "in" .input (.fresh (.int 0)), .ofValue "out" .output (.fresh (.int 0))],
    [(0, 1)]⟩, none⟩

theorem sound_relay : relay.Sound := ⟨by decide, by decide, by decide⟩

/-- Knows the relay and nothing else. -/
def relayRegistry : Registry := ⟨[("relay", relay)], []⟩

theorem sound_relayRegistry (name : String) (t : NodeType) (ht : relayRegistry.find? name = some t) :
    t.Sound := by
  simp only [relayRegistry, Registry.find?, Table.get?] at ht
  split at ht
  · cases ht
    exact sound_relay
  · cases ht

end Graph
end Dataflow
