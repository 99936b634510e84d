import Dataflow.Document.Load
import Dataflow.Proofs.Arrange
import Dataflow.Proofs.Draw
import Dataflow.Proofs.Insert
import Dataflow.Proofs.Remove
set_option autoImplicit false

/-!
How documents are loaded. Each network is loaded with those in it: its nodes come first, each with
its contents, and then its wires, the order of its ports, and the values. Main statement: what each
of these steps keeps is kept by loading, also if it stops on an error.
-/

namespace Dataflow

theorem Registry.find?_of_get {r : Registry} {name : String} {t : NodeType}
    (h : r.get name = .ok t) : r.find? name = some t := by
  simp only [Registry.get] at h
  split at h
  · cases h
    assumption
  · cases h

namespace Graph

/-! ### Growth -/

/-- Whether ports may be arranged on a node that is no network is left open. If not, the node has to
be a network. -/
def Target (strict : Bool) (n : NodeId) (g : Graph) : Prop :=
  strict = true → (g.contents? n).isSome

/-- What is kept where nodes and wires come to a graph. -/
structure KeptByGrowth (strict : Bool) (A : NodeType → Datablock → Prop) (I : Graph → Prop) :
    Prop where
  quiet : ∀ g h, Quiet g h → I g → I h
  insert : ∀ g id parent t name values attachment, g.WellFormed → A t values →
    Insertable id parent t name values g → I g → I (g.insert id parent t name values attachment)
  draw : ∀ g n e, g.Lawful → Drawable n e g → I g → I (g.drawWire e)
  assign : ∀ g p v s, g.WellFormed → g.checkAssign p v = .ok s → I g → I (g.replace p s v)
  arrange : ∀ g h n names, g.WellFormed → Target strict n g →
    g.arrangeBoundary n names = .ok h → I g → I h

section Growth
variable {strict : Bool} {A : NodeType → Datablock → Prop} {I : Graph → Prop}

theorem LawfulWith.quiet {g h : Graph} (w : LawfulWith I g) (a : Quiet g h) (hI : I h) :
    LawfulWith I h := w.of_sameFrame a.frame hI

/-- A wire that is drawn has passed the check. -/
theorem drawable_of_connect {g h : Graph} {o i : Port} (ok : g.connect o i = .ok h) :
    ∃ n, Drawable n ⟨o, i⟩ g ∧ h = g.drawWire ⟨o, i⟩ := by
  simp only [Graph.connect, bind, Except.bind] at ok
  split at ok
  · cases ok
  · next checked =>
    cases ok
    obtain ⟨n, d⟩ := checkConnect_ok checked
    exact ⟨n, d, rfl⟩

theorem LawfulWith.draw {J : Graph → Prop} {g : Graph} (w : LawfulWith I g) {n : NodeId} {e : Edge}
    (d : Drawable n e g) (hJ : J (g.drawWire e)) : LawfulWith J (g.drawWire e) := by
  obtain ⟨g₁, g₂, g₃, g₄, x⟩ := drawn d w.lawful.wellFormed
  exact ⟨⟨x.wellFormed d w.lawful.wellFormed, x.fitted d w.lawful.wellFormed w.lawful.fitted⟩, hJ⟩

theorem LawfulWith.connect {g h : Graph} (w : LawfulWith I g) {o i : Port}
    (draw : ∀ n e, g.Lawful → Drawable n e g → I g → I (g.drawWire e))
    (ok : g.connect o i = .ok h) : LawfulWith I h := by
  obtain ⟨n, d, rfl⟩ := drawable_of_connect ok
  exact w.draw d (draw n _ w.lawful d w.holds)

theorem LawfulWith.assign {g h : Graph} (w : LawfulWith I g) {p : Port} {v : Value}
    (replace : ∀ s, g.WellFormed → g.checkAssign p v = .ok s → I g → I (g.replace p s v))
    (ok : g.assign p v = .ok h) : LawfulWith I h := by
  simp only [Graph.assign, bind, Except.bind] at ok
  split at ok
  · cases ok
  · next s checked =>
    split at ok
    · cases ok
      exact w
    · cases ok
      exact w.of_sameFrame (g.sameFrame_replace p s v)
        (replace s w.lawful.wellFormed checked w.holds)

theorem LawfulWith.arrange {g h : Graph} (w : LawfulWith I g) {n : NodeId} {names : List String}
    (arrange : g.WellFormed → g.arrangeBoundary n names = .ok h → I g → I h)
    (ok : g.arrangeBoundary n names = .ok h) : LawfulWith I h :=
  ⟨lawful_arrange w.lawful names ok, arrange w.lawful.wellFormed ok w.holds⟩

theorem LawfulWith.insert {g h : Graph} (w : LawfulWith I g) {id parent : NodeId} {t : NodeType}
    {name : String} {values : Datablock} (a : Insertable id parent t name values g)
    (x : Inserted id parent t name values g h) (hI : I h) : LawfulWith I h :=
  ⟨x.lawful a w.lawful.wellFormed w.lawful.fitted, hI⟩

theorem SpentId.quiet {g h : Graph} (a : SpentId g h) : Quiet g h := by
  obtain ⟨ids, rfl⟩ := a
  exact .of_nodes rfl rfl rfl

theorem keeps_addNode (k : KeptByGrowth strict A I) (sound : ∀ t values, A t values → t.Sound)
    (parent : NodeId) (t : NodeType) (name : String) (options : NodeExtras)
    (ht : A t (options.values.getD (.ofType t))) :
    Edit.Keeps (LawfulWith I) (addNode parent t name options) := by
  intro g w
  rcases addNode_apply g parent t name options (sound t _ ht) with
    ⟨x, h, eq, spent⟩ | ⟨id, name', g₁, spent, a, eq⟩
  · rw [eq]
    exact w.quiet spent.quiet (k.quiet _ _ spent.quiet w.holds)
  · rw [eq]
    have w₁ := w.quiet spent.quiet (k.quiet _ _ spent.quiet w.holds)
    exact w₁.insert a (inserted g₁ _ a) (k.insert _ _ _ _ _ _ _ w₁.lawful.wellFormed ht a w₁.holds)

end Growth

/-! ### Networks that are not loaded to the end -/

/-- No node has moved, and every network is one still. -/
structure Lasting (g h : Graph) : Prop where
  around : ∀ c n, g.around? c = some n → h.around? c = some n
  network : ∀ n, (g.contents? n).isSome → (h.contents? n).isSome

namespace Lasting
variable {g h k : Graph}

theorem refl (g : Graph) : Lasting g g := ⟨fun _ _ a => a, fun _ a => a⟩

theorem trans (a : Lasting g h) (b : Lasting h k) : Lasting g k :=
  ⟨fun c n x => b.around c n (a.around c n x), fun n x => b.network n (a.network n x)⟩

theorem absent (a : Lasting g h) {c : NodeId} (new : h.around? c = none) : g.around? c = none := by
  cases hc : g.around? c with
  | none => rfl
  | some n => rw [a.around c n hc] at new; cases new

theorem of_sameTree (a : SameTree g h) : Lasting g h :=
  ⟨fun c n x => by rwa [a.around], fun n x => by rwa [a.network]⟩

theorem of_spent (a : SpentId g h) : Lasting g h := .of_sameTree (.of_sameFrame a.sameFrame)

theorem of_inserted {id parent : NodeId} {t : NodeType} {name : String} {values : Datablock}
    (a : Insertable id parent t name values g) (x : Inserted id parent t name values g h) :
    Lasting g h := by
  refine ⟨fun c n hc => ?_, fun n hn => ?_⟩
  · rw [x.around, if_neg, hc]
    rintro rfl
    simp [around?, a.node?] at hc
  · rw [x.contents, if_neg (by rintro rfl; simp [a.contents?] at hn)]
    split
    · rwa [Option.isSome_map]
    · exact hn

end Lasting

/-- Each of the nodes stands in the next one. -/
def Chained (g : Graph) (stack : List NodeId) : Prop :=
  stack.IsChain fun c n => g.around? c = some n

theorem Chained.lasting {g h : Graph} {stack : List NodeId} (c : g.Chained stack)
    (a : Lasting g h) : h.Chained stack := c.imp fun m n => a.around m n

theorem Chained.push {g : Graph} {c n : NodeId} {stack : List NodeId} (a : g.Chained stack)
    (around : g.around? c = some n) (head : ∀ m ∈ stack.head?, m = n) : g.Chained (c :: stack) := by
  cases stack with
  | nil => exact .singleton c
  | cons m l => exact List.isChain_cons_cons.2 ⟨head m rfl ▸ around, a⟩

theorem Chained.pop {g : Graph} {n : NodeId} {stack : List NodeId} (a : g.Chained (n :: stack)) :
    g.Chained stack := by
  cases stack with
  | nil => exact .nil
  | cons m l => exact (List.isChain_cons_cons.1 a).2

theorem Chained.rank_lt {g : Graph} {n m : NodeId} {stack : List NodeId}
    (c : g.Chained (n :: stack))
    (w : g.Tree) (hm : m ∈ stack) : g.rank m < g.rank n := by
  induction stack generalizing n with
  | nil => cases hm
  | cons p l ih =>
    obtain ⟨around, rest⟩ := List.isChain_cons_cons.1 c
    have above := Graph.rank_lt w around
    rcases List.mem_cons.1 hm with rfl | hm
    · exact above
    · exact Nat.lt_trans (ih rest hm) above

theorem Chained.not_mem {g : Graph} {n : NodeId} {stack : List NodeId} (c : g.Chained (n :: stack))
    (w : g.Tree) : n ∉ stack := fun hn => Nat.lt_irrefl _ (c.rank_lt w hn)

/-! ### Steps -/

/-- What loading does for a node before it comes to what is in it. -/
def loadHead (reg : Registry) (network : NodeId) (name : String) (d : NodeDocument) :
    Edit (NodeType × NodeId) := do
  let t ← Edit.look fun _ => reg.get d.typeName
  let attachment ← Edit.look fun _ => readAttachment reg d.attachment
  let id ← keptId d.id
  let id ← addNode network t name ⟨id, attachment, none⟩
  pure (t, id)

theorem loadNode_eq (reg : Registry) (network : NodeId) (name : String) (d : NodeDocument) :
    loadNode reg network name d = (do
      let new ← loadHead reg network name d
      loadContents reg new.1 new.2 d.network
      pure new.2) := by
  obtain ⟨typeName, id, ports, attachment, inner⟩ := d
  simp [loadNode, loadHead]

/-- The values of nodes that were loaded, from their documents. -/
def loadTables (loaded : List (NodeId × NodeDocument)) : Edit Unit :=
  loaded.forM fun n => n.2.ports.forM fun p => loadValue n.1 p.1 p.2

theorem loadInto_eq (r : Registry) (n : NodeId) (d : NetworkOf NodeDocument) :
    loadInto r n d = (do
      let loaded ← loadNodes r n d.nodes
      d.connections.forM (loadConnection n)
      Edit.step (·.arrangeBoundary n d.boundary)
      loadTables loaded) := by
  obtain ⟨nodes, connections, boundary⟩ := d
  rw [loadInto]
  rfl

/-- A node comes as a whole, or at most a number is spent. -/
theorem loadHead_apply {r : Registry} (sound : ∀ name t, r.find? name = some t → t.Sound) (n : NodeId)
    (name : String) (d : NodeDocument) (g : Graph) :
    (∃ x h, (loadHead r n name d).apply g = (.error x, h) ∧ SpentId g h) ∨
    ∃ t id v name' h, r.get d.typeName = .ok t ∧ readAttachment r d.attachment = .ok v ∧
      SpentId g h ∧ Insertable id n t name' (.ofType t) h ∧
      (loadHead r n name d).apply g =
        (.ok (t, id), h.insert id n t name' (.ofType t) (v.getD .null)) := by
  rw [loadHead, Edit.apply_bind, Edit.apply_look]
  cases ht : r.get d.typeName with
  | error x => exact .inl ⟨x, g, rfl, g.ids, rfl⟩
  | ok t =>
    have known := Registry.find?_of_get ht
    simp only
    rw [Edit.apply_bind, Edit.apply_look]
    cases hv : readAttachment r d.attachment with
    | error x => exact .inl ⟨x, g, rfl, g.ids, rfl⟩
    | ok v =>
      simp only
      obtain ⟨id?, g₁, passed, ids, rfl⟩ :
          ∃ id? g₁, (keptId d.id).apply g = (.ok id?, g₁) ∧ SpentId g g₁ := by
        cases d.id with
        | none => exact ⟨_, _, rfl, g.ids, rfl⟩
        | some x => exact ⟨_, _, rfl, _, rfl⟩
      rw [Edit.apply_bind_ok passed, Edit.apply_bind]
      rcases addNode_apply { g with ids := ids } n t name ⟨id?, v, none⟩ (sound _ t known) with
        ⟨x, h, eq, spent, rfl⟩ | ⟨id, name', h, ⟨spent, rfl⟩, a, eq⟩
      · rw [eq]
        exact .inl ⟨x, _, rfl, spent, rfl⟩
      · rw [eq]
        exact .inr ⟨t, id, v, name', _, rfl, rfl, ⟨spent, rfl⟩, a, rfl⟩

theorem node_of_port {g : Graph} {n : NodeId} {name : String} {p : Port}
    (h : g.port n name = .ok p) : p.node = n := by
  simp only [port, bind, Except.bind] at h
  split at h
  · cases h
  · split at h
    · cases h
      rfl
    · cases h

/-- The ends of a wire are found by the names of their nodes. -/
theorem connect_of_loadConnection {g h : Graph} {n : NodeId} {c : ConnectionDocument}
    (ok : (loadConnection n c).apply g = (.ok (), h)) : ∃ e : Edge,
      g.find? n c.outNode = some e.output.node ∧ g.find? n c.inNode = some e.input.node ∧
      g.connect e.output e.input = .ok h := by
  have found {name : String} {x : NodeId} (hx : g.childNamed n name = .ok x) :
      g.find? n name = some x := by
    simp only [childNamed] at hx
    split at hx
    · cases hx
      assumption
    · cases hx
  rw [loadConnection, Edit.apply_step] at ok
  simp only [bind, Except.bind] at ok
  cases ho : g.childNamed n c.outNode with
  | error x => simp [ho] at ok
  | ok o =>
    cases hi : g.childNamed n c.inNode with
    | error x => simp [ho, hi] at ok
    | ok i =>
      cases hout : g.port o c.outPort with
      | error x => simp [ho, hi, hout] at ok
      | ok output =>
        cases hin : g.port i c.inPort with
        | error x => simp [ho, hi, hout, hin] at ok
        | ok input =>
          simp only [ho, hi, hout, hin] at ok
          cases done : g.connect output input with
          | error x => simp [done] at ok
          | ok h' =>
            rw [done] at ok
            cases ok
            exact ⟨⟨output, input⟩, by rw [found ho, node_of_port hout],
              by rw [found hi, node_of_port hin],
              done⟩

/-- What drawn wires keep is kept where a wire is loaded. -/
theorem keeps_loadConnection {P : Graph → Prop} (n : NodeId) (c : ConnectionDocument)
    (connect : ∀ g (e : Edge) h, P g → g.find? n c.outNode = some e.output.node →
      g.find? n c.inNode = some e.input.node → g.connect e.output e.input = .ok h → P h) :
    Edit.Keeps P (loadConnection n c) := by
  intro g hP
  rcases eq : (loadConnection n c).apply g with ⟨x | u, h⟩
  · rw [loadConnection, Edit.apply_step] at eq
    split at eq
    · cases eq
    · cases eq
      exact hP
  · obtain ⟨e, out, inn, ok⟩ := connect_of_loadConnection eq
    exact connect g e h hP out inn ok

theorem around?_of_find? {g : Graph} (w : g.Tree) {n c : NodeId} {name : String}
    (h : g.find? n name = some c) : g.around? c = some n :=
  (w.child n c).1 (mem_children_of_find? h).1

/-- A value is stored at the port of that name. -/
theorem assign_of_loadValue {g h : Graph} {n : NodeId} {name : String} {j : Json}
    (ok : (loadValue n name j).apply g = (.ok (), h)) : ∃ p t v, g.port n name = .ok p ∧
      g.resolved p = .ok t ∧ PortType.decode (some t) j = .ok v ∧ g.assign p v = .ok h := by
  rw [loadValue, Edit.apply_step] at ok
  simp only [bind, Except.bind] at ok
  cases hp : g.port n name with
  | error x => simp [hp] at ok
  | ok p =>
    cases ht : g.resolved p with
    | error x => simp [hp, ht] at ok
    | ok t =>
      cases hv : PortType.decode (some t) j with
      | error x => simp [hp, ht, hv] at ok
      | ok v =>
        simp only [hp, ht, hv] at ok
        cases done : g.assign p v with
        | error x => simp [done] at ok
        | ok h' =>
          rw [done] at ok
          cases ok
          exact ⟨p, t, v, rfl, ht, hv, done⟩

theorem sameFrame_assign {g h : Graph} {p : Port} {v : Value} (ok : g.assign p v = .ok h) :
    SameFrame g h := by
  simp only [Graph.assign, bind, Except.bind] at ok
  split at ok
  · cases ok
  · split at ok
    · cases ok
      exact .refl _
    · cases ok
      exact g.sameFrame_replace _ _ _

/-- What stored values keep is kept where a value is loaded. -/
theorem keeps_loadValue {P : Graph → Prop} (n : NodeId) (name : String) (j : Json)
    (assign : ∀ g p v h, P g → g.port n name = .ok p → g.assign p v = .ok h → P h) :
    Edit.Keeps P (loadValue n name j) := by
  intro g hP
  rcases eq : (loadValue n name j).apply g with ⟨x | u, h⟩
  · rw [loadValue, Edit.apply_step] at eq
    split at eq
    · cases eq
    · cases eq
      exact hP
  · obtain ⟨p, t, v, port, -, -, ok⟩ := assign_of_loadValue eq
    exact assign g p v h hP port ok

/-! ### Relations that loading leads along -/

/-- What no step of loading can break that comes after the nodes. -/
structure Finishing (R : Graph → Graph → Prop) : Prop extends Edit.Steps R where
  connect : ∀ g o i h, g.connect o i = .ok h → R g h
  arrange : ∀ g n names h, g.arrangeBoundary n names = .ok h → R g h
  assign : ∀ g p v h, g.assign p v = .ok h → R g h

/-- What no step of loading, nor of adding a node, can break. -/
structure Building (R : Graph → Graph → Prop) : Prop extends Finishing R where
  spent : ∀ g h, SpentId g h → R g h
  insert : ∀ g id parent t name values v, Insertable id parent t name values g →
    R g (g.insert id parent t name values v)

/-- Steps that are taken where graphs are lawful, and leave them so. -/
theorem building_of_lawful {R : Graph → Graph → Prop} (steps : Edit.Steps R)
    (spent : ∀ g h, SpentId g h → R g h)
    (insert : ∀ g id parent t name values v, g.Lawful → Insertable id parent t name values g →
      R g (g.insert id parent t name values v))
    (draw : ∀ g n e, g.Lawful → Drawable n e g → R g (g.drawWire e))
    (arrange : ∀ g n names h, g.arrangeBoundary n names = .ok h → R g h)
    (assign : ∀ g p v h, g.assign p v = .ok h → R g h) :
    Building fun g h => g.Lawful → h.Lawful ∧ R g h where
  refl := fun g w => ⟨w, steps.refl g⟩
  trans := fun a b w => ⟨(b (a w).1).1, steps.trans (a w).2 (b (a w).1).2⟩
  spent := fun g h a w => ⟨a.sameFrame.lawful w, spent g h a⟩
  insert := fun g id parent t name values v a w =>
    ⟨(inserted g v a).lawful a w.wellFormed w.fitted, insert g id parent t name values v w a⟩
  connect := fun g o i h ok w => by
    obtain ⟨n, d, rfl⟩ := drawable_of_connect ok
    have w' : LawfulWith (fun _ => True) g := ⟨w, trivial⟩
    exact ⟨(w'.draw (J := fun _ => True) d trivial).lawful, draw g n _ w d⟩
  arrange := fun g n names h ok w => ⟨lawful_arrange w names ok, arrange g n names h ok⟩
  assign := fun g p v h ok w => by
    have w' : LawfulWith (fun _ => True) g := ⟨w, trivial⟩
    exact ⟨(w'.assign (fun _ _ _ _ => trivial) ok).lawful, assign g p v h ok⟩

section Finish
open Edit
variable {R : Graph → Graph → Prop} (k : Finishing R)
include k

theorem leads_loadTables (loaded : List (NodeId × NodeDocument)) : Leads R (loadTables loaded) := by
  have value (c : NodeId) (name : String) (j : Json) : Leads R (loadValue c name j) := fun g =>
    keeps_loadValue (P := R g) c name j (fun h p v _ a _ ok => k.trans a (k.assign h p v _ ok)) g
      (k.refl g)
  have table (c : NodeId) (l : Table String Json) :
      Leads R (l.forM fun p => loadValue c p.1 p.2) := by
    induction l with
    | nil => exact leads_pure k.toSteps _
    | cons p l ih => exact leads_bind k.toSteps (value c p.1 p.2) fun _ => ih
  rw [loadTables]
  induction loaded with
  | nil => exact leads_pure k.toSteps _
  | cons x l ih => exact leads_bind k.toSteps (table x.1 x.2.ports) fun _ => ih

theorem leads_loadConnections (n : NodeId) (cs : List ConnectionDocument) :
    Leads R (cs.forM (loadConnection n)) := by
  have wire (c : ConnectionDocument) : Leads R (loadConnection n c) := fun g =>
    keeps_loadConnection (P := R g) n c
      (fun h e _ a _ _ ok => k.trans a (k.connect h _ _ _ ok)) g (k.refl g)
  induction cs with
  | nil => exact leads_pure k.toSteps _
  | cons c l ih => exact leads_bind k.toSteps (wire c) fun _ => ih

/-- What comes after the nodes and their wires. -/
theorem leads_finish (n : NodeId) (names : List String) (loaded : List (NodeId × NodeDocument)) :
    Leads R (do
      Edit.step (·.arrangeBoundary n names)
      loadTables loaded) := by
  have order : Leads R (Edit.step (·.arrangeBoundary n names)) := fun g =>
    keeps_step (P := R g) (fun h _ a ok => k.trans a (k.arrange h n names _ ok)) g (k.refl g)
  exact leads_bind k.toSteps order fun _ => leads_loadTables k loaded

end Finish

section Leads
open Edit
variable {R : Graph → Graph → Prop} (k : Building R)
include k

theorem leads_addNode (parent : NodeId) (t : NodeType) (name : String) (options : NodeExtras)
    (sound : t.Sound) : Leads R (addNode parent t name options) := by
  intro g
  rcases addNode_apply g parent t name options sound with
    ⟨x, h, eq, spent⟩ | ⟨id, name', h, spent, a, eq⟩
  · rw [eq]
    exact k.spent g h spent
  · rw [eq]
    exact k.trans (k.spent g h spent) (k.insert h id parent t name' _ _ a)

variable {r : Registry} (sound : ∀ name t, r.find? name = some t → t.Sound)
include sound

theorem leads_loadHead (n : NodeId) (name : String) (d : NodeDocument) :
    Leads R (loadHead r n name d) := by
  intro g
  rcases loadHead_apply sound n name d g with ⟨x, h, eq, spent⟩ | ⟨t, id, v, name', h, -, -, spent, a, eq⟩
  · rw [eq]
    exact k.spent g h spent
  · rw [eq]
    exact k.trans (k.spent g h spent) (k.insert h id n t name' _ _ a)

end Leads

section Leads
open Edit
variable {R : Graph → Graph → Prop} {r : Registry}

mutual
theorem leads_loadNode (k : Building R) (sound : ∀ name t, r.find? name = some t → t.Sound)
    (n : NodeId) (name : String) (d : NodeDocument) : Leads R (loadNode r n name d) := by
  match d with
  | ⟨typeName, id, ports, attachment, inner⟩ =>
    rw [loadNode_eq]
    refine leads_bind k.toSteps (leads_loadHead k sound n name _) fun new => ?_
    exact leads_bind k.toSteps (leads_loadContents k sound new.1 new.2 inner) fun _ => leads_pure k.toSteps _

theorem leads_loadContents (k : Building R) (sound : ∀ name t, r.find? name = some t → t.Sound)
    (t : NodeType) (c : NodeId) (inner : Option (NetworkOf NodeDocument)) :
    Leads R (loadContents r t c inner) := by
  match inner with
  | none => exact leads_pure k.toSteps _
  | some d =>
    rw [loadContents]
    exact leads_ite (leads_loadInto k sound c d) (leads_throw k.toSteps _)

theorem leads_loadNodes (k : Building R) (sound : ∀ name t, r.find? name = some t → t.Sound)
    (n : NodeId) (l : List (String × NodeDocument)) : Leads R (loadNodes r n l) := by
  match l with
  | [] => exact leads_pure k.toSteps _
  | (name, d) :: rest =>
    rw [loadNodes]
    refine leads_bind k.toSteps (leads_loadNode k sound n name d) fun c => ?_
    exact leads_bind k.toSteps (leads_loadNodes k sound n rest) fun _ => leads_pure k.toSteps _

/-- Loading leads along what each of its steps leads along. -/
theorem leads_loadInto (k : Building R) (sound : ∀ name t, r.find? name = some t → t.Sound)
    (n : NodeId) (d : NetworkOf NodeDocument) : Leads R (loadInto r n d) := by
  match d with
  | ⟨nodes, connections, boundary⟩ =>
    rw [loadInto_eq]
    refine leads_bind k.toSteps (leads_loadNodes k sound n nodes) fun loaded => ?_
    exact leads_bind k.toSteps (leads_loadConnections k.toFinishing n connections) fun _ =>
      leads_finish k.toFinishing n boundary loaded
end

end Leads

/-! ### What loading keeps -/

/-- What is kept where documents are loaded, of which each is as `D` says. In `J stack`, the nodes of
`stack` are those whose contents are still to come, each in the next. -/
structure KeptByLoading (strict : Bool) (r : Registry) (D : NodeDocument → Prop)
    (J : List NodeId → Graph → Prop) : Prop where
  sound : ∀ name t, r.find? name = some t → t.Sound
  inner : ∀ d e, D d → d.network = some e → ∀ x ∈ e.nodes, D x.2
  spent : ∀ stack g h, SpentId g h → J stack g → J stack h
  insert : ∀ stack g id n d t v name, g.Lawful → D d → r.get d.typeName = .ok t →
    readAttachment r d.attachment = .ok v → (∀ m ∈ stack.head?, m = n) →
    Insertable id n t name (.ofType t) g → J stack g →
    J (id :: stack) (g.insert id n t name (.ofType t) (v.getD .null))
  draw : ∀ stack g n e, g.Lawful → Drawable n e g → J (n :: stack) g → J (n :: stack) (g.drawWire e)
  arrange : ∀ stack g h n names, g.WellFormed → Target strict n g →
    g.arrangeBoundary n names = .ok h → J (n :: stack) g → J (n :: stack) h
  /-- The values of a network come last. -/
  fill : ∀ stack g n loaded, g.Chained (n :: stack) →
    (∀ x ∈ loaded, g.around? x.1 = some n ∧ D x.2) → (loaded.map Prod.fst).Nodup →
    LawfulWith (J (n :: stack)) g → LawfulWith (J stack) ((loadTables loaded).apply g).2
  /-- Contents may be left out. -/
  close : ∀ stack g n, J (n :: stack) g → J stack g

/-- How loading ends: what is kept is kept, no node has moved, and a result is as `post` says. -/
def Ends {α : Type} (J : Graph → Prop) (g : Graph) (post : α → Graph → Prop) :
    Except Error α × Graph → Prop
  | (r, h) => LawfulWith J h ∧ Lasting g h ∧ ∀ a, r = .ok a → post a h

section Ends
variable {α β : Type} {J J' : Graph → Prop} {g : Graph} {post : α → Graph → Prop}
  {post' : β → Graph → Prop}

theorem Ends.holds {r : Except Error α × Graph} (e : Ends J g post r) : LawfulWith J r.2 := e.1

theorem Ends.result {r : Except Error α × Graph} (e : Ends J g post r) {a : α} (ok : r.1 = .ok a) :
    post a r.2 := e.2.2 a ok

theorem Ends.bind {x : Edit α} {f : α → Edit β} (hx : Ends J g post (x.apply g))
    (ok : ∀ a h, x.apply g = (.ok a, h) → LawfulWith J h → Lasting g h → post a h →
      Ends J' g post' ((f a).apply h))
    (weaken : ∀ h, J h → J' h) : Ends J' g post' ((x >>= f).apply g) := by
  refine Edit.bind_elim (fun a h eq => ?_) fun e h eq => ?_
  · rw [eq] at hx
    exact ok a h eq hx.1 hx.2.1 (hx.2.2 a rfl)
  · rw [eq] at hx
    exact ⟨⟨hx.1.lawful, weaken h hx.1.holds⟩, hx.2.1, nofun⟩

theorem Ends.from {h : Graph} (a : Lasting g h) {r : Except Error α × Graph}
    (e : Ends J h post r) : Ends J g post r := ⟨e.1, a.trans e.2.1, e.2.2⟩

end Ends

section Loading
variable {strict : Bool} {r : Registry} {D : NodeDocument → Prop} {J : List NodeId → Graph → Prop}
  (k : KeptByLoading strict r D J) {stack : List NodeId} {g : Graph} {n : NodeId}
include k

theorem ends_loadHead (name : String) {d : NodeDocument} (hd : D d) (w : LawfulWith (J stack) g)
    (head : ∀ m ∈ stack.head?, m = n) :
    (∃ x h, (loadHead r n name d).apply g = (.error x, h) ∧ LawfulWith (J stack) h ∧ Lasting g h) ∨
    ∃ t id h, (loadHead r n name d).apply g = (.ok (t, id), h) ∧ LawfulWith (J (id :: stack)) h ∧
      Lasting g h ∧ g.around? id = none ∧ h.around? id = some n ∧
      (t.name = NodeType.network.name → (h.contents? id).isSome) := by
  rcases loadHead_apply k.sound n name d g with
    ⟨x, h, eq, spent⟩ | ⟨t, id, v, name', h, ht, hv, spent, a, eq⟩
  · exact .inl ⟨x, h, eq, w.quiet spent.quiet (k.spent _ _ _ spent w.holds), .of_spent spent⟩
  · have w₁ := w.quiet spent.quiet (k.spent _ _ _ spent w.holds)
    have x := inserted h (v.getD .null) a
    have new : h.around? id = none := by simp [around?, a.node?]
    refine .inr ⟨t, id, _, eq, ⟨x.lawful a w₁.lawful.wellFormed w₁.lawful.fitted,
        k.insert _ _ _ _ _ _ _ _ w₁.lawful hd ht hv head a w₁.holds⟩,
      (Lasting.of_spent spent).trans (.of_inserted a x), ?_, by rw [x.around, if_pos rfl], fun hn => ?_⟩
    · rwa [spent.sameFrame.around] at new
    · rw [x.contents, if_pos rfl, if_pos hn]
      rfl

/-- Wires are drawn in the innermost network. -/
theorem ends_loadConnections (cs : List ConnectionDocument) (w : LawfulWith (J (n :: stack)) g) :
    Ends (J (n :: stack)) g (fun _ _ => True) ((cs.forM (loadConnection n)).apply g) := by
  have kept : Edit.Keeps (fun h => LawfulWith (J (n :: stack)) h ∧ Lasting g h)
      (cs.forM (loadConnection n)) := by
    refine Edit.keeps_forM _ fun c _ => keeps_loadConnection n c fun h e h' ⟨w, last⟩ out _ ok => ?_
    have around := around?_of_find? w.lawful.wellFormed.tree out
    obtain ⟨m, d, rfl⟩ := drawable_of_connect ok
    obtain rfl : m = n := Option.some.inj (d.outputAround.symm.trans around)
    obtain ⟨g₁, g₂, g₃, g₄, x⟩ := drawn d w.lawful.wellFormed
    exact ⟨w.draw d (k.draw stack h m _ w.lawful d w.holds), last.trans (.of_sameTree x.tree)⟩
  have done := kept g ⟨w, .refl g⟩
  exact ⟨done.1, done.2, fun _ _ => trivial⟩

/-- The order of the ports comes after the wires. -/
theorem ends_arrange (names : List String) (w : LawfulWith (J (n :: stack)) g)
    (target : Target strict n g) :
    Ends (J (n :: stack)) g (fun _ _ => True)
      ((Edit.step (·.arrangeBoundary n names)).apply g) := by
  rw [Edit.apply_step]
  cases ok : g.arrangeBoundary n names with
  | error x => exact ⟨w, .refl g, nofun⟩
  | ok h =>
    refine ⟨w.arrange (fun wf ok hJ => k.arrange stack g h n names wf target ok hJ) ok, ?_,
      fun _ _ => trivial⟩
    rcases arranged w.lawful.wellFormed names ok with rfl | ⟨-, old, new, g₁, a, rfl⟩
    · exact .refl _
    · exact .of_sameTree (a.tree.trans (.of_sameFrame (sameFrame_emit _ _)))

omit k in
theorem sameFrame_loadValue (c : NodeId) (name : String) (j : Json) :
    SameFrame g ((loadValue c name j).apply g).2 :=
  keeps_loadValue (P := SameFrame g) c name j
    (fun _ _ _ _ a _ ok => a.trans (sameFrame_assign ok)) g (.refl g)

omit k in
theorem sameFrame_loadTable (c : NodeId) (ports : Table String Json) :
    SameFrame g ((ports.forM fun p => loadValue c p.1 p.2).apply g).2 :=
  Edit.keeps_forM (P := SameFrame g) _ (fun _ _ _ a => a.trans (sameFrame_loadValue _ _ _)) g (.refl g)

omit k in
theorem sameFrame_loadTables (loaded : List (NodeId × NodeDocument)) :
    SameFrame g ((loadTables loaded).apply g).2 :=
  Edit.keeps_forM (P := SameFrame g) _ (fun _ _ _ a => a.trans (sameFrame_loadTable _ _)) g (.refl g)

omit k

mutual
theorem ends_loadNode (k : KeptByLoading strict r D J) (stack : List NodeId) (n : NodeId)
    (name : String) (d : NodeDocument)
    (hd : D d) (g : Graph) (w : LawfulWith (J stack) g) (chain : g.Chained stack)
    (head : ∀ m ∈ stack.head?, m = n) :
    Ends (J stack) g (fun id h => g.around? id = none ∧ h.around? id = some n)
      ((loadNode r n name d).apply g) := by
  match d with
  | ⟨typeName, id, ports, attachment, inner⟩ =>
    rw [loadNode_eq]
    rcases ends_loadHead k name hd w head with
      ⟨x, h, eq, w', last⟩ | ⟨t, c, h, eq, w', last, new, around, network⟩
    · rw [Edit.apply_bind, eq]
      exact ⟨w', last, nofun⟩
    · rw [Edit.apply_bind_ok eq]
      have chain' : h.Chained (c :: stack) := chain.lasting last |>.push around head
      have e := ends_loadContents k stack t c inner (fun e he => k.inner _ e hd he) h w' chain' network
      refine (Ends.bind e (fun _ h' _ w'' last' _ => ?_) fun _ a => a).from last
      refine ⟨w'', last', fun id' ok => ?_⟩
      cases ok
      exact ⟨new, last'.around c n around⟩

theorem ends_loadContents (k : KeptByLoading strict r D J) (stack : List NodeId) (t : NodeType)
    (c : NodeId)
    (inner : Option (NetworkOf NodeDocument)) (hd : ∀ e, inner = some e → ∀ x ∈ e.nodes, D x.2)
    (g : Graph) (w : LawfulWith (J (c :: stack)) g) (chain : g.Chained (c :: stack))
    (network : t.name = NodeType.network.name → (g.contents? c).isSome) :
    Ends (J stack) g (fun _ _ => True) ((loadContents r t c inner).apply g) := by
  match inner with
  | none => exact ⟨⟨w.lawful, k.close _ _ _ w.holds⟩, .refl g, fun _ _ => trivial⟩
  | some e =>
    rw [loadContents]
    split
    · next hn => exact ends_loadInto k stack c e (hd e rfl) g w chain fun _ => network hn
    · exact ⟨⟨w.lawful, k.close _ _ _ w.holds⟩, .refl g, fun _ _ => trivial⟩

theorem ends_loadNodes (k : KeptByLoading strict r D J) (stack : List NodeId) (n : NodeId)
    (l : List (String × NodeDocument))
    (hd : ∀ x ∈ l, D x.2) (g : Graph) (w : LawfulWith (J stack) g) (chain : g.Chained stack)
    (head : ∀ m ∈ stack.head?, m = n) :
    Ends (J stack) g (fun loaded h =>
      (∀ x ∈ loaded, g.around? x.1 = none ∧ h.around? x.1 = some n ∧ D x.2) ∧
        (loaded.map Prod.fst).Nodup) ((loadNodes r n l).apply g) := by
  match l with
  | [] => exact ⟨w, .refl g, fun a ok => by cases ok; exact ⟨nofun, .nil⟩⟩
  | (name, d) :: rest =>
    rw [loadNodes]
    refine Ends.bind (ends_loadNode k stack n name d (hd _ List.mem_cons_self) g w chain head)
      (fun c h _ w' last first => ?_) fun _ a => a
    refine Ends.from last (Ends.bind
      (ends_loadNodes k stack n rest (fun x hx => hd x (List.mem_cons_of_mem _ hx)) h w'
      (chain.lasting last) head) (fun loaded h' _ w'' last' others => ?_) fun _ a => a)
    refine ⟨w'', last', fun a ok => ?_⟩
    cases ok
    refine ⟨fun x hx => ?_, ?_⟩
    · rcases List.mem_cons.1 hx with rfl | hx
      · exact ⟨first.1, last'.around _ _ first.2, hd _ List.mem_cons_self⟩
      · obtain ⟨new, around, doc⟩ := others.1 x hx
        exact ⟨last.absent new, around, doc⟩
    · refine List.nodup_cons.2 ⟨fun hc => ?_, others.2⟩
      obtain ⟨x, hx, rfl⟩ := List.mem_map.1 hc
      rw [(others.1 x hx).1] at first
      cases first.2

/-- Loading keeps what each of its steps keeps. -/
theorem ends_loadInto (k : KeptByLoading strict r D J) (stack : List NodeId) (n : NodeId)
    (d : NetworkOf NodeDocument)
    (hd : ∀ x ∈ d.nodes, D x.2) (g : Graph) (w : LawfulWith (J (n :: stack)) g)
    (chain : g.Chained (n :: stack)) (target : Target strict n g) :
    Ends (J stack) g (fun _ _ => True) ((loadInto r n d).apply g) := by
  match d with
  | ⟨nodes, connections, boundary⟩ =>
    rw [loadInto_eq]
    have closed (h : Graph) : J (n :: stack) h → J stack h := k.close stack h n
    refine Ends.bind (ends_loadNodes k (n :: stack) n nodes hd g w chain fun m hm => by cases hm; rfl)
      (fun loaded h _ w₁ last₁ ⟨there, nodup⟩ => .from last₁ ?_) closed
    refine Ends.bind (ends_loadConnections k connections w₁)
      (fun _ h₂ _ w₂ last₂ _ => .from last₂ ?_) closed
    have last := last₁.trans last₂
    refine Ends.bind (ends_arrange k boundary w₂ fun hs => last.network n (target hs))
      (fun _ h₃ _ w₃ last₃ _ => .from last₃ ?_) closed
    refine ⟨k.fill stack h₃ n loaded (chain.lasting (last.trans last₃)) (fun x hx => ?_) nodup w₃,
      Lasting.of_sameTree (.of_sameFrame (sameFrame_loadTables loaded)), fun _ _ => trivial⟩
    exact ⟨(last₂.trans last₃).around _ _ (there x hx).2.1, (there x hx).2.2⟩
end

end Loading

section Growth
variable {strict : Bool} {A : NodeType → Datablock → Prop} {I : Graph → Prop}
  (k : KeptByGrowth strict A I) {r : Registry}
include k

theorem keeps_loadTables (loaded : List (NodeId × NodeDocument)) :
    Edit.Keeps (LawfulWith I) (loadTables loaded) :=
  Edit.keeps_forM _ fun _ _ => Edit.keeps_forM _ fun _ _ => keeps_loadValue _ _ _ fun g p v _ w _ ok =>
    w.assign (k.assign g p v) ok

/-- What is kept by growth does not ask for networks that are not loaded to the end. -/
theorem KeptByGrowth.loading (sound : ∀ t values, A t values → t.Sound)
    (hr : ∀ name t, r.find? name = some t → A t (.ofType t)) :
    KeptByLoading strict r (fun _ => True) fun _ => I where
  sound := fun name t ht => sound t _ (hr name t ht)
  inner := fun _ _ _ _ _ _ => trivial
  spent := fun _ g h a hI => k.quiet g h a.quiet hI
  insert := fun _ g id n _ t _ name w _ ht _ _ a hI =>
    k.insert g id n t name _ _ w.wellFormed (hr _ t (Registry.find?_of_get ht)) a hI
  draw := fun _ => k.draw
  arrange := fun _ => k.arrange
  fill := fun _ _ _ loaded _ _ _ w => keeps_loadTables k loaded _ w
  close := fun _ _ _ hI => hI

/-- Networks in the document are arranged as networks, whatever the outermost target is. -/
theorem keeps_loadInto (sound : ∀ t values, A t values → t.Sound)
    (hr : ∀ name t, r.find? name = some t → A t (.ofType t)) {g : Graph} {n : NodeId}
    (target : Target strict n g) (d : NetworkOf NodeDocument) (w : LawfulWith I g) :
    LawfulWith I ((loadInto r n d).apply g).2 :=
  (ends_loadInto (k.loading sound hr) [] n d (fun _ _ => trivial) g w (.singleton n) target).1

end Growth

theorem spent_passOverIds (d : NetworkDocument) (g : Graph) :
    SpentId g ((passOverIds d).apply g).2 := by
  rw [passOverIds]
  cases d.largestId with
  | none => exact ⟨_, rfl⟩
  | some n => exact ⟨_, rfl⟩

/-- The new graph into which a document is loaded to replace what is in `g`. -/
def vacant (config : Config) (d : NetworkDocument) (g : Graph) : Graph :=
  let old := ((passOverIds d).apply g).2
  create config old.ids old.marks old.calls

theorem rebuild_apply (config : Config) (r : Registry) (d : NetworkDocument) (g : Graph) :
    (rebuild config r d).apply g =
      match (loadInto r (vacant config d g).root d).apply (vacant config d g) with
      | (.ok (), new) => (.ok new, ((passOverIds d).apply g).2)
      | (.error e, new) => (.error e, { ((passOverIds d).apply g).2 with ids := new.ids }) := by
  have passed : ((passOverIds d).apply g).1 = .ok () := by
    rw [passOverIds]
    cases d.largestId <;> rfl
  rw [rebuild, Edit.apply_bind, passed]
  simp only
  rw [Edit.apply_bind, Edit.apply_get]
  change Edit.apply (match (loadInto r (vacant config d g).root d).apply (vacant config d g) with
    | (.ok (), new) => pure new
    | (.error e, new) => _) _ = _
  rcases (loadInto r (vacant config d g).root d).apply (vacant config d g) with ⟨_ | _, new⟩ <;> rfl

/-- A graph is replaced by what was loaded into a new one, or only numbers are spent. -/
theorem restore_apply (r : Registry) (d : NetworkDocument) (g : Graph) :
    (restore r d).apply g =
      match (loadInto r (vacant g.config d g).root d).apply (vacant g.config d g) with
      | (.ok (), new) => (.ok (), { new with journal := g.journal }.emit .cleared)
      | (.error e, new) => (.error e, { g with ids := new.ids }) := by
  have passed : ∃ ids, ((passOverIds d).apply g).2 = { g with ids := ids } := spent_passOverIds d g
  obtain ⟨ids, passed⟩ := passed
  rw [restore, Edit.apply_bind, Edit.apply_get]
  simp only
  rw [Edit.apply_bind, rebuild_apply, passed]
  rcases (loadInto r (vacant g.config d g).root d).apply (vacant g.config d g) with ⟨_ | _, new⟩ <;> rfl

end Graph
end Dataflow
