import Dataflow.Proofs.Minor
set_option autoImplicit false

/-!
The numbers of loaded nodes. A document says of each of its nodes what number it had, or nothing.
Main statements: loading gives numbers in the order of the document, a stored number where there is one
and the next one of the supply elsewhere, as far as it goes; and it stops for a number that is in use
just where that is the next number to be given.
-/

namespace Dataflow

/-! ### The supply -/

namespace IdSupply

/-- The number of a node for which one is stored, or none. -/
def give (s : IdSupply) : Option UInt64 → NodeId × IdSupply
  | some n => (⟨n⟩, s.passOver n)
  | none => s.take

def giveAll (s : IdSupply) : List (Option UInt64) → List NodeId × IdSupply
  | [] => ([], s)
  | o :: l => ((s.give o).1 :: ((s.give o).2.giveAll l).1, ((s.give o).2.giveAll l).2)

/-- The numbers among them that come from the supply. -/
def drawn (s : IdSupply) : List (Option UInt64) → List NodeId
  | [] => []
  | some n :: l => (s.passOver n).drawn l
  | none :: l => s.take.1 :: s.take.2.drawn l

variable (s : IdSupply) (l m : List (Option UInt64))

theorem giveAll_append : s.giveAll (l ++ m) =
    ((s.giveAll l).1 ++ ((s.giveAll l).2.giveAll m).1, ((s.giveAll l).2.giveAll m).2) := by
  induction l generalizing s with
  | nil => rfl
  | cons o l ih => simp only [List.cons_append, giveAll, ih]

/-- Each number that is given is stored or comes from the supply. -/
theorem giveAll_perm : (s.giveAll l).1.Perm ((l.filterMap id).map NodeId.mk ++ s.drawn l) := by
  induction l generalizing s with
  | nil => exact .nil
  | cons o l ih =>
    cases o with
    | some n => exact (ih (s.passOver n)).cons _
    | none => exact ((ih s.take.2).cons _).trans List.perm_middle.symm

end IdSupply

mutual
/-- What the document says of the numbers of the node and of those in it, in the order in which they
come. -/
def NodeDocument.numbers : NodeDocument → List (Option UInt64)
  | ⟨_, id, _, _, none⟩ => [id]
  | ⟨_, id, _, _, some ⟨nodes, _, _⟩⟩ => id :: numbersIn nodes

def numbersIn : List (String × NodeDocument) → List (Option UInt64)
  | [] => []
  | (_, d) :: rest => d.numbers ++ numbersIn rest
end

def NetworkOf.numbers (d : NetworkDocument) : List (Option UInt64) := numbersIn d.nodes

namespace Graph

mutual
/-- The node of the document, with the number that it gets from the supply, stands in the network `n`, and
its nodes stand in it. -/
def Stands (h : Graph) (n : NodeId) (s : IdSupply) : NodeDocument → Prop
  | ⟨_, id, _, _, none⟩ => h.around? (s.give id).1 = some n
  | ⟨_, id, _, _, some ⟨nodes, _, _⟩⟩ =>
    h.around? (s.give id).1 = some n ∧ h.StandIn (s.give id).1 (s.give id).2 nodes

def StandIn (h : Graph) (n : NodeId) (s : IdSupply) : List (String × NodeDocument) → Prop
  | [] => True
  | (_, d) :: rest => h.Stands n s d ∧ h.StandIn n (s.giveAll d.numbers).2 rest
end

mutual
theorem Stands.lasting {g h : Graph} (last : Lasting g h) {n : NodeId} {s : IdSupply}
    {d : NodeDocument} (a : g.Stands n s d) : h.Stands n s d := by
  match d with
  | ⟨_, id, _, _, none⟩ => exact last.around _ _ a
  | ⟨_, id, _, _, some ⟨nodes, _, _⟩⟩ => exact ⟨last.around _ _ a.1, StandIn.lasting last a.2⟩

theorem StandIn.lasting {g h : Graph} (last : Lasting g h) {n : NodeId} {s : IdSupply}
    {l : List (String × NodeDocument)} (a : g.StandIn n s l) : h.StandIn n s l := by
  match l with
  | [] => trivial
  | (_, d) :: rest => exact ⟨Stands.lasting last a.1, StandIn.lasting last a.2⟩
end

/-! ### Errors of other kinds -/

/-- The result is not that a number is in use. -/
def NoClash {α : Type} (x : Except Error α) : Prop := ∀ id, x ≠ .error (.duplicateId id)

section NoClash
variable {α β : Type}

@[simp]
theorem noClash_ok (a : α) : NoClash (.ok a : Except Error α) := by simp [NoClash]

@[simp]
theorem noClash_error_iff {e : Error} :
    NoClash (.error e : Except Error α) ↔ ∀ id, e ≠ .duplicateId id := by simp [NoClash]

@[simp]
theorem noClash_throw_iff {e : Error} :
    NoClash (throw e : Except Error α) ↔ ∀ id, e ≠ .duplicateId id := noClash_error_iff

theorem noClash_bind {x : Except Error α} {f : α → Except Error β} (hx : NoClash x)
    (hf : ∀ a, NoClash (f a)) : NoClash (x >>= f) := by
  cases x with
  | ok a => exact hf a
  | error e =>
    intro id clash
    cases clash
    exact hx id rfl

theorem noClash_ite {c : Prop} [Decidable c] {x y : Except Error α} (hx : NoClash x)
    (hy : NoClash y) : NoClash (if c then x else y) := by
  split
  · exact hx
  · exact hy

/-- A check that throws some other error, and what comes after it. -/
theorem noClash_guard {c : Prop} [Decidable c] {e : Error} (he : ∀ id, e ≠ .duplicateId id)
    {f : α → Except Error β} {x : Except Error β} (hx : NoClash x) :
    NoClash (if c then (throw e : Except Error α) >>= f else x) := by
  refine noClash_ite (fun id clash => ?_) hx
  cases clash
  exact he id rfl

variable (g : Graph)

theorem noClash_node (n : NodeId) : NoClash (g.node n) := by
  rw [node]
  split <;> simp

theorem noClash_network (n : NodeId) : NoClash (g.network n) :=
  noClash_bind (g.noClash_node n) fun m => by split <;> simp

theorem noClash_slot (p : Port) : NoClash (g.slot p) :=
  noClash_bind (g.noClash_node _) fun m => by split <;> simp [Error.noPort]

theorem noClash_port (n : NodeId) (name : String) : NoClash (g.port n name) :=
  noClash_bind (g.noClash_node n) fun m => by split <;> simp

theorem noClash_resolved (p : Port) : NoClash (g.resolved p) := by
  rw [resolved]
  split <;> simp

theorem noClash_freeName (n : NodeId) (name : String) : NoClash (g.freeName n name) := by
  rw [freeName]
  refine noClash_ite (noClash_ok _) (noClash_guard (by simp) ?_)
  refine noClash_bind (g.noClash_network n) fun w => ?_
  dsimp only
  split
  · exact noClash_ok _
  · exact noClash_throw_iff.2 (by simp)

theorem noClash_checkConnect (e : Edge) : NoClash (g.checkConnect e) := by
  have expect (d : Direction) (p : Port) : NoClash (g.expect d p) :=
    noClash_bind (g.noClash_slot p) fun s =>
      noClash_ite (noClash_ok _) (noClash_throw_iff.2 (by simp))
  have types (t u : PortType) : NoClash (checkTypes t u) := by
    rw [checkTypes.eq_def]
    split
    · simp
    · exact noClash_ite (noClash_ok _) (noClash_error_iff.2 (by simp [Error.mismatch]))
    · exact noClash_ok _
  have growth (side : Direction) (p : Port) : NoClash (g.checkGrowth side p) := by
    rw [checkGrowth]
    refine noClash_ite (noClash_bind (g.noClash_node _) fun m => ?_) (by simp)
    split
    · exact noClash_bind (g.noClash_node _) fun m =>
        noClash_ite (noClash_throw_iff.2 (by simp)) (noClash_ok _)
    · simp
  rw [checkConnect]
  refine noClash_bind (expect _ _) fun _ => noClash_bind (expect _ _) fun _ => ?_
  refine noClash_guard (by simp) (noClash_guard (by simp) ?_)
  refine noClash_bind (types _ _) fun _ => noClash_guard (by simp) ?_
  exact noClash_bind (growth _ _) fun _ => growth _ _

theorem noClash_connect (o i : Port) : NoClash (g.connect o i) :=
  noClash_bind (g.noClash_checkConnect _) fun _ => noClash_ok _

theorem noClash_arrangeBoundary (n : NodeId) (names : List String) :
    NoClash (g.arrangeBoundary n names) :=
  noClash_bind (g.noClash_node n) fun _ => noClash_ite (noClash_ok _) (noClash_ok _)

theorem noClash_decode (t : PortType) (v : Json) : NoClash (PortType.decode t v) := by
  rw [PortType.decode.eq_def]
  split
  · simp [Error.undecodable]
  · split <;> simp [Error.malformed]

theorem noClash_assign (p : Port) (v : Value) : NoClash (g.assign p v) := by
  refine noClash_bind ?_ fun s => noClash_ite (noClash_ok _) (noClash_ok _)
  rw [checkAssign]
  refine noClash_bind (g.noClash_slot p) fun s => ?_
  refine noClash_guard (by simp) (noClash_guard (by simp) ?_)
  exact noClash_bind (g.noClash_resolved p) fun t =>
    noClash_guard (by simp [Error.mismatch]) (noClash_ok _)

end NoClash

/-! ### What steps issue -/

/-- The numbers of `l` have been given to new nodes, and no node has gone or moved. -/
structure Issue (l : List (Option UInt64)) (g h : Graph) : Prop where
  lawful : h.Lawful
  last : Lasting g h
  root : h.root = g.root
  keys : h.nodes.keys = g.nodes.keys ++ (g.ids.giveAll l).1
  ids : h.ids = (g.ids.giveAll l).2

/-- Only the first numbers of `l` have been given, and one more may be spent. If the error is that a
number is in use, it is the next one. -/
def Halt (l : List (Option UInt64)) (e : Error) (g h : Graph) : Prop :=
  ∃ p rest, l = p ++ rest ∧ h.nodes.keys = g.nodes.keys ++ (g.ids.giveAll p).1 ∧
    (h.ids = (g.ids.giveAll p).2 ∨ ∃ o m, rest = o :: m ∧ h.ids = (g.ids.giveAll (p ++ [o])).2) ∧
    ∀ id, e = .duplicateId id →
      ∃ o m, rest = o :: m ∧ id = ((g.ids.giveAll p).2.give o).1 ∧ id ∈ h.nodes.keys

/-- How an edit ends that gives the numbers of `l`. -/
inductive Issued {α : Type} (l : List (Option UInt64)) (g : Graph) (post : α → Graph → Prop) :
    Except Error α × Graph → Prop
  | done {a : α} {h : Graph} (issue : Issue l g h) (holds : post a h) : Issued l g post (.ok a, h)
  | halt {e : Error} {h : Graph} (halt : Halt l e g h) : Issued l g post (.error e, h)

section Issue
variable {l m : List (Option UInt64)} {g h k : Graph} {e : Error}

theorem Issue.refl (w : g.Lawful) : Issue [] g g := ⟨w, .refl g, rfl, by simp [IdSupply.giveAll], rfl⟩

theorem Issue.trans (a : Issue l g h) (b : Issue m h k) : Issue (l ++ m) g k where
  lawful := b.lawful
  last := a.last.trans b.last
  root := b.root.trans a.root
  keys := by
    rw [b.keys, a.keys, a.ids, IdSupply.giveAll_append, List.append_assoc]
  ids := by
    rw [b.ids, a.ids, IdSupply.giveAll_append]

theorem Issue.halt (a : Issue l g h) (b : Halt m e h k) : Halt (l ++ m) e g k := by
  obtain ⟨p, rest, rfl, keys, ids, clash⟩ := b
  refine ⟨l ++ p, rest, by rw [List.append_assoc], ?_, ?_, fun id he => ?_⟩
  · rw [keys, a.keys, a.ids, IdSupply.giveAll_append, List.append_assoc]
  · rw [a.ids] at ids
    simpa [IdSupply.giveAll_append, List.append_assoc] using ids
  · obtain ⟨o, m, eq, next, known⟩ := clash id he
    rw [a.ids] at next
    exact ⟨o, m, eq, by rw [next, IdSupply.giveAll_append], known⟩

theorem Halt.more (a : Halt l e g h) (m : List (Option UInt64)) : Halt (l ++ m) e g h := by
  obtain ⟨p, rest, rfl, keys, ids, clash⟩ := a
  refine ⟨p, rest ++ m, by rw [List.append_assoc], keys, ?_, fun id he => ?_⟩
  · rcases ids with ids | ⟨o, m', rfl, ids⟩
    · exact .inl ids
    · exact .inr ⟨o, m' ++ m, rfl, ids⟩
  · obtain ⟨o, m', rfl, next, known⟩ := clash id he
    exact ⟨o, m' ++ m, rfl, next, known⟩

/-- No number has been spent. -/
theorem Halt.idle (l : List (Option UInt64)) (clash : ∀ id, e ≠ .duplicateId id) : Halt l e g g :=
  ⟨[], l, rfl, by simp [IdSupply.giveAll], .inl rfl, fun id he => absurd he (clash id)⟩

variable {α β : Type} {post : α → Graph → Prop} {post' : β → Graph → Prop}

theorem Issued.bind {x : Edit α} {f : α → Edit β} (first : Issued l g post (x.apply g))
    (rest : ∀ a h, Issue l g h → post a h → Issued m h post' ((f a).apply h)) :
    Issued (l ++ m) g post' ((x >>= f).apply g) := by
  rw [Edit.apply_bind]
  generalize x.apply g = r at *
  cases first with
  | halt stop => exact .halt (stop.more m)
  | @done a h issue holds =>
    have later := rest a h issue holds
    simp only
    generalize (f a).apply h = r at later
    cases later with
    | done issue' holds' => exact .done (issue.trans issue') holds'
    | halt stop => exact .halt (issue.halt stop)

theorem Issued.mono {r : Except Error α × Graph} {post' : α → Graph → Prop}
    (a : Issued l g post r) (more : ∀ a h, Issue l g h → post a h → post' a h) :
    Issued l g post' r := by
  cases a with
  | done issue holds => exact .done issue (more _ _ issue holds)
  | halt stop => exact .halt stop

end Issue

/-! ### Steps that give no number -/

/-- What leaves nodes and numbers as they are. -/
theorem finishing : Finishing fun g h => g.Lawful → h.Lawful ∧ SameTree g h ∧ h.ids = g.ids where
  refl := fun g w => ⟨w, .of_sameFrame (.refl g), rfl⟩
  trans := fun a b w =>
    have first := a w
    have second := b first.1
    ⟨second.1, first.2.1.trans second.2.1, second.2.2.trans first.2.2⟩
  connect := fun g o i h ok w => by
    obtain ⟨n, d, rfl⟩ := drawable_of_connect ok
    obtain ⟨g₁, g₂, g₃, g₄, x⟩ := drawn d w.wellFormed
    exact ⟨⟨x.wellFormed d w.wellFormed, x.fitted d w.wellFormed w.fitted⟩, x.tree, g.ids_drawWire _⟩
  arrange := fun g n names h ok w => by
    refine ⟨lawful_arrange w names ok, ?_, (minor_arrangeBoundary g ok).ids⟩
    rcases arranged w.wellFormed names ok with rfl | ⟨-, old, new, g₁, a, rfl⟩
    · exact .of_sameFrame (.refl _)
    · exact a.tree.trans (.of_sameFrame (sameFrame_emit _ _))
  assign := fun g p v h ok w =>
    have frame := sameFrame_assign ok
    ⟨frame.lawful w, .of_sameFrame frame, (minor_assign ok).ids⟩

theorem issued_of_leads {x : Edit Unit} {g : Graph} (w : g.Lawful)
    (leads : Edit.Leads (fun g h => g.Lawful → h.Lawful ∧ SameTree g h ∧ h.ids = g.ids) x)
    (clash : NoClash (x.apply g).1) : Issued [] g (fun _ _ => True) (x.apply g) := by
  obtain ⟨lawful, tree, ids⟩ := leads g w
  rcases hx : x.apply g with ⟨e | u, h⟩
  · rw [hx] at tree ids clash
    exact .halt ⟨[], [], rfl, by simp [IdSupply.giveAll, tree.keys], .inl ids,
      fun id he => absurd (congrArg Except.error he) (clash id)⟩
  · rw [hx] at tree ids lawful
    exact .done ⟨lawful, .of_sameTree tree, tree.root, by simp [IdSupply.giveAll, tree.keys], ids⟩ trivial

section Finish
variable (n : NodeId)

theorem noClash_bind_edit {x : Edit Unit} {f : Unit → Edit Unit} (hx : ∀ g, NoClash (x.apply g).1)
    (hf : ∀ a g, NoClash ((f a).apply g).1) (g : Graph) : NoClash ((x >>= f).apply g).1 := by
  refine Edit.bind_elim (motive := fun r => NoClash r.1) (fun a h _ => hf a h) fun e h eq => ?_
  have := hx g
  rwa [eq] at this

theorem noClash_forM {β : Type} {f : β → Edit Unit} (hf : ∀ b g, NoClash ((f b).apply g).1)
    (l : List β) : ∀ g, NoClash ((l.forM f).apply g).1 := by
  induction l with
  | nil => exact fun g => noClash_ok _
  | cons b l ih => exact noClash_bind_edit (hf b) fun _ => ih

theorem noClash_step {f : Graph → Except Error Graph} (hf : ∀ g, NoClash (f g)) (g : Graph) :
    NoClash ((Edit.step f).apply g).1 := by
  rw [Edit.apply_step]
  have clash := hf g
  cases ok : f g with
  | ok h => exact noClash_ok _
  | error e =>
    intro id he
    cases he
    exact clash id ok

theorem noClash_loadConnections (cs : List ConnectionDocument) (g : Graph) :
    NoClash ((cs.forM (loadConnection n)).apply g).1 := by
  have named (g : Graph) (name : String) : NoClash (g.childNamed n name) := by
    rw [childNamed]
    split <;> simp
  refine noClash_forM (fun c => noClash_step fun g => ?_) cs g
  refine noClash_bind (named g _) fun o => noClash_bind (named g _) fun i => ?_
  refine noClash_bind (g.noClash_port _ _) fun _ => noClash_bind (g.noClash_port _ _) fun _ => ?_
  exact g.noClash_connect _ _

theorem noClash_finish (names : List String) (loaded : List (NodeId × NodeDocument)) (g : Graph) :
    NoClash ((do Edit.step (·.arrangeBoundary n names); loadTables loaded : Edit Unit).apply g).1 := by
  refine noClash_bind_edit (noClash_step fun g => g.noClash_arrangeBoundary n names) (fun _ => ?_) g
  refine noClash_forM (fun x => noClash_forM (fun p => noClash_step fun g => ?_) _) loaded
  refine noClash_bind (g.noClash_port _ _) fun _ => noClash_bind (g.noClash_resolved _) fun t => ?_
  exact noClash_bind (noClash_decode _ _) fun v => g.noClash_assign _ v

end Finish

/-! ### Loading -/

theorem numbers_eq (d : NodeDocument) :
    d.numbers = d.id :: d.network.elim [] fun e => numbersIn e.nodes := by
  obtain ⟨t, id, ports, attachment, inner⟩ := d
  rcases inner with _ | ⟨nodes, connections, boundary⟩ <;> rfl

theorem stands_iff {h : Graph} {n : NodeId} {s : IdSupply} {d : NodeDocument} :
    h.Stands n s d ↔ h.around? (s.give d.id).1 = some n ∧
      ∀ e, d.network = some e → h.StandIn (s.give d.id).1 (s.give d.id).2 e.nodes := by
  obtain ⟨t, id, ports, attachment, inner⟩ := d
  rcases inner with _ | ⟨nodes, connections, boundary⟩ <;> simp [Stands]

/-- What becomes of the supply where a stored number is kept. -/
theorem numbering_keptId (g : Graph) (d : Option UInt64) (v : Option Value) :
    ∃ id s, (keptId d).apply g = (.ok id, { g with ids := s }) ∧ (s = g.ids ∨ s = (g.ids.give d).2) ∧
      numbering ⟨id, v, none⟩ s = g.ids.give d := by
  cases d with
  | none => exact ⟨none, g.ids, rfl, .inl rfl, rfl⟩
  | some x => exact ⟨some ⟨x⟩, g.ids.passOver x, rfl, .inr rfl, rfl⟩

section Load
variable {r : Registry}

theorem issued_loadHead (sound : ∀ name t, r.find? name = some t → t.Sound) (n : NodeId)
    (name : String) (d : NodeDocument) {g : Graph} (w : g.Lawful) :
    Issued [d.id] g (fun new h => new.2 = (g.ids.give d.id).1 ∧ h.around? new.2 = some n)
      ((loadHead r n name d).apply g) := by
  -- only the number that is next has been spent
  have spent {e : Error} {s : IdSupply} (hs : s = g.ids ∨ s = (g.ids.give d.id).2)
      (clash : ∀ id, e = .duplicateId id → id = (g.ids.give d.id).1 ∧ id ∈ g.nodes.keys) :
      Halt [d.id] e g { g with ids := s } := by
    refine ⟨[], [d.id], rfl, by simp [IdSupply.giveAll], ?_, fun id he => ⟨_, [], rfl, clash id he⟩⟩
    rcases hs with hs | hs
    · exact .inl hs
    · exact .inr ⟨_, [], rfl, hs⟩
  rw [loadHead, Edit.apply_bind, Edit.apply_look]
  cases ht : r.get d.typeName with
  | error x =>
    refine .halt (.idle _ fun id he => ?_)
    simp only [Registry.get] at ht
    split at ht <;> cases ht
    cases he
  | ok t =>
    have known := Registry.find?_of_get ht
    simp only
    rw [Edit.apply_bind, Edit.apply_look]
    cases hv : readAttachment r d.attachment with
    | error x =>
      refine .halt (.idle _ fun id he => ?_)
      have clash : NoClash (readAttachment r d.attachment) := by
        rw [readAttachment.eq_def]
        split
        · exact noClash_ok _
        · refine noClash_bind ?_ fun t => noClash_bind (noClash_decode _ _) fun v => noClash_ok _
          rw [Registry.getData]
          split <;> simp
      exact clash id (by rw [hv, he])
    | ok v =>
      simp only
      obtain ⟨id, s, kept, hs, number⟩ := numbering_keptId g d.id v
      rw [Edit.apply_bind_ok kept, Edit.apply_bind]
      have cases := addNode_cases { g with ids := s } n t name ⟨id, v, none⟩ (sound _ t known)
      simp only [number] at cases
      rcases cases with ⟨x, refused, eq⟩ | ⟨taken, eq⟩ | ⟨a, b, eq⟩ | ⟨name', insertable, eq⟩
      · rw [eq]
        refine .halt (spent hs fun id he => ?_)
        rcases refused with network | free
        · exact absurd (network.trans (congrArg _ he)) (noClash_network _ n id)
        · exact absurd (free.trans (congrArg _ he)) (noClash_freeName _ n name id)
      · rw [eq]
        refine .halt (spent (.inr rfl) fun id he => ?_)
        cases he
        exact ⟨rfl, taken⟩
      · rw [eq]
        exact .halt (spent (.inr rfl) fun id he => by cases he)
      · rw [eq]
        have w' : ({ g with ids := (g.ids.give d.id).2 } : Graph).Lawful :=
          SpentId.sameFrame ⟨_, rfl⟩ |>.lawful w
        have x := inserted _ (v.getD .null) insertable
        refine .done ⟨x.lawful insertable w'.wellFormed w'.fitted, ?_, x.root, ?_, rfl⟩ ⟨rfl, ?_⟩
        · exact (Lasting.of_spent ⟨_, rfl⟩).trans (.of_inserted insertable x)
        · exact x.keys
        · rw [x.around, if_pos rfl]

mutual
theorem issued_loadNode (sound : ∀ name t, r.find? name = some t → t.Sound) (n : NodeId)
    (name : String) (d : NodeDocument) {g : Graph} (w : g.Lawful) :
    Issued d.numbers g (fun _ h => h.Stands n g.ids d) ((loadNode r n name d).apply g) := by
  match d with
  | ⟨typeName, id, ports, attachment, inner⟩ =>
    rw [loadNode_eq, numbers_eq, ← List.append_nil (Option.elim ..)]
    refine (issued_loadHead sound n name _ w).bind fun new h issue ⟨number, around⟩ => ?_
    refine (issued_loadContents sound new.1 new.2 inner issue.lawful).bind fun _ k issue' stand => ?_
    refine .done (.refl issue'.lawful) (stands_iff.2 ⟨?_, fun e he => ?_⟩)
    · rw [← number]
      exact issue'.last.around _ _ around
    · rw [← number]
      have ids : h.ids = (g.ids.give id).2 := issue.ids
      rw [← ids]
      exact stand e he

theorem issued_loadContents (sound : ∀ name t, r.find? name = some t → t.Sound) (t : NodeType)
    (c : NodeId) (inner : Option (NetworkOf NodeDocument)) {g : Graph} (w : g.Lawful) :
    Issued (inner.elim [] fun e => numbersIn e.nodes) g
      (fun _ h => ∀ e, inner = some e → h.StandIn c g.ids e.nodes)
      ((loadContents r t c inner).apply g) := by
  match inner with
  | none => exact .done (.refl w) (by simp)
  | some d =>
    rw [loadContents]
    split
    · exact (issued_loadInto sound c d w).mono fun _ h _ stand e he => by cases he; exact stand
    · exact .halt (.idle _ (by simp))

theorem issued_loadNodes (sound : ∀ name t, r.find? name = some t → t.Sound) (n : NodeId)
    (l : List (String × NodeDocument)) {g : Graph} (w : g.Lawful) :
    Issued (numbersIn l) g (fun _ h => h.StandIn n g.ids l) ((loadNodes r n l).apply g) := by
  match l with
  | [] => exact .done (.refl w) trivial
  | (name, d) :: rest =>
    rw [loadNodes, numbersIn, ← List.append_nil (numbersIn rest)]
    refine (issued_loadNode sound n name d w).bind fun c h issue first => ?_
    refine (issued_loadNodes sound n rest issue.lawful).bind fun _ k issue' others => ?_
    rw [issue.ids] at others
    exact .done (.refl issue'.lawful) ⟨first.lasting issue'.last, others⟩

/-- Loading gives the numbers in the order of the document. -/
theorem issued_loadInto (sound : ∀ name t, r.find? name = some t → t.Sound) (n : NodeId)
    (d : NetworkOf NodeDocument) {g : Graph} (w : g.Lawful) :
    Issued (numbersIn d.nodes) g (fun _ h => h.StandIn n g.ids d.nodes)
      ((loadInto r n d).apply g) := by
  match d with
  | ⟨nodes, connections, boundary⟩ =>
    rw [loadInto_eq, ← List.append_nil (numbersIn _), ← List.append_nil []]
    refine (issued_loadNodes sound n nodes w).bind fun loaded h issue stand => ?_
    have wires := issued_of_leads issue.lawful (leads_loadConnections finishing n connections)
      (noClash_loadConnections n connections h)
    refine wires.bind fun _ k issue' _ => ?_
    have finish := issued_of_leads issue'.lawful (leads_finish finishing n boundary loaded)
      (noClash_finish n boundary loaded k)
    exact finish.mono fun _ h' issue'' _ => stand.lasting (issue'.last.trans issue''.last)
end

end Load

end Graph
end Dataflow
