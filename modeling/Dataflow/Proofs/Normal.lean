import Dataflow.Proofs.Pristine
import Dataflow.Proofs.Reload
set_option autoImplicit false

/-!
Loading of documents that no graph has written. Values are stored once at a port, and only where they
differ from what is there, so what a port holds can be told from what it starts with. Main statement:
a graph that has been loaded has a document that comes back as it is, whatever it was loaded from.
-/

namespace Dataflow

/-- Types stand under their own names, those that are named as parts of networks are these parts, and
defaults are of the declared types. -/
structure Registry.Fit (reg : Registry) : Prop where
  name : ∀ name t, reg.find? name = some t → t.name = name
  fits : ∀ name t, reg.find? name = some t → Graph.Fits t (.ofType t)

/-- Each port is named once, also in nested documents. -/
inductive NodeDocument.Tidy : NodeDocument → Prop where
  | intro (d : NodeDocument) (ports : d.ports.keys.Nodup)
    (inner : ∀ e, d.network = some e → ∀ x ∈ e.nodes, NodeDocument.Tidy x.2) :
    NodeDocument.Tidy d

theorem NodeDocument.Tidy.inner {d : NodeDocument} (a : d.Tidy) {e : NetworkDocument}
    (h : d.network = some e) : ∀ x ∈ e.nodes, x.2.Tidy := by
  cases a with
  | intro _ _ inner => exact inner e h

theorem NodeDocument.Tidy.ports {d : NodeDocument} (a : d.Tidy) : d.ports.keys.Nodup := by
  cases a with
  | intro _ ports _ => exact ports

theorem Registry.data?_name {reg : Registry} {name : String} {t : DataType}
    (h : reg.data? name = some t) : reg.data? t.name = some t := by
  have := List.find?_some h
  rwa [of_decide_eq_true this]

/-- What is read as data of a type is of that type. -/
theorem DataType.dataType_of_decode? {t : DataType} {j : Json} {x : Payload}
    (h : t.decode? j = some x) : x.dataType = t := by
  cases t with
  | bool | string =>
    simp only [decode?] at h
    split at h
    · cases h
      rfl
    · cases h
  | floatArray =>
    simp only [decode?] at h
    split at h
    · obtain ⟨y, -, rfl⟩ := Option.map_eq_some_iff.1 h
      rfl
    · cases h
  | point =>
    simp only [decode?, Option.bind_eq_bind] at h
    split at h
    · obtain ⟨y, -, h⟩ := Option.bind_eq_some_iff.1 h
      obtain ⟨z, -, h⟩ := Option.bind_eq_some_iff.1 h
      cases h
      rfl
    · obtain ⟨y, -, h⟩ := Option.bind_eq_some_iff.1 h
      obtain ⟨z, -, h⟩ := Option.bind_eq_some_iff.1 h
      cases h
      rfl
    · cases h
  | _ =>
    obtain ⟨y, -, rfl⟩ := Option.map_eq_some_iff.1 h
    rfl

namespace Graph
variable {g h : Graph} {n : NodeId} {stack : List NodeId} {reg : Registry}

/-! ### Known types -/

/-- What is read as an attachment is of a known type. -/
theorem data?_of_readAttachment {a : Option AttachmentDocument} {v : Option Value} {x : Payload}
    (ok : readAttachment reg a = .ok v) (hx : (v.getD .null).payload? = some x) :
    reg.data? x.dataType.name = some x.dataType := by
  cases a with
  | none =>
    cases ok
    cases hx
  | some b =>
    simp only [readAttachment, Registry.getData, bind, Except.bind] at ok
    cases known : reg.data? b.typeName with
    | none => simp [known] at ok
    | some t =>
      simp only [known, PortType.decode] at ok
      cases read : t.decode? b.value with
      | none => simp [read] at ok
      | some y =>
        simp only [read] at ok
        cases ok
        cases hx
        rw [DataType.dataType_of_decode? read]
        exact Registry.data?_name known

/-- Ports and wires of networks may change, other nodes and what is left with them may not. -/
theorem knows_of_tree (k : reg.Knows g) (tree : SameTree g h) (note : h.note? = g.note?)
    (type : ∀ m, g.contents? m = none → h.type? m = g.type? m) : reg.Knows h where
  types := fun m t ht leaf => by
    have leaf' : g.contents? m = none := by
      rw [← Option.not_isSome_iff_eq_none, ← tree.network, leaf]
      simp
    rw [type m leaf'] at ht
    exact k.types m t ht leaf'
  networks := fun m hm around => by
    rw [tree.network] at hm
    rw [tree.around] at around
    exact k.networks m hm around
  data := fun m x hx => by
    rw [note] at hx
    exact k.data m x hx

theorem knows_insert {id : NodeId} {t : NodeType} {d : NodeDocument} {v : Option Value} {name : String}
    (fit : reg.Fit) (ht : reg.get d.typeName = .ok t) (hv : readAttachment reg d.attachment = .ok v)
    (a : Insertable id n t name (.ofType t) g) (k : reg.Knows g) :
    reg.Knows (g.insert id n t name (.ofType t) (v.getD .null)) := by
  have x := inserted g (v.getD .null) a
  have found : reg.find? t.name = some t := by
    have := Registry.find?_of_get ht
    rwa [fit.name _ _ this]
  refine ⟨fun m u hu leaf => ?_, fun m inside around => ?_, fun m y hy => ?_⟩
  · by_cases hm : m = id
    · rw [x.type, if_pos hm, Option.some.injEq] at hu
      rwa [← hu]
    · rw [x.type, if_neg hm] at hu
      refine k.types m u hu ?_
      rw [← Option.not_isSome_iff_eq_none, ← x.network_old hm, leaf]
      simp
  · by_cases hm : m = id
    · rw [x.contents, if_pos hm] at inside
      have named : t.name = NodeType.network.name := by
        by_contra other
        simp [other] at inside
      rw [named, (fit.fits _ _ found).standard.network named] at found
      exact found
    · rw [x.network_old hm] at inside
      rw [x.around, if_neg hm] at around
      exact k.networks m inside around
  · rw [note?_insert] at hy
    split at hy
    · exact data?_of_readAttachment hv hy
    · exact k.data m y hy

/-! ### What values tell -/

/-- A port that holds something starts with something, which is what it holds if the two agree. -/
def Told (g : Graph) : Prop :=
  ∀ p y, g.value p = some y → ∃ x, g.Starts p x ∧ (x.agrees y = true → x = y)

theorem Told.carry (k : g.Told) (c : Carries n g h) : h.Told := by
  intro p y hy
  rcases c p y hy with starts | ⟨q, hq, -, starts⟩
  · exact ⟨y, starts, fun _ => rfl⟩
  · obtain ⟨x, hx, same⟩ := k q y hq
    exact ⟨x, starts x hx, same⟩

theorem Told.discernible (k : g.Told) (m : g.Matching) (w : g.Wired) : g.Discernible := by
  intro p x y _ hy hx agrees
  obtain ⟨z, hz, same⟩ := k p y hy
  rw [m.starts_unique w hx hz] at agrees ⊢
  rw [same agrees]

/-! ### While a document is loaded -/

/-- What a graph is that a document is being loaded into. -/
structure Receiving (reg : Registry) (stack : List NodeId) (g : Graph) : Prop extends Pristine g where
  known : reg.Knows g
  told : g.Told
  unset : Unset stack g

theorem Receiving.start (config : Config) (ids : IdSupply) (marks : Nat) (calls : Table Nat Nat)
    (stack : List NodeId) : Receiving reg stack (create config ids marks calls) := by
  have bare (p : Port) : (create config ids marks calls).value p = none := by
    refine value_eq_none ?_
    rw [attr?, slot?_create]
    rfl
  have note (m : NodeId) : (create config ids marks calls).note? m = none := by
    rw [note?, node?_create]
    split <;> rfl
  refine ⟨pristine_create config ids marks calls, ⟨fun m t ht leaf => ?_, fun m _ around => ?_,
    fun m x hx => ?_⟩, fun p y hy => ?_, fun p y _ hy => ?_⟩
  · -- the one node that there is is a network
    rw [type?, node?_create] at ht
    rw [contents?, node?_create] at leaf
    split at ht
    · next same =>
      rw [if_pos same] at leaf
      cases leaf
    · cases ht
  · rw [around?_create] at around
    cases around
  · rw [note] at hx
    cases hx
  · rw [bare] at hy
    cases hy
  · rw [bare] at hy
    cases hy

theorem Receiving.quiet (k : Receiving reg stack g) (a : Quiet g h) (note : h.note? = g.note?) :
    Receiving reg stack h where
  toPristine := a.pristine k.toPristine
  known := knows_of_tree k.known (.of_sameFrame a.frame) note fun _ _ => by rw [a.frame.type]
  told := k.told.carry ((Carries.refl g.root g).quiet a)
  unset := k.unset.same a.frame fun p _ => by rw [a.value]

theorem Receiving.insert {id : NodeId} {t : NodeType} {d : NodeDocument} {v : Option Value}
    {name : String} (k : Receiving reg stack g) (w : g.WellFormed) (fit : reg.Fit)
    (ht : reg.get d.typeName = .ok t) (hv : readAttachment reg d.attachment = .ok v)
    (a : Insertable id n t name (.ofType t) g) :
    Receiving reg (id :: stack) (g.insert id n t name (.ofType t) (v.getD .null)) := by
  have x := inserted g (v.getD .null) a
  have fits := fit.fits _ _ (Registry.find?_of_get ht)
  have new := keptByGrowth_pristine.insert g id n t name _ (v.getD .null) w fits a k.toPristine
  exact ⟨new, knows_insert fit ht hv a k.known, k.told.carry (x.carries a w new.standard),
    k.unset.insert x a w new.standard⟩

theorem Receiving.draw {e : Edge} (k : Receiving reg (n :: stack) g) (w : g.Lawful)
    (d : Drawable n e g) : Receiving reg (n :: stack) (g.drawWire e) := by
  obtain ⟨g₁, g₂, g₃, g₄, x⟩ := drawn d w.wellFormed
  have inside := isSome_contents?_of_around? w.wellFormed.tree d.outputAround
  have carries := x.carries d ⟨w, k.toNeat⟩
  have type (m : NodeId) (leaf : g.contents? m = none) : (g.drawWire e).type? m = g.type? m :=
    x.type_old (by rintro rfl; simp [leaf] at inside)
  exact ⟨keptByGrowth_pristine.draw g n e w d k.toPristine,
    knows_of_tree k.known x.tree (Aside.drawWire g e).note type,
    k.told.carry carries, k.unset.carry carries List.mem_cons_self⟩

theorem Receiving.arrange {names : List String} (k : Receiving reg (n :: stack) g) (w : g.WellFormed)
    (inside : (g.contents? n).isSome) (ok : g.arrangeBoundary n names = .ok h) :
    Receiving reg (n :: stack) h := by
  have pristine := keptByGrowth_pristine.arrange g h n names w nofun ok k.toPristine
  have note := (Aside.arrangeBoundary ok).note
  rcases arranged w names ok with rfl | ⟨-, old, new, g₁, r, rfl⟩
  · exact k
  · have quiet := quiet_emit g₁ (.metadataChanged n)
    have carries := (r.carries w).quiet quiet
    refine ⟨pristine, knows_of_tree k.known (r.tree.trans (.of_sameFrame quiet.frame)) note ?_,
      k.told.carry carries, k.unset.carry carries List.mem_cons_self⟩
    intro m leaf
    rw [quiet.frame.type, r.type m (by rintro rfl; simp [leaf] at inside)]

/-! ### Values -/

/-- What agrees with the value that a port starts with is not stored in its place. -/
theorem Pristine.told_replace {p : Port} {s : Slot} {v : Value} (k : g.Pristine) (w : g.WellFormed)
    (told : g.Told) (initial : ∀ y, g.value p = some y → g.Starts p y)
    (checked : g.checkAssign p v = .ok s) (other : ¬ (!s.stale && s.held.agrees v) = true) :
    (g.replace p s v).Told := by
  intro q y hy
  have frame := g.sameFrame_replace p s v
  by_cases hq : q = p
  · subst hq
    obtain ⟨input, free⟩ := free_of_checkAssign checked
    have slot := slot_of_checkAssign checked
    have fresh : s.stale = false := by
      by_contra stale
      obtain ⟨o, ho⟩ := k.awake q input (by rw [isStale, slot]; simpa using stale)
      rw [(source?_eq_some_iff w.wired o q).2 ho] at free
      cases free
    rw [value_replace (by rw [input]; rfl)] at hy
    cases v with
    | null => cases hy
    | data x mark =>
      obtain rfl := Option.some.inj hy
      have declared := k.typed.declared q x.dataType (declaredType_of_checkAssign w checked).symm
      rw [heldType_eq_value, Option.map_eq_some_iff] at declared
      obtain ⟨z, hz, -⟩ := declared
      refine ⟨z, frame.starts (initial z hz), fun agrees => absurd ?_ other⟩
      have held : s.held.payload? = some z := by rw [← hz, value, Graph.held, slot]; rfl
      cases old : s.held with
      | null => simp [old, Value.payload?] at held
      | data z' mark' =>
        rw [old] at held
        obtain rfl := Option.some.inj held
        simp [fresh, Value.agrees, agrees]
  · rw [value, held_replace hq] at hy
    obtain ⟨x, hx, same⟩ := told q y hy
    exact ⟨x, frame.starts hx, same⟩

theorem named_of_port {c : NodeId} {name : String} {p : Port} (ok : g.port c name = .ok p) :
    (g.attr? p).map Attribute.name = some name := by
  simp only [port, bind, Except.bind] at ok
  cases hm : g.node c with
  | error x => simp [hm] at ok
  | ok m =>
    simp only [hm] at ok
    split at ok
    · next i hi =>
      cases ok
      obtain ⟨lt, named, -⟩ := List.findIdx?_eq_some_iff_getElem.1 hi
      have type : g.type? c = some m.type := by rw [type?, node_eq_ok_iff.1 hm]; rfl
      have attr : g.attr? ⟨c, i⟩ = some m.type.ports.entries[i] := by
        rw [attr?_eq, type, Option.bind_some]
        exact List.getElem?_eq_getElem lt
      rw [attr, Option.map_some, of_decide_eq_true named]
    · cases ok

/-- Values are stored in the network `n`, now at the ports in `S`, of which none has been stored at. -/
structure Storing (reg : Registry) (stack : List NodeId) (S : Port → Prop) (g : Graph) : Prop
    extends Receiving reg stack g where
  lawful : g.Lawful
  initial : ∀ p y, S p → g.value p = some y → g.Starts p y

/-- The ports of the node `c` that are named in the table. -/
def Listed (g : Graph) (c : NodeId) (l : Table String Json) (p : Port) : Prop :=
  p.node = c ∧ ∃ e ∈ l, (g.attr? p).map Attribute.name = some e.1

section Storing
variable {S T : Port → Prop}

theorem Storing.mono (k : Storing reg stack S g) (sub : ∀ p, T p → S p) : Storing reg stack T g :=
  ⟨k.toReceiving, k.lawful, fun p y hp => k.initial p y (sub p hp)⟩

theorem Storing.assign (k : Storing reg stack S g) {p : Port} {v : Value} (hp : S p)
    (around : g.around? p.node = some n) (hn : n ∉ stack) (ok : g.assign p v = .ok h) :
    Storing reg stack (fun q => S q ∧ q ≠ p) h := by
  simp only [Graph.assign, bind, Except.bind] at ok
  split at ok
  · cases ok
  · next s checked =>
    split at ok
    · cases ok
      exact k.mono fun q hq => hq.1
    · next other =>
      cases ok
      have w := k.lawful.wellFormed
      have frame := g.sameFrame_replace p s v
      have keep {q : Port} (hq : q ≠ p) : (g.replace p s v).value q = g.value q := by
        rw [value, held_replace hq]
        rfl
      refine ⟨⟨keptByGrowth_pristine.assign g p v s w checked k.toPristine,
        knows_of_tree k.known (.of_sameFrame frame) (Aside.replace g p s v).note fun _ _ => by rw [frame.type],
        k.toPristine.told_replace w k.told (fun y => k.initial p y hp) checked other, ?_⟩,
        frame.lawful k.lawful, fun q y excused hy => ?_⟩
      · refine k.unset.same frame fun q hq => keep ?_
        rintro rfl
        exact hn (hq n around)
      · rw [keep excused.2] at hy
        exact frame.starts (k.initial q y excused.1 hy)

/-- A value from the document is stored, if the port that it is for has not been stored at. -/
theorem Storing.loadValue (k : Storing reg stack S g) {c : NodeId} {name : String} (j : Json)
    (around : g.around? c = some n) (hn : n ∉ stack)
    (there : ∀ p, p.node = c → (g.attr? p).map Attribute.name = some name → S p) :
    Storing reg stack (fun q => S q ∧ ¬ (q.node = c ∧ (g.attr? q).map Attribute.name = some name))
      ((Graph.loadValue c name j).apply g).2 := by
  rcases eq : (Graph.loadValue c name j).apply g with ⟨x | u, h⟩
  · rw [Graph.loadValue, Edit.apply_step] at eq
    split at eq
    · cases eq
    · cases eq
      exact k.mono fun q hq => hq.1
  · obtain ⟨p, t, v, port, -, -, ok⟩ := assign_of_loadValue eq
    obtain rfl := node_of_port port
    have named := named_of_port port
    refine (k.assign (there p rfl named) around hn ok).mono ?_
    rintro q ⟨hq, other⟩
    refine ⟨hq, ?_⟩
    rintro rfl
    exact other ⟨rfl, named⟩

/-- The values of one node are stored, beside those that are still to come. -/
theorem Storing.loadTable {c : NodeId} {ports : Table String Json}
    (k : Storing reg stack (fun p => p.node = c ∨ S p) g) (around : g.around? c = some n)
    (hn : n ∉ stack) (apart : ∀ p, S p → p.node ≠ c) (nodup : ports.keys.Nodup) :
    Storing reg stack S ((ports.forM fun p => Graph.loadValue c p.1 p.2).apply g).2 := by
  have more {e : String × Json} {rest : Table String Json} {p : Port} (hp : g.Listed c rest p ∨ S p) :
      g.Listed c (e :: rest) p ∨ S p :=
    hp.imp_left fun ⟨hc, e', he', named⟩ => ⟨hc, e', List.mem_cons_of_mem _ he', named⟩
  obtain ⟨-, -, done⟩ := Edit.forM_rest (fun p => Graph.loadValue c p.1 p.2)
    (fun rest h => SameFrame g h ∧ (rest.map Prod.fst).Nodup ∧
      Storing reg stack (fun p => g.Listed c rest p ∨ S p) h)
    (fun e rest h ⟨frame, nodup, k⟩ => by
      obtain ⟨new, nodup⟩ := List.nodup_cons.1 nodup
      have step := k.loadValue e.2 (by rwa [frame.around]) hn fun p hp named =>
        .inl ⟨hp, e, List.mem_cons_self, by rwa [← frame.attr]⟩
      refine ⟨frame.trans (sameFrame_loadValue c e.1 e.2), nodup, step.mono fun p hp => ⟨more hp, ?_⟩⟩
      rintro ⟨hc, named⟩
      rcases hp with ⟨-, e', he', named'⟩ | hp
      · rw [frame.attr, named', Option.some.injEq] at named
        exact new (named ▸ List.mem_map_of_mem (f := Prod.fst) he')
      · exact apart p hp hc)
    (fun e rest h ⟨frame, nodup, k⟩ =>
      ⟨frame, (List.nodup_cons.1 nodup).2, k.mono fun _ => more⟩)
    ports g ⟨.refl g, nodup, k.mono fun p hp => hp.imp_left And.left⟩
  exact done.mono fun p hp => .inr hp

/-- All values of a network are stored. -/
theorem Storing.loadTables {loaded : List (NodeId × NodeDocument)}
    (k : Storing reg stack (fun p => ∃ x ∈ loaded, p.node = x.1) g)
    (there : ∀ x ∈ loaded, g.around? x.1 = some n ∧ x.2.Tidy) (hn : n ∉ stack)
    (nodup : (loaded.map Prod.fst).Nodup) :
    Storing reg stack (fun _ => False) ((loadTables loaded).apply g).2 := by
  have done := Edit.forM_rest (fun x => x.2.ports.forM fun p => Graph.loadValue x.1 p.1 p.2)
    (fun rest h => (∀ x ∈ rest, h.around? x.1 = some n ∧ x.2.Tidy) ∧ (rest.map Prod.fst).Nodup ∧
      Storing reg stack (fun p => ∃ x ∈ rest, p.node = x.1) h)
    (fun x rest h ⟨there, nodup, k⟩ => by
      obtain ⟨new, nodup⟩ := List.nodup_cons.1 nodup
      obtain ⟨around, tidy⟩ := there x List.mem_cons_self
      refine ⟨fun y hy => ?_, nodup, ?_⟩
      · rw [(sameFrame_loadTable x.1 x.2.ports).around]
        exact there y (List.mem_cons_of_mem _ hy)
      · refine Storing.loadTable (k.mono ?_) around hn ?_ tidy.ports
        · rintro p (hp | ⟨y, hy, hp⟩)
          · exact ⟨x, List.mem_cons_self, hp⟩
          · exact ⟨y, List.mem_cons_of_mem _ hy, hp⟩
        · rintro p ⟨y, hy, hp⟩ hx
          exact new (hx ▸ hp ▸ List.mem_map_of_mem hy))
    (fun x rest h ⟨there, nodup, k⟩ => ⟨fun y hy => there y (List.mem_cons_of_mem _ hy),
      (List.nodup_cons.1 nodup).2, k.mono fun p ⟨y, hy, hp⟩ => ⟨y, List.mem_cons_of_mem _ hy, hp⟩⟩)
    loaded g ⟨there, nodup, k⟩
  exact done.2.2.mono fun p hp => hp.elim

end Storing

/-! ### The whole document -/

/-- How a graph stands while a document is loaded into it. -/
theorem keptByLoading_receiving (fit : reg.Fit) :
    KeptByLoading true reg NodeDocument.Tidy (Receiving reg) where
  sound := fun name t ht => (fit.fits name t ht).standard.sound
  inner := fun d e tidy he => tidy.inner he
  spent := fun stack g h ⟨ids, same⟩ k => by
    have quiet : Quiet g h := by rw [same]; exact .of_nodes rfl rfl rfl
    exact k.quiet quiet (by rw [same]; rfl)
  insert := fun _ _ _ _ _ _ _ _ w _ ht hv _ a k => k.insert w.wellFormed fit ht hv a
  draw := fun _ _ _ _ w d k => k.draw w d
  arrange := fun _ _ _ _ _ w target ok k => k.arrange w (target rfl) ok
  fill := fun stack g n loaded chain there nodup w => by
    have k := w.holds
    have start : Storing reg stack (fun p => ∃ x ∈ loaded, p.node = x.1) g :=
      ⟨⟨k.toPristine, k.known, k.told, k.unset.pop⟩, w.lawful, fun p y ⟨x, hx, hp⟩ hy =>
        k.unset p y (fun m hm => by
          rw [hp, (there x hx).1, Option.some.injEq] at hm
          exact hm ▸ List.mem_cons_self) hy⟩
    have done := start.loadTables there (chain.not_mem w.lawful.wellFormed.tree) nodup
    exact ⟨done.lawful, done.toReceiving⟩
  close := fun _ _ _ k => ⟨k.toPristine, k.known, k.told, k.unset.pop⟩

theorem receiving_loadInto (fit : reg.Fit) {d : NetworkDocument} (tidy : ∀ x ∈ d.nodes, x.2.Tidy)
    (config : Config) (ids : IdSupply) (marks : Nat) (calls : Table Nat Nat) :
    LawfulWith (Receiving reg []) ((loadInto reg (create config ids marks calls).root d).apply
      (create config ids marks calls)).2 := by
  have lawful := lawful_create config ids marks calls
  exact (ends_loadInto (keptByLoading_receiving fit) [] _ d tidy _ ⟨lawful, .start ..⟩ (.singleton _)
    fun _ => lawful.wellFormed.tree.rootNetwork).1

theorem receiving_rebuild (fit : reg.Fit) {d : NetworkDocument} (tidy : ∀ x ∈ d.nodes, x.2.Tidy)
    {config : Config} {f k : Graph} (ok : (rebuild config reg d).apply f = (.ok h, k)) :
    LawfulWith (Receiving reg []) h := by
  have w : LawfulWith (Receiving reg [])
      ((loadInto reg (vacant config d f).root d).apply (vacant config d f)).2 :=
    receiving_loadInto fit tidy ..
  rw [rebuild_apply] at ok
  rcases eq : (loadInto reg (vacant config d f).root d).apply (vacant config d f) with ⟨e | u, new⟩
  · rw [eq] at ok
    cases ok
  · rw [eq] at ok w
    cases ok
    exact w

/-- The graph is what has become of a graph without nodes into which the document was loaded. -/
inductive LoadedFrom (reg : Registry) (d : NetworkDocument) (g : Graph) : Prop where
  | restored (f : Graph) (ok : (restore reg d).apply f = (.ok (), g))
  | made (f : Graph) (ok : (ofDocument reg d).apply f = (.ok (), g))
  | into (config : Config) (ids : IdSupply) (marks : Nat) (calls : Table Nat Nat)
    (ok : (loadInto reg (create config ids marks calls).root d).apply
      (create config ids marks calls) = (.ok (), g))

theorem LoadedFrom.receiving {d : NetworkDocument} (a : LoadedFrom reg d g) (fit : reg.Fit)
    (tidy : ∀ x ∈ d.nodes, x.2.Tidy) : LawfulWith (Receiving reg []) g := by
  have still {h : Graph} (w : LawfulWith (Receiving reg []) h) (quiet : Quiet h g)
      (note : g.note? = h.note?) : LawfulWith (Receiving reg []) g :=
    w.quiet quiet (w.holds.quiet quiet note)
  cases a with
  | restored f ok =>
    rw [restore, Edit.apply_bind, Edit.apply_get] at ok
    simp only at ok
    rcases eq : (rebuild f.config reg d).apply f with ⟨e | new, k⟩
    · rw [Edit.apply_bind, eq] at ok
      cases ok
    · rw [Edit.apply_bind, eq] at ok
      cases ok
      exact still (receiving_rebuild fit tidy eq) (.of_nodes rfl rfl rfl) rfl
  | made f ok =>
    rcases eq : (rebuild .standard reg d).apply f with ⟨e | new, k⟩
    · rw [ofDocument, Edit.apply_bind, eq] at ok
      cases ok
    · rw [ofDocument, Edit.apply_bind, eq] at ok
      cases ok
      exact still (receiving_rebuild fit tidy eq) (.of_nodes rfl rfl rfl) rfl
  | into config ids marks calls ok =>
    have w := receiving_loadInto fit tidy config ids marks calls
    rwa [ok] at w

/-- Once a document has been loaded, it is saved in a form that comes back as it is. -/
theorem normalized {d : NetworkDocument} (fit : reg.Fit) (tidy : ∀ x ∈ d.nodes, x.2.Tidy)
    (loaded : LoadedFrom reg d g) (readable : g.Readable) (numbered : g.Numbered) :
    ∃ d', g.document = .ok d' ∧ ∀ f : Graph,
      (∃ h, (restore reg d').apply f = (.ok (), h) ∧ h.document = .ok d') ∧
      ∃ h, (ofDocument reg d').apply f = (.ok (), h) ∧ h.document = .ok d' := by
  have k := loaded.receiving fit tidy
  have pristine := k.holds.toPristine
  have told := k.holds.told.discernible pristine.typed.toMatching k.lawful.wellFormed.wired
  have loadable : Loadable reg g := ⟨pristine.buildable k.lawful, k.holds.known, readable⟩
  exact loadable.reloads pristine.leading told numbered

/-- A network with a relay in it and a number from outside, as one writes it by hand: without numbers
of nodes, and with a boundary that names a port twice and another one that is not there. -/
def handwritten : NetworkDocument :=
  ⟨[("n", ⟨"network", none, [("x", .int 5)], none, some
    ⟨[("x", ⟨"input", none, [], none, none⟩), ("r", ⟨"relay", none, [], none, none⟩)],
      [⟨"x", "data", "r", "in"⟩], ["y", "x", "x"]⟩⟩)], [], []⟩

/-- What it is loaded as. -/
def loadedRelay : Graph := ((ofDocument relays handwritten).apply (create .standard ⟨1⟩ 0 [])).2

theorem fit_relays : relays.Fit := by
  have fits {t : NodeType} (s : t.Standard) (c : t.Consistent) : Fits t (.ofType t) :=
    ⟨s, c, Datablock.suits_ofType c⟩
  have relay' := fits (.of_name sound_relay (by decide) (by decide) (by decide)) (by decide)
  have input := fits NodeType.standard_networkInput (by decide)
  have output := fits NodeType.standard_networkOutput (by decide)
  have network := fits NodeType.standard_network (by decide)
  have known {name : String} {t : NodeType} (h : relays.find? name = some t) :
      t.name = name ∧ Fits t (.ofType t) := by
    simp only [Registry.find?, relays, Registry.standard, Table.get?] at h
    split at h
    · next same => cases h; exact ⟨same, relay'⟩
    · split at h
      · next same => cases h; exact ⟨same, input⟩
      · split at h
        · next same => cases h; exact ⟨same, output⟩
        · split at h
          · next same => cases h; exact ⟨same, network⟩
          · cases h
  exact ⟨fun _ _ h => (known h).1, fun _ _ h => (known h).2⟩

theorem tidy_handwritten : ∀ x ∈ handwritten.nodes, x.2.Tidy := by
  have leaf {type : String} : NodeDocument.Tidy ⟨type, none, [], none, none⟩ :=
    .intro _ (by simp [Table.keys]) nofun
  intro x hx
  rw [handwritten, List.mem_singleton] at hx
  subst hx
  refine .intro _ (by decide) fun e he y hy => ?_
  cases he
  simp only [List.mem_cons, List.not_mem_nil, or_false] at hy
  rcases hy with rfl | rfl <;> exact leaf

theorem loaded_handwritten : LoadedFrom relays handwritten loadedRelay := by
  refine .made (create .standard ⟨1⟩ 0 []) (Prod.ext ?_ rfl)
  cbv

/-- Whole numbers are read back as they are. -/
theorem decode?_int (i : Int32) : DataType.int.decode? (Payload.int i).toJson = some (.int i) := by
  have low := i.le_toInt
  have high := i.toInt_lt
  simp only [DataType.decode?, Payload.toJson, DataType.readWhole]
  rw [if_pos ⟨low, high⟩, Option.map_some, Int32.ofInt_toInt]

theorem readable_loadedRelay : loadedRelay.Readable := by
  have tree := (loaded_handwritten.receiving fit_relays tidy_handwritten).lawful.wellFormed.tree
  have notes : loadedRelay.nodes.keys.map loadedRelay.note? = [none, none, none, none] := by cbv
  have ints : loadedRelay.ports.map loadedRelay.heldType = List.replicate 4 (some .int) := by cbv
  refine ⟨fun n x hx => ?_, fun p x hx => ?_⟩
  · have there : n ∈ loadedRelay.nodes.keys := by
      obtain ⟨m, hm, -⟩ := Option.bind_eq_some_iff.1 hx
      rw [← isSome_type?_iff, type?, hm]
      rfl
    have none := List.mem_map_of_mem (f := loadedRelay.note?) there
    rw [notes, hx] at none
    simp at none
  · have live : p ∈ loadedRelay.ports :=
      (mem_ports_iff tree p).2 ((isSome_direction?_iff _ p).2 (isSome_attr?_of_value hx))
    have int := List.eq_of_mem_replicate (ints ▸ List.mem_map_of_mem (f := loadedRelay.heldType) live)
    rw [heldType_eq_value, hx, Option.map_some, Option.some.injEq] at int
    cases x with
    | int i => exact decode?_int i
    | _ => cases int

theorem numbered_loadedRelay : loadedRelay.Numbered := by
  have keys : loadedRelay.nodes.keys = [⟨2⟩, ⟨3⟩, ⟨4⟩, ⟨5⟩] := by cbv
  intro n p hp
  have live := isSome_type?_of_around? hp
  rw [isSome_type?_iff, keys] at live
  simp only [List.mem_cons, List.not_mem_nil, or_false] at live
  rcases live with rfl | rfl | rfl | rfl <;> decide

/-- The network is saved with the numbers that its nodes got and with the one name that its boundary
has, and comes back so. -/
theorem handwritten_normalized : LoadedFrom relays handwritten loadedRelay ∧
    ∃ d, loadedRelay.document = .ok d ∧ ∀ f : Graph,
      ∃ h, (restore relays d).apply f = (.ok (), h) ∧ h.document = .ok d := by
  obtain ⟨d, saved, again⟩ := normalized fit_relays tidy_handwritten loaded_handwritten
    readable_loadedRelay numbered_loadedRelay
  exact ⟨loaded_handwritten, d, saved, fun f => (again f).1⟩

end Graph
end Dataflow
