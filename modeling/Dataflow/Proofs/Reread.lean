import Dataflow.Proofs.Normal
import Dataflow.Proofs.Replica
set_option autoImplicit false

/-!
Reading a graph that has been saved and loaded. Main statement: in every run with recoverable node
types, the ports of the loaded graph are read as those of the saved one, just if nothing was held that
the document has no place for.
-/

namespace Dataflow.Graph
variable {g h k : Graph} {r n : NodeId} {p q : Port} {x : Option Payload} {reg : Registry}

/-! ### Names -/

/-- The port is found by names: its node along a path from the root, then the port on it. -/
def IsAt (g : Graph) (path : List String) (name : String) (p : Port) : Prop :=
  path.foldlM g.find? g.root = some p.node ∧ g.port p.node name = .ok p

theorem find?_eq_some_iff (w : g.Tree) {n c : NodeId} {name : String} :
    g.find? n name = some c ↔ c ∈ g.children n ∧ g.name? c = some name :=
  ⟨mem_children_of_find?, fun h => find?_of_child w h.1 h.2⟩

theorem port_eq_ok_iff (w : g.WellFormed) {name : String} :
    g.port p.node name = .ok p ↔ (g.attr? p).map Attribute.name = some name :=
  ⟨named_of_port, port_of_name w⟩

/-- Every node is found along some path. -/
theorem exists_path (w : g.Tree) {n : NodeId} (live : (g.type? n).isSome) :
    ∃ path : List String, path.foldlM g.find? g.root = some n := by
  have way := inside_root w n live
  induction way using Relation.ReflTransGen.head_induction_on with
  | refl => exact ⟨[], rfl⟩
  | @head m p hm _ ih =>
    obtain ⟨path, hp⟩ := ih (isSome_type?_of_contents? (isSome_contents?_of_around? w hm))
    obtain ⟨a, ha⟩ : ∃ a, g.name? m = some a := by
      obtain ⟨v, hv, -⟩ := Option.bind_eq_some_iff.1 hm
      exact ⟨_, by rw [name?, hv]; rfl⟩
    refine ⟨path ++ [a], ?_⟩
    rw [List.foldlM_append, hp]
    simp [(find?_eq_some_iff w).2 ⟨(w.child p m).2 hm, ha⟩]

theorem exists_isAt (w : g.WellFormed) (live : (g.direction? p).isSome) :
    ∃ path name, g.IsAt path name p := by
  obtain ⟨a, ha⟩ := Option.isSome_iff_exists.1 ((isSome_direction?_iff g p).1 live)
  obtain ⟨d, hd⟩ := Option.isSome_iff_exists.1 live
  obtain ⟨t, ht⟩ := exists_type?_of_direction? hd
  obtain ⟨path, hp⟩ := exists_path w.tree (n := p.node) (by rw [ht]; rfl)
  exact ⟨path, a.name, hp, (port_eq_ok_iff w).2 (by rw [ha]; rfl)⟩

theorem IsAt.live {path : List String} {name : String} (a : g.IsAt path name p) :
    (g.direction? p).isSome := by
  have named := named_of_port a.2
  rw [isSome_direction?_iff]
  cases ha : g.attr? p with
  | none => simp [ha] at named
  | some v => rfl

theorem IsAt.unique {path : List String} {name : String} (hp : g.IsAt path name p)
    (hq : g.IsAt path name q) : p = q := by
  have node := hp.1.symm.trans hq.1
  rw [Option.some.injEq] at node
  have port := hp.2
  rw [node, hq.2] at port
  cases port
  rfl

theorem Tree.live_of_path (w : g.Tree) {path : List String} {m : NodeId} (live : (g.type? n).isSome)
    (hm : path.foldlM g.find? n = some m) : (g.type? m).isSome := by
  induction path generalizing n with
  | nil =>
    cases hm
    exact live
  | cons name path ih =>
    rw [List.foldlM_cons, Option.bind_eq_bind, Option.bind_eq_some_iff] at hm
    obtain ⟨c, hc, rest⟩ := hm
    exact ih (isSome_type?_of_around? ((w.child n c).1 (mem_children_of_find? hc).1)) rest

section Copy
variable (b : g.Buildable) (s : Draft g r [] k)
include b s

theorem Draft.find?_origin {n : NodeId} (live : (k.type? n).isSome) (name : String) :
    k.find? n name = g.find? (g.origin r n) name := by
  have tree := b.lawful.wellFormed.tree
  have children : k.children n = g.children (g.origin r n) := by
    cases inside : k.contents? n with
    | some v => exact s.children n (by rw [inside]; rfl) List.not_mem_nil
    | none =>
      have there : g.contents? (g.origin r n) = none := by
        rw [← Option.not_isSome_iff_eq_none, ← s.isSome_contents? b.lawful live, inside]
        simp
      rw [Graph.children, inside, Graph.children, there]
  refine Option.ext fun c => ?_
  rw [find?_eq_some_iff s.tree, find?_eq_some_iff tree, ← children]
  refine and_congr_right fun hc => ?_
  rw [s.name_of_child ((s.tree.child n c).1 hc)]

/-- The same names lead to the copy of a node and to the node. -/
theorem Draft.path_origin (path : List String) {n : NodeId} (live : (k.type? n).isSome) :
    (path.foldlM k.find? n).map (g.origin r) = path.foldlM g.find? (g.origin r n) := by
  induction path generalizing n with
  | nil => rfl
  | cons name path ih =>
    rw [List.foldlM_cons, List.foldlM_cons, ← s.find?_origin b live]
    cases hc : k.find? n name with
    | none => rfl
    | some c =>
      have around := (s.tree.child n c).1 (mem_children_of_find? hc).1
      have next := ih (isSome_type?_of_around? around)
      rw [s.origin_child around] at next
      exact next

/-- Names lead to a port just if they lead to the port of the copy that stands for it. -/
theorem Draft.isAt_iff {path : List String} {name : String} :
    g.IsAt path name q ↔ ∃ p, k.IsAt path name p ∧ g.originPort r p = q := by
  have root : (k.type? k.root).isSome := isSome_type?_of_contents? s.tree.rootNetwork
  have way := s.path_origin b path root
  rw [s.root, origin_self] at way
  constructor
  · rintro ⟨hq, port⟩
    rw [hq, Option.map_eq_some_iff] at way
    obtain ⟨n, hn, same⟩ := way
    have live := s.tree.live_of_path (by rwa [← s.root]) hn
    refine ⟨⟨n, q.index⟩, ⟨by rw [s.root, hn], (port_eq_ok_iff s.wellFormed).2 ?_⟩, by rw [originPort, same]⟩
    rw [← getElem?_portNames, s.portNames b live, same, getElem?_portNames]
    exact named_of_port port
  · rintro ⟨p, ⟨hp, port⟩, rfl⟩
    have live := s.tree.live_of_path root hp
    rw [s.root] at hp
    refine ⟨by rw [← way, hp]; rfl, (port_eq_ok_iff b.lawful.wellFormed).2 ?_⟩
    rw [originPort, ← getElem?_portNames, ← s.portNames b live, getElem?_portNames]
    exact named_of_port port

end Copy

/-! ### Reads -/

/-- The port is read as that, unless it lies too deep. -/
def Gives (g : Graph) (p : Port) (x : Option Payload) : Prop :=
  (∀ v h, (read p).apply g = (.ok v, h) → v.payload? = x) ∧
    ∀ e h, (read p).apply g = (.error e, h) → TooDeep e

theorem Matching.not_loose (m : g.Matching) (w : g.Lawful) : ¬ g.Loose p := by
  intro loose
  obtain ⟨q, hq⟩ := Option.isSome_iff_exists.1 loose.linked
  have typed := m.boundary p q hq (loose.isSome_contents? w)
  obtain ⟨a, ha, -, untyped, -⟩ := loose.reset
  rw [declaredType_eq, ha, Option.bind_some, untyped] at typed
  cases typed

theorem LawfulWith.gives (w : LawfulWith Coherent g) (m : g.Matching) (hx : g.FromScratch p x) :
    g.Gives p x := by
  have live : (g.direction? p).isSome := by cases hx <;> simp_all
  constructor
  · intro v h eq
    rw [read_apply live] at eq
    exact (payload_of_readWithin w hx eq).resolve_right fun a => m.not_loose w.lawful a.1
  · intro e h eq
    rw [read_apply live] at eq
    exact (refreshes_readWithin true _).deep rfl p g e h (w.holds.good w.lawful.wellFormed) live eq

/-- An input without a wire is read as what it holds. -/
theorem Gives.value_eq (a : g.Gives p x) (input : g.direction? p = some .input)
    (unfed : g.source? p = none) : x = g.value p := by
  have here : ∃ v h, (read p).apply g = (.ok v, h) ∧ v.payload? = g.value p := by
    rw [read_apply (by simp [input]), readWithin]
    refine freshen_cases (motive := fun y => ∃ v h, y = (.ok v, h) ∧ v.payload? = g.value p) ?absent
      ?current ?wired ?given ?linked ?made
    case current => exact fun _ _ => ⟨_, _, rfl, rfl⟩
    case given =>
      refine fun _ _ _ => ⟨_, _, rfl, ?_⟩
      rw [held_setCurrent]
      rfl
    case absent | wired | linked | made => simp_all
  obtain ⟨v, h, eq, same⟩ := here
  rw [← a.1 v h eq, same]

/-- The two ports are read as the same, as far as reads come to an end. -/
def ReadAlike (g : Graph) (p : Port) (h : Graph) (q : Port) : Prop := ∃ x, g.Gives p x ∧ h.Gives q x

section Copy
variable (b : g.Buildable) (s : Draft g r [] k)
include b s

theorem Draft.recoverable (rec : g.Recoverable) : k.Recoverable := by
  intro n t ht leaf
  obtain ⟨m, hm, same⟩ := s.stands (by rw [ht]; rfl) leaf
  refine rec n t (same.symm.trans ht) ?_
  rw [← Option.not_isSome_iff_eq_none, ← s.isSome_contents?_child b hm, leaf]
  simp

/-- A copy is read as its model, just if nothing is held that the document has no place for. -/
theorem Draft.readAlike_iff (ground : g.Grounded) (c : g.Coherent) :
    (∀ path name p q, g.IsAt path name p → k.IsAt path name q → ReadAlike g p k q) ↔ g.Documented := by
  rw [← s.conveys_iff b ground]
  constructor
  · intro alike p input unfed
    obtain ⟨path, name, here⟩ := exists_isAt s.wellFormed (p := p) (by simp [input])
    have there := (s.isAt_iff b).2 ⟨p, here, rfl⟩
    obtain ⟨x, before, after⟩ := alike path name _ p there here
    have live : (k.type? p.node).isSome := s.tree.live_of_path
      (isSome_type?_of_contents? s.tree.rootNetwork) here.1
    have input' := input
    rw [s.direction_origin b live] at input'
    have unfed' := (s.unfed_origin b live).1 unfed
    rw [← after.value_eq input ((source?_eq_none_iff s.wellFormed.wired p).2 unfed),
      ← before.value_eq input' ((source?_eq_none_iff b.lawful.wellFormed.wired _).2 unfed')]
  · intro conveys path name p q there here
    obtain ⟨q', here', rfl⟩ := (s.isAt_iff b).1 there
    obtain rfl := here'.unique here
    have w : LawfulWith Coherent k := ⟨s.neat.lawful, s.coherent c.computes⟩
    obtain ⟨x, hx⟩ := exists_fromScratch s.wellFormed w.holds.acyclic s.standard here.live
    have hx' := s.fromScratch b ground.recoverable (s.recoverable b ground.recoverable) conveys hx
    exact ⟨x, LawfulWith.gives ⟨b.lawful, c⟩ b.toMatching hx', w.gives s.neat.holds.typed.toMatching hx⟩

end Copy

theorem RecoverableRun.loadable (run : RecoverableRun g) (known : reg.Knows g) (readable : g.Readable) :
    Loadable reg g := by
  have ground := grounded_of_run run
  have coherent := coherent_of_run (RecoverableRun.regular run)
  exact ⟨⟨ground.holds.typed.toSuited, ground.lawful, ground.holds.standard, coherent.holds.acyclic,
    ground.holds.mirrored ground.lawful⟩, known, readable⟩

/-- A graph that is saved and loaded has ports at the same names, in every run in which node types are
recoverable. They are read as before, just if nothing was held that the document has no place for. -/
theorem read_loaded (run : RecoverableRun g) (known : reg.Knows g) (readable : g.Readable)
    {d : NetworkDocument} (saved : g.document = .ok d) {f h : Graph}
    (loaded : (restore reg d).apply f = (.ok (), h) ∨ (ofDocument reg d).apply f = (.ok (), h)) :
    (∀ path name, (∃ p, g.IsAt path name p) ↔ ∃ q, h.IsAt path name q) ∧
      ((∀ path name p q, g.IsAt path name p → h.IsAt path name q → ReadAlike g p h q) ↔
        g.Documented) := by
  have b := RecoverableRun.loadable run known readable
  have draft : Draft g h.root [] h := by
    rcases loaded with ok | ok
    · exact (restored b saved f).done ok
    · exact (made b saved f).done ok
  have coherent := coherent_of_run (RecoverableRun.regular run)
  refine ⟨fun path name => ?_, draft.readAlike_iff b.toBuildable (grounded_of_run run).holds coherent.holds⟩
  constructor
  · rintro ⟨p, hp⟩
    obtain ⟨q, hq, -⟩ := (draft.isAt_iff b.toBuildable).1 hp
    exact ⟨q, hq⟩
  · rintro ⟨q, hq⟩
    exact ⟨_, (draft.isAt_iff b.toBuildable).2 ⟨q, hq, rfl⟩⟩

/-! ### A number from outside -/

/-- The first input of a difference comes from outside of the graph, where it has been changed. -/
def presetDifference : Graph :=
  let g := (Action.addNode ⟨1⟩ .networkInput "x" .standard).after (create .standard .start 0 [])
  let g := (Action.addNode ⟨1⟩ difference "n" .standard).after g
  let g := (Action.connect ⟨⟨2⟩, 0⟩ ⟨⟨3⟩, 0⟩).after g
  (Action.assign ⟨⟨1⟩, 0⟩ (.fresh (.int 7))).after g

theorem recoverableRun_presetDifference : RecoverableRun presetDifference := by
  have fits {t : NodeType} (s : t.Standard) (c : t.Consistent) : Fits t (.ofType t) :=
    ⟨s, c, Datablock.suits_ofType c⟩
  have input : Recovers .networkInput (.ofType .networkInput) :=
    ⟨fits NodeType.standard_networkInput (by decide),
      regular_of_standard NodeType.standard_networkInput rfl, .inl rfl⟩
  have node : Recovers difference (.ofType difference) :=
    ⟨fits regular_difference.toStandard (by decide), regular_difference,
      .inr (.inr ⟨by decide, by decide, by decide⟩)⟩
  exact .step (.step (.step (.step (.start ..) ⟨input, nofun⟩) ⟨node, nofun⟩) ⟨trivial, nofun⟩)
    ⟨trivial, nofun⟩

/-- Knows differences and what networks are made of. -/
def differences : Registry := { Registry.standard with
  nodeTypes := ("difference", difference) :: Registry.standard.nodeTypes }

theorem loadable_presetDifference : differences.Knows presetDifference ∧ presetDifference.Readable := by
  have tree := (grounded_of_run recoverableRun_presetDifference).lawful.wellFormed.tree
  have known : (presetDifference.nodes.keys, presetDifference.ports.map presetDifference.value) =
      ([⟨1⟩, ⟨2⟩, ⟨3⟩],
        [some (.int 7), some (.int 5), some (.int 5), some (.int 3), some (.int 0)]) := by cbv
  have types : (presetDifference.type? ⟨2⟩, presetDifference.type? ⟨3⟩,
      (presetDifference.contents? ⟨1⟩).isSome) = (some .networkInput, some difference, true) := by cbv
  have notes : [⟨1⟩, ⟨2⟩, ⟨3⟩].map presetDifference.note? = [none, none, none] := by cbv
  simp only [Prod.mk.injEq, List.map_cons, List.map_nil, List.cons.injEq, and_true] at known types notes
  have nodes {n : NodeId} (live : (presetDifference.type? n).isSome) :
      n = ⟨1⟩ ∨ n = ⟨2⟩ ∨ n = ⟨3⟩ := by
    rw [isSome_type?_iff, known.1] at live
    simpa using live
  have bare {n : NodeId} {x : Payload} (hx : presetDifference.note? n = some x) : False := by
    obtain ⟨m, hm, -⟩ := Option.bind_eq_some_iff.1 hx
    rcases nodes (n := n) (by simp [type?, hm]) with rfl | rfl | rfl <;> simp [notes] at hx
  refine ⟨⟨fun n t ht leaf => ?_, fun _ _ _ => rfl, fun _ _ hx => (bare hx).elim⟩,
    ⟨fun _ _ hx => (bare hx).elim, fun p x hx => ?_⟩⟩
  · rcases nodes (n := n) (by rw [ht]; rfl) with rfl | rfl | rfl
    · simp [leaf] at types
    · rw [types.1, Option.some.injEq] at ht
      rw [← ht]
      rfl
    · rw [types.2.1, Option.some.injEq] at ht
      rw [← ht]
      rfl
  · have listed : p ∈ presetDifference.ports := by
      rw [mem_ports_iff tree, isSome_direction?_iff]
      cases ha : presetDifference.attr? p with
      | none => simp [value_eq_none ha] at hx
      | some a => rfl
    have found := List.mem_map_of_mem (f := presetDifference.value) listed
    rw [known.2, hx] at found
    simp only [List.mem_cons, List.not_mem_nil, or_false, Option.some.injEq] at found
    rcases found with rfl | rfl | rfl | rfl | rfl <;> cbv

/-- The number from outside is in no place of the document. -/
def presetDocument : NetworkDocument :=
  ⟨[("x", ⟨"input", some 2, [], none, none⟩), ("n", ⟨"difference", some 3, [("b", .int 3)], none, none⟩)],
    [⟨"x", "data", "n", "a"⟩], ["x"]⟩

/-- What it is loaded as. -/
def reloadedDifference : Graph :=
  ((ofDocument differences presetDocument).apply (create .standard .start 0 [])).2

/-- The port of the whole graph is read as what it started with. -/
theorem presetDifference_misread : presetDifference.document = .ok presetDocument ∧
    (ofDocument differences presetDocument).apply (create .standard .start 0 []) =
      (.ok (), reloadedDifference) ∧
    presetDifference.IsAt [] "x" ⟨⟨1⟩, 0⟩ ∧ reloadedDifference.IsAt [] "x" ⟨⟨4⟩, 0⟩ ∧
    ¬ ReadAlike presetDifference ⟨⟨1⟩, 0⟩ reloadedDifference ⟨⟨4⟩, 0⟩ ∧
    ¬ presetDifference.Documented := by
  have saved : presetDifference.document = .ok presetDocument := by cbv
  have loaded : (ofDocument differences presetDocument).apply (create .standard .start 0 []) =
      (.ok (), reloadedDifference) := Prod.ext (by cbv) rfl
  have before : (([] : List String).foldlM presetDifference.find? presetDifference.root,
      presetDifference.port ⟨1⟩ "x", presetDifference.direction? ⟨⟨1⟩, 0⟩,
      presetDifference.source? ⟨⟨1⟩, 0⟩, presetDifference.value ⟨⟨1⟩, 0⟩) =
      (some ⟨1⟩, .ok ⟨⟨1⟩, 0⟩, some .input, none, some (.int 7)) := by cbv
  have after : (([] : List String).foldlM reloadedDifference.find? reloadedDifference.root,
      reloadedDifference.port ⟨4⟩ "x", reloadedDifference.direction? ⟨⟨4⟩, 0⟩,
      reloadedDifference.source? ⟨⟨4⟩, 0⟩, reloadedDifference.value ⟨⟨4⟩, 0⟩) =
      (some ⟨4⟩, .ok ⟨⟨4⟩, 0⟩, some .input, none, some (.int 5)) := by cbv
  simp only [Prod.mk.injEq] at before after
  obtain ⟨root, port, input, free, seven⟩ := before
  obtain ⟨root', port', input', free', five⟩ := after
  have differ : ¬ ReadAlike presetDifference ⟨⟨1⟩, 0⟩ reloadedDifference ⟨⟨4⟩, 0⟩ := by
    rintro ⟨x, was, is⟩
    rw [← was.value_eq input free, is.value_eq input' free', five] at seven
    cases seven
  refine ⟨saved, loaded, ⟨root, port⟩, ⟨root', port'⟩, differ, fun documented => differ ?_⟩
  have known := loadable_presetDifference
  exact (read_loaded recoverableRun_presetDifference known.1 known.2 saved (.inr loaded)).2.2 documented
    [] "x" _ _ ⟨root, port⟩ ⟨root', port'⟩

end Dataflow.Graph
