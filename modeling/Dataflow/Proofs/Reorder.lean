import Dataflow.Proofs.Projection
import Dataflow.Proofs.Rearrange
import Dataflow.Proofs.Reread
set_option autoImplicit false

/-!
The boundary of a network in an order that names ask for. Main statement: the attributes that are
named come last, in the order in which they are first mentioned, and whoever knows ports by their
names sees no other change; to ask for the same order again changes nothing.
-/

namespace Dataflow

/-- The attributes that are not named, as they stood, and then those that are named, as they are first
mentioned. -/
def mentionedLast (attributes : List Attribute) (names : List String) : List Attribute :=
  attributes.filter (fun a => !names.contains a.name) ++
    names.eraseDups.filterMap fun name => attributes.find? fun a => a.name == name

section Order
variable {attributes : List Attribute} (names : List String)

theorem find?_eq_getElem? (attributes : List Attribute) (name : String) :
    attributes.find? (fun a => a.name == name) =
      ((attributes.map Attribute.name).idxOf? name).bind (attributes[·]?) := by
  induction attributes with
  | nil => rfl
  | cons a l ih =>
    rw [List.find?_cons, List.map_cons, List.idxOf?_cons]
    cases a.name == name with
    | true => rfl
    | false =>
      rw [if_neg (by simp), Option.bind_map]
      exact ih

/-- Each name is looked up once, where it is mentioned first. -/
theorem filterMap_eraseDups (names : List String) (place : String → Option Nat)
    (same : ∀ a b i, place a = some i → place b = some i → a = b) :
    (names.filterMap place).eraseDups = names.eraseDups.filterMap place := by
  match names with
  | [] => rfl
  | name :: names =>
    have ih := filterMap_eraseDups (names.filter fun b => !b == name) place same
    rw [List.eraseDups_cons, List.filterMap_cons, List.filterMap_cons]
    cases hi : place name with
    | none =>
      have others : (names.filter fun b => !b == name).filterMap place = names.filterMap place := by
        rw [List.filterMap_filter]
        refine List.filterMap_congr fun b _ => ?_
        by_cases hb : b = name
        · simp [hb, hi]
        · simp [hb]
      simp only
      rw [← ih, others]
    | some i =>
      have others : (names.filter fun b => !b == name).filterMap place =
          (names.filterMap place).filter fun j => !j == i := by
        rw [List.filterMap_filter, List.filter_filterMap]
        refine List.filterMap_congr fun b _ => ?_
        by_cases hb : b = name
        · simp [hb, hi, Option.filter]
        · cases hj : place b with
          | none => simp
          | some j =>
            have : j ≠ i := fun h => hb (same b name i (h ▸ hj) hi)
            simp [hb, this, Option.filter]
      simp only
      rw [List.eraseDups_cons, ← ih, others]
termination_by names.length
decreasing_by
  simp only [List.length_cons]
  exact Nat.lt_succ_of_le (List.length_filter_le _ _)

theorem filterMap_range (attributes : List Attribute) :
    (List.range attributes.length).filterMap (attributes[·]?) = attributes := by
  refine List.ext_getElem? fun i => ?_
  have places := Graph.getElem?_reorder (⟨attributes, []⟩ : Layout Attribute)
    (List.range attributes.length) (fun j hj => List.mem_range.1 hj) i
  simp only [Layout.get?, Layout.reorder] at places
  rw [places]
  by_cases hi : i < attributes.length
  · simp [hi, Layout.get?]
  · simp [hi]

/-- The attributes in the order of their places. -/
theorem filterMap_boundaryOrder (attributes : List Attribute) (names : List String) :
    (Graph.boundaryOrder (attributes.map Attribute.name) names).filterMap (attributes[·]?) =
      mentionedLast attributes names := by
  rw [Graph.boundaryOrder, List.filterMap_append, mentionedLast]
  congr 1
  · conv_rhs => rw [← filterMap_range attributes]
    rw [List.filterMap_filter, List.filter_filterMap, List.length_map]
    refine List.filterMap_congr fun i _ => ?_
    rw [List.getElem?_map]
    cases attributes[i]? with
    | none => simp
    | some a => simp [Option.filter]
  · rw [filterMap_eraseDups _ _ fun a b i ha hb => ?_, List.filterMap_filterMap]
    · exact List.filterMap_congr fun name _ => (find?_eq_getElem? attributes name).symm
    · have ha := Graph.getElem?_of_idxOf? ha
      rw [Graph.getElem?_of_idxOf? hb] at ha
      exact (Option.some.inj ha).symm

variable (distinct : (attributes.map Attribute.name).Nodup)
include distinct

theorem perm_mentionedLast : (mentionedLast attributes names).Perm attributes := by
  have perm : (Graph.boundaryOrder (attributes.map Attribute.name) names).Perm
      (List.range attributes.length) := by
    refine (List.perm_ext_iff_of_nodup (Graph.nodup_boundaryOrder names) List.nodup_range).2 fun i => ?_
    rw [Graph.mem_boundaryOrder names distinct, List.mem_range, List.length_map]
  have perm := perm.filterMap (attributes[·]?)
  rwa [filterMap_boundaryOrder, filterMap_range] at perm

theorem find?_name_iff {name : String} {a : Attribute} :
    attributes.find? (fun b => b.name == name) = some a ↔ a ∈ attributes ∧ a.name = name := by
  constructor
  · intro h
    exact ⟨List.mem_of_find?_eq_some h, by simpa using List.find?_some h⟩
  · rintro ⟨ha, rfl⟩
    cases h : attributes.find? (fun b => b.name == a.name) with
    | none => exact absurd ha (by simpa using List.find?_eq_none.1 h a)
    | some b =>
      have hb : b.name = a.name := by simpa using List.find?_some h
      rw [List.inj_on_of_nodup_map distinct (List.mem_of_find?_eq_some h) ha hb]

/-- What is named last already stays where it is. -/
theorem mentionedLast_mentionedLast :
    mentionedLast (mentionedLast attributes names) names = mentionedLast attributes names := by
  have perm := perm_mentionedLast names distinct
  have found (name : String) : (mentionedLast attributes names).find? (fun a => a.name == name) =
      attributes.find? fun a => a.name == name := by
    refine Option.ext fun a => ?_
    rw [find?_name_iff ((perm.map _).nodup_iff.2 distinct), find?_name_iff distinct,
      perm.mem_iff]
  conv_lhs => rw [mentionedLast]
  simp only [found]
  conv_rhs => rw [mentionedLast]
  congr 1
  rw [mentionedLast, List.filter_append, List.filter_filter]
  have named : (names.eraseDups.filterMap fun name => attributes.find? fun a => a.name == name).filter
      (fun a => !names.contains a.name) = [] := by
    refine List.filter_eq_nil_iff.2 fun a ha => ?_
    obtain ⟨name, hname, ha⟩ := List.mem_filterMap.1 ha
    obtain ⟨-, rfl⟩ := (find?_name_iff distinct).1 ha
    simpa using List.mem_eraseDups.1 hname
  rw [named, List.append_nil]
  simp

/-- Their places are in order then. -/
theorem boundaryOrder_mentionedLast :
    Graph.boundaryOrder ((mentionedLast attributes names).map Attribute.name) names =
      List.range attributes.length := by
  have perm := perm_mentionedLast names distinct
  have distinct' := (perm.map Attribute.name).nodup_iff.2 distinct
  have length := Graph.length_boundaryOrder names distinct'
  have inside (i : Nat) := Graph.mem_boundaryOrder names distinct' i
  have kept := filterMap_boundaryOrder (mentionedLast attributes names) names
  rw [mentionedLast_mentionedLast names distinct] at kept
  rw [List.length_map] at length
  simp only [List.length_map] at inside
  refine List.ext_getElem? fun i => ?_
  have place := Graph.getElem?_reorder (⟨mentionedLast attributes names, []⟩ : Layout Attribute) _
    (fun j hj => (inside j).1 hj) i
  simp only [Layout.get?, Layout.reorder, kept] at place
  rw [← perm.length_eq]
  by_cases hi : i < (mentionedLast attributes names).length
  · obtain ⟨j, hj⟩ : ∃ j, (Graph.boundaryOrder ((mentionedLast attributes names).map Attribute.name)
        names)[i]? = some j := ⟨_, List.getElem?_eq_getElem (by rwa [length])⟩
    rw [hj, Option.bind_some] at place
    have same := (List.getElem?_inj hi distinct'.of_map).1 place
    rw [hj, List.getElem?_range hi, same]
  · rw [List.getElem?_eq_none (by omega), List.getElem?_eq_none (by simpa using hi)]

end Order

namespace Graph
variable {g h : Graph} {n : NodeId} {names : List String}

def attributes (g : Graph) (n : NodeId) : List Attribute := (g.type? n).elim [] fun t => t.ports.entries

/-- The node of a port and the name that the port has there. -/
def label (g : Graph) (p : Port) : NodeId × Option String := (p.node, (g.attr? p).map Attribute.name)

/-- The ends of a wire by their names. -/
def labels (g : Graph) (e : Edge) : (NodeId × Option String) × (NodeId × Option String) :=
  (g.label e.output, g.label e.input)

theorem getElem?_attributes (g : Graph) (n : NodeId) (i : Nat) :
    (g.attributes n)[i]? = g.attr? ⟨n, i⟩ := by
  rw [attributes, attr?_eq]
  cases g.type? n <;> rfl

theorem portNames_eq (g : Graph) (n : NodeId) :
    g.portNames n = (g.attributes n).map Attribute.name := by
  rw [portNames, attributes]
  cases g.type? n <;> rfl

/-- The ports of `n` are in the order that `names` ask for. Nothing else can be told by those who read
ports by their names. -/
structure Permuted (n : NodeId) (names : List String) (g h : Graph) : Prop where
  tree : SameTree g h
  type : ∀ k, k ≠ n → h.type? k = g.type? k
  attributes : h.attributes n = mentionedLast (g.attributes n) names
  port : ∀ name p, g.port n name = .ok p → ∃ q, h.port n name = .ok q ∧ h.slot? q = g.slot? p ∧
    ∀ t, g.peer? p = some t → h.peer? t = some q
  unknown : ∀ name e, g.port n name = .error e → h.port n name = .error e
  other : ∀ p, p.node ≠ n → (h.slot? p).map (fun s => (s.attr, s.held, s.stale)) =
      (g.slot? p).map (fun s => (s.attr, s.held, s.stale)) ∧
    (h.peer? p).map h.label = (g.peer? p).map g.label
  wires : ∀ k, (h.wires k).map h.labels = (g.wires k).map g.labels

theorem port_unknown (live : (g.type? n).isSome) {name : String} (unknown : name ∉ g.portNames n) :
    g.port n name = .error (.portNotFound n name) := by
  obtain ⟨t, ht⟩ := Option.isSome_iff_exists.1 live
  obtain ⟨m, hm, rfl⟩ := Option.map_eq_some_iff.1 ht
  rw [portNames, ht, Option.elim_some, ← NodeType.indexOf?_eq_none_iff] at unknown
  simp only [port, node_eq_ok_iff.2 hm, bind, Except.bind, unknown]

theorem Renumbered.quiet {h' : Graph} {old new : Nat → Nat} (r : Renumbered n old new g h)
    (q : Quiet h h') : Renumbered n old new g h' where
  tree := r.tree.trans (.of_sameFrame q.frame)
  slot p := by rw [q.slot, r.slot]
  wires k := by rw [q.frame.wires, r.wires]
  influences := by rw [q.frame.influences]; exact r.influences
  live p := by rw [q.slot]; exact r.live p
  kept := r.kept
  type k hk := by rw [q.frame.type, r.type k hk]
  sound := by rw [q.frame.type]; exact r.sound

section Arrange
variable (w : g.WellFormed)
include w

theorem mem_boundaryOrder_iff (names : List String) (i : Nat) :
    i ∈ boundaryOrder (g.portNames n) names ↔ (g.attr? ⟨n, i⟩).isSome := by
  rw [mem_boundaryOrder names (nodup_portNames w n), ← Option.isSome_map, ← getElem?_portNames,
    isSome_getElem?]

/-- The ports stand in the order already. -/
theorem Permuted.of_same (same : boundaryOrder (g.portNames n) names =
    List.range (boundaryOrder (g.portNames n) names).length) : Permuted n names g g where
  tree := .refl g
  type _ _ := rfl
  attributes := by
    rw [length_boundaryOrder names (nodup_portNames w n), portNames_eq, List.length_map] at same
    rw [← filterMap_boundaryOrder, same, filterMap_range]
  port name p hp := ⟨p, hp, rfl, fun t ht => w.linked.back p t ht⟩
  unknown _ _ h := h
  other _ _ := ⟨rfl, rfl⟩
  wires _ := rfl

section Renumbered
variable (r : Renumbered n (oldPlace (boundaryOrder (g.portNames n) names))
  (boundaryOrder (g.portNames n) names).idxOf g h)
include r

theorem attributes_renumbered : h.attributes n = mentionedLast (g.attributes n) names := by
  have low (i : Nat) (hi : i ∈ boundaryOrder (g.portNames n) names) : i < (g.attributes n).length := by
    rwa [mem_boundaryOrder names (nodup_portNames w n), portNames_eq, List.length_map] at hi
  refine List.ext_getElem? fun i => ?_
  have places := getElem?_reorder (⟨g.attributes n, []⟩ : Layout Attribute) _ low i
  simp only [Layout.get?, Layout.reorder] at places
  rw [portNames_eq] at places
  rw [← filterMap_boundaryOrder, places, getElem?_attributes, r.attr, Port.moved, if_pos rfl,
    ← getElem?_attributes, oldPlace, portNames_eq]
  cases hi : (boundaryOrder ((g.attributes n).map Attribute.name) names)[i]? with
  | some j => rfl
  | none =>
    have length := length_boundaryOrder names (portNames_eq g n ▸ nodup_portNames w n)
    rw [List.getElem?_eq_none_iff, length, List.length_map] at hi
    exact List.getElem?_eq_none hi

theorem kept_renumbered {p : Port} (hp : p.node = n) (live : (g.attr? p).isSome) :
    (p.moved n (boundaryOrder (g.portNames n) names).idxOf).moved n
      (oldPlace (boundaryOrder (g.portNames n) names)) = p := by
  subst hp
  simp only [Port.moved, if_true]
  rw [oldPlace_idxOf ((mem_boundaryOrder_iff w names p.index).2 live)]

/-- A port is found by its name in its new place, and is found there from its peer. -/
theorem port_renumbered {name : String} {p : Port} (hp : g.port n name = .ok p) :
    ∃ q, h.port n name = .ok q ∧ h.slot? q = g.slot? p ∧
      ∀ t, g.peer? p = some t → h.peer? t = some q := by
  obtain rfl := node_of_port hp
  have named := named_of_port hp
  obtain ⟨a, ha, -⟩ := Option.map_eq_some_iff.1 named
  have kept := kept_renumbered w r rfl (by rw [ha]; rfl)
  generalize (boundaryOrder (g.portNames p.node) names).idxOf = new at *
  refine ⟨p.moved p.node new, ?_, ?_, fun t ht => ?_⟩
  · have there : (h.attr? (p.moved p.node new)).map Attribute.name = some name := by
      rw [r.attr, kept]
      exact named
    have found := port_of_name (r.wellFormed w) there
    rwa [node_moved] at found
  · rw [r.slot, kept]
    cases hs : g.slot? p with
    | none => rfl
    | some s =>
      have peer : s.peer.map (Port.moved p.node new) = s.peer := by
        cases ht : s.peer with
        | none => rfl
        | some t =>
          have far := peer_node_ne w (p := p) (q := t) (by rw [peer?, hs]; exact ht)
          rw [Option.map_some, moved_of_ne _ far.symm]
      rw [Option.map_some, peer]
  · have far := peer_node_ne w ht
    rw [r.peer, moved_of_ne _ far.symm, w.linked.back p t ht, Option.map_some]

theorem unknown_renumbered (live : (g.type? n).isSome) {name : String} {e : Error}
    (he : g.port n name = .error e) : h.port n name = .error e := by
  have unknown : name ∉ g.portNames n := by
    intro known
    obtain ⟨i, hi⟩ := (mem_portNames_iff g n name).1 known
    rw [port_of_name w hi] at he
    cases he
  rw [port_unknown live unknown] at he
  rw [← he, port_unknown (by rwa [r.tree.isSome_type])]
  have perm := (perm_mentionedLast names (portNames_eq g n ▸ nodup_portNames w n)).map Attribute.name
  rwa [portNames_eq, attributes_renumbered w r, perm.mem_iff, ← portNames_eq]

theorem Permuted.of_renumbered (live : (g.type? n).isSome) : Permuted n names g h := by
  have label {p : Port} (kept : (p.moved n (boundaryOrder (g.portNames n) names).idxOf).moved n
      (oldPlace (boundaryOrder (g.portNames n) names)) = p) :
      h.label (p.moved n (boundaryOrder (g.portNames n) names).idxOf) = g.label p := by
    rw [Graph.label, r.attr, kept, node_moved, Graph.label]
  refine ⟨r.tree, r.type, attributes_renumbered w r, fun _ _ => port_renumbered w r,
    fun _ _ => unknown_renumbered w r live, fun p hp => ⟨?_, ?_⟩, fun k => ?_⟩
  · rw [r.slot, moved_of_ne _ hp]
    cases g.slot? p <;> rfl
  · rw [r.peer, moved_of_ne _ hp]
    cases hq : g.peer? p with
    | none => rfl
    | some q => exact congrArg some (label (r.kept q (.inl (by rw [w.linked.back p q hq]; rfl))))
  · rw [r.wires, List.map_map]
    refine List.map_congr_left fun e he => ?_
    have feeds : g.Feeds e.output e.input := ⟨k, he⟩
    exact Prod.ext (label (r.kept_output feeds)) (label (r.kept_input feeds))

end Renumbered

theorem permuted_of_arrange (ok : g.arrangeBoundary n names = .ok h) : Permuted n names g h := by
  obtain ⟨t, order, ht, rfl, cases⟩ := reordered w names ok
  have named : t.ports.entries.map Attribute.name = g.portNames n := by rw [portNames, ht]; rfl
  rw [named] at cases
  rcases cases with ⟨rfl, same⟩ | ⟨-, g₁, r, rfl⟩
  · exact .of_same w same
  · exact .of_renumbered w (r.quiet (quiet_emit _ _)) (by rw [ht]; rfl)

/-- Ports that stand in the order are not moved. -/
theorem arrangeBoundary_again (ok : g.arrangeBoundary n names = .ok h) :
    h.arrangeBoundary n names = .ok h := by
  have sorted := (permuted_of_arrange w ok).attributes
  have order := boundaryOrder_mentionedLast names (portNames_eq g n ▸ nodup_portNames w n)
  obtain ⟨t, -, ht, -⟩ := reordered w names ok
  obtain ⟨u, hu⟩ := Option.isSome_iff_exists.1 (show (h.type? n).isSome by
    rw [(permuted_of_arrange w ok).tree.isSome_type, ht]; rfl)
  obtain ⟨m, hm, -⟩ := Option.map_eq_some_iff.1 hu
  rw [← sorted, ← portNames_eq, portNames_of_node? h hm] at order
  rw [arrangeBoundary, node_eq_ok_iff.2 hm]
  exact if_pos (by rw [order, List.length_range])

end Arrange

/-- The ports of every node of a grown graph, so of every network, can be brought into any order. To
those who read ports by their names all else is as it was, and doing it again changes nothing. -/
theorem arrange_reordered (run : Grown g) (live : (g.type? n).isSome) (names : List String) :
    ∃ h, g.arrangeBoundary n names = .ok h ∧ Permuted n names g h ∧ Aside g h ∧
      h.arrangeBoundary n names = .ok h := by
  have w := (acyclic_of_grown run).lawful.wellFormed
  obtain ⟨h, ok⟩ := arrangeBoundary_ok live names
  exact ⟨h, ok, permuted_of_arrange w ok, .arrangeBoundary ok, arrangeBoundary_again w ok⟩

/-- A network with input nodes `x` and `y`, which feed a relay each. -/
def twoInputs : Graph :=
  let g := (Action.addNode ⟨2⟩ .networkInput "y" .standard).after inputRelay
  let g := (Action.addNode ⟨2⟩ relay "b" .standard).after g
  (Action.connect ⟨⟨5⟩, 0⟩ ⟨⟨6⟩, 0⟩).after g

theorem standardRun_twoInputs : StandardRun twoInputs := by
  have relay := NodeType.Standard.of_name sound_relay (by decide) (by decide) (by decide)
  exact .step (.step (.step standardRun_inputRelay NodeType.standard_networkInput) relay) trivial

/-- The port for `x` is named, twice, so it comes after the port for `y`, and `z` is no port. -/
theorem twoInputs_reordered : (twoInputs.attributes ⟨2⟩).map Attribute.name = ["x", "y"] ∧
    ∃ h, twoInputs.arrangeBoundary ⟨2⟩ ["x", "z", "x"] = .ok h ∧
      (h.attributes ⟨2⟩).map Attribute.name = ["y", "x"] ∧ h.port ⟨2⟩ "x" = .ok ⟨⟨2⟩, 1⟩ ∧
      h.peer? ⟨⟨3⟩, 0⟩ = some ⟨⟨2⟩, 1⟩ ∧ h.arrangeBoundary ⟨2⟩ ["x", "z", "x"] = .ok h := by
  have first : (twoInputs.attributes ⟨2⟩).map Attribute.name = ["x", "y"] := by cbv
  obtain ⟨h, ok, a, -, again⟩ := arrange_reordered (grown_of_standard standardRun_twoInputs)
    (n := ⟨2⟩) (by cbv) ["x", "z", "x"]
  have order : (h.attributes ⟨2⟩).map Attribute.name = ["y", "x"] := by
    rw [a.attributes]
    cbv
  obtain ⟨q, hq, -, peer⟩ := a.port "x" ⟨⟨2⟩, 0⟩ (by cbv)
  have lawful := (acyclic_of_grown (grown_of_standard standardRun_twoInputs)).lawful
  have second : (h.attr? ⟨⟨2⟩, 1⟩).map Attribute.name = some "x" := by
    rw [← getElem?_attributes, ← List.getElem?_map, order]
    rfl
  obtain rfl : q = ⟨⟨2⟩, 1⟩ := by
    have there := port_of_name (lawful_arrange lawful _ ok).wellFormed second
    exact Except.ok.inj (hq.symm.trans there)
  exact ⟨first, h, ok, order, hq, peer ⟨⟨3⟩, 0⟩ (by cbv), again⟩

end Graph
end Dataflow
