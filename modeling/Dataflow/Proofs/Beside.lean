import Mathlib
import Dataflow.Proofs.Cycles
import Dataflow.Proofs.Typed
set_option autoImplicit false

/-!
What loading leaves alone. Main statements: nothing flows from what came to what was there, so that
wires between new nodes mark only new ports; and a document that is loaded beside what a network has
already leaves all of that as it was, unless it has a wire that is named after an old node.
-/

namespace Dataflow.Graph
variable {g h k : Graph} {n : NodeId}

/-! ### What is out of reach -/

section Reach
variable {p q : Port} (v : Value)

theorem slot?_hold_of_ne (ne : p ≠ q) : (g.hold p v).slot? q = g.slot? q := by
  rw [hold, slot?_emit, put, slot?_modifySlot, if_neg ne]
  rfl

theorem slot?_foldl_setStale_of_not_mem (l : List Port) (hq : q ∉ l) :
    (l.foldl setStale g).slot? q = g.slot? q := by
  induction l generalizing g with
  | nil => rfl
  | cons p l ih =>
    simp only [List.mem_cons, not_or] at hq
    rw [List.foldl_cons, ih hq.2, setStale, slot?_emit, slot?_emit, slot?_modifySlot,
      if_neg (Ne.symm hq.1)]

variable {R : Port → Prop} (w : g.WellFormed) (closed : ∀ p q, g.Flows p q → R p → R q)
include w closed

/-- Marks do not get out of ports from which nothing flows to others. -/
theorem slot?_spread_of_closed {starts : List Port} (hs : ∀ p ∈ starts, R p) (hq : ¬ R q) :
    (g.spread starts).slot? q = g.slot? q := by
  rw [spread]
  refine slot?_foldl_setStale_of_not_mem _ fun h => hq ?_
  obtain ⟨a, ha, path⟩ := along_of_mem_walk _ _ _ _ h
  rw [along_iff w] at path
  clear h hq
  induction path with
  | refl => exact hs a ha
  | tail _ last ih => exact closed _ _ last ih

theorem slot?_replace_of_closed (s : Slot) (hp : R p) (hq : ¬ R q) :
    (g.replace p s v).slot? q = g.slot? q := by
  have ne : p ≠ q := fun h => hq (h ▸ hp)
  have onward (k : Graph) (a : SameFrame g k) :
      (k.spread (k.successors p)).slot? q = k.slot? q := by
    have w' := a.wellFormed w
    rw [← a.flows] at closed
    exact slot?_spread_of_closed w' closed
      (fun r hr => closed _ _ ((mem_successors_iff w' p r).1 hr) hp) hq
  rw [replace]
  split
  · rw [onward _ ((g.sameFrame_hold p v).trans (sameFrame_setCurrent _ p)),
      slot?_setCurrent_of_ne _ (Ne.symm ne), slot?_hold_of_ne v ne]
  · rw [onward _ (g.sameFrame_hold p v), slot?_hold_of_ne v ne]

theorem slot?_assign_of_closed (ok : g.assign p v = .ok h) (hp : R p) (hq : ¬ R q) :
    h.slot? q = g.slot? q := by
  simp only [Graph.assign, bind, Except.bind] at ok
  split at ok
  · cases ok
  · split at ok
    · cases ok
      rfl
    · cases ok
      exact slot?_replace_of_closed v w closed _ hp hq

end Reach

/-! ### What was there -/

/-- All that is in `g` is in `h` as it was, and new wires join new nodes. Networks may have got new
ports and new nodes. -/
structure Beside (g h : Graph) : Prop where
  config : h.config = g.config
  around : ∀ m, (g.type? m).isSome → h.around? m = g.around? m
  name : ∀ m, (g.type? m).isSome → h.name? m = g.name? m
  slot : ∀ p s, g.slot? p = some s → h.slot? p = some s
  influences : ∀ p q, (g.type? p.node).isSome → h.Influences p q → g.Influences p q
  kept : ∀ o i, g.Feeds o i → h.Feeds o i
  new : ∀ o i, h.Feeds o i → g.Feeds o i ∨ g.type? o.node = none ∧ g.type? i.node = none

namespace Beside

theorem refl (g : Graph) : Beside g g :=
  ⟨rfl, fun _ _ => rfl, fun _ _ => rfl, fun _ _ hs => hs, fun _ _ _ hi => hi, fun _ _ hf => hf,
    fun _ _ hf => .inl hf⟩

theorem slot_of_type? {p : Port} (new : g.type? p.node = none) : g.slot? p = none := by
  rw [type?, Option.map_eq_none_iff] at new
  simp [slot?, new]

theorem node_ne {p : Port} (live : (g.attr? p).isSome) (new : g.type? n = none) : p.node ≠ n := by
  rintro rfl
  rw [attr?, slot_of_type? new] at live
  cases live

/-- An old node stays in its network, so what stands in a new one is new. -/
theorem absent (b : Beside g h) (w : g.Tree) {c : NodeId} (hc : h.around? c = some n)
    (new : g.type? n = none) : g.type? c = none := by
  cases live : g.type? c with
  | none => rfl
  | some t =>
    rw [b.around c (by rw [live]; rfl)] at hc
    have := isSome_type?_of_contents? (isSome_contents?_of_around? w hc)
    simp [new] at this

/-- A number that is free now was free before. -/
theorem unknown (b : Beside g h) {c : NodeId} (fresh : c ∉ h.nodes.keys) : g.type? c = none := by
  cases live : g.type? c with
  | none => rfl
  | some t =>
    obtain ⟨m, hm, -⟩ := Option.map_eq_some_iff.1 live
    have named := b.name c (by rw [live]; rfl)
    have gone : h.node? c = none := (Table.get?_eq_none_iff _ _).2 fresh
    simp [name?, gone, hm] at named

/-! ### Where values flow -/

/-- Nothing flows from a new port to an old one. -/
theorem flows (b : Beside g h) (w : g.WellFormed) (w' : h.WellFormed) {p q : Port}
    (hf : h.Flows p q) (new : g.slot? p = none) : g.slot? q = none := by
  have live {p : Port} (hp : (g.direction? p).isSome) : g.slot? p ≠ none := by
    rw [direction?, Option.isSome_map] at hp
    exact Option.isSome_iff_ne_none.1 hp
  rcases hf with hi | hf | ⟨-, hq⟩
  · cases ht : g.type? q.node with
    | none => exact slot_of_type? ht
    | some t =>
      have old := b.influences p q (by rw [hi.1, ht]; rfl) hi
      exact absurd new (live (by rw [old.input w]; rfl))
  · rcases b.new p q hf with old | ⟨-, fresh⟩
    · exact absurd new (live (by rw [old.output w.wired]; rfl))
    · exact slot_of_type? fresh
  · cases hs : g.slot? q with
    | none => rfl
    | some s =>
      -- an old peer would have been linked to this very port before
      have back := w'.linked.back _ _ hq
      rw [peer?, b.slot q s hs] at back
      have there : g.peer? q = some p := by rw [peer?, hs, back]
      have old := isSome_attr?_of_peer? g (w.linked.back _ _ there)
      rw [attr?, new] at old
      cases old

/-- What changes values and marks of new ports only. -/
theorem same (b : Beside g h) (a : SameFrame h k)
    (slot : ∀ p s, g.slot? p = some s → k.slot? p = h.slot? p) : Beside g k where
  config := a.config.trans b.config
  around := by rw [a.around]; exact b.around
  name := by rw [a.name]; exact b.name
  slot := fun p s hs => (slot p s hs).trans (b.slot p s hs)
  influences := by rw [a.influences]; exact b.influences
  kept := by rw [a.feeds]; exact b.kept
  new := by rw [a.feeds]; exact b.new

theorem hold (b : Beside g h) {p : Port} (new : g.slot? p = none) (v : Value) :
    Beside g (h.hold p v) := by
  refine b.same (h.sameFrame_hold p v) fun q s hs => slot?_hold_of_ne v ?_
  rintro rfl
  rw [new] at hs
  cases hs

theorem spread (b : Beside g h) (w : g.WellFormed) (w' : h.WellFormed) {starts : List Port}
    (new : ∀ p ∈ starts, g.slot? p = none) : Beside g (h.spread starts) :=
  b.same (h.sameFrame_spread starts) fun _ _ hs =>
    slot?_spread_of_closed w' (fun _ _ => b.flows w w') new (by simp [hs])

theorem assign (b : Beside g h) (w : g.WellFormed) (w' : h.WellFormed) {p : Port}
    (new : g.slot? p = none) {v : Value} (ok : h.assign p v = .ok k) : Beside g k :=
  b.same (sameFrame_assign ok) fun _ _ hs =>
    slot?_assign_of_closed v w' (fun _ _ => b.flows w w') ok new (by simp [hs])

/-! ### What comes -/

theorem inserted {id parent : NodeId} {t : NodeType} {name : String} {values : Datablock}
    (b : Beside g h) (x : Inserted id parent t name values h k)
    (a : Insertable id parent t name values h) : Beside g k := by
  have old {m : NodeId} (live : (g.type? m).isSome) : m ≠ id := by
    rintro rfl
    simp [b.unknown a.fresh] at live
  have oldPort {p : Port} {s : Slot} (hs : g.slot? p = some s) : p.node ≠ id := by
    refine old ?_
    cases ht : g.type? p.node with
    | none =>
      rw [slot_of_type? ht] at hs
      cases hs
    | some t => rfl
  refine ⟨x.config.trans b.config, fun m hm => ?_, fun m hm => ?_, fun p s hs => ?_,
    fun p q hp hi => ?_, ?_, ?_⟩
  · rw [x.around, if_neg (old hm), b.around m hm]
  · rw [x.name, if_neg (old hm), b.name m hm]
  · rw [x.slot p (oldPort hs), b.slot p s hs]
  · obtain ⟨node, u, hu, pair⟩ := hi
    rw [x.type, if_neg (old hp)] at hu
    exact b.influences p q hp ⟨node, u, hu, pair⟩
  · rw [x.feeds a]
    exact b.kept
  · rw [x.feeds a]
    exact b.new

theorem grown {side : Direction} {t p : Port} {a : Attribute} (b : Beside g h)
    (c : Growth side t p a h k) (new : g.slot? t = none) : Beside g k where
  config := c.tree.config.trans b.config
  around := by rw [c.tree.around]; exact b.around
  name := by rw [c.tree.name]; exact b.name
  slot := fun q s hs => by
    have here := b.slot q s hs
    rw [c.slot, if_neg, if_neg, here]
    · rintro rfl
      rw [new] at hs
      cases hs
    · rintro rfl
      rw [c.fresh] at here
      cases here
  influences := by rw [c.influences]; exact b.influences
  kept := by rw [c.feeds]; exact b.kept
  new := by rw [c.feeds]; exact b.new

theorem extended {side : Direction} {t : Port} (b : Beside g h) (x : Extended side t n h k)
    (new : g.slot? t = none) : Beside g k :=
  x.elim (P := Beside g) b fun _ _ c _ => b.grown c new

theorem seedEnds {e : Edge} (b : Beside g h) (output : g.slot? e.output = none)
    (input : g.slot? e.input = none) : Beside g (h.seedEnds e) := by
  simp only [Graph.seedEnds]
  split
  · split
    · exact (b.hold input _).hold output _
    · exact b.hold input _
  · split
    · exact b.hold output _
    · exact b

theorem rewired {e : Edge} (b : Beside g h) (x : Rewired n (·.add e) h k)
    (output : g.type? e.output.node = none) (input : g.type? e.input.node = none) : Beside g k where
  config := x.tree.config.trans b.config
  around := by rw [x.tree.around]; exact b.around
  name := by rw [x.tree.name]; exact b.name
  slot := by rw [x.slot]; exact b.slot
  influences := by rw [x.influences]; exact b.influences
  kept := fun o i hf => (feeds_add x o i).2 (.inl (b.kept o i hf))
  new := fun o i hf => by
    rcases (feeds_add x o i).1 hf with hf | ⟨rfl, rfl⟩
    · exact b.new o i hf
    · exact .inr ⟨output, input⟩

theorem quiet (b : Beside g h) (a : Quiet h k) : Beside g k :=
  b.same a.frame fun p s _ => by rw [a.slot]

/-- A wire between new nodes marks only what is new. -/
theorem draw (b : Beside g h) (w : g.WellFormed) (w' : h.WellFormed) {e : Edge}
    (d : Drawable n e h) (output : g.type? e.output.node = none)
    (input : g.type? e.input.node = none) : Beside g (h.drawWire e) := by
  obtain ⟨g₁, g₂, g₃, g₄, x⟩ := drawn d w'
  have out := slot_of_type? output
  have inn := slot_of_type? input
  have b₁ := b.rewired x.wire output input
  have b₂ : Beside g g₂ := by
    rw [x.seeds]
    exact b₁.seedEnds out inn
  have b₄ := (b₂.extended x.atOutput out).extended x.atInput inn
  have w₄ := x.wellFormed₄ d w'
  have b₅ : Beside g (g₄.spreadFrom e.input) := b₄.spread w w₄ (by simpa using inn)
  have w₅ : (g₄.spreadFrom e.input).WellFormed := (g₄.sameFrame_spread _).wellFormed w₄
  rw [x.spread]
  exact (b₅.spread w w₅ (by simpa using out)).quiet (quiet_emit _ _)

/-- The ports of a new network can be brought into any order. -/
theorem renumbered {old new : Nat → Nat} (b : Beside g h) (w : g.WellFormed)
    (x : Renumbered n old new h k) (fresh : g.type? n = none) : Beside g k where
  config := x.tree.config.trans b.config
  around := by rw [x.tree.around]; exact b.around
  name := by rw [x.tree.name]; exact b.name
  slot := fun p s hs => by
    have here := node_ne (n := n) (p := p) (by rw [attr?, hs]; rfl) fresh
    rw [x.slot, moved_of_ne _ here, b.slot p s hs, Option.map_some]
    cases hq : s.peer with
    | none => rw [Option.map_none, ← hq]
    | some q =>
      have peer : g.peer? p = some q := by rw [peer?, hs, Option.bind_some, hq]
      have there := node_ne (isSome_attr?_of_peer? g (w.linked.back _ _ peer)) fresh
      rw [Option.map_some, moved_of_ne _ there, ← hq]
  influences := fun p q hp hi => by
    have here : p.node ≠ n := by
      rintro rfl
      simp [fresh] at hp
    have before := x.influences p q hi
    rw [moved_of_ne _ here, moved_of_ne _ (hi.1 ▸ here)] at before
    exact b.influences p q hp before
  kept := fun o i hf => by
    obtain ⟨ho, hi⟩ := hf.isSome_attr? w.wired
    refine (x.feeds_iff o i).2 ⟨o, i, b.kept o i hf, ?_, ?_⟩
    · rw [moved_of_ne _ (node_ne ho fresh)]
    · rw [moved_of_ne _ (node_ne hi fresh)]
  new := fun o i hf => by
    obtain ⟨o', i', hf', rfl, rfl⟩ := (x.feeds_iff o i).1 hf
    rw [node_moved, node_moved]
    refine (b.new o' i' hf').imp_left fun old => ?_
    obtain ⟨ho, hi⟩ := old.isSome_attr? w.wired
    rwa [moved_of_ne _ (node_ne ho fresh), moved_of_ne _ (node_ne hi fresh)]

theorem arrange (b : Beside g h) (w : g.WellFormed) (w' : h.WellFormed) (fresh : g.type? n = none)
    {names : List String} (ok : h.arrangeBoundary n names = .ok k) : Beside g k := by
  rcases arranged w' names ok with rfl | ⟨-, old, new, g₁, x, rfl⟩
  · exact b
  · exact (b.renumbered w x fresh).quiet (quiet_emit _ _)

end Beside

/-! ### Loading -/

section Load
variable (w : g.WellFormed) {r : Registry} (sound : ∀ name t, r.find? name = some t → t.Sound)
include w

theorem keeps_loadTables_beside {loaded : List (NodeId × NodeDocument)}
    (fresh : ∀ x ∈ loaded, g.type? x.1 = none) :
    Edit.Keeps (LawfulWith (Beside g)) (loadTables loaded) := by
  refine Edit.keeps_forM _ fun x hx => Edit.keeps_forM _ fun _ _ =>
    keeps_loadValue _ _ _ fun h p v k b port ok => b.of_sameFrame (sameFrame_assign ok) ?_
  refine b.holds.assign w b.lawful.wellFormed (Beside.slot_of_type? ?_) ok
  rw [node_of_port port]
  exact fresh x hx

include sound

/-- Loading of new networks leaves alone all that was there before. -/
theorem keptByLoading_beside : KeptByLoading false r (fun _ => True)
    fun stack h => Beside g h ∧ ∀ m ∈ stack, g.type? m = none where
  sound := sound
  inner := fun _ _ _ _ _ _ => trivial
  spent := fun _ _ _ a b => ⟨b.1.quiet a.quiet, b.2⟩
  insert := fun stack h id n _ t v name _ _ _ _ _ a b => by
    refine ⟨b.1.inserted (inserted h (v.getD .null) a) a, fun m hm => ?_⟩
    rcases List.mem_cons.1 hm with rfl | hm
    · exact b.1.unknown a.fresh
    · exact b.2 m hm
  draw := fun stack h n e w' d b => by
    have fresh := b.2 n List.mem_cons_self
    exact ⟨b.1.draw w w'.wellFormed d (b.1.absent w.tree d.outputAround fresh)
      (b.1.absent w.tree d.inputAround fresh), b.2⟩
  arrange := fun _ _ _ n _ w' _ ok b => ⟨b.1.arrange w w' (b.2 n List.mem_cons_self) ok, b.2⟩
  fill := fun stack h n loaded _ there _ ⟨w', b, fresh⟩ => by
    have new : ∀ x ∈ loaded, g.type? x.1 = none :=
      fun x hx => b.absent w.tree (there x hx).1 (fresh n List.mem_cons_self)
    have k := keeps_loadTables_beside w new h ⟨w', b⟩
    exact ⟨k.lawful, k.holds, fun m hm => fresh m (List.mem_cons_of_mem _ hm)⟩
  close := fun _ _ _ b => ⟨b.1, fun m hm => b.2 m (List.mem_cons_of_mem _ hm)⟩

end Load

/-! ### Beside what is there -/

/-- No wire of the document is named after a node that the network has. -/
def Apart (g : Graph) (n : NodeId) (d : NetworkDocument) : Prop :=
  ∀ c ∈ d.connections, g.find? n c.outNode = none ∧ g.find? n c.inNode = none

/-- All ports and wires of `g` are in `h` with all that ports hold and whether it is out of date, and
every wire that came since joins nodes that came since. Only the ports of `n` may have changed
places. -/
structure SparedBy (n : NodeId) (move : Nat → Nat) (g h : Graph) : Prop where
  slot : ∀ p s, g.slot? p = some s → ∃ s', h.slot? (p.moved n move) = some s' ∧
    s'.attr = s.attr ∧ s'.held = s.held ∧ s'.stale = s.stale
  kept : ∀ o i, g.Feeds o i → h.Feeds (o.moved n move) (i.moved n move)
  new : ∀ o i, h.Feeds o i →
    (∃ o' i', g.Feeds o' i' ∧ o = o'.moved n move ∧ i = i'.moved n move) ∨
      g.type? o.node = none ∧ g.type? i.node = none

def Spared (n : NodeId) (g h : Graph) : Prop := ∃ move, SparedBy n move g h

theorem moved_id (p : Port) (n : NodeId) : p.moved n id = p := by
  obtain ⟨m, i⟩ := p
  rw [Port.moved]
  split
  · next h => rw [← h]; rfl
  · rfl

/-- The ports of `n` have changed places, and nothing else. -/
structure Reordered (n : NodeId) (old new : Nat → Nat) (g h : Graph) : Prop where
  back : ∀ p, (g.attr? p).isSome → (p.moved n new).moved n old = p
  slot : ∀ p s, g.slot? p = some s → ∃ s', h.slot? (p.moved n new) = some s' ∧
    s'.attr = s.attr ∧ s'.held = s.held ∧ s'.stale = s.stale
  feeds : ∀ o i, h.Feeds o i ↔ ∃ o' i', g.Feeds o' i' ∧ o = o'.moved n new ∧ i = i'.moved n new
  flows : ∀ p q, h.Flows p q → g.Flows (p.moved n old) (q.moved n old)

theorem reordered_arrange (w : g.WellFormed) {names : List String}
    (ok : g.arrangeBoundary n names = .ok h) : ∃ old new, Reordered n old new g h := by
  obtain ⟨t, order, ht, ho, ⟨rfl, -⟩ | ⟨-, g₁, x, rfl⟩⟩ := reordered w names ok
  · refine ⟨id, id, fun p _ => ?_, fun p s hs => ⟨s, ?_, rfl, rfl, rfl⟩, fun o i => ?_, fun p q hf => ?_⟩
    · rw [moved_id, moved_id]
    · rw [moved_id, hs]
    · simp [moved_id]
    · rwa [moved_id, moved_id]
  · have back (p : Port) (live : (g.attr? p).isSome) :
        (p.moved n order.idxOf).moved n (oldPlace order) = p := by
      obtain ⟨m, i⟩ := p
      by_cases hm : m = n
      · subst hm
        have own (f : Nat → Nat) (i : Nat) : (⟨m, i⟩ : Port).moved m f = ⟨m, f i⟩ := if_pos rfl
        have low : i < t.ports.length := by
          rw [attr?_eq, ht] at live
          simpa [Layout.get?, Layout.length] using live
        have place : i ∈ order := by
          rw [ho, mem_boundaryOrder names (w.sound m t ht).names, List.length_map]
          exact low
        rw [own, own, oldPlace_idxOf place]
      · have same (f : Nat → Nat) : (⟨m, i⟩ : Port).moved n f = ⟨m, i⟩ := moved_of_ne f hm
        rw [same, same]
    have frame := sameFrame_emit g₁ (.metadataChanged n)
    refine ⟨_, _, back,
      fun p s hs => ⟨{ s with peer := s.peer.map (Port.moved n order.idxOf) }, ?_, rfl, rfl, rfl⟩,
      fun o i => ?_, fun p q hf => ?_⟩
    · rw [slot?_emit, x.slot, back p (by rw [attr?, hs]; rfl), hs]
      rfl
    · rw [frame.feeds]
      exact x.feeds_iff o i
    · rw [frame.flows] at hf
      exact x.flows_old w.linked hf

section Into
variable (w : g.WellFormed) {r : Registry} (sound : ∀ name t, r.find? name = some t → t.Sound)
include w

/-- What a document names beside the nodes that it brings is not there. -/
theorem keeps_loadConnections_beside {d : NetworkDocument} (apart : g.Apart n d) :
    Edit.Keeps (LawfulWith (Beside g)) (d.connections.forM (loadConnection n)) := by
  refine Edit.keeps_forM _ fun c hc => keeps_loadConnection n c fun h e k b out inn ok => ?_
  have fresh {x : NodeId} {name : String} (found : h.find? n name = some x)
      (free : g.find? n name = none) :
      g.type? x = none := by
    cases live : g.type? x with
    | none => rfl
    | some t =>
      obtain ⟨child, named⟩ := mem_children_of_find? found
      have here := (b.lawful.wellFormed.tree.child n x).1 child
      rw [b.holds.around x (by rw [live]; rfl)] at here
      rw [b.holds.name x (by rw [live]; rfl)] at named
      exact absurd named ((find?_eq_none_iff g n name).1 free x ((w.tree.child n x).2 here))
  obtain ⟨m, x, rfl⟩ := drawable_of_connect ok
  exact b.draw x
    (b.holds.draw w b.lawful.wellFormed x (fresh out (apart c hc).1) (fresh inn (apart c hc).2))

/-- The values of new nodes do not reach what was there. -/
theorem sparedBy_loadTables {old new : Nat → Nat} (b : LawfulWith (Beside g) h)
    (x : Reordered n old new h k) (w' : k.Lawful) {loaded : List (NodeId × NodeDocument)}
    (fresh : ∀ x ∈ loaded, g.type? x.1 = none) : SparedBy n new g ((loadTables loaded).apply k).2 := by
  -- a port is new if its old place is
  let New (p : Port) : Prop := g.slot? (p.moved n old) = none
  have closed (p q : Port) (hf : k.Flows p q) : New p → New q :=
    b.holds.flows w b.lawful.wellFormed (x.flows p q hf)
  obtain ⟨-, frame, same⟩ := Edit.keeps_forM
    (P := fun f => f.WellFormed ∧ SameFrame k f ∧ ∀ q, ¬ New q → f.slot? q = k.slot? q)
    (f := fun n => n.2.ports.forM fun p => loadValue n.1 p.1 p.2) loaded
    (fun y hy => Edit.keeps_forM _ fun _ _ => keeps_loadValue _ _ _
      fun f p v f' ⟨lawful, a, same⟩ port ok => by
        have here : New p :=
          Beside.slot_of_type? (by rw [node_moved, node_of_port port]; exact fresh y hy)
        have frame := sameFrame_assign ok
        refine ⟨frame.wellFormed lawful, a.trans frame, fun q hq => ?_⟩
        rw [slot?_assign_of_closed v lawful (by rw [a.flows]; exact closed) ok here hq, same q hq])
    k ⟨w'.wellFormed, .refl k, fun _ _ => rfl⟩
  change SameFrame k ((loadTables loaded).apply k).2 at frame
  refine ⟨fun p s hs => ?_, fun o i hf => ?_, fun o i hf => ?_⟩
  · have there := b.holds.slot p s hs
    obtain ⟨s', hs', like⟩ := x.slot p s there
    refine ⟨s', (same _ ?_).trans hs', like⟩
    change ¬ g.slot? ((p.moved n new).moved n old) = none
    rw [x.back p (by rw [attr?, there]; rfl), hs]
    simp
  · rw [frame.feeds]
    exact (x.feeds _ _).2 ⟨o, i, b.holds.kept o i hf, rfl, rfl⟩
  · rw [frame.feeds] at hf
    obtain ⟨o', i', hf', rfl, rfl⟩ := (x.feeds o i).1 hf
    rw [node_moved, node_moved]
    exact (b.holds.new o' i' hf').imp_left fun old => ⟨o', i', old, rfl, rfl⟩

omit w in
theorem Beside.spared (b : Beside g h) (n : NodeId) : Spared n g h := by
  refine ⟨id, fun p s hs => ⟨s, ?_, rfl, rfl, rfl⟩, fun o i hf => ?_, fun o i hf => ?_⟩
  · rw [moved_id, b.slot p s hs]
  · rw [moved_id, moved_id]
    exact b.kept o i hf
  · refine (b.new o i hf).imp_left fun old => ⟨o, i, old, ?_, ?_⟩
    · rw [moved_id]
    · rw [moved_id]

omit w in
/-- Where names must be unique, a node comes under a free name only. -/
theorem free_of_loadNode {d : NodeDocument} {name : String} {id : NodeId}
    (unique : h.config.uniqueNames = true) (ok : ((loadNode r n name d).apply h).1 = .ok id) :
    h.find? n name = none := by
  rw [loadNode_eq] at ok
  obtain ⟨new, ok, -⟩ := Edit.ok_of_bind ok
  rw [loadHead] at ok
  obtain ⟨t, -, ok⟩ := Edit.ok_of_bind ok
  obtain ⟨v, -, ok⟩ := Edit.ok_of_bind ok
  obtain ⟨id?, -, ok⟩ := Edit.ok_of_bind ok
  obtain ⟨c, ok, -⟩ := Edit.ok_of_bind ok
  rw [Edit.apply_look, Edit.apply_look] at ok
  obtain ⟨ids, passed⟩ : SpentId h ((keptId d.id).apply h).2 := by
    cases d.id with
    | none => exact ⟨h.ids, rfl⟩
    | some x => exact ⟨_, rfl⟩
  rw [passed, addNode_eq] at ok
  obtain ⟨x, -, ok⟩ := Edit.ok_of_bind ok
  obtain ⟨free, ok, -⟩ := Edit.ok_of_bind ok
  rw [Edit.apply_look, Edit.apply_look] at ok
  change h.freeName n name = .ok free at ok
  cases found : h.find? n name with
  | none => rfl
  | some c =>
    simp [freeName, found, unique, bind, Except.bind, throw, throwThe, MonadExceptOf.throw] at ok

theorem Beside.free (b : Beside g h) (w' : h.Tree) {name : String} (free : h.find? n name = none) :
    g.find? n name = none := by
  rw [find?_eq_none_iff] at free ⊢
  intro c hc named
  have live := isSome_type?_of_around? ((w.tree.child n c).1 hc)
  refine free c ((w'.child n c).2 ?_) ?_
  · rw [b.around c live]
    exact (w.tree.child n c).1 hc
  · rw [b.name c live, named]

include sound

theorem beside_loadNodes (lawful : g.Lawful) (l : List (String × NodeDocument)) :
    Ends (Beside g) g (fun loaded _ => ∀ x ∈ loaded, g.type? x.1 = none)
      ((loadNodes r n l).apply g) := by
  obtain ⟨b, last, post⟩ := ends_loadNodes (keptByLoading_beside w sound) [] n l
    (fun _ _ => trivial) g ⟨lawful, .refl g, nofun⟩ .nil nofun
  refine ⟨⟨b.lawful, b.holds.1⟩, last, fun loaded ok x hx => ?_⟩
  obtain ⟨new, around, -⟩ := (post loaded ok).1 x hx
  cases live : g.type? x.1 with
  | none => rfl
  | some t =>
    rw [b.holds.1.around x.1 (by rw [live]; rfl), new] at around
    cases around

theorem spared_of_apart (lawful : g.Lawful) {d : NetworkDocument}
    (apart : (∃ loaded, ((loadNodes r n d.nodes).apply g).1 = .ok loaded) → g.Apart n d) :
    Spared n g ((loadInto r n d).apply g).2 := by
  have e := beside_loadNodes (n := n) w sound lawful d.nodes
  rw [loadInto_eq]
  refine Edit.bind_elim (motive := fun res => Spared n g res.2)
    (fun loaded h₁ eq₁ => ?_) fun x h₁ eq₁ => ?_
  · rw [eq₁] at e apart
    have b₂ := keeps_loadConnections_beside w (apart ⟨loaded, rfl⟩) h₁ e.holds
    refine Edit.bind_elim (motive := fun res => Spared n g res.2)
      (fun _ h₂ eq₂ => ?_) fun x h₂ eq₂ => ?_
    · rw [eq₂] at b₂
      rw [Edit.apply_bind, Edit.apply_step]
      cases ok : h₂.arrangeBoundary n d.boundary with
      | error x => exact b₂.holds.spared n
      | ok h₃ =>
        obtain ⟨old, new, x⟩ := reordered_arrange b₂.lawful.wellFormed ok
        exact ⟨new, sparedBy_loadTables w b₂ x (lawful_arrange b₂.lawful _ ok) (e.result rfl)⟩
    · rw [eq₂] at b₂
      exact b₂.holds.spared n
  · rw [eq₁] at e
    exact e.holds.holds.spared n

theorem free_of_loadNodes (unique : g.config.uniqueNames = true) {l : List (String × NodeDocument)}
    {loaded : List (NodeId × NodeDocument)} (b : LawfulWith (Beside g) h)
    (ok : ((loadNodes r n l).apply h).1 = .ok loaded) : ∀ x ∈ l, g.find? n x.1 = none := by
  induction l generalizing h loaded with
  | nil => nofun
  | cons e rest ih =>
    obtain ⟨name, d⟩ := e
    rw [loadNodes] at ok
    obtain ⟨id, first, ok⟩ := Edit.ok_of_bind ok
    obtain ⟨others, later, -⟩ := Edit.ok_of_bind ok
    intro x hx
    rcases List.mem_cons.1 hx with rfl | hx
    · exact b.holds.free w b.lawful.wellFormed.tree
        (free_of_loadNode (by rw [b.holds.config]; exact unique) first)
    · have e := ends_loadNode (keptByLoading_beside w sound) [] n name d trivial h
        ⟨b.lawful, b.holds, nofun⟩ .nil nofun
      exact ih ⟨e.holds.lawful, e.holds.holds.1⟩ later x hx

end Into

section Back
variable {r : Registry}

/-- The tree is the same, and no wire is gone. -/
structure Rising (g h : Graph) : Prop where
  tree : SameTree g h
  feeds : ∀ o i, g.Feeds o i → h.Feeds o i

theorem keeps_rising (c : ConnectionDocument) :
    Edit.Keeps (LawfulWith (Rising h)) (loadConnection n c) := by
  refine keeps_loadConnection n c fun f e f' b _ _ ok => b.connect (fun m e' w d r => ?_) ok
  obtain ⟨g₁, g₂, g₃, g₄, x⟩ := drawn d w.wellFormed
  exact ⟨r.tree.trans x.tree, fun o i hf => (x.feeds o i).2 (.inl (r.feeds o i hf))⟩

theorem risen (w : h.Lawful) (cs : List ConnectionDocument) :
    LawfulWith (Rising h) ((cs.forM (loadConnection n)).apply h).2 :=
  Edit.keeps_forM cs (fun c _ => keeps_rising c) h ⟨w, .refl h, fun _ _ hf => hf⟩

/-- A name that a new node has is none of an old one. -/
theorem Beside.free_of_new (b : Beside g h) (w : g.Tree) (w' : h.Tree) {c : NodeId} {name : String}
    (child : c ∈ h.children n) (named : h.name? c = some name) (new : g.type? c = none) :
    g.find? n name = none := by
  rw [find?_eq_none_iff]
  intro x hx same
  have around := (w.child n x).1 hx
  have live := isSome_type?_of_around? around
  have eq : x = c := by
    refine w'.distinct n x c ((w'.child n x).2 ?_) child ?_
    · rw [b.around x live, around]
    · rw [b.name x live, same, named]
  rw [eq, new] at live
  cases live

/-- The wires of a document that is loaded without an error are all drawn. -/
theorem drawn_of_loadConnections {cs : List ConnectionDocument} (w : h.Lawful)
    (ok : ((cs.forM (loadConnection n)).apply h).1 = .ok ()) {c : ConnectionDocument} (hc : c ∈ cs) :
    ∃ (e : Edge) (f : Graph), LawfulWith (Rising h) f ∧ f.find? n c.outNode = some e.output.node ∧
      f.find? n c.inNode = some e.input.node ∧ Drawable n e f ∧
      ((cs.forM (loadConnection n)).apply h).2.Feeds e.output e.input := by
  obtain ⟨f, f', step, before, after⟩ := Edit.pass_of_forM ok hc
  have b := before _ (fun c _ => keeps_rising c) ⟨w, .refl h, fun _ _ hf => hf⟩
  obtain ⟨e, out, inn, connected⟩ := connect_of_loadConnection step
  obtain ⟨m, d, rfl⟩ := drawable_of_connect connected
  obtain rfl : m = n :=
    Option.some.inj (d.outputAround.symm.trans (around?_of_find? b.lawful.wellFormed.tree out))
  obtain ⟨g₁, g₂, g₃, g₄, x⟩ := drawn d b.lawful.wellFormed
  have new := (b.draw (J := Rising (f.drawWire e)) d ⟨.refl _, fun _ _ hf => hf⟩)
  exact ⟨e, f, b, out, inn, d, (after _ (fun c _ => keeps_rising c) new).holds.feeds _ _
    ((x.feeds _ _).2 (.inr ⟨rfl, rfl⟩))⟩

variable (w : g.Lawful) (sound : ∀ name t, r.find? name = some t → t.Sound)
include w sound

/-- A wire that is named after an old node ends there. -/
theorem apart_of_spared {d : NetworkDocument}
    (ok : ((loadInto r n d).apply g).1 = .ok ()) (spared : Spared n g ((loadInto r n d).apply g).2) :
    g.Apart n d := by
  have wf := w.wellFormed
  have start := beside_loadNodes (n := n) wf sound w d.nodes
  rw [loadInto_eq] at ok spared
  obtain ⟨loaded, ok₁, ok⟩ := Edit.ok_of_bind ok
  obtain ⟨u, ok₂, ok⟩ := Edit.ok_of_bind ok
  obtain ⟨u, ok₃, -⟩ := Edit.ok_of_bind ok
  rw [Edit.apply_bind_ok (Prod.ext ok₁ rfl), Edit.apply_bind_ok (Prod.ext ok₂ rfl),
    Edit.apply_bind_ok (Prod.ext ok₃ rfl)] at spared
  have b := start.holds
  generalize ((loadNodes r n d.nodes).apply g).2 = h at b ok₂ ok₃ spared
  have risen := risen (n := n) b.lawful d.connections
  intro c hc
  obtain ⟨e, f, rising, out, inn, x, drawn⟩ := drawn_of_loadConnections b.lawful ok₂ hc
  generalize ((d.connections.forM (loadConnection n)).apply h).2 = h₂ at risen drawn ok₃ spared
  rw [Edit.apply_step] at ok₃ spared
  cases arranged : h₂.arrangeBoundary n d.boundary with
  | error x => simp [arranged] at ok₃
  | ok h₃ =>
    rw [arranged] at spared
    obtain ⟨old, new, moves⟩ := reordered_arrange risen.lawful.wellFormed arranged
    obtain ⟨move, s⟩ := spared
    have fed : ((loadTables loaded).apply h₃).2.Feeds (e.output.moved n new) (e.input.moved n new) := by
      rw [(sameFrame_loadTables loaded).feeds]
      exact (moves.feeds _ _).2 ⟨_, _, drawn, rfl, rfl⟩
    have tree := rising.holds.tree
    have inner {c : NodeId} (hc : f.around? c = some n) : c ≠ n := by
      rintro rfl
      exact Nat.lt_irrefl _ (rank_lt rising.lawful.wellFormed.tree hc)
    have stays {p q : Port} (hp : f.around? p.node = some n) (eq : p.moved n new = q.moved n move) :
        p = q := by
      have node : p.node = q.node := by rw [← node_moved p n new, eq, node_moved]
      rwa [moved_of_ne _ (inner hp), moved_of_ne _ (node ▸ inner hp)] at eq
    rcases s.new _ _ fed with ⟨o', i', hf, ho, hi⟩ | ⟨output, input⟩
    · -- the wire was not there before it was drawn
      rw [← stays x.outputAround ho, ← stays x.inputAround hi] at hf
      have before := rising.holds.feeds _ _ (b.holds.kept _ _ hf)
      have free := x.free
      rw [(source?_eq_some_iff rising.lawful.wellFormed.wired _ _).2 before] at free
      cases free
    · rw [node_moved] at output input
      have free {name : String} {y : NodeId} (found : f.find? n name = some y)
          (new : g.type? y = none) : g.find? n name = none := by
        obtain ⟨child, named⟩ := mem_children_of_find? found
        rw [tree.children] at child
        rw [tree.name] at named
        exact b.holds.free_of_new wf.tree b.lawful.wellFormed.tree child named new
      exact ⟨free out output, free inn input⟩

end Back

/-- A document whose wires are between its own nodes leaves alone what a network has already, and
wires its own nodes only, where names must be unique or none of its wires is named after a node that
is there; and where it is loaded to the end this is so only in the latter case. -/
theorem spared_and_spared_iff {g : Graph} (run : Grown g) {r : Registry}
    (sound : ∀ name t, r.find? name = some t → t.Sound) {d : NetworkDocument}
    (listed : ∀ c ∈ d.connections, c.outNode ∈ d.nodes.map Prod.fst ∧ c.inNode ∈ d.nodes.map Prod.fst)
    (n : NodeId) :
    (g.config.uniqueNames = true ∨ g.Apart n d → Spared n g ((loadInto r n d).apply g).2) ∧
    (((loadInto r n d).apply g).1 = .ok () →
      (Spared n g ((loadInto r n d).apply g).2 ↔ g.Apart n d)) := by
  have w := (acyclic_of_grown run).lawful
  have wf := w.wellFormed
  refine ⟨fun either => spared_of_apart wf sound w fun ⟨loaded, ok⟩ => ?_, fun ok =>
    ⟨apart_of_spared w sound ok, fun apart => spared_of_apart wf sound w fun _ => apart⟩⟩
  refine either.elim (fun unique c hc => ?_) id
  have free {name : String} (hn : name ∈ d.nodes.map Prod.fst) : g.find? n name = none := by
    obtain ⟨x, hx, rfl⟩ := List.mem_map.1 hn
    exact free_of_loadNodes wf sound unique ⟨w, .refl g⟩ ok x hx
  exact ⟨free (listed c hc).1, free (listed c hc).2⟩

/-- Two relays in a row. -/
def relayPair (first second : String) : NetworkDocument :=
  let relay : NodeDocument := ⟨"relay", none, [], none, none⟩
  ⟨[(first, relay), (second, relay)], [⟨first, "out", second, "in"⟩], []⟩

/-- A relay where names need not be unique. -/
def looseRelay : Graph :=
  (Action.addNode ⟨1⟩ relay "a" .standard).after (create ⟨512, false⟩ .start 0 [])

/-- Another pair leaves the relay alone, and a pair with a relay of its name is wired to it. -/
theorem looseRelay_spared :
    Spared ⟨1⟩ looseRelay
      ((loadInto ⟨[("relay", relay)], []⟩ ⟨1⟩ (relayPair "b" "c")).apply looseRelay).2 ∧
    ¬ Spared ⟨1⟩ looseRelay
      ((loadInto ⟨[("relay", relay)], []⟩ ⟨1⟩ (relayPair "a" "b")).apply looseRelay).2 := by
  have run : Grown looseRelay := .step (.start ..) sound_relay
  have sound (name : String) (t : NodeType)
      (ht : Registry.find? ⟨[("relay", relay)], []⟩ name = some t) : t.Sound := by
    simp only [Registry.find?, Table.get?] at ht
    split at ht
    · cases ht
      exact sound_relay
    · cases ht
  have listed (first second : String) : ∀ c ∈ (relayPair first second).connections,
      c.outNode ∈ (relayPair first second).nodes.map Prod.fst ∧
      c.inNode ∈ (relayPair first second).nodes.map Prod.fst := by
    simp [relayPair]
  constructor
  · refine (spared_and_spared_iff run sound (listed "b" "c") ⟨1⟩).1 (.inr ?_)
    intro c hc
    obtain rfl := List.mem_singleton.1 hc
    cbv
  · intro spared
    have apart := ((spared_and_spared_iff run sound (listed "a" "b") ⟨1⟩).2 (by cbv)).1 spared
    have free : looseRelay.find? ⟨1⟩ "a" = none :=
      (apart ⟨"a", "out", "b", "in"⟩ (by simp [relayPair])).1
    have taken : looseRelay.find? ⟨1⟩ "a" = some ⟨2⟩ := by cbv
    rw [free] at taken
    cases taken

end Dataflow.Graph
