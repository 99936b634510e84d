import Dataflow.Proofs.Seeded
set_option autoImplicit false

/-!
What building leaves alone. Main statement: drawing a wire, bringing the boundary into order and
giving a value change nothing but one network, its wires and boundary, and the ports of the nodes that
stand directly in it.
-/

namespace Dataflow.Graph

/-- What a client has left with a node. -/
def note? (g : Graph) (n : NodeId) : Option Payload :=
  (g.node? n).bind fun m => m.attachment.payload?

/-- `h` is `g`, apart from wires, ports and values in the network `n`. -/
structure Tended (n : NodeId) (g h : Graph) : Prop where
  tree : SameTree g h
  note : h.note? = g.note?
  wires : ∀ m, m ≠ n → h.wires m = g.wires m
  type : ∀ m, m ≠ n → h.type? m = g.type? m
  peer : ∀ p, p.node ≠ n → g.terminal? p = none ∨ g.around? p.node ≠ some n →
    h.peer? p = g.peer? p
  value : ∀ p, p.node ≠ n → g.around? p.node ≠ some n → h.value p = g.value p

theorem Tended.attr {n : NodeId} {g h : Graph} (a : Tended n g h) {p : Port} (hp : p.node ≠ n) :
    h.attr? p = g.attr? p := by
  rw [attr?_eq, attr?_eq, a.type _ hp]

/-! ### What is left with nodes -/

/-- What computations and clients have left with nodes and the counts of runs are the same. -/
structure Aside (g h : Graph) : Prop where
  calls : h.calls = g.calls
  left : ∀ n, (h.node? n).map (fun m => (m.status, m.attachment)) =
    (g.node? n).map fun m => (m.status, m.attachment)

namespace Aside
variable {g h k : Graph}

theorem refl (g : Graph) : Aside g g := ⟨rfl, fun _ => rfl⟩

theorem trans (a : Aside g h) (b : Aside h k) : Aside g k :=
  ⟨b.calls.trans a.calls, fun n => (b.left n).trans (a.left n)⟩

theorem note (a : Aside g h) : h.note? = g.note? := by
  funext n
  have left := congrArg (Option.bind · fun m => m.2.payload?) (a.left n)
  rwa [Option.bind_map, Option.bind_map] at left

theorem foldl {α : Type} {f : Graph → α → Graph} (step : ∀ g a, Aside g (f g a)) (l : List α)
    (g : Graph) : Aside g (l.foldl f g) := by
  induction l generalizing g with
  | nil => exact .refl g
  | cons a l ih => exact (step g a).trans (ih _)

theorem of_nodes (nodes : h.nodes = g.nodes) (calls : h.calls = g.calls) : Aside g h := by
  refine ⟨calls, fun n => ?_⟩
  rw [node?, nodes]
  rfl

theorem modifyNode (g : Graph) (n : NodeId) (f : Node → Node) (hs : ∀ m, (f m).status = m.status)
    (ha : ∀ m, (f m).attachment = m.attachment) : Aside g (g.modifyNode n f) :=
  ⟨rfl, map_node?_modifyNode g n f _ fun m => by rw [hs, ha]⟩

theorem emit (g : Graph) (e : Event) : Aside g (g.emit e) := .of_nodes rfl rfl

theorem stamp (g : Graph) (v : Value) : Aside g (g.stamp v).2 := .of_nodes rfl rfl

theorem modifySlot (g : Graph) (p : Port) (f : Slot → Slot) : Aside g (g.modifySlot p f) :=
  .modifyNode g _ _ (fun _ => rfl) fun _ => rfl

theorem put (g : Graph) (p : Port) (v : Value) : Aside g (g.put p v) :=
  (stamp g v).trans (modifySlot _ p _)

theorem hold (g : Graph) (p : Port) (v : Value) : Aside g (g.hold p v) :=
  (put g p v).trans (.emit _ _)

theorem setCurrent (g : Graph) (p : Port) : Aside g (g.setCurrent p) :=
  (modifySlot g p _).trans (.emit _ _)

theorem setPeer (g : Graph) (p : Port) (q : Option Port) : Aside g (g.setPeer p q) :=
  modifySlot g p _

theorem spread (g : Graph) (starts : List Port) : Aside g (g.spread starts) :=
  .foldl (fun g p => ((modifySlot g p _).trans (.emit _ _)).trans (.emit _ _)) _ g

theorem modifyWiresAround (g : Graph) (n : NodeId) (f : Wiring → Wiring) :
    Aside g (g.modifyWiresAround n f) := by
  rw [Graph.modifyWiresAround]
  split
  · exact modifyNode g _ _ (fun _ => rfl) fun _ => rfl
  · exact .refl g

theorem seedEnds (g : Graph) (e : Edge) : Aside g (g.seedEnds e) := by
  simp only [Graph.seedEnds]
  split <;> split
  · exact (hold g _ _).trans (.hold _ _ _)
  · exact .hold g _ _
  · exact .hold g _ _
  · exact .refl g

theorem grow (g : Graph) (side : Direction) (t other : Port) : Aside g (g.grow side t other) := by
  simp only [Graph.grow]
  split
  · split
    · split
      · refine (((stamp g _).trans (modifyNode _ _ _ ?_ ?_)).trans (emit _ _)).trans (setPeer _ _ _)
        all_goals exact fun _ => rfl
      · exact .refl g
    · exact .refl g
  · exact .refl g

theorem drawWire (g : Graph) (e : Edge) : Aside g (g.drawWire e) := by
  have grown (g : Graph) (side : Direction) (t other : Port) :
      Aside g (if g.grows side t then g.grow side t other else g) := by
    split
    · exact .grow g _ _ _
    · exact .refl g
  have boundary (g : Graph) : Aside g (g.growBoundary e) :=
    (grown g .input e.output e.input).trans (grown _ .output e.input e.output)
  exact (((((modifyWiresAround g _ _).trans (seedEnds _ e)).trans (boundary _)).trans
    (spread _ [e.input])).trans (spread _ [e.output])).trans (.emit _ _)

theorem replace (g : Graph) (p : Port) (s : Slot) (v : Value) : Aside g (g.replace p s v) := by
  simp only [Graph.replace]
  refine .trans ?_ (spread _ _)
  split
  · exact (hold g p v).trans (.setCurrent _ p)
  · exact .hold g p v

theorem readdress (g : Graph) (n : NodeId) (start : Nat) : Aside g (g.readdress n start) := by
  rw [Graph.readdress]
  split
  · refine .foldl (fun g s => ?_) _ g
    split
    · exact .setPeer g _ _
    · exact .refl g
  · exact .refl g

theorem arrangeBoundary {n : NodeId} {names : List String} (ok : g.arrangeBoundary n names = .ok h) :
    Aside g h := by
  simp only [Graph.arrangeBoundary, bind, Except.bind] at ok
  split at ok
  · cases ok
  · split at ok
    · cases ok
      exact .refl g
    · cases ok
      refine (((modifyNode g _ _ ?_ ?_).trans (readdress _ n 0)).trans
        (modifyWiresAround _ n _)).trans (emit _ _)
      all_goals exact fun _ => rfl

end Aside

theorem note?_insert (g : Graph) {id parent : NodeId} {t : NodeType} {name : String}
    {values : Datablock} {attachment : Value} (n : NodeId) :
    (g.insert id parent t name values attachment).note? n =
      if n = id then attachment.payload? else g.note? n := by
  have added : (g.insert id parent t name values attachment).note? =
      (note? { g with nodes := g.nodes.put id _, marks := _ }) :=
    (Aside.modifyNode _ parent _ (fun _ => by rfl) fun _ => by rfl).note
  rw [added, note?, node?, Table.get?_put]
  by_cases hn : n = id
  · rw [if_pos hn.symm, if_pos hn]
    rfl
  · rw [if_neg (Ne.symm hn), if_neg hn]
    rfl

/-! ### Wires -/

section Drawn
variable {g h : Graph}

theorem value_eq_none {p : Port} (dead : g.attr? p = none) : g.value p = none := by
  have absent : g.slot? p = none := by simpa [attr?] using dead
  rw [value, held, absent]
  rfl

theorem Extended.peer_off {side : Direction} {p q : Port} {n : NodeId} (x : Extended side p n g h)
    (hq : q.node ≠ n) (other : g.terminal? q = none ∨ q ≠ p) : h.peer? q = g.peer? q := by
  refine x.elim (P := fun k => k.peer? q = g.peer? q) rfl fun i a c r => ?_
  rw [c.peer r, if_neg, if_neg]
  · rintro rfl
    rcases other with other | other
    · rw [r.terminal] at other
      cases other
    · exact other rfl
  · rintro rfl
    exact hq rfl

variable {g₁ g₂ g₃ g₄ : Graph} {n : NodeId} {e : Edge} (x : Drawn n e g g₁ g₂ g₃ g₄ h)
include x

theorem Drawn.type_old {k : NodeId} (hk : k ≠ n) : h.type? k = g.type? k := by
  rw [x.frame₄.type, x.atInput.type_old hk, x.atOutput.type_old hk, x.frame₂.type, x.wire.type]

theorem Drawn.wires (k : NodeId) : h.wires k = if k = n then (g.wires k).add e else g.wires k := by
  have same {a b : Graph} (eq : b.contents? = a.contents?) : b.wires = a.wires := by
    funext m
    rw [Graph.wires, eq]
    rfl
  rw [x.frame₄.wires, same x.atInput.contents, same x.atOutput.contents, x.frame₂.wires, x.wire.wires]

theorem Drawn.tended (d : Drawable n e g) (w : g.WellFormed) (eq : h = g.drawWire e) :
    Tended n g h where
  tree := x.tree
  note := by rw [eq, (Aside.drawWire g e).note]
  wires := fun m hm => by rw [x.wires, if_neg hm]
  type := fun m hm => x.type_old hm
  peer := fun p hp far => by
    have terminal₂ : g₂.terminal? = g.terminal? := by rw [x.frame₂.terminal, x.wire.terminal]
    have terminal₃ : g₃.terminal? = g.terminal? := by
      rw [x.atOutput.terminal (x.wellFormed₂ d w), terminal₂]
    have output : g.terminal? p = none ∨ p ≠ e.output :=
      far.imp_right fun far he => far (he ▸ d.outputAround)
    have input : g.terminal? p = none ∨ p ≠ e.input :=
      far.imp_right fun far he => far (he ▸ d.inputAround)
    rw [x.frame₄.peer, x.atInput.peer_off hp (by rwa [terminal₃]),
      x.atOutput.peer_off hp (by rwa [terminal₂]), x.frame₂.peer, x.wire.peer]
  value := fun p hp far => by
    cases live : g.attr? p with
    | none =>
      rw [value_eq_none live, value_eq_none]
      rwa [attr?_eq, x.type_old hp, ← attr?_eq]
    | some a =>
      refine (x.slot_old ((isSome_direction?_iff g p).2 (by simp [live]))).2.1 ?_ ?_
      · rintro rfl
        exact far d.outputAround
      · rintro rfl
        exact far d.inputAround

end Drawn

/-! ### Boundaries and values -/

section Steps
variable {g h : Graph} {n : NodeId}

theorem Renumbered.wires_of_bare {old new : Nat → Nat} (a : Renumbered n old new g h)
    (bare : ∀ m, ∀ e ∈ g.wires m, e.output.node ≠ n ∧ e.input.node ≠ n) : h.wires = g.wires := by
  funext m
  rw [a.wires]
  refine (List.map_congr_left fun e he => ?_).trans (List.map_id _)
  rw [Edge.mapPorts, moved_of_ne _ (bare m e he).1, moved_of_ne _ (bare m e he).2]
  rfl

theorem Renumbered.tended {old new : Nat → Nat} (a : Renumbered n old new g h)
    (w : g.WellFormed) (inside : (g.contents? n).isSome) (note : h.note? = g.note?)
    (bare : ∀ m, ∀ e ∈ g.wires m, e.output.node ≠ n ∧ e.input.node ≠ n) : Tended n g h where
  tree := a.tree
  note := note
  wires := fun m _ => by rw [a.wires_of_bare bare]
  type := a.type
  peer := fun p hp far => by
    rw [a.peer, moved_of_ne _ hp]
    cases hq : g.peer? p with
    | none => rfl
    | some q =>
      rw [Option.map_some, moved_of_ne]
      rintro rfl
      have faces := faces_of_contents? w (w.linked.back _ _ hq) inside
      rcases far with far | far
      · have := faces.isSome_terminal?
        simp [far] at this
      · obtain ⟨-, -, -, around⟩ := faces
        exact far around
  value := fun p hp _ => by
    rw [value, a.held, moved_of_ne _ hp]
    rfl

theorem Quiet.tended (a : Quiet g h) (note : h.note? = g.note?) : Tended n g h where
  tree := .of_sameFrame a.frame
  note := note
  wires := fun m _ => by rw [a.frame.wires]
  type := fun m _ => by rw [a.frame.type]
  peer := fun q _ _ => by rw [a.frame.peer]
  value := fun q _ _ => by rw [a.value]

end Steps
end Dataflow.Graph
