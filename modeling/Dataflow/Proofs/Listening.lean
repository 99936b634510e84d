import Dataflow.Proofs.Arena
import Dataflow.Proofs.Minor
import Mathlib.Data.Finset.Dedup
import Mathlib.Data.Finset.Insert
import Mathlib.Data.Finset.Erase
import Mathlib.Data.Multiset.AddSub
set_option autoImplicit false

/-!
What a listener can know. A listener that writes down which nodes come and go and which nodes are
wired to which has a picture of the graph. Main statements: every operation that does not replace the
whole graph by a document tells its changes without a gap, so that the picture stays true; a node goes
when none of its wires is left; and where a document has replaced the graph the picture lacks what
came with it until that has gone again.
-/

namespace Dataflow

/-- The nodes below the root, and the wires by the nodes that they join. -/
structure Picture where
  nodes : Finset NodeId
  wires : Multiset (NodeId × NodeId)

namespace Picture

def blank : Picture := ⟨∅, 0⟩

def hear (x : Picture) : Event → Picture
  | .nodeAdded n => { x with nodes := insert n x.nodes }
  | .nodeRemoved n => { x with nodes := x.nodes.erase n }
  | .connected o i => { x with wires := (o.node, i.node) ::ₘ x.wires }
  | .disconnected o i => { x with wires := x.wires.erase (o.node, i.node) }
  | .cleared => blank
  | _ => x

/-- What becomes of a picture with a piece of a journal, which has the latest first. -/
def replay (x : Picture) : List Entry → Picture
  | [] => x
  | .event e :: es => (x.replay es).hear e
  | .computing _ :: es => x.replay es

/-- What is told is possible in the picture. A node goes without wires. -/
def Fits (x : Picture) : Event → Prop
  | .nodeAdded n => n ∉ x.nodes
  | .nodeRemoved n => n ∈ x.nodes ∧ ∀ s ∈ x.wires, s.1 ≠ n ∧ s.2 ≠ n
  | .connected o i => o.node ∈ x.nodes ∧ i.node ∈ x.nodes
  | .disconnected o i => (o.node, i.node) ∈ x.wires
  | _ => True

/-- Each event fits the picture at its time. -/
def Follows (x : Picture) : List Entry → Prop
  | [] => True
  | .event e :: es => (x.replay es).Fits e ∧ x.Follows es
  | .computing _ :: es => x.Follows es

variable (x : Picture) (es fs : List Entry)

theorem replay_append : x.replay (fs ++ es) = (x.replay es).replay fs := by
  induction fs with
  | nil => rfl
  | cons e fs ih => cases e <;> simp [replay, ih]

theorem follows_append : x.Follows (fs ++ es) ↔ x.Follows es ∧ (x.replay es).Follows fs := by
  induction fs with
  | nil => simp [Follows]
  | cons e fs ih =>
    cases e with
    | event e => simp only [List.cons_append, Follows, ih, replay_append, and_left_comm]
    | computing p => simpa [Follows] using ih

theorem hear_of_isMinor {e : Event} (he : e.isMinor = true) : x.hear e = x := by
  cases e <;> first | rfl | cases he

theorem fits_of_isMinor {e : Event} (he : e.isMinor = true) : x.Fits e := by
  cases e <;> trivial

theorem replay_of_isMinor (minor : ∀ e ∈ es, e.isMinor = true) : x.replay es = x ∧ x.Follows es := by
  induction es with
  | nil => exact ⟨rfl, trivial⟩
  | cons e es ih =>
    obtain ⟨same, follows⟩ := ih fun e he => minor e (List.mem_cons_of_mem _ he)
    have first := minor e List.mem_cons_self
    cases e with
    | computing p => exact ⟨same, follows⟩
    | event e =>
      refine ⟨?_, ?_, follows⟩
      · rw [replay, same]
        exact x.hear_of_isMinor first
      · rw [same]
        exact x.fits_of_isMinor first

end Picture

/-- Whether the entry tells of a wire that goes, or of nothing but ports. -/
def Entry.lessens : Entry → Bool
  | .event (.disconnected _ _) => true
  | e => e.isMinor

theorem Entry.lessens_of_isMinor {e : Entry} (he : e.isMinor = true) : e.lessens = true := by
  rcases e with e | p
  · cases e <;> first | rfl | exact he
  · rfl

namespace Graph

def live (g : Graph) : Finset NodeId := g.nodes.keys.toFinset.erase g.root

def picture (g : Graph) : Picture := ⟨g.live, g.strands⟩

/-- All that has changed in the picture of the graph has been told, each change at a time at which it
was possible. -/
structure Reported (g h : Graph) : Prop where
  root : h.root = g.root
  told : ∃ es, h.journal = es ++ g.journal ∧ h.picture = g.picture.replay es ∧
    g.picture.Follows es

namespace Reported
variable {g h k : Graph}

theorem refl (g : Graph) : Reported g g := ⟨rfl, [], rfl, rfl, trivial⟩

theorem trans (a : Reported g h) (b : Reported h k) : Reported g k := by
  obtain ⟨es, journal, picture, follows⟩ := a.told
  obtain ⟨fs, journal', picture', follows'⟩ := b.told
  refine ⟨b.root.trans a.root, fs ++ es, by simp [journal, journal'], ?_, ?_⟩
  · rw [Picture.replay_append, ← picture, picture']
  · rw [Picture.follows_append, ← picture]
    exact ⟨follows, follows'⟩

theorem steps : Edit.Steps Reported := ⟨refl, trans⟩

theorem of_minor (a : Minor g h) : Reported g h := by
  obtain ⟨es, journal, minor⟩ := a.told
  have same : h.picture = g.picture := by
    rw [picture, picture, live, live, a.keys, a.root, a.strands]
  obtain ⟨replay, follows⟩ := g.picture.replay_of_isMinor es minor
  exact ⟨a.root, es, journal, by rw [same, replay], follows⟩

theorem of_nodes (nodes : h.nodes = g.nodes) (root : h.root = g.root)
    (journal : h.journal = g.journal) : Reported g h := by
  have same : h.picture = g.picture := by
    simp only [picture, live, strands, nodes, root]
  exact ⟨root, [], by simp [journal], same, trivial⟩

/-- An event that tells what has just been done. -/
theorem of_event {e : Event} (root : h.root = g.root) (journal : h.journal = .event e :: g.journal)
    (fits : g.picture.Fits e) (picture : h.picture = g.picture.hear e) : Reported g h :=
  ⟨root, [.event e], journal, picture, fits, trivial⟩

end Reported

/-! ### Wires that are drawn and removed -/

section Wires
variable {g h : Graph}

theorem strands_modifyWiresAround {n p : NodeId} {w : Network} (around : g.around? n = some p)
    (hw : g.contents? p = some w) (f : Wiring → Wiring) :
    (g.modifyWiresAround n f).strands + (w.wires.map Edge.strand : List _) =
      g.strands + ((f w.wires).map Edge.strand : List _) := by
  obtain ⟨m, hm, inner⟩ := Option.bind_eq_some_iff.1 hw
  have changed := g.strands_modifyNode p
    (fun m => { m with inner := m.inner.map fun w => { w with wires := f w.wires } }) hm
  simp only [Node.strands, inner, Option.map_some, Option.elim_some] at changed
  simpa [modifyWiresAround, around, modifyNetwork] using changed

theorem strands_of_wires (m : Node) (f : Network → Network) (hf : ∀ w, (f w).wires = w.wires) :
    ({ m with inner := m.inner.map f } : Node).strands = m.strands := by
  cases h : m.inner <;> simp [Node.strands, h, hf]

theorem strands_modifyNetwork (n : NodeId) (f : Network → Network)
    (hf : ∀ w, (f w).wires = w.wires) : (g.modifyNetwork n f).strands = g.strands :=
  g.strands_modifyNode_of_eq n _ fun m => strands_of_wires m f hf

theorem exists_of_mem_wiresAround {n : NodeId} {e : Edge} (he : e ∈ g.wiresAround n) :
    ∃ p w, g.around? n = some p ∧ g.contents? p = some w ∧ e ∈ w.wires := by
  rw [wiresAround_eq] at he
  cases ha : g.around? n with
  | none => simp [ha] at he
  | some p =>
    simp only [ha, Option.elim_some, wires] at he
    cases hw : g.contents? p with
    | none => simp [hw] at he
    | some w => exact ⟨p, w, rfl, hw, by simpa [hw] using he⟩

/-- The wires whose removal is told. -/
def gone : List Entry → Multiset (NodeId × NodeId)
  | [] => 0
  | .event (.disconnected o i) :: es => (o.node, i.node) ::ₘ gone es
  | _ :: es => gone es

theorem gone_append (es fs : List Entry) : gone (fs ++ es) = gone fs + gone es := by
  induction fs with
  | nil => simp [gone]
  | cons e fs ih =>
    rcases e with e | p
    · cases e <;> simp [gone, ih]
    · simp [gone, ih]

theorem gone_of_isMinor {es : List Entry} (minor : ∀ e ∈ es, e.isMinor = true) : gone es = 0 := by
  induction es with
  | nil => rfl
  | cons e es ih =>
    have rest := ih fun e he => minor e (List.mem_cons_of_mem _ he)
    have first := minor e List.mem_cons_self
    rcases e with e | p
    · cases e <;> first | exact rest | cases first
    · exact rest

end Wires

/-! ### Wires that go -/

section Lessen
variable {g h k : Graph}

/-- Wires have gone and ports have changed, and nothing else. -/
structure Lessened (g h : Graph) : Prop where
  keys : h.nodes.keys = g.nodes.keys
  root : h.root = g.root
  ids : h.ids = g.ids
  told : ∃ es : List Entry, h.journal = es ++ g.journal ∧ (∀ e ∈ es, e.lessens = true) ∧
    g.strands = h.strands + gone es

namespace Lessened

theorem of_minor (a : Minor g h) : Lessened g h := by
  obtain ⟨es, journal, minor⟩ := a.told
  refine ⟨a.keys, a.root, a.ids, es, journal, fun e he => ?_, by
    rw [gone_of_isMinor minor, a.strands, add_zero]⟩
  exact Entry.lessens_of_isMinor (minor e he)

theorem refl (g : Graph) : Lessened g g := .of_minor (.refl g)

theorem trans (a : Lessened g h) (b : Lessened h k) : Lessened g k := by
  obtain ⟨es, journal, less, strands⟩ := a.told
  obtain ⟨fs, journal', less', strands'⟩ := b.told
  refine ⟨b.keys.trans a.keys, b.root.trans a.root, b.ids.trans a.ids, fs ++ es,
    by simp [journal, journal'], fun e he => ?_, ?_⟩
  · rcases List.mem_append.1 he with he | he
    · exact less' e he
    · exact less e he
  · rw [strands, strands', gone_append, add_assoc]

theorem foldl {cut : Graph → Edge → Graph} (less : ∀ g e, Lessened g (cut g e)) (l : List Edge)
    (g : Graph) : Lessened g (l.foldl cut g) := by
  induction l generalizing g with
  | nil => exact .refl g
  | cons e l ih => exact (less g e).trans (ih _)

/-- The wires that went were there, each until it was told. -/
theorem reported (a : Lessened g h) : Reported g h := by
  obtain ⟨es, journal, less, strands⟩ := a.told
  have passed (x : Picture) (rest : Multiset (NodeId × NodeId)) (es : List Entry)
      (less : ∀ e ∈ es, e.lessens = true) (hx : x.wires = rest + gone es) :
      x.replay es = { x with wires := rest } ∧ x.Follows es := by
    induction es generalizing rest with
    | nil =>
      rw [gone, add_zero] at hx
      exact ⟨congrArg (Picture.mk x.nodes) hx, trivial⟩
    | cons e es ih =>
      have later := fun e he => less e (List.mem_cons_of_mem _ he)
      have first := less e List.mem_cons_self
      rcases e with e | p
      · by_cases he : e.isMinor = true
        · have same : gone (.event e :: es) = gone es := by
            cases e <;> first | rfl | cases he
          obtain ⟨replay, follows⟩ := ih rest later (by rw [hx, same])
          exact ⟨by rw [Picture.replay, replay, Picture.hear_of_isMinor _ he],
            Picture.fits_of_isMinor _ he, follows⟩
        · cases e with
          | disconnected o i =>
            obtain ⟨replay, follows⟩ := ih ((o.node, i.node) ::ₘ rest) later (by
              rw [hx, gone, Multiset.add_cons, Multiset.cons_add])
            refine ⟨?_, ?_, follows⟩
            · rw [Picture.replay, replay]
              simp [Picture.hear]
            · rw [replay]
              simp [Picture.Fits]
          | _ => first | exact absurd rfl he | cases first
      · exact ih rest later hx
  obtain ⟨replay, follows⟩ := passed g.picture h.strands es less strands
  refine ⟨a.root, es, journal, ?_, follows⟩
  rw [replay, picture, live, a.keys, a.root]
  rfl

end Lessened

theorem lessened_dropBoundary {cut : Graph → Edge → Graph} (less : ∀ g e, Lessened g (cut g e))
    (g : Graph) (b : Port) : Lessened g (dropBoundary cut g b) := by
  rw [dropBoundary_eq]
  exact (Lessened.foldl less _ g).trans (.of_minor (minor_dropPort _ b))

theorem lessened_shrinkBoundary {cut : Graph → Edge → Graph} (less : ∀ g e, Lessened g (cut g e))
    (g : Graph) (e : Edge) : Lessened g (shrinkBoundary cut g e) := by
  have atEnd (g : Graph) (t : Port) : Lessened g (shrinkAt cut g t) := by
    rw [shrinkAt]
    split
    · exact lessened_dropBoundary less g _
    · exact .refl g
  have either (c : Prop) [Decidable c] (g : Graph) (t : Port) :
      Lessened g (if c then shrinkAt cut g t else g) := by
    split
    · exact atEnd g t
    · exact .refl g
  rw [shrinkBoundary_eq]
  exact (either _ g e.output).trans (either _ _ e.input)

/-- A wire that is cut goes, with others further out, and each of them is told. -/
theorem lessened_cutWithin_succ {levels : Nat}
    (further : ∀ g e, Lessened g (cutWithin levels g e)) {g : Graph} {e : Edge}
    (has : (g.wiresAround e.input.node).has e = true) :
    Lessened g (cutWithin (levels + 1) g e) ∧
      (cutWithin (levels + 1) g e).strands.card < g.strands.card := by
  have mem : e ∈ g.wiresAround e.input.node := List.contains_iff_mem.1 has
  obtain ⟨p, w, around, hw, he⟩ := exists_of_mem_wiresAround mem
  let g₁ := g.modifyWiresAround e.input.node fun w => w.remove e
  have strands : g.strands = e.strand ::ₘ g₁.strands := by
    have changed := g.strands_modifyWiresAround around hw fun w => w.remove e
    have listed : ((w.wires.map Edge.strand : List _) : Multiset (NodeId × NodeId)) =
        e.strand ::ₘ ((w.wires.remove e).map Edge.strand : List _) :=
      Multiset.coe_eq_coe.2 ((List.perm_cons_erase he).map Edge.strand)
    rw [listed, Multiset.add_cons, ← Multiset.cons_add] at changed
    exact (add_right_cancel changed).symm
  have eq : g₁ = g.modifyNetwork p fun w => { w with wires := w.wires.remove e } := by
    simp only [g₁, modifyWiresAround, around]
  have keys : g₁.nodes.keys = g.nodes.keys := by rw [eq]; exact g.keys_modifyNode p _
  have root : g₁.root = g.root := by rw [eq]; rfl
  have journal₁ : g₁.journal = g.journal := by rw [eq]; rfl
  have ids : g₁.ids = g.ids := g.ids_modifyWiresAround _ _
  have reset : Minor g₁ ((g₁.resetEnds e).spreadFrom e.input) :=
    (g₁.minor_resetEnds e).trans (minor_spread _ _)
  have shrunk := (Lessened.of_minor reset).trans (lessened_shrinkBoundary further _ e)
  obtain ⟨es, journal, less, rest⟩ := shrunk.told
  have cut : cutWithin (levels + 1) g e = (shrinkBoundary (cutWithin levels)
      ((g₁.resetEnds e).spreadFrom e.input) e).emit (.disconnected e.output e.input) := by
    rw [cutWithin, if_pos has]
  rw [cut]
  constructor
  · refine ⟨shrunk.keys.trans keys, shrunk.root.trans root, shrunk.ids.trans ids,
      .event (.disconnected e.output e.input) :: es, ?_, ?_, ?_⟩
    · rw [emit, journal, journal₁]
      rfl
    · exact List.forall_mem_cons.2 ⟨rfl, less⟩
    · rw [strands, rest, gone, Multiset.add_cons]
      rfl
  · rw [strands, rest, Multiset.card_cons, Multiset.card_add]
    exact Nat.lt_succ_of_le (Nat.le_add_right _ _)

theorem lessened_cutWithin (levels : Nat) (g : Graph) (e : Edge) :
    Lessened g (cutWithin levels g e) := by
  induction levels generalizing g e with
  | zero => exact .refl g
  | succ levels ih =>
    by_cases has : (g.wiresAround e.input.node).has e = true
    · exact (lessened_cutWithin_succ ih has).1
    · rw [cutWithin, if_neg has]
      exact .refl g

theorem lessened_cut (g : Graph) (e : Edge) : Lessened g (g.cut e) := lessened_cutWithin _ g e

theorem card_strands_cut_lt {g : Graph} {n : NodeId} {e : Edge} (w : g.WellFormed)
    (he : e ∈ g.wires n) : (g.cut e).strands.card < g.strands.card := by
  have around := w.wired.inputAround n e he
  have has : (g.wiresAround e.input.node).has e = true := by
    rw [wiresAround_eq, around]
    exact List.contains_iff_mem.2 he
  have known := (isSome_type?_iff g _).1 (isSome_type?_of_around? around)
  obtain ⟨levels, hl⟩ : ∃ levels, g.nodes.length = levels + 1 := by
    refine Nat.exists_eq_succ_of_ne_zero fun none => ?_
    rw [Table.keys, List.length_eq_zero_iff.1 none] at known
    cases known
  rw [cut, hl]
  exact (lessened_cutWithin_succ (lessened_cutWithin levels) has).2

theorem lessened_stripped (g : Graph) (n : NodeId) : Lessened g (g.stripped n) :=
  .foldl lessened_cut _ g

end Lessen

/-! ### Nodes and wires that come -/

theorem mem_live_of_around? {g : Graph} (w : g.Tree) {n p : NodeId} (h : g.around? n = some p) :
    n ∈ g.live := by
  have known : n ∈ g.nodes.keys := (isSome_type?_iff g n).1 (isSome_type?_of_around? h)
  refine Finset.mem_erase.2 ⟨?_, List.mem_toFinset.2 known⟩
  rintro rfl
  rw [w.root] at h
  cases h

section Come
variable {g : Graph}

theorem strands_put (id : NodeId) (m : Node) (fresh : id ∉ g.nodes.keys) (alone : m.strands = 0) :
    ({ g with nodes := g.nodes.put id m } : Graph).strands = g.strands := by
  obtain ⟨nodes, root, config, ids, marks, calls, journal⟩ := g
  simp only [strands] at *
  induction nodes with
  | nil => simp [Table.put, alone]
  | cons p rest ih =>
    simp only [Table.keys, List.map_cons, List.mem_cons, not_or] at fresh
    have ne : p.1 ≠ id := Ne.symm fresh.1
    simp only [Table.put, ne, if_false, List.map_cons, List.sum_cons]
    rw [ih fresh.2]

theorem strands_insert {id parent : NodeId} {t : NodeType} {name : String} {values : Datablock}
    (v : Value) (fresh : id ∉ g.nodes.keys) :
    (g.insert id parent t name values v).strands = g.strands := by
  rw [insert]
  refine Eq.trans (strands_modifyNetwork parent _ fun w => rfl) (strands_put id _ fresh ?_)
  simp only [Node.strands]
  split <;> rfl

theorem reported_insert (w : g.Tree) {id parent : NodeId} {t : NodeType} {name : String}
    {values : Datablock} (v : Value) (a : Insertable id parent t name values g) :
    Reported g (g.insert id parent t name values v) := by
  have x := inserted g v a
  have other : id ≠ g.root := by
    rintro rfl
    have known := isSome_type?_of_contents? w.rootNetwork
    exact a.fresh ((isSome_type?_iff g _).1 known)
  refine Reported.of_event (e := .nodeAdded id) x.root rfl ?_ ?_
  · simp [Picture.Fits, picture, live, a.fresh]
  · simp only [picture, Picture.hear, strands_insert v a.fresh, live, x.keys, x.root]
    congr 1
    ext n
    simp only [Finset.mem_erase, List.mem_toFinset, List.mem_append, List.mem_singleton,
      Finset.mem_insert]
    constructor
    · rintro ⟨ne, h | h⟩
      · exact .inr ⟨ne, h⟩
      · exact .inl h
    · rintro (rfl | ⟨ne, h⟩)
      · exact ⟨other, .inr rfl⟩
      · exact ⟨ne, .inl h⟩

theorem strands_add (w : g.Tree) {n : NodeId} {e : Edge} (ha : g.around? e.input.node = some n) :
    (g.modifyWiresAround e.input.node fun w => w.add e).strands = e.strand ::ₘ g.strands := by
  obtain ⟨v, hv⟩ := Option.isSome_iff_exists.1 (isSome_contents?_of_around? w ha)
  have changed := g.strands_modifyWiresAround ha hv fun w => w.add e
  have listed : (((v.wires.add e).map Edge.strand : List _) : Multiset (NodeId × NodeId)) =
      e.strand ::ₘ (v.wires.map Edge.strand : List _) := by
    rw [Wiring.add, List.map_append]
    exact Multiset.coe_eq_coe.2 List.perm_append_comm
  rw [listed, Multiset.add_cons, ← Multiset.cons_add] at changed
  exact add_right_cancel changed

theorem strands_drawWire (w : g.Tree) {n : NodeId} {e : Edge} (d : Drawable n e g) :
    (g.drawWire e).strands = e.strand ::ₘ g.strands :=
  (minor_dress _ e).strands.trans (strands_add w d.inputAround)

theorem keys_drawWire (w : g.WellFormed) {n : NodeId} {e : Edge} (d : Drawable n e g) :
    (g.drawWire e).nodes.keys = g.nodes.keys := by
  obtain ⟨g₁, g₂, g₃, g₄, x⟩ := drawn d w
  exact x.tree.keys

theorem reported_drawWire (w : g.WellFormed) {n : NodeId} {e : Edge} (d : Drawable n e g) :
    Reported g (g.drawWire e) := by
  obtain ⟨g₁, g₂, g₃, g₄, x⟩ := drawn d w
  obtain ⟨es, told, minor⟩ := (minor_dress (g.modifyWiresAround e.input.node fun w => w.add e) e).told
  obtain ⟨replay, follows⟩ := g.picture.replay_of_isMinor es minor
  have journal : (g.modifyWiresAround e.input.node fun w => w.add e).journal = g.journal := by
    simp only [modifyWiresAround, d.inputAround]
    rfl
  refine ⟨x.tree.root, .event (.connected e.output e.input) :: es, ?_, ?_, ?_, follows⟩
  · rw [drawWire, emit]
    simp only
    rw [told, journal]
    rfl
  · rw [Picture.replay, replay]
    simp only [Picture.hear, picture, live]
    rw [x.tree.keys, x.tree.root, strands_drawWire w.tree d]
    rfl
  · rw [replay]
    exact ⟨mem_live_of_around? w.tree d.outputAround, mem_live_of_around? w.tree d.inputAround⟩

end Come

/-! ### Nodes that go -/

section Go
variable {g : Graph}

theorem strands_erase {n : NodeId} {m : Node} (hm : g.node? n = some m) :
    g.strands = m.strands + ({ g with nodes := g.nodes.erase n } : Graph).strands := by
  obtain ⟨nodes, root, config, ids, marks, calls, journal⟩ := g
  simp only [node?, strands] at *
  induction nodes with
  | nil => cases hm
  | cons p rest ih =>
    obtain ⟨a, b⟩ := p
    by_cases ha : a = n
    · simp only [Table.get?, ha, if_true, Option.some.injEq] at hm
      simp only [Table.erase, ha, if_true, List.map_cons, List.sum_cons, hm]
    · simp only [Table.get?, ha, if_false] at hm
      simp only [Table.erase, ha, if_false, List.map_cons, List.sum_cons, ih hm]
      ac_rfl

/-- A node that is told to go has no wires any more, and none is inside. -/
theorem reported_detach (w : g.WellFormed) {n parent : NodeId} (b : Bare n g)
    (ha : g.around? n = some parent) :
    Reported g ((g.emit (.nodeRemoved n)).detach n parent) := by
  have w' := (sameFrame_emit g (.nodeRemoved n)).wellFormed w
  have x : Removed n (g.emit (.nodeRemoved n)) ((g.emit (.nodeRemoved n)).detach n parent) :=
    removed _ w'.tree.keys ha
  obtain ⟨m, hm, -⟩ := exists_node?_of_around? ha
  have inner : g.wires n = [] := by
    refine List.eq_nil_iff_forall_not_mem.2 fun e he => ?_
    have := (w.tree.child n _).2 (w.wired.inputAround n e he)
    rw [b.empty] at this
    cases this
  have strands : ((g.emit (.nodeRemoved n)).detach n parent).strands = g.strands := by
    let k := g.modifyNetwork parent fun w => { w with children := w.children.erase n }
    have same : k.strands = g.strands := strands_modifyNetwork parent _ fun w => rfl
    have alone : m.strands = 0 := by
      rw [wires, contents?, hm] at inner
      cases h : m.inner with
      | none => simp [Node.strands, h]
      | some v =>
        simp only [Option.bind_some, h, Option.elim_some] at inner
        simp [Node.strands, h, inner]
    have held : ∃ m', k.node? n = some m' ∧ m'.strands = 0 := by
      have found : k.node? n = _ := g.node?_modifyNode ..
      rw [hm] at found
      split at found
      · exact ⟨_, found, (strands_of_wires m (fun w => { w with children := w.children.erase n })
          fun w => rfl).trans alone⟩
      · exact ⟨m, found, alone⟩
    obtain ⟨m', hm', alone'⟩ := held
    have gone := strands_erase hm'
    rw [alone', zero_add, same] at gone
    exact gone.symm
  have known : n ∈ g.live := mem_live_of_around? w.tree ha
  refine Reported.of_event (e := .nodeRemoved n) x.root rfl ⟨known, fun s hs => ?_⟩ ?_
  · obtain ⟨k, e, he, rfl⟩ := (mem_strands_iff w.tree s).1 hs
    exact b.end_ne he
  · simp only [picture, Picture.hear, strands, live]
    rw [x.keys, x.root]
    congr 1
    ext k
    simp only [Finset.mem_erase, List.mem_toFinset]
    rw [show (g.emit (.nodeRemoved n)).nodes = g.nodes from rfl, w.tree.keys.mem_erase_iff,
      show (g.emit (.nodeRemoved n)).root = g.root from rfl, and_left_comm]

theorem reported_removeLeaf (w : LawfulWith Acyclic g) {n : NodeId} (empty : g.children n = []) :
    Reported g (g.removeLeaf n) := by
  cases ha : g.around? n with
  | none =>
    rw [removeLeaf_of_none g ha]
    exact .refl g
  | some parent =>
    obtain ⟨w', bare, tree⟩ := stripped_spec (keptByEdits_acyclic.toKeptByRemovals.removing fun _ _ => True)
      (fun _ _ _ => trivial) w ha empty
    rw [removeLeaf_eq g ha]
    exact (lessened_stripped g n).reported.trans
      (reported_detach w'.lawful.wellFormed bare (by rw [tree.around, ha]))

theorem reported_foldl_removeLeaf {h : Graph} {done l : List NodeId} (order : BottomUp g done l)
    (w : LawfulWith Acyclic h)
    (around : ∀ c, h.around? c = if c ∈ done then none else g.around? c) :
    Reported h (l.foldl removeLeaf h) := by
  induction l generalizing h done with
  | nil => exact .refl h
  | cons n l ih =>
    have empty := order.empty w.lawful.wellFormed.tree around
    obtain ⟨w', around'⟩ := removeLeaf_spec (keptByEdits_acyclic.toKeptByRemovals.removing fun _ _ => True)
      (fun _ _ _ => trivial) w empty
    refine (reported_removeLeaf w empty).trans (ih order.2 w' fun c => ?_)
    rw [around', around]
    by_cases hc : c = n <;> simp [hc]

theorem reported_removeTree (w : LawfulWith Acyclic g) (n : NodeId) : Reported g (g.removeTree n) :=
  reported_foldl_removeLeaf (bottomUp_below w.lawful.wellFormed.tree _ n (by omega) []) w fun c => by simp

/-- Trees that are removed one after the other are all gone at the end, and nothing comes back. -/
theorem foldl_removeTree_spec (w : LawfulWith Acyclic g) (l : List NodeId) :
    LawfulWith Acyclic (l.foldl removeTree g) ∧ Reported g (l.foldl removeTree g) ∧
      ∀ c p, (l.foldl removeTree g).around? c = some p → c ∉ l ∧ g.around? c = some p := by
  induction l generalizing g with
  | nil => exact ⟨w, .refl g, fun c p hc => ⟨List.not_mem_nil, hc⟩⟩
  | cons n l ih =>
    obtain ⟨w', gone⟩ := removeTree_spec (keptByEdits_acyclic.toKeptByRemovals.removing fun _ _ => True)
      w n fun _ _ _ _ _ => trivial
    obtain ⟨w'', told, rest⟩ := ih w'
    refine ⟨w'', (reported_removeTree w n).trans told, fun c p hc => ?_⟩
    obtain ⟨notMem, around⟩ := rest c p hc
    rw [gone] at around
    split at around
    · cases around
    · next outside =>
      refine ⟨fun mem => ?_, around⟩
      obtain rfl := (List.mem_cons.1 mem).resolve_right notMem
      have known := (isSome_type?_iff g c).1 (isSome_type?_of_around? around)
      exact outside (mem_below _ c (List.length_pos_iff.2 fun none => by
        rw [Table.keys, none] at known
        cases known))

/-- Once all children of the root are gone, nothing but the root is left. -/
theorem reported_clear (w : LawfulWith Acyclic g) : Reported g g.clear := by
  obtain ⟨w', told, gone⟩ := foldl_removeTree_spec w (g.children g.root).reverse
  have eq := clear_eq g
  set h := (g.children g.root).reverse.foldl removeTree g with hdef
  have root : h.root = g.root := told.root
  have tree := w'.lawful.wellFormed.tree
  have outside (c p : NodeId) : h.around? c ≠ some p := by
    intro hc
    have known := inside_root tree c (isSome_type?_of_around? hc)
    obtain ⟨d, hd⟩ : ∃ d, h.around? d = some h.root := by
      rcases Relation.ReflTransGen.cases_tail known with rfl | ⟨d, -, hd⟩
      · rw [tree.root] at hc
        cases hc
      · exact ⟨d, hd⟩
    obtain ⟨notMem, around⟩ := gone d _ hd
    rw [root] at around
    exact notMem (List.mem_reverse.2 ((w.lawful.wellFormed.tree.child _ d).2 around))
  have live : h.live = ∅ := by
    refine Finset.eq_empty_iff_forall_notMem.2 fun n hn => ?_
    obtain ⟨ne, known⟩ := Finset.mem_erase.1 hn
    have known := (isSome_type?_iff h n).2 (List.mem_toFinset.1 known)
    cases ha : h.around? n with
    | none => exact ne (tree.orphan n known ha)
    | some p => exact outside n p ha
  have strands : h.strands = 0 := by
    refine Multiset.eq_zero_iff_forall_notMem.2 fun s hs => ?_
    obtain ⟨k, e, he, rfl⟩ := (mem_strands_iff tree s).1 hs
    exact outside _ k (w'.lawful.wellFormed.wired.inputAround k e he)
  rw [eq]
  refine told.trans (Reported.of_event (e := .cleared) rfl rfl trivial ?_)
  show Picture.mk h.live h.strands = Picture.blank
  rw [live, strands]
  rfl

end Go

/-! ### Operations -/

theorem reported_building : Building fun g h => g.Lawful → h.Lawful ∧ Reported g h :=
  building_of_lawful Reported.steps (fun g h a => by obtain ⟨ids, rfl⟩ := a; exact .of_nodes rfl rfl rfl)
    (fun _ _ _ _ _ _ v w a => reported_insert w.wellFormed.tree v a)
    (fun _ _ _ w d => reported_drawWire w.wellFormed d)
    (fun _ _ _ _ ok => .of_minor (minor_arrangeBoundary _ ok)) fun _ _ _ _ ok => .of_minor (minor_assign ok)

/-- The operation has put other contents in place of the old ones. -/
def Replaces (o : Action) (g : Graph) : Prop :=
  ∃ r d, o = .restore r d ∧ (o.edit.apply g).1 = .ok ()

/-- A document that is not taken leaves no trace but in the numbers. -/
theorem reported_restore {g : Graph} {r : Registry} {d : NetworkDocument}
    (failed : ((restore r d).apply g).1 ≠ .ok ()) : Reported g ((restore r d).apply g).2 := by
  rw [restore_apply] at failed ⊢
  rcases h : (loadInto r (vacant g.config d g).root d).apply (vacant g.config d g) with ⟨e | u, new⟩
  · exact .of_nodes rfl rfl rfl
  · rw [h] at failed
    exact absurd rfl failed

theorem acyclic_foldl_cut {g : Graph} (w : LawfulWith Acyclic g) (l : List Edge) :
    LawfulWith Acyclic (l.foldl cut g) := by
  induction l generalizing g with
  | nil => exact w
  | cons e l ih => exact ih (w.cut (keptByEdits_acyclic.toKeptByCuts.cutting fun _ _ => True) trivial)

theorem reported_removeSelected {g : Graph} (w : LawfulWith Acyclic g) (s : Selection) :
    Reported g ((removeSelected s).apply g).2 := by
  have start : LawfulWith Acyclic (s.edges.foldl cut g) ∧ Reported g (s.edges.foldl cut g) :=
    ⟨acyclic_foldl_cut w s.edges, (Lessened.foldl lessened_cut s.edges g).reported⟩
  rw [removeSelected, Edit.apply_bind_ok (Edit.apply_change _ g)]
  refine (Edit.keeps_forM (P := fun h => LawfulWith Acyclic h ∧ Reported g h) _ (fun n _ => ?_) _ start).2
  refine Edit.keeps_step fun h k ⟨wh, told⟩ ok => ?_
  split at ok
  · obtain rfl := removeNode_ok ok
    exact ⟨wh.removeTree keptByEdits_acyclic.toKeptByRemovals n, told.trans (reported_removeTree wh n)⟩
  · cases ok
    exact ⟨wh, told⟩

/-- Every operation that does not replace the whole graph tells all that it does, also where it stops
on an error. -/
theorem reported_after {g : Graph} {o : Action} (w : LawfulWith Acyclic g) (uses : o.Uses NodeType.Sound)
    (own : ¬ Replaces o g) : Reported g (o.after g) := by
  have step {f : Graph → Except Error Graph} (told : ∀ h, f g = .ok h → Reported g h) :
      Reported g ((Edit.step f).apply g).2 := by
    rw [Edit.apply_step]
    cases ok : f g with
    | error x => exact .refl g
    | ok h => exact told h ok
  have drop {α : Type} {x : Edit α} (told : Edit.Leads (fun g h => g.Lawful → h.Lawful ∧ Reported g h) x) :
      Reported g ((do let _ ← x : Edit Unit).apply g).2 :=
    (Edit.leads_bind reported_building.toSteps told (fun _ => Edit.leads_pure reported_building.toSteps _) g
      w.lawful).2
  cases o with
  | addNode parent t name options => exact drop (leads_addNode reported_building parent t name options uses)
  | addNetwork parent name => exact drop (leads_addNode reported_building parent .network name .standard uses)
  | removeNode n =>
    refine step fun h ok => ?_
    rw [removeNode_ok ok]
    exact reported_removeTree w n
  | rename n name => exact step fun h ok => .of_minor (minor_rename ok)
  | clear => exact reported_clear w
  | connect output input =>
    refine step fun h ok => ?_
    obtain ⟨n, d, rfl⟩ := drawable_of_connect ok
    exact reported_drawWire w.lawful.wellFormed d
  | disconnect output input =>
    refine step fun h ok => ?_
    rw [disconnect_ok ok]
    exact (lessened_cut g _).reported
  | assign p v => exact step fun h ok => .of_minor (minor_assign ok)
  | setAttachment n v => exact step fun h ok => .of_minor (minor_setAttachment ok)
  | read p => exact .of_minor (minor_reads rfl g)
  | readAs t p => exact .of_minor (minor_reads rfl g)
  | refresh => exact .of_minor (minor_reads rfl g)
  | removeSelected s => exact reported_removeSelected w s
  | loadInto r n d => exact (leads_loadInto reported_building uses n d g w.lawful).2
  | restore r d => exact reported_restore fun ok => own ⟨r, d, rfl, ok⟩
  | elsewhere ids marks calls => exact .of_nodes rfl rfl rfl

end Graph
end Dataflow
