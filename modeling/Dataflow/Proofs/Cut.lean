import Dataflow.Proofs.Shrink
set_option autoImplicit false

/-!
Removing a wire with all that it alone keeps. Cutting a wire of one network may take a port from that
network, and so cut wires of the network around it, and so on outwards. Main statements: nothing
changes further in, a graph stays well formed, fitted terminals stay fitted, and what each of the
steps keeps is kept.
-/

namespace Dataflow.Graph

/-- How late a node came. A network comes before what is in it. -/
def rank (g : Graph) (n : NodeId) : Nat := g.nodes.keys.idxOf n

theorem idxOf_lt_of_sublist {α : Type} [DecidableEq α] {a b : α} {l : List α}
    (h : [a, b].Sublist l) (nodup : l.Nodup) : l.idxOf a < l.idxOf b := by
  induction l with
  | nil => cases h
  | cons c l ih =>
    have nodup' := List.nodup_cons.1 nodup
    cases h with
    | cons _ h =>
      have ha : c ≠ a := by
        rintro rfl
        exact nodup'.1 (h.subset (by simp))
      have hb : c ≠ b := by
        rintro rfl
        exact nodup'.1 (h.subset (by simp))
      have less := ih h nodup'.2
      simp only [List.idxOf_cons, beq_false_of_ne ha, beq_false_of_ne hb, cond_false]
      omega
    | cons_cons _ h =>
      have hb : a ≠ b := by
        rintro rfl
        exact nodup'.1 (h.subset (by simp))
      simp [List.idxOf_cons, beq_false_of_ne hb]

theorem rank_lt {g : Graph} (w : g.Tree) {n c : NodeId} (h : g.around? c = some n) :
    g.rank n < g.rank c := idxOf_lt_of_sublist (w.order n c h) w.keys

theorem rank_lt_length {g : Graph} {n : NodeId} (h : (g.type? n).isSome) :
    g.rank n < g.nodes.length := by
  have := List.idxOf_lt_length_iff.2 ((isSome_type?_iff g n).1 h)
  simpa [rank, Table.keys] using this

theorem SameTree.rank {g h : Graph} (a : SameTree g h) : h.rank = g.rank := by
  funext n
  simp only [Graph.rank, a.keys]

/-! ### Changes on the way out -/

/-- Nothing has changed further in than at the network `m`. -/
structure Outward (m : NodeId) (g h : Graph) : Prop where
  tree : SameTree g h
  type : ∀ k, g.rank m < g.rank k → h.type? k = g.type? k
  wires : ∀ k, g.rank m < g.rank k → h.wires k = g.wires k
  peer : ∀ p, g.rank m < g.rank p.node →
    (∀ q, g.peer? p = some q → g.rank m < g.rank q.node) → h.peer? p = g.peer? p

namespace Outward
variable {m : NodeId} {g h k : Graph}

theorem refl (m : NodeId) (g : Graph) : Outward m g g :=
  ⟨.refl g, fun _ _ => rfl, fun _ _ => rfl, fun _ _ _ => rfl⟩

theorem of_sameFrame (m : NodeId) (a : SameFrame g h) : Outward m g h :=
  ⟨.of_sameFrame a, fun _ _ => by rw [a.type], fun _ _ => by rw [a.wires],
    fun _ _ _ => by rw [a.peer]⟩

theorem trans (a : Outward m g h) (b : Outward m h k) : Outward m g k := by
  have rank := a.tree.rank
  constructor
  case tree => exact a.tree.trans b.tree
  case type =>
    intro n hn
    rw [b.type n (by rw [rank]; exact hn), a.type n hn]
  case wires =>
    intro n hn
    rw [b.wires n (by rw [rank]; exact hn), a.wires n hn]
  case peer =>
    intro p hp hq
    rw [b.peer p, a.peer p hp hq]
    · rw [rank]
      exact hp
    · rw [a.peer p hp hq, rank]
      exact hq

theorem mono {m' : NodeId} (a : Outward m g h) (hm : g.rank m ≤ g.rank m') : Outward m' g h :=
  ⟨a.tree, fun n hn => a.type n (Nat.lt_of_le_of_lt hm hn),
    fun n hn => a.wires n (Nat.lt_of_le_of_lt hm hn),
    fun p hp hq => a.peer p (Nat.lt_of_le_of_lt hm hp) fun q h => Nat.lt_of_le_of_lt hm (hq q h)⟩

theorem direction (a : Outward m g h) {p : Port} (hp : g.rank m < g.rank p.node) :
    h.direction? p = g.direction? p := by
  simp only [direction?_eq, attr?_eq, a.type p.node hp]

theorem terminal (a : Outward m g h) {p : Port} (hp : g.rank m < g.rank p.node) :
    h.terminal? p = g.terminal? p :=
  terminal?_congr (by rw [a.type p.node hp]) (a.direction hp)

end Outward

theorem outward_dropPort {g : Graph} {b t : Port} (w : g.WellFormed) (hb : g.peer? b = some t)
    (hc : ¬ g.Connected b) : Outward b.node g (g.dropPort b) := by
  obtain ⟨g₁, g₂, a, w₁, r, eq⟩ := dropped w hb hc
  rw [eq]
  refine Outward.trans ?_ (.of_sameFrame _ (sameFrame_emit _ _))
  constructor
  case tree => exact a.tree.trans r.tree
  case type =>
    intro k hk
    have hne : k ≠ b.node := by
      rintro rfl
      omega
    rw [r.type k hne, a.type]
  case wires =>
    intro k hk
    rw [r.wires, wires_of_around?_ne w₁.wired k, a.wires]
    intro h
    rw [a.tree.around] at h
    have := rank_lt w.tree h
    omega
  case peer =>
    intro p hp hq
    have hne : p.node ≠ b.node := by
      intro h
      rw [h] at hp
      omega
    rw [r.peer, moved_of_ne _ hne, a.peer]
    have hpb : p ≠ b := by
      rintro rfl
      exact hne rfl
    have hpt : p ≠ t := by
      rintro rfl
      have := hq b (w.linked.back b p hb)
      omega
    rw [if_neg (by simp [hpb, hpt])]
    cases hpq : g.peer? p with
    | none => rfl
    | some q =>
      have := hq q hpq
      rw [Option.map_some, moved_of_ne]
      intro h
      rw [h] at this
      omega

theorem wires_dropPort {g : Graph} {b t : Port} (w : g.WellFormed) (hb : g.peer? b = some t)
    (hc : ¬ g.Connected b) : (g.dropPort b).wires b.node = g.wires b.node := by
  obtain ⟨g₁, g₂, a, w₁, r, eq⟩ := dropped w hb hc
  rw [eq, (sameFrame_emit _ _).wires, r.wires, wires_of_around?_ne w₁.wired, a.wires]
  intro h
  have := rank_lt w₁.tree h
  omega

/-! ### Cutting off one wire -/

/-- Removes one wire, without the ports that only it kept. -/
def sever (g : Graph) (e : Edge) : Graph :=
  ((g.modifyWiresAround e.input.node fun w => w.remove e).resetEnds e).spreadFrom e.input

section Sever
variable {g : Graph} {m : NodeId} {e : Edge}

/-- The steps of cutting off a wire of the network `m`. -/
theorem severed (w : g.WellFormed) (he : e ∈ g.wires m) :
    ∃ g₁, Rewired m (·.remove e) g g₁ ∧ g.sever e = (g₁.resetEnds e).spreadFrom e.input :=
  have ha := w.wired.inputAround m e he
  ⟨_, g.rewired_modifyWiresAround _ m _ ha (isSome_contents?_of_around? w.tree ha), rfl⟩

variable (w : g.WellFormed) (he : e ∈ g.wires m)
include w he

theorem severed_frame : ∃ g₁, Rewired m (·.remove e) g g₁ ∧ SameFrame g₁ (g.sever e) := by
  obtain ⟨g₁, a, eq⟩ := severed w he
  refine ⟨g₁, a, ?_⟩
  rw [eq]
  exact (g₁.sameFrame_resetEnds e).trans (sameFrame_spread _ _)

theorem sameTree_sever : SameTree g (g.sever e) := by
  obtain ⟨g₁, a, s⟩ := severed_frame w he
  exact a.tree.trans (.of_sameFrame s)

theorem wellFormed_sever : (g.sever e).WellFormed := by
  obtain ⟨g₁, a, s⟩ := severed_frame w he
  exact s.wellFormed (wellFormed_remove a w)

theorem feeds_sever (o i : Port) :
    (g.sever e).Feeds o i ↔ g.Feeds o i ∧ ¬ (o = e.output ∧ i = e.input) := by
  obtain ⟨g₁, a, s⟩ := severed_frame w he
  rw [s.feeds, feeds_remove a w.wired he]

theorem peer?_sever : (g.sever e).peer? = g.peer? := by
  obtain ⟨g₁, a, s⟩ := severed_frame w he
  rw [s.peer, a.peer]

theorem type?_sever : (g.sever e).type? = g.type? := by
  obtain ⟨g₁, a, s⟩ := severed_frame w he
  rw [s.type, a.type]

theorem direction?_sever : (g.sever e).direction? = g.direction? := by
  obtain ⟨g₁, a, s⟩ := severed_frame w he
  rw [s.direction, a.direction]

theorem terminal?_sever : (g.sever e).terminal? = g.terminal? := by
  obtain ⟨g₁, a, s⟩ := severed_frame w he
  rw [s.terminal, a.terminal]

theorem wires_sever (k : NodeId) :
    (g.sever e).wires k = if k = m then (g.wires k).erase e else g.wires k := by
  obtain ⟨g₁, a, s⟩ := severed_frame w he
  rw [s.wires, a.wires]
  rfl

theorem influences_sever : (g.sever e).Influences = g.Influences := by
  obtain ⟨g₁, a, s⟩ := severed_frame w he
  rw [s.influences, a.influences]

theorem flows_sever {p q : Port} (h : (g.sever e).Flows p q) : g.Flows p q := by
  simp only [Flows, influences_sever w he, feeds_sever w he, direction?_sever w he,
    peer?_sever w he] at h
  exact h.imp_right (Or.imp_left And.left)

theorem acyclic_sever (ha : g.Acyclic) : (g.sever e).Acyclic :=
  ha.of_map id fun _ _ h => flows_sever w he h

theorem outward_sever : Outward m g (g.sever e) := by
  constructor
  case tree => exact sameTree_sever w he
  case type => exact fun k _ => by rw [type?_sever w he]
  case peer => exact fun p _ _ => by rw [peer?_sever w he]
  case wires =>
    intro k hk
    have hne : k ≠ m := by
      rintro rfl
      omega
    rw [wires_sever w he, if_neg hne]

theorem not_connected_sever_input : ¬ (g.sever e).Connected e.input := by
  have hf : g.Feeds e.output e.input := ⟨m, he⟩
  rintro ⟨q, h | h⟩
  · have ho := ((feeds_sever w he _ _).1 h).1.output w.wired
    rw [hf.input w.wired] at ho
    cases ho
  · obtain ⟨hq, hne⟩ := (feeds_sever w he _ _).1 h
    exact hne ⟨hq.unique w.wired hf, rfl⟩

theorem fitted_sever {p : Port} (hi : p ≠ e.input)
    (ho : p = e.output → (g.sever e).Connected e.output) (hp : g.Fitted p) :
    (g.sever e).Fitted p := by
  intro ht
  rw [terminal?_sever w he] at ht
  rw [peer?_sever w he, hp ht]
  refine ⟨?_, ?_⟩
  · rintro ⟨q, h⟩
    by_cases hpo : p = e.output
    · rw [hpo]
      exact ho hpo
    · refine ⟨q, ?_⟩
      rw [feeds_sever w he, feeds_sever w he]
      exact h.imp (fun h => ⟨h, fun x => hpo x.1⟩) fun h => ⟨h, fun x => hi x.2⟩
  · rintro ⟨q, h⟩
    rw [feeds_sever w he, feeds_sever w he] at h
    exact ⟨q, h.imp And.left And.left⟩

end Sever

/-! ### The whole cut -/

/-- The port `b` of a network stands for the terminal `t`, which has no wire. -/
structure Deserted (b t : Port) (g : Graph) : Prop where
  peer : g.peer? b = some t
  faces : g.Faces t b
  bare : ¬ g.Connected t

/-- The wire ends at a port that stands for a terminal without a wire. -/
def Dangles (g : Graph) (e : Edge) : Prop := ∃ b t, e.endsAt b = true ∧ Deserted b t g

/-- What is kept by every step of a cut, where each wire that goes is asked for or dangles. -/
structure KeptByCutting (asked : Graph → Edge → Prop) (I : Graph → Prop) : Prop where
  quiet : ∀ g h, Quiet g h → I g → I h
  sever : ∀ g m e, g.WellFormed → e ∈ g.wires m → asked g e ∨ g.Dangles e → I g → I (g.sever e)
  drop : ∀ g b t, g.WellFormed → Deserted b t g → ¬ g.Connected b → I g → I (g.dropPort b)

/-- What is kept by every step of a cut, whatever wires go. -/
structure KeptByCuts (I : Graph → Prop) : Prop where
  quiet : ∀ g h, Quiet g h → I g → I h
  sever : ∀ g m e, g.WellFormed → e ∈ g.wires m → I g → I (g.sever e)
  drop : ∀ g b t, g.WellFormed → g.peer? b = some t → g.Faces t b → ¬ g.Connected b →
    ¬ g.Connected t → I g → I (g.dropPort b)

theorem KeptByCuts.cutting {I : Graph → Prop} (k : KeptByCuts I) (asked : Graph → Edge → Prop) :
    KeptByCutting asked I :=
  ⟨k.quiet, fun g m e w he _ => k.sever g m e w he,
    fun g b t w d hc => k.drop g b t w d.peer d.faces hc d.bare⟩

theorem Deserted.node {b t : Port} {g : Graph} (d : Deserted b t g) {m : NodeId}
    (hm : g.around? t.node = some m) : b.node = m := by
  obtain ⟨side, -, -, ha⟩ := d.faces
  rw [hm, Option.some.injEq] at ha
  exact ha.symm

/-- A terminal without a wire is deserted by its peer. -/
theorem deserted_of_peer? {g : Graph} {t b : Port} (w : g.WellFormed)
    (ht : (g.terminal? t).isSome) (hc : ¬ g.Connected t) (hb : g.peer? t = some b) :
    Deserted b t g := ⟨w.linked.back t b hb, faces_of_terminal? w hb ht, hc⟩

theorem keptByCutting_true : KeptByCutting (fun _ _ => True) fun _ => True :=
  ⟨fun _ _ _ _ => trivial, fun _ _ _ _ _ _ _ => trivial, fun _ _ _ _ _ _ _ => trivial⟩

/-- What is done in the network `n` does not reach the terminals in the networks of `n`. -/
theorem Deserted.outward {g h : Graph} {n : NodeId} {b t : Port} (d : Deserted b t g)
    (w : g.WellFormed) (w' : h.WellFormed) (hn : g.around? b.node = some n)
    (a : Outward n g h) : Deserted b t h := by
  obtain ⟨side, hterm, hdir, haround⟩ := d.faces
  have outer := rank_lt w.tree hn
  have inner := rank_lt w.tree haround
  have back : h.peer? b = some t := by
    refine w'.linked.back t b ?_
    rw [a.peer t (Nat.lt_trans outer inner), w.linked.back b t d.peer]
    intro q hq
    rw [w.linked.back b t d.peer, Option.some.injEq] at hq
    rw [← hq]
    exact outer
  have inside : (h.contents? b.node).isSome := by
    rw [a.tree.network]
    exact isSome_contents?_of_around? w.tree haround
  have around' : h.around? t.node = some b.node := by rw [a.tree.around, haround]
  refine ⟨back, faces_of_contents? w' back inside, ?_⟩
  rw [connected_iff w'.wired around', a.wires _ outer, ← connected_iff w.wired haround]
  exact d.bare

/-- What cutting the wire `e` of the network `m` comes to, for a property `I` that its steps keep. -/
structure Cutting (I : Graph → Prop) (m : NodeId) (e : Edge) (g h : Graph) : Prop where
  wellFormed : h.WellFormed
  fitted : ∀ t, g.Fitted t → h.Fitted t
  outward : Outward m g h
  wires : h.wires m = (g.wires m).erase e
  keeps : I g → I h

/-- The part of `shrinkBoundary` that looks at one end of the wire. -/
def shrinkAt (cut : Graph → Edge → Graph) (g : Graph) (t : Port) : Graph :=
  match g.peer? t with
  | some b => dropBoundary cut g b
  | none => g

/-- The part of `shrinkBoundary` for the end from which the wire came. -/
def shrinkOutput (cut : Graph → Edge → Graph) (g : Graph) (o : Port) : Graph :=
  if g.terminal? o = some .input ∧ g.sinks o = [] then shrinkAt cut g o else g

/-- The part of `shrinkBoundary` for the end to which the wire led. -/
def shrinkInput (cut : Graph → Edge → Graph) (g : Graph) (i : Port) : Graph :=
  if g.terminal? i = some .output then shrinkAt cut g i else g

theorem shrinkBoundary_eq (cut : Graph → Edge → Graph) (g : Graph) (e : Edge) :
    shrinkBoundary cut g e = shrinkInput cut (shrinkOutput cut g e.output) e.input := rfl

section CutAll
variable {asked : Graph → Edge → Prop} {I : Graph → Prop} {cut : Graph → Edge → Graph}
  {levels : Nat}
  (hcut : ∀ g m e, g.WellFormed → e ∈ g.wires m → asked g e ∨ g.Dangles e → g.rank m < levels →
    Cutting I m e g (cut g e))
include hcut

/-- Cuts of several wires of one network leave the others there. The reason `R` for which all of
them go lasts while they go. -/
theorem foldl_cut {m : NodeId} {l : List Edge} {R : Graph → Prop}
    (lasts : ∀ g h, g.WellFormed → h.WellFormed → Outward m g h → R g → R h)
    (why : ∀ g, R g → ∀ e ∈ l, asked g e ∨ g.Dangles e) {g : Graph} (w : g.WellFormed) (r : R g)
    (hl : ∀ e ∈ l, e ∈ g.wires m) (nodup : l.Nodup) (hm : g.rank m < levels) :
    (l.foldl cut g).WellFormed ∧ (∀ t, g.Fitted t → (l.foldl cut g).Fitted t) ∧
      Outward m g (l.foldl cut g) ∧ (I g → I (l.foldl cut g)) ∧
      ∀ e, e ∈ (l.foldl cut g).wires m ↔ e ∈ g.wires m ∧ e ∉ l := by
  induction l generalizing g with
  | nil => exact ⟨w, fun _ h => h, .refl m g, id, by simp⟩
  | cons d l ih =>
    have c := hcut g m d w (hl d (by simp)) (why g r d (by simp)) hm
    have nodup' := List.nodup_cons.1 nodup
    have mem (e : Edge) : e ∈ (cut g d).wires m ↔ e ≠ d ∧ e ∈ g.wires m := by
      rw [c.wires, (nodup_wires w.wired m).mem_erase_iff]
    have hl' : ∀ e ∈ l, e ∈ (cut g d).wires m := by
      intro e he
      refine (mem e).2 ⟨?_, hl e (List.mem_cons_of_mem _ he)⟩
      rintro rfl
      exact nodup'.1 he
    have hm' : (cut g d).rank m < levels := by
      rw [c.outward.tree.rank]
      exact hm
    have r' := lasts g _ w c.wellFormed c.outward r
    obtain ⟨w', fitted, outward, keeps, wires⟩ :=
      ih (fun g r e he => why g r e (List.mem_cons_of_mem _ he)) c.wellFormed r' hl' nodup'.2 hm'
    refine ⟨w', fun t ht => fitted t (c.fitted t ht), c.outward.trans outward,
      fun h => keeps (c.keeps h), fun e => ?_⟩
    rw [List.foldl_cons, wires, mem]
    simp only [List.mem_cons, not_or]
    grind

/-- A port that stands for a terminal without a wire loses its own wires, all of them in the network
around its node. -/
theorem deserted_foldl_cut {g : Graph} {t b : Port} (w : g.WellFormed) (d : Deserted b t g)
    (hr : g.rank b.node ≤ levels) :
    ∃ g₁, ((g.wiresAround b.node).filter (Edge.endsAt b)).foldl cut g = g₁ ∧ g₁.WellFormed ∧
      (∀ p, g.Fitted p → g₁.Fitted p) ∧ Outward b.node g g₁ ∧ (I g → I g₁) ∧
      g₁.wires b.node = g.wires b.node ∧ Deserted b t g₁ ∧ ¬ g₁.Connected b := by
  refine ⟨_, rfl, ?_⟩
  cases ha : g.around? b.node with
  | none =>
    rw [wiresAround_eq, ha]
    exact ⟨w, fun _ h => h, .refl _ g, id, rfl, d, not_connected_of_around?_eq_none w.wired ha⟩
  | some n =>
    rw [wiresAround_of_around? ha]
    have hn := rank_lt w.tree ha
    let l := (g.wires n).filter (Edge.endsAt b)
    have lasts (f h : Graph) (wf : f.WellFormed) (wh : h.WellFormed) (a : Outward n f h)
        (r : f.around? = g.around? ∧ Deserted b t f) :
        h.around? = g.around? ∧ Deserted b t h :=
      ⟨a.tree.around.trans r.1, r.2.outward wf wh (by rw [r.1, ha]) a⟩
    have why (f : Graph) (r : f.around? = g.around? ∧ Deserted b t f) (e : Edge) (he : e ∈ l) :
        asked f e ∨ f.Dangles e := .inr ⟨b, t, (List.mem_filter.1 he).2, r.2⟩
    obtain ⟨w₁, fitted, outward, keeps, wires⟩ := foldl_cut hcut (m := n) lasts why w ⟨rfl, d⟩
      (fun e he => (List.mem_filter.1 he).1) ((nodup_wires w.wired n).filter _) (by omega)
    refine ⟨w₁, fitted, outward.mono (Nat.le_of_lt hn), keeps, outward.wires _ hn,
      d.outward w w₁ ha outward, ?_⟩
    have around : (l.foldl cut g).around? b.node = some n := by rw [outward.tree.around, ha]
    rw [connected_iff w₁.wired around]
    rintro ⟨e, he, ends⟩
    obtain ⟨there, kept⟩ := (wires e).1 he
    exact kept (List.mem_filter.2 ⟨there, ends⟩)

theorem dropBoundary_spec (k : KeptByCutting asked I) {m : NodeId} {g : Graph} {t b : Port}
    (w : g.WellFormed) (d : Deserted b t g) (hm : b.node = m) (hr : g.rank m ≤ levels) :
    (dropBoundary cut g b).WellFormed ∧
      (∀ p, (p ≠ t → g.Fitted p) → (dropBoundary cut g b).Fitted p) ∧
      Outward m g (dropBoundary cut g b) ∧ (dropBoundary cut g b).wires m = g.wires m ∧
      (I g → I (dropBoundary cut g b)) := by
  subst hm
  have haround : g.around? t.node = some b.node := by
    obtain ⟨side, -, -, ha⟩ := d.faces
    exact ha
  obtain ⟨g₁, eq, w₁, fitted₁, outward₁, keeps₁, wires₁, d₁, off⟩ :=
    deserted_foldl_cut hcut w d hr
  rw [dropBoundary_eq, eq]
  have inside : (g₁.contents? b.node).isSome := by
    rw [outward₁.tree.network]
    exact isSome_contents?_of_around? w.tree haround
  refine ⟨wellFormed_dropPort w₁ d₁.peer off, ?_, ?_, ?_, ?_⟩
  · intro p hp
    exact fitted_dropPort w₁ d₁.peer off inside d₁.bare fun hpt => fitted₁ p (hp hpt)
  · exact outward₁.trans (outward_dropPort w₁ d₁.peer off)
  · rw [wires_dropPort w₁ d₁.peer off, wires₁]
  · exact fun h => k.drop g₁ b t w₁ d₁ off (keeps₁ h)

theorem shrinkAt_spec (k : KeptByCutting asked I) {m : NodeId} {g : Graph} {t : Port} (w : g.WellFormed)
    (ht : (g.terminal? t).isSome) (hc : ¬ g.Connected t) (hm : g.around? t.node = some m)
    (hr : g.rank m ≤ levels) :
    (shrinkAt cut g t).WellFormed ∧ (∀ p, (p ≠ t → g.Fitted p) → (shrinkAt cut g t).Fitted p) ∧
      Outward m g (shrinkAt cut g t) ∧ (shrinkAt cut g t).wires m = g.wires m ∧
      (I g → I (shrinkAt cut g t)) := by
  rw [shrinkAt]
  cases hb : g.peer? t with
  | none =>
    refine ⟨w, fun p hp => ?_, .refl m g, rfl, id⟩
    by_cases hpt : p = t
    · subst hpt
      intro _
      simp [hb, hc]
    · exact hp hpt
  | some b =>
    have d := deserted_of_peer? w ht hc hb
    exact dropBoundary_spec hcut k w d (d.node hm) hr

end CutAll

section CutWithin
variable {asked : Graph → Edge → Prop} {I : Graph → Prop}

section Shrink
variable {cut : Graph → Edge → Graph} {levels : Nat} (k : KeptByCutting asked I)
  (hcut : ∀ g m e, g.WellFormed → e ∈ g.wires m → asked g e ∨ g.Dangles e → g.rank m < levels →
    Cutting I m e g (cut g e))
  {g : Graph} {m : NodeId} {e : Edge} (w : g.WellFormed) (he : e ∈ g.wires m)
  (hm : g.rank m ≤ levels)
include k hcut w he hm

/-- What happens to the boundary where the wire came from. The other end is without a wire still. -/
theorem shrinkOutput_spec :
    ∃ h, shrinkOutput cut (g.sever e) e.output = h ∧ h.WellFormed ∧
      (∀ p, p ≠ e.input → g.Fitted p → h.Fitted p) ∧ Outward m (g.sever e) h ∧
      h.wires m = (g.sever e).wires m ∧ (I (g.sever e) → I h) ∧
      h.around? e.input.node = some m ∧ ¬ h.Connected e.input := by
  let g₁ := g.sever e
  have w₁ : g₁.WellFormed := wellFormed_sever w he
  have rank₁ : g₁.rank m ≤ levels := by
    rw [(sameTree_sever w he).rank]
    exact hm
  have outputAround : g₁.around? e.output.node = some m := by
    rw [(sameTree_sever w he).around]
    exact w.wired.outputAround m e he
  have inputAround : g₁.around? e.input.node = some m := by
    rw [(sameTree_sever w he).around]
    exact w.wired.inputAround m e he
  have hout : g₁.direction? e.output = some .output := by
    rw [direction?_sever w he]
    exact w.wired.output m e he
  obtain ⟨h, eq, w₂, fitted, outward, wires, keeps⟩ : ∃ h,
      shrinkOutput cut g₁ e.output = h ∧ h.WellFormed ∧
      (∀ p, p ≠ e.input → g.Fitted p → h.Fitted p) ∧ Outward m g₁ h ∧
      h.wires m = g₁.wires m ∧ (I g₁ → I h) := by
    rw [shrinkOutput]
    refine ⟨_, rfl, ?_⟩
    split
    · next h =>
      have bare := not_connected_of_sinks w₁.wired hout h.2
      obtain ⟨w₂, fitted, rest⟩ := shrinkAt_spec hcut k w₁ (by simp [h.1]) bare outputAround rank₁
      exact ⟨w₂, fun p hi hp => fitted p fun ho => fitted_sever w he hi (absurd · ho) hp, rest⟩
    · next h =>
      refine ⟨w₁, fun p hi hp => ?_, .refl m g₁, rfl, id⟩
      intro ht
      refine fitted_sever w he hi (fun ho => ?_) hp ht
      subst ho
      obtain ⟨side, hs⟩ := Option.isSome_iff_exists.1 ht
      have hside : side = .input := by
        have := (terminal?_direction hs).1
        rw [hout] at this
        cases side <;> simp_all
      subst hside
      have sinks : g₁.sinks e.output ≠ [] := fun hn => h ⟨hs, hn⟩
      obtain ⟨i, hi⟩ := List.exists_mem_of_ne_nil _ sinks
      exact ⟨i, .inl ((mem_sinks_iff w₁.wired _ _).1 hi)⟩
  have around : h.around? e.input.node = some m := by rw [outward.tree.around, inputAround]
  refine ⟨h, eq, w₂, fitted, outward, wires, keeps, around, ?_⟩
  rw [connected_iff w₂.wired around, wires, ← connected_iff w₁.wired inputAround]
  exact not_connected_sever_input w he

/-- What happens to the boundary after a wire of the network `m` has been cut off. -/
theorem shrinkBoundary_spec :
    ∃ h, shrinkBoundary cut (g.sever e) e = h ∧ h.WellFormed ∧
      (∀ p, g.Fitted p → h.Fitted p) ∧ Outward m (g.sever e) h ∧
      h.wires m = (g.sever e).wires m ∧ (I (g.sever e) → I h) := by
  obtain ⟨g₂, eq, w₂, fitted₂, outward₂, wires₂, keeps₂, around₂, bare⟩ :=
    shrinkOutput_spec k hcut w he hm
  rw [shrinkBoundary_eq, eq, shrinkInput]
  refine ⟨_, rfl, ?_⟩
  split
  · next ht =>
    have rank₂ : g₂.rank m ≤ levels := by
      rw [outward₂.tree.rank, (sameTree_sever w he).rank]
      exact hm
    obtain ⟨w₃, fitted₃, outward₃, wires₃, keeps₃⟩ :=
      shrinkAt_spec hcut k w₂ (by simp [ht]) bare around₂ rank₂
    exact ⟨w₃, fun p hp => fitted₃ p fun hi => fitted₂ p hi hp, outward₂.trans outward₃,
      wires₃.trans wires₂, fun h => keeps₃ (keeps₂ h)⟩
  · next ht =>
    refine ⟨w₂, fun p hp => ?_, outward₂, wires₂, keeps₂⟩
    by_cases hi : p = e.input
    · subst hi
      intro hterm
      obtain ⟨side, hs⟩ := Option.isSome_iff_exists.1 hterm
      have hne := (terminal?_direction hs).1
      have w₁ : (g.sever e).WellFormed := wellFormed_sever w he
      rw [outward₂.tree.around] at around₂
      rw [outward₂.direction (rank_lt w₁.tree around₂), direction?_sever w he,
        w.wired.input m e he] at hne
      cases side <;> simp_all
    · exact fitted₂ p hi hp

end Shrink

/-- One level of a cut: the wire goes, and then the network ports that only it kept. -/
theorem cutWithin_succ {g : Graph} {e : Edge} (w : g.WellFormed) (he : g.Feeds e.output e.input)
    (levels : Nat) : cutWithin (levels + 1) g e =
      (shrinkBoundary (cutWithin levels) (g.sever e) e).emit (.disconnected e.output e.input) := by
  have has : (g.wiresAround e.input.node).has e = true := by
    rw [Wiring.has, List.contains_iff_mem]
    exact (mem_wiresAround_iff w.wired e).2 he
  rw [cutWithin, if_pos has]
  rfl

theorem cutWithin_spec (k : KeptByCutting asked I) (levels : Nat) (g : Graph) (m : NodeId)
    (e : Edge) (w : g.WellFormed) (he : e ∈ g.wires m) (why : asked g e ∨ g.Dangles e)
    (hm : g.rank m < levels) :
    Cutting I m e g (cutWithin levels g e) := by
  induction levels generalizing g m e with
  | zero => omega
  | succ levels ih =>
    obtain ⟨h, shrink, w', fitted, outward, wires, keeps⟩ :=
      shrinkBoundary_spec k ih w he (by omega)
    have news := h.sameFrame_emit (.disconnected e.output e.input)
    rw [cutWithin_succ w ⟨m, he⟩, shrink]
    constructor
    case wellFormed => exact news.wellFormed w'
    case fitted =>
      intro t ht
      rw [news.fitted]
      exact fitted t ht
    case outward => exact ((outward_sever w he).trans outward).trans (.of_sameFrame m news)
    case wires => rw [news.wires, wires, wires_sever w he, if_pos rfl]
    case keeps => exact fun h => k.quiet _ _ (quiet_emit _ _) (keeps (k.sever g m e w he why h))

/-- Cutting a wire that is not there does nothing. -/
theorem cut_of_not_mem {g : Graph} (w : g.WellFormed) (e : Edge) (he : ¬ g.Feeds e.output e.input) :
    g.cut e = g := by
  have has : ¬ (g.wiresAround e.input.node).has e = true := by
    rw [Wiring.has, List.contains_iff_mem, mem_wiresAround_iff w.wired]
    exact he
  rw [cut]
  cases g.nodes.length with
  | zero => rfl
  | succ levels => rw [cutWithin, if_neg has]

theorem cut_spec (k : KeptByCutting asked I) {g : Graph} {m : NodeId} {e : Edge}
    (w : g.WellFormed) (he : e ∈ g.wires m) (why : asked g e ∨ g.Dangles e) :
    Cutting I m e g (g.cut e) := by
  refine cutWithin_spec k _ g m e w he why (rank_lt_length (isSome_type?_of_contents? ?_))
  exact isSome_contents?_of_around? w.tree (w.wired.outputAround m e he)

/-- What every cut comes to. -/
theorem cutting_cut {g : Graph} {m : NodeId} {e : Edge} (w : g.WellFormed) (he : e ∈ g.wires m) :
    Cutting (fun _ => True) m e g (g.cut e) := cut_spec keptByCutting_true w he (.inl trivial)

theorem lawful_cut {g : Graph} (w : g.Lawful) (e : Edge) : (g.cut e).Lawful := by
  by_cases he : g.Feeds e.output e.input
  · obtain ⟨m, he⟩ := he
    have c := cutting_cut w.wellFormed he
    exact ⟨c.wellFormed, fun t => c.fitted t (w.fitted t)⟩
  · rw [cut_of_not_mem w.wellFormed e he]
    exact w

theorem keeps_cut (k : KeptByCutting asked I) {g : Graph} (w : g.WellFormed) {e : Edge}
    (why : asked g e) (h : I g) : I (g.cut e) := by
  by_cases he : g.Feeds e.output e.input
  · obtain ⟨m, he⟩ := he
    exact (cut_spec k w he (.inl why)).keeps h
  · rw [cut_of_not_mem w e he]
    exact h

end CutWithin
end Dataflow.Graph
