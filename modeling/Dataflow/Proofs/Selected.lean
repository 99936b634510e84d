import Dataflow.Proofs.Arena
import Dataflow.Proofs.Trimmed
import Mathlib.Data.List.Induction
set_option autoImplicit false

/-!
What the removal of a selection takes. The selected wires are cut one after the other, each where
its ports were when it was selected, and then the selected nodes go with all that is in them. Main
statement: exactly these nodes go, and with them the wires that were struck and those that lost the
terminal behind one of their ends; and the wires that are struck are the selected ones if none is
selected after a wire further in.
-/

namespace Dataflow

namespace Selection

/-- When its turn comes, a selected pair of ports is the wire `e` of `g`. -/
def Strikes (s : Selection) (g : Graph) (e : Edge) : Prop :=
  ∃ done d rest, s.edges = done ++ d :: rest ∧ Graph.Kin g (done.foldl Graph.cut g) e d

/-- The nodes at the ends of each wire came after the networks of the wires selected before it. -/
def Inwards (s : Selection) (g : Graph) : Prop :=
  s.edges.Pairwise fun e d => ∀ m, g.around? e.input.node = some m →
    g.rank m < g.rank d.output.node ∧ g.rank m < g.rank d.input.node

end Selection

namespace Graph

/-! ### Cuts one after the other -/

section Cuts
variable {g : Graph}

theorem sameTree_cut (w : g.WellFormed) (e : Edge) : SameTree g (g.cut e) := by
  by_cases he : g.Feeds e.output e.input
  · obtain ⟨m, he⟩ := he
    exact (cutting_cut w he).outward.tree
  · rw [cut_of_not_mem w e he]
    exact .refl g

/-- A cut leaves nodes alone that came after the network of the wire. -/
theorem type?_cut (w : g.WellFormed) {e : Edge} {n : NodeId}
    (inner : ∀ m, g.around? e.input.node = some m → g.rank m < g.rank n) :
    (g.cut e).type? n = g.type? n := by
  by_cases he : g.Feeds e.output e.input
  · obtain ⟨m, he⟩ := he
    exact (cutting_cut w he).outward.type n (inner m (w.wired.inputAround m e he))
  · rw [cut_of_not_mem w e he]

theorem type?_foldl_cut (w : g.Lawful) {l : List Edge} {n : NodeId}
    (inner : ∀ e ∈ l, ∀ m, g.around? e.input.node = some m → g.rank m < g.rank n) :
    (l.foldl cut g).type? n = g.type? n := by
  induction l generalizing g with
  | nil => rfl
  | cons e l ih =>
    have tree := sameTree_cut w.wellFormed e
    rw [List.foldl_cons, ih (lawful_cut w e), type?_cut w.wellFormed (inner e List.mem_cons_self)]
    intro d hd m hm
    rw [tree.around] at hm
    rw [tree.rank]
    exact inner d (List.mem_cons_of_mem _ hd) m hm

/-- Wires that are selected from the outside in are what they were when their turn comes. -/
theorem strikes_iff_of_inwards (w : g.Lawful) {s : Selection} (inwards : s.Inwards g) {e : Edge}
    (he : g.Feeds e.output e.input) : s.Strikes g e ↔ e ∈ s.edges := by
  have wf := w.wellFormed
  -- the ports of a selected wire are still called what they were
  have turn {done rest : List Edge} {d : Edge} (eq : s.edges = done ++ d :: rest) :
      Kin g (done.foldl cut g) e d ↔ Kin g g e d := by
    rw [Selection.Inwards, eq, List.pairwise_append] at inwards
    have output : (done.foldl cut g).type? d.output.node = g.type? d.output.node :=
      type?_foldl_cut w fun c hc m hm => (inwards.2.2 c hc d List.mem_cons_self m hm).1
    have input : (done.foldl cut g).type? d.input.node = g.type? d.input.node :=
      type?_foldl_cut w fun c hc m hm => (inwards.2.2 c hc d List.mem_cons_self m hm).2
    exact ⟨fun x => ⟨x.1.of_type output, x.2.of_type input⟩,
      fun x => ⟨x.1.of_type output.symm, x.2.of_type input.symm⟩⟩
  constructor
  · rintro ⟨done, d, rest, eq, struck⟩
    rw [eq, Kin.unique wf (.self wf.wired he) ((turn eq).1 struck).symm]
    simp
  · intro chosen
    obtain ⟨done, rest, eq⟩ := List.append_of_mem chosen
    exact ⟨done, e, rest, eq, (turn eq).2 (.self wf.wired he)⟩

end Cuts

/-! ### What is gone stays away -/

section Survive
variable {g h k : Graph} {gone gone' : Edge → Prop} {e d : Edge}

theorem Survives.before (w : g.WellFormed) (x : Trimmed g gone k) (y : Trimmed k gone' h)
    (he : Survives g h e) : Survives g k e := by
  obtain ⟨d, hd, same⟩ := he
  obtain ⟨f, hf, later⟩ := y.feeds d hd
  obtain ⟨e', -, sooner⟩ := x.feeds f hf
  have here : e' = e := (sooner.trans later).unique w same
  exact ⟨f, hf, here ▸ sooner⟩

/-- A wire that is cut is not in the graph under another number. -/
theorem not_survives_cut (wh : h.WellFormed) (same : Kin g h e d) : ¬ Survives g (h.cut d) e := by
  rintro ⟨f, hf, other⟩
  have keeps := (keptByRemoving_any wh).toKeptByCutting
  obtain ⟨wk, trimmed⟩ := keeps_cut keeps wh (e := d) trivial ⟨wh, trimmed_refl wh⟩
  -- the wire had a forerunner, which can only be the one that was cut
  obtain ⟨c, hc, later⟩ := trimmed.feeds f hf
  obtain rfl : c = d := (other.trans later.symm).symm.unique wh same.symm
  obtain ⟨m, hm⟩ := hc
  have cutting := cutting_cut wh hm
  have tree := cutting.outward.tree
  obtain ⟨n, hn⟩ := hf
  have output := wk.wired.outputAround n f hn
  have input := wk.wired.inputAround n f hn
  rw [tree.around] at output input
  have here : n = m := by
    rw [later.1.node, wh.wired.outputAround m c hm] at output
    exact (Option.some.inj output).symm
  subst here
  have still : f ∈ (h.wires n).erase c := by rwa [cutting.wires] at hn
  obtain ⟨ne, -⟩ := (nodup_wires wh.wired n).mem_erase_iff.1 still
  have old : Kin g h e f :=
    ⟨other.1.of_type (cutting.outward.type _ (rank_lt wh.tree output)),
      other.2.of_type (cutting.outward.type _ (rank_lt wh.tree input))⟩
  exact ne (old.symm.unique wh same.symm)

end Survive

/-! ### The nodes -/

section Nodes
variable {g h : Graph}

theorem mem_below_iff (w : g.Tree) (levels : Nat) (n c : NodeId) (deep : 0 < levels)
    (h : g.nodes.length ≤ g.rank n + levels) : c ∈ g.below levels n ↔ g.Inside c n := by
  induction levels generalizing n with
  | zero => omega
  | succ levels ih =>
    simp only [below_succ, List.mem_append, List.mem_flatMap, List.mem_reverse, List.mem_singleton]
    have step (d : NodeId) (hd : g.around? d = some n) : c ∈ g.below levels d ↔ g.Inside c d := by
      have outer := rank_lt w hd
      have live := rank_lt_length (isSome_type?_of_around? hd)
      exact ih d (by omega) (by omega)
    constructor
    · rintro (⟨d, hd, hc⟩ | rfl)
      · have around := (w.child n d).1 hd
        exact .tail ((step d around).1 hc) around
      · exact .refl
    · intro inside
      cases inside with
      | refl => exact .inr rfl
      | @tail d _ inside around => exact .inl ⟨d, (w.child n d).2 around, (step d around).2 inside⟩

/-- Of the nodes of `g`, those are gone that were in one of `done`. -/
structure Pruned (g : Graph) (done : List NodeId) (h : Graph) : Prop where
  gone : ∀ n ∈ done, ∀ c, g.Inside c n → h.around? c = none
  kept : ∀ c, (∀ n ∈ done, ¬ g.Inside c n) → h.around? c = g.around? c

namespace Pruned
variable {done : List NodeId} {n c : NodeId}

theorem around_old (x : Pruned g done h) {p : NodeId} (hc : h.around? c = some p) :
    g.around? c = some p := by
  by_cases out : ∀ n ∈ done, ¬ g.Inside c n
  · rwa [← x.kept c out]
  · push Not at out
    obtain ⟨n, hn, inside⟩ := out
    rw [x.gone n hn c inside] at hc
    cases hc

theorem inside_old (x : Pruned g done h) (hc : h.Inside c n) : g.Inside c n :=
  Relation.ReflTransGen.mono (fun _ _ => x.around_old) _ _ hc

/-- The way outwards from a node that is still there has not changed. -/
theorem inside_iff (x : Pruned g done h) (out : ∀ n ∈ done, ¬ g.Inside c n) :
    h.Inside c n ↔ g.Inside c n := by
  refine ⟨x.inside_old, fun inside => ?_⟩
  induction inside using Relation.ReflTransGen.head_induction_on with
  | refl => exact .refl
  | head step _ ih =>
    refine .head ?_ (ih fun m hm inner => out m hm (.head step inner))
    rw [x.kept _ out]
    exact step

theorem remove (x : Pruned g done h) {k : Graph}
    (gone : ∀ c, h.Inside c n → k.around? c = none)
    (kept : ∀ c, ¬ h.Inside c n → k.around? c = h.around? c) : Pruned g (done ++ [n]) k := by
  constructor
  case gone =>
    intro m hm c inside
    by_cases inner : h.Inside c n
    · exact gone c inner
    · rw [kept c inner]
      by_cases out : ∀ n ∈ done, ¬ g.Inside c n
      · rcases List.mem_append.1 hm with hm | hm
        · exact absurd inside (out m hm)
        · rw [List.mem_singleton] at hm
          exact absurd ((x.inside_iff out).2 (hm ▸ inside)) inner
      · push Not at out
        obtain ⟨m, hm, inside⟩ := out
        exact x.gone m hm c inside
  case kept =>
    intro c out
    rw [kept c fun inside => out n (by simp) (x.inside_old inside)]
    exact x.kept c fun m hm => out m (List.mem_append_left _ hm)

end Pruned

/-- What is kept by the cuts is kept by the removal of the nodes, and exactly these go. -/
theorem pruned_removeNodes {asked : Graph → Edge → Prop} {I : Graph → Prop}
    (k : KeptByRemoving asked I) (root : ∀ h, I h → h.root = g.root) {nodes : List NodeId}
    (apart : g.root ∉ nodes)
    (why : ∀ n ∈ nodes, ∀ m, g.Inside m n → ∀ h e, e.touches m = true → asked h e)
    (w : LawfulWith I h) (around : h.around? = g.around?) :
    ∃ k, (nodes.forM fun n => Edit.step fun g =>
        if (g.node? n).isSome then g.removeNode n else .ok g).apply h = (.ok (), k) ∧
      LawfulWith I k ∧ Pruned g nodes k := by
  let I' (rest : List NodeId) (h : Graph) : Prop :=
    ∃ done, nodes = done ++ rest ∧ LawfulWith I h ∧ Pruned g done h
  have step (n : NodeId) (rest : List NodeId) (h : Graph) (hI : I' (n :: rest) h) :
      ∃ k, (Edit.step fun g => if (g.node? n).isSome then g.removeNode n else .ok g).apply h =
        (.ok (), k) ∧ I' rest k := by
    obtain ⟨done, eq, w, x⟩ := hI
    have tree := w.lawful.wellFormed.tree
    cases hn : h.node? n with
    | none =>
      refine ⟨h, Edit.apply_step_ok (by simp [hn]), done ++ [n], by simp [eq], w,
        x.remove (fun c inside => ?_) fun _ _ => rfl⟩
      -- nothing is in a node that is not there
      rcases Relation.ReflTransGen.cases_tail_iff _ _ _ |>.1 inside with rfl | ⟨d, -, hd⟩
      · simp [around?, hn]
      · have live := isSome_contents?_of_around? tree hd
        simp [contents?, hn] at live
    | some m =>
      have live : (h.type? n).isSome := by simp [type?, hn]
      have ne : n ≠ h.root := by
        rintro rfl
        rw [root h w.holds] at eq
        exact apart (by simp [eq])
      have parent : m.parent.isNone = false := by
        cases hp : m.parent with
        | some p => rfl
        | none =>
          refine absurd (tree.orphan n live ?_) ne
          rw [around?_of_node? hn, hp]
      have ok : h.removeNode n = .ok (h.removeTree n) := by
        simp [removeNode, ne, node, hn, parent, bind, Except.bind]
      have below (c : NodeId) : c ∈ h.below h.nodes.length n ↔ h.Inside c n :=
        mem_below_iff tree _ n c (Nat.zero_lt_of_lt (rank_lt_length live)) (by omega)
      obtain ⟨w', around⟩ := removeTree_spec k w n fun c hc =>
        why n (by simp [eq]) c (x.inside_old ((below c).1 hc))
      refine ⟨h.removeTree n, Edit.apply_step_ok (by simp [hn, ok]), done ++ [n], by simp [eq], w',
        x.remove (fun c inside => ?_) fun c inside => ?_⟩
      · rw [around, if_pos ((below c).2 inside)]
      · rw [around, if_neg fun hc => inside ((below c).1 hc)]
  obtain ⟨k, ok, done, eq, wk, x⟩ :=
    Edit.forM_ok _ I' step nodes h ⟨[], rfl, w, ⟨by simp, fun c _ => by rw [around]⟩⟩
  rw [List.append_nil] at eq
  exact ⟨k, ok, wk, eq ▸ x⟩

theorem isSome_node?_iff (w : g.Tree) (n : NodeId) :
    (g.node? n).isSome ↔ n = g.root ∨ (g.around? n).isSome := by
  have live : (g.node? n).isSome = (g.type? n).isSome := by simp [type?]
  rw [live]
  constructor
  · intro hn
    cases ha : g.around? n with
    | none => exact .inl (w.orphan n hn ha)
    | some p => exact .inr rfl
  · rintro (rfl | ha)
    · exact isSome_type?_of_contents? w.rootNetwork
    · obtain ⟨p, hp⟩ := Option.isSome_iff_exists.1 ha
      exact isSome_type?_of_around? hp

theorem Pruned.isSome_node?_iff {done : List NodeId} (x : Pruned g done h) (w : g.Tree)
    (w' : h.Tree) (root : h.root = g.root) (apart : g.root ∉ done) (n : NodeId) :
    (h.node? n).isSome ↔ (g.node? n).isSome ∧ ∀ m ∈ done, ¬ g.Inside n m := by
  rw [Graph.isSome_node?_iff w, Graph.isSome_node?_iff w', root]
  constructor
  · rintro (rfl | hn)
    · refine ⟨.inl rfl, fun m hm inside => ?_⟩
      rcases Relation.ReflTransGen.cases_head_iff.1 inside with rfl | ⟨p, hp, -⟩
      · exact apart hm
      · rw [w.root] at hp
        cases hp
    · obtain ⟨p, hp⟩ := Option.isSome_iff_exists.1 hn
      refine ⟨.inr (by simp [x.around_old hp]), fun m hm inside => ?_⟩
      rw [x.gone m hm n inside] at hp
      cases hp
  · rintro ⟨rfl | hn, out⟩
    · exact .inl rfl
    · exact .inr (by rwa [x.kept n out])

end Nodes

/-! ### The whole selection -/

/-- Each terminal that one of the ends of the wire stands for has kept a wire. -/
def Upheld (g h : Graph) (e : Edge) : Prop :=
  ∀ b t, e.endsAt b = true → g.Hosts b t → h.Connected t

section Selected
variable {g h : Graph} {s : Selection} {gone : Edge → Prop}

theorem Survives.upheld {e : Edge} (he : Survives g h e) (x : Trimmed g gone h) (w : h.Lawful) :
    Upheld g h e := by
  intro b t ends hosts
  obtain ⟨d, -, same⟩ := he
  obtain ⟨q, -, namesake⟩ := same.endsAt' ends
  have there := (x.hosts b q t namesake).1 hosts
  refine (w.fitted t (there.faces w.wellFormed).isSome_terminal?).1 ?_
  rw [w.wellFormed.linked.back _ _ there.1]
  rfl

/-- The selected wires go one by one, and those that are struck may go. -/
theorem trimmed_foldl_cut (w : g.Lawful) (why : ∀ e, s.Strikes g e → gone e) {done rest : List Edge}
    (eq : s.edges = done ++ rest) :
    LawfulWith (fun h => h.WellFormed ∧ Trimmed g gone h) (done.foldl cut g) := by
  induction done using List.reverseRecOn generalizing rest with
  | nil => exact ⟨w, w.wellFormed, trimmed_refl w.wellFormed⟩
  | append_singleton done d ih =>
    rw [List.append_assoc, List.singleton_append] at eq
    have keeps : KeptByRemoving (fun h e => h = done.foldl cut g ∧ e = d)
        fun h => h.WellFormed ∧ Trimmed g gone h := by
      refine keptByRemoving_trimmed w.wellFormed fun h e f ask _ same => ?_
      obtain ⟨rfl, here⟩ := ask
      exact why e ⟨done, d, rest, eq, here ▸ same⟩
    rw [List.foldl_append]
    exact (ih eq).cut keeps.toKeptByCutting ⟨rfl, rfl⟩

theorem sameTree_foldl_cut (w : g.Lawful) (l : List Edge) : SameTree g (l.foldl cut g) := by
  induction l generalizing g with
  | nil => exact .refl g
  | cons e l ih => exact (sameTree_cut w.wellFormed e).trans (ih (lawful_cut w e))

theorem removeSelected_wires (g : Graph) (l : List Edge) :
    (removeSelected ⟨[], l⟩).apply g = (.ok (), l.foldl cut g) := by
  rw [removeSelected, Edit.apply_bind_ok (Edit.apply_change _ _)]
  rfl

/-- What is removed from a graph comes from there, also where wires and nodes are asked for that it
has no longer. -/
theorem trimmed_removeSelected (w : g.Lawful) (s : Selection) :
    Trimmed g (fun _ => True) ((removeSelected s).apply g).2 := by
  have start : LawfulWith (fun h => h.WellFormed ∧ Trimmed g (fun _ => True) h) g :=
    ⟨w, w.wellFormed, trimmed_refl w.wellFormed⟩
  exact (keeps_removeSelected (keptByRemoving_any w.wellFormed).removals s g start).holds.2

/-- The removal of a selection takes the selected nodes with all that is in them and no others. Of
the wires between the nodes that remain, it takes those that are struck and those of which an end
stands for a terminal that has no wire any more. Where the wires are selected from the outside
inwards, exactly the selected ones are struck. -/
theorem removed_exactly {g : Graph} (run : Grown g) {s : Selection} (apart : g.root ∉ s.nodes) :
    ∃ h, (removeSelected s).apply g = (.ok (), h) ∧
      (∀ n, (h.node? n).isSome ↔ (g.node? n).isSome ∧ ∀ m ∈ s.nodes, ¬ g.Inside n m) ∧
      (∀ d, h.Feeds d.output d.input → ∃ e, g.Feeds e.output e.input ∧ Kin g h e d) ∧
      ∀ e, g.Feeds e.output e.input →
        (h.node? e.output.node).isSome → (h.node? e.input.node).isSome →
        (Survives g h e ↔ ¬ s.Strikes g e ∧ Upheld g h e) ∧
        (s.Inwards g → (Survives g h e ↔ e ∉ s.edges ∧ Upheld g h e)) := by
  have w := (acyclic_of_grown run).lawful
  have wf := w.wellFormed
  let Doomed (n : NodeId) : Prop := ∃ m ∈ s.nodes, g.Inside n m
  let gone (e : Edge) : Prop := s.Strikes g e ∨ ∃ n, Doomed n ∧ e.touches n = true
  let I (h : Graph) : Prop := h.WellFormed ∧ Trimmed g gone h
  have cuts (done rest : List Edge) (eq : s.edges = done ++ rest) :
      LawfulWith I (done.foldl cut g) := trimmed_foldl_cut w (fun _ => .inl) eq
  have keeps : KeptByRemoving (fun _ e => ∃ n, Doomed n ∧ e.touches n = true) I := by
    refine keptByRemoving_trimmed wf fun h e d struck _ same => .inr ?_
    obtain ⟨n, doomed, touches⟩ := struck
    refine ⟨n, doomed, ?_⟩
    simpa only [Edge.touches, same.1.node, same.2.node] using touches
  obtain ⟨h, ok, wh, pruned⟩ := pruned_removeNodes keeps (fun _ x => x.2.root) apart
    (fun m hm n inside _ _ touches => ⟨n, ⟨m, hm, inside⟩, touches⟩)
    (cuts s.edges [] (List.append_nil _).symm) (sameTree_foldl_cut w s.edges).around
  have removed : (removeSelected s).apply g = (.ok (), h) := by
    rw [removeSelected, Edit.apply_bind_ok (Edit.apply_change _ _)]
    exact ok
  have trimmed := wh.holds.2
  have nodes (n : NodeId) : (h.node? n).isSome ↔
      (g.node? n).isSome ∧ ∀ m ∈ s.nodes, ¬ g.Inside n m :=
    pruned.isSome_node?_iff wf.tree wh.lawful.wellFormed.tree trimmed.root apart n
  -- a wire that was struck is gone, and with a wire its terminals are there
  have stays (e : Edge) (he : Survives g h e) : ¬ s.Strikes g e ∧ Upheld g h e := by
    constructor
    · rintro ⟨done, d, rest, eq, same⟩
      have before := cuts (done ++ [d]) rest (by simp [eq])
      have later : Trimmed ((done ++ [d]).foldl cut g) (fun _ => True) h := by
        have := trimmed_removeSelected before.lawful ⟨s.nodes, rest⟩
        rw [removeSelected, Edit.apply_bind_ok (Edit.apply_change _ _)] at this
        simp only [← List.foldl_append, List.append_assoc, List.singleton_append, ← eq] at this
        rw [ok] at this
        exact this
      have struck := he.before wf before.holds.2 later
      rw [List.foldl_append] at struck
      exact not_survives_cut (cuts done (d :: rest) eq).lawful.wellFormed same struck
    · exact he.upheld trimmed wh.lawful
  have exact_at (e : Edge) (he : g.Feeds e.output e.input) (output : (h.node? e.output.node).isSome)
      (input : (h.node? e.input.node).isSome) :
      Survives g h e ↔ ¬ s.Strikes g e ∧ Upheld g h e := by
    refine ⟨stays e, fun kept => ?_⟩
    obtain ⟨missed, upheld⟩ := kept
    rcases trimmed.lost e he with there | (struck | ⟨n, ⟨m, hm, inside⟩, touches⟩) |
      ⟨b, t, ends, hosts, lost⟩
    · exact there
    · exact absurd struck missed
    · simp only [Edge.touches, Bool.or_eq_true, beq_iff_eq] at touches
      rcases touches with rfl | rfl
      · exact absurd inside (((nodes _).1 output).2 m hm)
      · exact absurd inside (((nodes _).1 input).2 m hm)
    · exact absurd (upheld b t ends hosts) lost
  refine ⟨h, removed, nodes, trimmed.feeds,
    fun e he output input => ⟨exact_at e he output input, fun inwards => ?_⟩⟩
  rw [exact_at e he output input, strikes_iff_of_inwards w inwards he]

end Selected

/-- A network `n` with two input nodes that feed a relay each, and the second port of `n` is fed by
a relay outside. -/
def fedTwin : Graph :=
  let g := (Action.addNode ⟨2⟩ .networkInput "y" .standard).after inputRelay
  let g := (Action.addNode ⟨2⟩ relay "b" .standard).after g
  let g := (Action.connect ⟨⟨5⟩, 0⟩ ⟨⟨6⟩, 0⟩).after g
  let g := (Action.addNode ⟨1⟩ relay "s" .standard).after g
  (Action.connect ⟨⟨7⟩, 1⟩ ⟨⟨2⟩, 1⟩).after g

/-- The wire at the first input node of the network. -/
def fedTwin.inner : Edge := ⟨⟨⟨3⟩, 0⟩, ⟨⟨4⟩, 0⟩⟩

/-- The wire that leads to the second port of the network. -/
def fedTwin.outer : Edge := ⟨⟨⟨7⟩, 1⟩, ⟨⟨2⟩, 1⟩⟩

theorem grown_fedTwin : Grown fedTwin := by
  have input : NodeType.networkInput.Sound := NodeType.standard_networkInput.sound
  exact .step (.step (.step (.step (.step grown_inputRelay input) sound_relay) trivial) sound_relay)
    trivial

theorem fedTwin_shape :
    (fedTwin.node? ⟨7⟩).isSome ∧ fedTwin.wires ⟨1⟩ = [fedTwin.outer] ∧
      (fedTwin.around? ⟨2⟩, fedTwin.around? ⟨3⟩, fedTwin.around? ⟨4⟩) =
        (some ⟨1⟩, some ⟨2⟩, some ⟨2⟩) ∧
      (fedTwin.peer? ⟨⟨7⟩, 1⟩, fedTwin.peer? ⟨⟨2⟩, 1⟩) = (none, some ⟨⟨5⟩, 0⟩) := by
  cbv

/-- Without the inner wire the network has one port, and the second input node is still wired. -/
theorem fedTwin_cut :
    (cut fedTwin fedTwin.inner).attr? ⟨⟨2⟩, 1⟩ = none ∧
      ((cut fedTwin fedTwin.inner).cut fedTwin.outer).wires ⟨2⟩ = [⟨⟨⟨5⟩, 0⟩, ⟨⟨6⟩, 0⟩⟩] := by
  cbv

/-- The outer wire goes if it is selected first. After the inner one it stays, for by then the port
to which it leads has become the first. -/
theorem fedTwin_missed :
    (∃ h, (removeSelected ⟨[], [fedTwin.outer, fedTwin.inner]⟩).apply fedTwin = (.ok (), h) ∧
      ¬ Survives fedTwin h fedTwin.outer) ∧
    ∃ h, (removeSelected ⟨[], [fedTwin.inner, fedTwin.outer]⟩).apply fedTwin = (.ok (), h) ∧
      Survives fedTwin h fedTwin.outer := by
  obtain ⟨source, around₁, arounds, peers⟩ := fedTwin_shape
  simp only [Prod.mk.injEq] at arounds peers
  have fed : fedTwin.Feeds fedTwin.outer.output fedTwin.outer.input := ⟨⟨1⟩, by simp [around₁]⟩
  have tree := (acyclic_of_grown grown_fedTwin).lawful.wellFormed.tree
  have network : (fedTwin.node? ⟨2⟩).isSome :=
    (isSome_node?_iff tree ⟨2⟩).2 (.inr (by simp [arounds.1]))
  constructor
  · obtain ⟨h, ok, nodes, -, wires⟩ := removed_exactly grown_fedTwin
      (s := ⟨[], [fedTwin.outer, fedTwin.inner]⟩) (by simp)
    have inwards : Selection.Inwards ⟨[], [fedTwin.outer, fedTwin.inner]⟩ fedTwin := by
      refine List.pairwise_pair.2 fun m (hm : fedTwin.around? ⟨2⟩ = some m) => ?_
      obtain rfl : ⟨1⟩ = m := Option.some.inj (arounds.1.symm.trans hm)
      have outer := rank_lt tree arounds.1
      exact ⟨Nat.lt_trans outer (rank_lt tree arounds.2.1),
        Nat.lt_trans outer (rank_lt tree arounds.2.2)⟩
    refine ⟨h, ok, fun stays => ?_⟩
    have chosen := ((wires fedTwin.outer fed ((nodes _).2 ⟨source, by simp⟩)
      ((nodes _).2 ⟨network, by simp⟩)).2 inwards).1 stays
    simpa using chosen.1
  · obtain ⟨h, ok, nodes, -, wires⟩ := removed_exactly grown_fedTwin
      (s := ⟨[], [fedTwin.inner, fedTwin.outer]⟩) (by simp)
    refine ⟨h, ok, (wires fedTwin.outer fed ((nodes _).2 ⟨source, by simp⟩)
      ((nodes _).2 ⟨network, by simp⟩)).1.2 ⟨?_, ?_⟩⟩
    · rintro ⟨done, d, rest, eq, same⟩
      rcases done with _ | ⟨c, _ | ⟨c', done⟩⟩
      · obtain ⟨rfl, -⟩ := List.cons.inj eq
        exact absurd same.1.node (by decide)
      · simp only [List.cons_append, List.nil_append, List.cons.injEq] at eq
        obtain ⟨rfl, rfl, -⟩ := eq
        obtain ⟨a, -, named⟩ := same.2.name
        obtain ⟨port, there, -⟩ := Option.map_eq_some_iff.1 named
        exact absurd (fedTwin_cut.1.symm.trans there) (by simp)
      · simp at eq
    · intro b t ends hosts
      simp only [Edge.endsAt, Bool.or_eq_true, beq_iff_eq] at ends
      rcases ends with rfl | rfl
      · exact absurd (peers.1.symm.trans hosts.1) (by simp)
      · obtain rfl : ⟨⟨5⟩, 0⟩ = t := Option.some.inj (peers.2.symm.trans hosts.1)
        rw [removeSelected_wires, Prod.mk.injEq] at ok
        exact ⟨⟨⟨6⟩, 0⟩, .inl ⟨⟨2⟩, by simp [← ok.2, fedTwin_cut.2]⟩⟩

end Graph
end Dataflow
