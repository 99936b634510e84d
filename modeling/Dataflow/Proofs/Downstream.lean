import Dataflow.Proofs.Cycles
import Dataflow.Proofs.Outcome
import Dataflow.Proofs.Propagation
import Dataflow.Proofs.Typing
set_option autoImplicit false

/-!
What a new value at an input does to the rest of the graph. Marking is followed call by call, each
port going on to its own successors before the next one is looked at. Main statements: the calls come
to an end, however deep they may go, with the graph that `spread` gives at once, and after a new value
the ports that are out of date are those that were and all that lies downstream.
-/

namespace Dataflow

section Walk
variable {α : Type} [DecidableEq α] (next : α → List α)

/-- The order in which the free things are listed does not matter. -/
theorem walk_perm {free free' : List α} (same : free.Perm free') (todo : List α) :
    walk next free todo = walk next free' todo := by
  fun_induction walk next free todo generalizing free' with
  | case1 free => rw [walk]
  | case2 free a rest ha ih =>
    rw [walk, if_pos (same.mem_iff.1 ha), ih (same.erase a)]
  | case3 free a rest ha ih =>
    rw [walk, if_neg fun h => ha (same.mem_iff.2 h), ih same]

/-- Two lists in a row are walked one after the other, the second among what is then left. -/
theorem walk_append (free l₁ l₂ : List α) : walk next free (l₁ ++ l₂) =
    walk next free l₁ ++ walk next (free.diff (walk next free l₁)) l₂ := by
  fun_induction walk next free l₁ with
  | case1 free => simp
  | case2 free a rest ha ih =>
    rw [List.cons_append, walk, if_pos ha, ← List.append_assoc, ih, List.cons_append, List.diff_cons]
  | case3 free a rest ha ih =>
    rw [List.cons_append, walk, if_neg ha, ih]

omit [DecidableEq α] in
theorem reflTransGen_of_along {a b : α} (h : Along next a b) :
    Relation.ReflTransGen (fun a b => b ∈ next a) a b := by
  induction h with
  | here => exact .refl
  | step hb _ ih => exact .head hb ih

end Walk

namespace Graph

theorem successors_eq_frame (g : Graph) (p : Port) : g.successors p =
    match g.type? p.node, g.direction? p with
    | some t, some .input => (t.ports.outputsOf p.index).map (Port.mk p.node) ++ (g.peer? p).toList
    | some _, some .output => g.sinks p
    | _, _ => [] := by
  simp only [successors, type?, direction?, peer?, slot?, Option.bind_eq_bind]
  cases g.node? p.node with
  | none => rfl
  | some m =>
    simp only [Option.map_some, Option.bind_some, Node.type]
    cases m.ports.get? p.index with
    | none => rfl
    | some s =>
      simp only [Option.map_some, Option.bind_some]
      cases s.attr.direction <;> rfl

theorem SameFrame.successors {g h : Graph} (a : SameFrame g h) : h.successors = g.successors := by
  funext p
  simp only [successors_eq_frame, a.type, a.direction, a.peer, a.sinks]

/-! ### Marking call by call -/

/-- Marks a port and then what follows on it, unless it is marked. The calls go at most so many
levels deep. -/
def markWithin : Nat → Graph → Port → Option Graph
  | 0, _, _ => none
  | levels + 1, g, p =>
    if g.isStale p then some g
    else ((g.setStale p).successors p).foldlM (markWithin levels) (g.setStale p)

section Marking
variable {g : Graph}

theorem currentPorts_foldl_setStale (w : g.WellFormed) (l : List Port) :
    (l.foldl setStale g).currentPorts.Perm (g.currentPorts.diff l) := by
  have frame := g.sameFrame_foldl_setStale l
  have w' := (frame.wellFormed w).tree
  have nodup : g.currentPorts.Nodup := nodup_portsWhere w.tree _
  have nodup' : (l.foldl setStale g).currentPorts.Nodup := nodup_portsWhere w' _
  refine (List.perm_ext_iff_of_nodup nodup' nodup.diff).2 fun q => ?_
  rw [nodup.mem_sdiff_iff, mem_currentPorts_iff w', mem_currentPorts_iff w.tree, frame.direction,
    isStale_foldl_setStale, direction?, Option.isSome_map]
  cases g.isStale q <;> cases g.slot? q <;> simp

theorem spread_append (w : g.WellFormed) (l₁ l₂ : List Port) :
    g.spread (l₁ ++ l₂) = (g.spread l₁).spread l₂ := by
  have free := currentPorts_foldl_setStale w (walk g.successors g.currentPorts l₁)
  rw [spread, walk_append, List.foldl_append, spread, spread, ← spread,
    (g.sameFrame_spread l₁).successors]
  rw [← walk_perm g.successors free]
  rfl

theorem spread_cons_of_stale (w : g.WellFormed) {p : Port} (hp : g.isStale p = true)
    (rest : List Port) : g.spread (p :: rest) = g.spread rest := by
  have taken : p ∉ g.currentPorts := by simp [mem_currentPorts_iff w.tree, hp]
  rw [spread, walk, if_neg taken, spread]

theorem spread_cons_of_current (w : g.WellFormed) {p : Port} (live : (g.direction? p).isSome)
    (hp : g.isStale p = false) (rest : List Port) :
    g.spread (p :: rest) = ((g.setStale p).spread ((g.setStale p).successors p)).spread rest := by
  have frame := g.sameFrame_setStale p
  have free := currentPorts_foldl_setStale w [p]
  have here : p ∈ g.currentPorts := (mem_currentPorts_iff w.tree p).2 ⟨live, hp⟩
  rw [← spread_append (frame.wellFormed w), frame.successors, spread, walk, if_pos here,
    List.foldl_cons, spread, frame.successors]
  rw [List.diff_cons, List.diff_nil] at free
  rw [← walk_perm g.successors free]
  rfl

theorem length_currentPorts_spread (w : g.WellFormed) (l : List Port) :
    (g.spread l).currentPorts.length ≤ g.currentPorts.length := by
  have free := currentPorts_foldl_setStale w (walk g.successors g.currentPorts l)
  exact free.length_eq ▸ (List.diff_sublist _ _).length_le

theorem length_currentPorts_setStale (w : g.WellFormed) {p : Port}
    (live : (g.direction? p).isSome) (hp : g.isStale p = false) :
    (g.setStale p).currentPorts.length < g.currentPorts.length := by
  have free := currentPorts_foldl_setStale w [p]
  have here : p ∈ g.currentPorts := (mem_currentPorts_iff w.tree p).2 ⟨live, hp⟩
  have length := free.length_eq
  rw [List.diff_cons, List.diff_nil, List.length_erase_of_mem here] at length
  have : 0 < g.currentPorts.length := List.length_pos_of_mem here
  change (g.setStale p).currentPorts.length = _ at length
  omega

/-- Each call that goes deeper has marked one more port. Calls deeper than there are ports up to date
are never made. -/
theorem foldlM_markWithin (levels : Nat) (w : g.WellFormed) (todo : List Port)
    (live : ∀ p ∈ todo, (g.direction? p).isSome) (room : g.currentPorts.length < levels) :
    todo.foldlM (markWithin levels) g = some (g.spread todo) := by
  induction levels generalizing g todo with
  | zero => omega
  | succ levels deeper =>
    induction todo generalizing g with
    | nil => simp [spread, walk]
    | cons p rest later =>
      have live_p := live p List.mem_cons_self
      have live_rest q (hq : q ∈ rest) := live q (List.mem_cons_of_mem p hq)
      rw [List.foldlM_cons, markWithin]
      cases hp : g.isStale p with
      | true =>
        rw [if_pos rfl, spread_cons_of_stale w hp]
        exact later w live_rest room
      | false =>
        have frame := g.sameFrame_setStale p
        have w₁ := frame.wellFormed w
        have fewer := length_currentPorts_setStale w live_p hp
        have below : ∀ q ∈ (g.setStale p).successors p, ((g.setStale p).direction? q).isSome :=
          fun q hq => ((mem_successors_iff w₁ p q).1 hq).isSome_right w₁
        have frame₂ := frame.trans ((g.setStale p).sameFrame_spread ((g.setStale p).successors p))
        have left := length_currentPorts_spread w₁ ((g.setStale p).successors p)
        rw [if_neg (by simp), deeper w₁ _ below (by omega), spread_cons_of_current w live_p hp]
        refine later (frame₂.wellFormed w) (fun q hq => ?_) (by omega)
        rw [frame₂.direction]
        exact live_rest q hq

/-- What is told of ports that are marked one after the other, the latest first. -/
def markings (l : List Port) : List Entry :=
  l.reverse.flatMap fun p => [.event .graphDirtied, .event (.flagsChanged p)]

theorem journal_foldl_setStale (l : List Port) :
    (l.foldl setStale g).journal = markings l ++ g.journal := by
  induction l generalizing g with
  | nil => rfl
  | cons p l ih =>
    rw [List.foldl_cons, ih]
    simp [markings, setStale, emit, modifySlot, modifyNode]

theorem count_markings (l : List Port) (q : Port) :
    (markings l).count (.event (.flagsChanged q)) = l.count q := by
  induction l with
  | nil => rfl
  | cons p l ih =>
    have one : markings (p :: l) = markings l ++ markings [p] := by simp [markings]
    rw [one, List.count_append, ih]
    by_cases hq : p = q <;> simp [markings, hq]

end Marking

/-! ### A new value -/

/-- The new value is stored, and counts as up to date. Nothing else has been looked at yet. -/
def supply (g : Graph) (p : Port) (v : Value) : Graph :=
  if g.isStale p then (g.hold p v).setCurrent p else g.hold p v

/-- `q` lies downstream of `p`, by one step or more. -/
abbrev Downstream (g : Graph) : Port → Port → Prop :=
  Relation.TransGen fun a b => b ∈ g.successors a

/-- What has become of `g` with the new value `v` at `p`. -/
structure Supplied (p : Port) (v : Value) (g h : Graph) : Prop where
  current : h.isStale p = false
  held : h.held p = (v.stamp g.marks).1
  stale : ∀ q, h.isStale q = true ↔ g.isStale q = true ∧ q ≠ p ∨ g.Downstream p q
  others : ∀ q, q ≠ p → h.held q = g.held q
  frame : SameFrame g h
  told : ∃ news, h.journal = news ++ g.journal ∧
    ∀ q, news.count (.event (.flagsChanged q)) = if h.isStale q = g.isStale q then 0 else 1
  /-- The calls that mark what lies downstream come to an end by themselves. -/
  ends : ∀ levels, (g.supply p v).currentPorts.length < levels →
    ((g.supply p v).successors p).foldlM (markWithin levels) (g.supply p v) = some h

section Supply
variable {g h : Graph} {p : Port} {v : Value}

theorem sameFrame_supply (g : Graph) (p : Port) (v : Value) : SameFrame g (g.supply p v) := by
  rw [supply]
  split
  · exact (g.sameFrame_hold p v).trans (sameFrame_setCurrent _ p)
  · exact g.sameFrame_hold p v

theorem isStale_supply (g : Graph) (p : Port) (v : Value) (q : Port) :
    (g.supply p v).isStale q = if p = q then false else g.isStale q := by
  rw [supply]
  split
  · rw [isStale_setCurrent, isStale_hold]
  · next hp =>
    rw [isStale_hold]
    split
    · next hq => rw [← hq, Bool.eq_false_of_not_eq_true hp]
    · rfl

theorem held_supply (g : Graph) (p : Port) (v : Value) (q : Port) :
    (g.supply p v).held q = (g.hold p v).held q := by
  rw [supply]
  split
  · rw [held_setCurrent]
  · rfl

theorem journal_supply (g : Graph) (p : Port) (v : Value) : (g.supply p v).journal =
    (if g.isStale p then [.event (.flagsChanged p)] else []) ++ .event (.valueChanged p) ::
      g.journal := by
  rw [supply]
  split <;> rfl

theorem replace_eq_supply {s : Slot} (hs : g.slot? p = some s) :
    g.replace p s v = (g.supply p v).spread ((g.supply p v).successors p) := by
  have stale : g.isStale p = s.stale := by rw [isStale, hs]; rfl
  rw [replace, supply, stale]

/-- Nothing flows into an input without a wire. -/
theorem not_downstream (w : g.WellFormed) (hd : g.direction? p = some .input)
    (free : g.source? p = none) (q : Port) : ¬ g.Downstream q p := by
  intro reach
  obtain ⟨b, -, step⟩ := Relation.TransGen.tail'_iff.1 reach
  have wire := (flows_input_iff w hd).1 ((mem_successors_iff w b p).1 step)
  rw [wire] at free
  cases free

/-- What is out of date after a new value was so before, or it lies downstream. -/
theorem downstream_of_replace {s : Slot} (w : g.WellFormed) (hs : g.slot? p = some s) {q : Port}
    (hq : (g.replace p s v).isStale q = true) : g.isStale q = true ∧ q ≠ p ∨ g.Downstream p q := by
  have first := g.sameFrame_supply p v
  rw [replace_eq_supply hs] at hq
  rcases (isStale_spread_iff (first.wellFormed w).tree _ q).1 hq with hq | hq
  · rw [isStale_supply] at hq
    split at hq
    · cases hq
    · next hne => exact .inl ⟨hq, Ne.symm hne⟩
  · obtain ⟨a, ha, along⟩ := along_of_mem_walk _ _ _ _ hq
    rw [first.successors] at ha along
    exact .inr (.head' ha (reflTransGen_of_along _ along))

/-- Nothing is missed, for what was out of date has all that lies downstream of it out of date as
well. -/
theorem isStale_replace_iff {s : Slot} (w : g.WellFormed) (closed : g.Propagated)
    (ok : g.checkAssign p v = .ok s) (q : Port) : (g.replace p s v).isStale q = true ↔
      g.isStale q = true ∧ q ≠ p ∨ g.Downstream p q := by
  have hs := slot_of_checkAssign ok
  refine ⟨downstream_of_replace w hs, ?_⟩
  have after := closed_replace w ok ((propagated_iff w).1 closed)
  have frame := g.sameFrame_replace p s v
  have first := g.sameFrame_supply p v
  rw [replace_eq_supply hs] at after frame ⊢
  have w₁ := first.wellFormed w
  rintro (⟨hq, hne⟩ | reach)
  · refine isStale_spread_of_isStale _ _ _ ?_
    rw [isStale_supply, if_neg (Ne.symm hne), hq]
  · -- what is marked is closed under one more step
    induction reach with
    | single step =>
      rw [← first.successors] at step
      have live := ((mem_successors_iff w₁ _ _).1 step).isSome_right w₁
      exact isStale_spread_of_mem w₁.tree _ _ step live
    | tail _ step ih =>
      rw [← frame.successors] at step
      exact after.flow ((mem_successors_iff (frame.wellFormed w) _ _).1 step) ih

/-- The input itself is up to date, with the new value. -/
theorem replace_self {s : Slot} (w : g.WellFormed) (ok : g.checkAssign p v = .ok s) :
    (g.replace p s v).isStale p = false ∧ (g.replace p s v).held p = (v.stamp g.marks).1 := by
  obtain ⟨hd, free⟩ := free_of_checkAssign ok
  have hs := slot_of_checkAssign ok
  constructor
  · rw [← Bool.not_eq_true]
    intro stale
    rcases downstream_of_replace w hs stale with ⟨-, hne⟩ | reach
    · exact hne rfl
    · exact not_downstream w hd free p reach
  · rw [replace_eq_supply hs, held_spread, held_supply]
    exact (held_put g p p v).trans (if_pos ⟨rfl, by rw [hs]; rfl⟩)

/-- Each port that has changed sides has been told of once, and no other. -/
theorem told_replace {s : Slot} (w : g.WellFormed) (hs : g.slot? p = some s)
    (current : (g.replace p s v).isStale p = false) :
    ∃ news, (g.replace p s v).journal = news ++ g.journal ∧
      ∀ q, news.count (.event (.flagsChanged q)) =
        if (g.replace p s v).isStale q = g.isStale q then 0 else 1 := by
  have w₁ := (g.sameFrame_supply p v).wellFormed w
  rw [replace_eq_supply hs] at current ⊢
  have marked := isStale_spread_iff w₁.tree ((g.supply p v).successors p)
  have nodup := nodup_walk (g.supply p v).successors (g.supply p v).currentPorts
    ((g.supply p v).successors p) (nodup_portsWhere w₁.tree _)
  have free q (hq : q ∈ walk (g.supply p v).successors (g.supply p v).currentPorts
      ((g.supply p v).successors p)) : (g.supply p v).isStale q = false :=
    ((mem_currentPorts_iff w₁.tree q).1 (mem_free_of_mem_walk _ _ _ q hq)).2
  rw [spread, journal_foldl_setStale, journal_supply, ← spread]
  generalize walk (g.supply p v).successors _ _ = way at *
  refine ⟨markings way ++ ((if g.isStale p then [.event (.flagsChanged p)] else []) ++
    [.event (.valueChanged p)]), by simp, fun q => ?_⟩
  rw [List.count_append, count_markings, nodup.count]
  by_cases hq : q = p
  · subst hq
    have out : q ∉ way := fun h => by simp [(marked q).2 (.inr h)] at current
    rw [current, if_neg out]
    cases g.isStale q <;> simp
  · have before : (g.supply p v).isStale q = g.isStale q := by
      rw [isStale_supply, if_neg (Ne.symm hq)]
    have rest : ((if g.isStale p then [Entry.event (.flagsChanged p)] else []) ++
        [Entry.event (.valueChanged p)]).count (Entry.event (.flagsChanged q)) = 0 := by
      cases g.isStale p <;> simp [Ne.symm hq]
    rw [rest]
    split
    · next member =>
      have clean := free q member
      rw [before] at clean
      rw [(marked q).2 (.inr member), clean]
      rfl
    · next out =>
      have same : ((g.supply p v).spread ((g.supply p v).successors p)).isStale q = g.isStale q := by
        rw [Bool.eq_iff_iff, marked, before]
        exact or_iff_left out
      rw [if_pos same]

theorem supplied_replace {s : Slot} (w : g.WellFormed) (closed : g.Propagated)
    (ok : g.checkAssign p v = .ok s) : Supplied p v g (g.replace p s v) := by
  have hs := slot_of_checkAssign ok
  have w₁ := (g.sameFrame_supply p v).wellFormed w
  obtain ⟨current, held⟩ := replace_self w ok
  constructor
  case current => exact current
  case held => exact held
  case stale => exact isStale_replace_iff w closed ok
  case others =>
    intro q hq
    rw [replace_eq_supply hs, held_spread, held_supply]
    exact (held_put g p q v).trans (if_neg fun h => hq h.1.symm)
  case frame => exact g.sameFrame_replace p s v
  case told => exact told_replace w hs current
  case ends =>
    intro levels room
    rw [replace_eq_supply hs]
    refine foldlM_markWithin levels w₁ _ (fun q hq => ?_) room
    exact ((mem_successors_iff w₁ p q).1 hq).isSome_right w₁

/-- A value that an input holds already, and up to date, changes nothing, and nothing is told. Any
other value is stored. The ports out of date are then those that were and all that lies downstream,
each port that has become so is told of once, and marking ends however the ports are wired. -/
theorem assign_downstream (w : g.WellFormed) (closed : g.Propagated) (ok : g.assign p v = .ok h) :
    g.isStale p = false ∧ (g.held p).agrees v = true ∧ h = g ∨
      ¬ (g.isStale p = false ∧ (g.held p).agrees v = true) ∧ Supplied p v g h := by
  simp only [assign, bind, Except.bind] at ok
  cases checked : g.checkAssign p v with
  | error x => simp [checked] at ok
  | ok s =>
    have hs := slot_of_checkAssign checked
    have before : g.isStale p = s.stale ∧ g.held p = s.held := by simp [isStale, held, hs]
    simp only [checked] at ok
    rw [before.1, before.2]
    split at ok
    · next same =>
      cases ok
      exact .inl (by simpa using same)
    · next other =>
      cases ok
      exact .inr ⟨by simpa using other, supplied_replace w closed checked⟩

end Supply

/-- A relay whose output has been read. -/
def readRelay : Graph := (Action.read ⟨⟨2⟩, 1⟩).after oneRelay

theorem timelyRun_oneRelay : TimelyRun oneRelay :=
  .step (.start ..) ⟨.of_name sound_relay (by decide) (by decide) (by decide), nofun⟩

theorem backed_oneRelay : oneRelay.Backed := by
  intro q t ht _ _ computed
  -- neither the root nor the relay computes
  have known : (oneRelay.nodes.keys, (oneRelay.type? ⟨1⟩).bind NodeType.compute,
      (oneRelay.type? ⟨2⟩).bind NodeType.compute) = ([⟨1⟩, ⟨2⟩], none, none) := by rfl
  simp only [Prod.mk.injEq] at known
  obtain ⟨keys, root, node⟩ := known
  have live := (isSome_type?_iff oneRelay q.node).1 (by simp [ht])
  rw [keys] at live
  simp only [List.mem_cons, List.not_mem_nil, or_false] at live
  rcases live with hn | hn <;> simp_all

theorem standardRun_readRelay : StandardRun readRelay :=
  .step (timelyRun_oneRelay.mono fun _ _ h => h.1) trivial

theorem propagated_readRelay : readRelay.Propagated := by
  have exact_at := propagated_iff_timely (timelyRun_oneRelay.mono fun _ _ h => h.1)
  obtain ⟨keep, timely⟩ := exact_at.2.1 (.read ⟨⟨2⟩, 1⟩) trivial (exact_at.1 timelyRun_oneRelay)
  exact keep.2 (timely backed_oneRelay)

/-- The output of the relay was up to date, and what it was made from has changed. -/
theorem readRelay_assign : ∃ h, readRelay.assign ⟨⟨2⟩, 0⟩ (.fresh (.int 5)) = .ok h ∧
    readRelay.Propagated ∧ Supplied ⟨⟨2⟩, 0⟩ (.fresh (.int 5)) readRelay h ∧
    readRelay.isStale ⟨⟨2⟩, 1⟩ = false ∧ h.isStale ⟨⟨2⟩, 1⟩ = true := by
  have w := (standard_of_run standardRun_readRelay).lawful.wellFormed
  have known : ((readRelay.assign ⟨⟨2⟩, 0⟩ (.fresh (.int 5))).isOk,
      (readRelay.held ⟨⟨2⟩, 0⟩).agrees (.fresh (.int 5)), readRelay.isStale ⟨⟨2⟩, 1⟩,
      readRelay.successors ⟨⟨2⟩, 0⟩) = (true, false, false, [⟨⟨2⟩, 1⟩]) := by cbv
  simp only [Prod.mk.injEq] at known
  obtain ⟨accepted, other, clean, next⟩ := known
  cases ok : readRelay.assign ⟨⟨2⟩, 0⟩ (.fresh (.int 5)) with
  | error x => simp [ok, Except.isOk, Except.toBool] at accepted
  | ok h =>
    rcases assign_downstream w propagated_readRelay ok with ⟨-, same, -⟩ | ⟨-, supplied⟩
    · simp [other] at same
    · refine ⟨h, rfl, propagated_readRelay, supplied, clean, (supplied.stale _).2 (.inr ?_)⟩
      exact .single (by simp [next])

end Graph
end Dataflow
