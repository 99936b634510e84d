import Dataflow.Proofs.Flow
set_option autoImplicit false

/-!
Strict look-ups. Where a port is taken for granted, it is looked up without a check, and all ends
there and then if the port is missing. The strict operations say so: such a look-up comes to `none`,
and then the operation does. Main statements: in a well-formed graph no walk along the flow and no
spreading comes to `none`, whatever the live ports are from which it starts, and each comes to just
what it comes to where nothing is looked up strictly.
-/

namespace Dataflow

section Walk
variable {α : Type} [DecidableEq α]

/-- A walk in which each thing that it meets is looked up for what comes after it. -/
def strictWalk (next : α → Option (List α)) (free todo : List α) : Option (List α) :=
  match todo with
  | [] => some []
  | a :: rest => do
    let after ← next a
    if a ∈ free then
      let way ← strictWalk next (free.erase a) (after ++ rest)
      some (a :: way)
    else strictWalk next free rest
termination_by (free.length, todo.length)
decreasing_by
  · have : 0 < free.length := List.length_pos_of_mem ‹a ∈ free›
    simp_wf
    rw [List.length_erase_of_mem ‹a ∈ free›]
    exact Prod.Lex.left _ _ (by omega)
  · simp_wf
    exact Prod.Lex.right _ (by omega)

/-- A walk from things that are there meets such things only. -/
theorem strictWalk_eq {there : α → Prop} {strict : α → Option (List α)} {next : α → List α}
    (step : ∀ a, there a → strict a = some (next a) ∧ ∀ b ∈ next a, there b) (free todo : List α)
    (start : ∀ a ∈ todo, there a) : strictWalk strict free todo = some (walk next free todo) := by
  fun_induction walk next free todo with
  | case1 => rw [strictWalk]
  | case2 free a rest ha ih =>
    obtain ⟨eq, after⟩ := step a (start a (by simp))
    have more : ∀ b ∈ next a ++ rest, there b := by
      intro b hb
      rcases List.mem_append.1 hb with hb | hb
      · exact after b hb
      · exact start b (List.mem_cons_of_mem _ hb)
    rw [strictWalk, eq]
    simp [ha, ih more]
  | case3 free a rest ha ih =>
    rw [strictWalk, (step a (start a (by simp))).1]
    simp [ha, ih fun b hb => start b (List.mem_cons_of_mem _ hb)]

end Walk

/-- A loop of which each pass comes to something, on what is needed for it and the rest. -/
theorem foldlM_eq_some {σ β : Type} {strict : σ → β → Option σ} {f : σ → β → σ}
    (I : List β → σ → Prop)
    (pass : ∀ b l s, I (b :: l) s → strict s b = some (f s b) ∧ I l (f s b)) (l : List β) (s : σ)
    (start : I l s) : l.foldlM strict s = some (l.foldl f s) := by
  induction l generalizing s with
  | nil => rfl
  | cons b l ih =>
    obtain ⟨eq, rest⟩ := pass b l s start
    rw [List.foldlM_cons, eq]
    exact ih _ rest

theorem mapM_eq_some {α β : Type} {strict : α → Option β} {f : α → β} {l : List α}
    (h : ∀ a ∈ l, strict a = some (f a)) : l.mapM strict = some (l.map f) := by
  induction l with
  | nil => rfl
  | cons a l ih =>
    rw [List.mapM_cons, h a (by simp), ih fun b hb => h b (List.mem_cons_of_mem _ hb)]
    rfl

theorem mapM_eq_filterMap {α β : Type} {f : α → Option β} {l : List α}
    (h : ∀ a ∈ l, (f a).isSome) : l.mapM f = some (l.filterMap f) := by
  induction l with
  | nil => rfl
  | cons a l ih =>
    obtain ⟨b, hb⟩ := Option.isSome_iff_exists.1 (h a (by simp))
    rw [List.mapM_cons, hb, ih fun c hc => h c (List.mem_cons_of_mem _ hc),
      List.filterMap_cons_some hb]
    rfl

namespace Graph

/-- The port is there. -/
def Live (g : Graph) (p : Port) : Prop := (g.slot? p).isSome

section Live
variable {g h : Graph} {p q : Port}

theorem live_iff : g.Live p ↔ (g.direction? p).isSome := by
  simp [Live, direction?]

theorem SameFrame.live (a : SameFrame g h) : h.Live = g.Live := by
  funext p
  rw [live_iff, live_iff, a.direction]

theorem live_of_direction? {d : Direction} (hd : g.direction? p = some d) : g.Live p := by
  rw [live_iff, hd]
  rfl

theorem Live.slot (hp : g.Live p) : ∃ s, g.slot? p = some s := Option.isSome_iff_exists.1 hp

theorem Live.node (hp : g.Live p) :
    ∃ m s, g.node? p.node = some m ∧ m.ports.get? p.index = some s ∧ g.slot? p = some s := by
  obtain ⟨s, hs⟩ := hp.slot
  obtain ⟨m, hm, hms⟩ := Option.bind_eq_some_iff.1 hs
  exact ⟨m, s, hm, hms, hs⟩

theorem live_of_terminal? (ht : (g.terminal? p).isSome) : g.Live p := by
  rw [live_iff]
  cases hd : g.direction? p with
  | none => simp [terminal?_eq, hd] at ht
  | some d => rfl

theorem live_of_peer? (w : g.WellFormed) (h : g.peer? p = some q) : g.Live q := by
  rw [Live, isSome_slot?]
  exact isSome_attr?_of_peer? g (w.linked.back p q h)

theorem live_of_mem_sinks (w : g.WellFormed) (h : q ∈ g.sinks p) : g.Live q := by
  obtain ⟨n, he⟩ := (mem_sinks_iff w.wired p q).1 h
  exact live_of_direction? (w.wired.input n _ he)

theorem live_of_source? (w : g.WellFormed) (h : g.source? p = some q) : g.Live q := by
  obtain ⟨n, he⟩ := (source?_eq_some_iff w.wired q p).1 h
  exact live_of_direction? (w.wired.output n _ he)

theorem live_of_mem_wiresAround (w : g.WellFormed) {n : NodeId} {e : Edge}
    (he : e ∈ g.wiresAround n) (hp : e.endsAt p = true) : g.Live p := by
  rw [wiresAround_eq] at he
  cases ha : g.around? n with
  | none => simp [ha] at he
  | some k =>
    rw [ha, Option.elim_some] at he
    simp only [Edge.endsAt, Bool.or_eq_true, beq_iff_eq] at hp
    rcases hp with rfl | rfl
    · exact live_of_direction? (w.wired.output k e he)
    · exact live_of_direction? (w.wired.input k e he)

theorem live_of_mem_successors (w : g.WellFormed) (h : q ∈ g.successors p) : g.Live q :=
  live_iff.2 (((mem_successors_iff w p q).1 h).isSome_right w)

theorem live_of_mem_typeSources (w : g.WellFormed) (h : q ∈ g.typeSources p) : g.Live q := by
  rw [typeSources] at h
  split at h
  · next s hs =>
    split at h
    · cases h
    · exact live_of_source? w (Option.mem_toList.1 h)
    · rcases List.mem_append.1 h with h | h
      · refine live_of_peer? w (p := p) ?_
        simp [peer?, hs, Option.mem_toList.1 h]
      · exact live_of_mem_sinks w h
  · cases h

end Live

namespace Strict

/-- What comes of changing a port. -/
def touch (g : Graph) (p : Port) (changed : Graph) : Option Graph := do
  let _ ← g.slot? p
  some changed

theorem touch_eq {g : Graph} {p : Port} (hp : g.Live p) (changed : Graph) :
    touch g p changed = some changed := by
  obtain ⟨s, hs⟩ := hp.slot
  simp [touch, hs]

/-- A result or an error, if nothing was missing that was looked up strictly. -/
abbrev Check (α : Type) := ExceptT Error Option α

/-- Nothing was missing. -/
def sure {α : Type} (r : Except Error α) : Check α := ExceptT.mk (some r)

section Check
variable {α β : Type}

theorem sure_bind {x : Check α} {y : Except Error α} {f : α → Check β} {f' : α → Except Error β}
    (first : x = sure y) (rest : ∀ a, y = .ok a → f a = sure (f' a)) :
    x >>= f = sure (y >>= f') := by
  subst first
  cases y with
  | error e => rfl
  | ok a => exact rest a rfl

/-- A strict look-up that comes to something. -/
theorem sure_look {x : Option α} {a : α} {f : α → Check β} {y : Except Error β} (first : x = some a)
    (rest : f a = sure y) : (liftM x : Check α) >>= f = sure y := by
  subst first
  exact rest

theorem sure_ite {c : Prop} [Decidable c] {x x' : Check α} {y y' : Except Error α}
    (hx : c → x = sure y) (hy : ¬ c → x' = sure y') :
    (if c then x else x') = sure (if c then y else y') := by
  by_cases h : c
  · rw [if_pos h, if_pos h, hx h]
  · rw [if_neg h, if_neg h, hy h]

theorem sure_mapM {f : α → Check β} {f' : α → Except Error β} {l : List α}
    (h : ∀ a ∈ l, f a = sure (f' a)) : l.mapM f = sure (l.mapM f') := by
  induction l with
  | nil => rfl
  | cons a l ih =>
    rw [List.mapM_cons, List.mapM_cons]
    refine sure_bind (h a (by simp)) fun b _ => ?_
    exact sure_bind (ih fun c hc => h c (List.mem_cons_of_mem _ hc)) fun _ _ => rfl

end Check

def successors (g : Graph) (p : Port) : Option (List Port) := do
  let m ← g.node? p.node
  let s ← m.ports.get? p.index
  match s.attr.direction with
  | .input => some ((m.ports.outputsOf p.index).map (Port.mk p.node) ++ s.peer.toList)
  | .output => some (g.sinks p)

def predecessors (g : Graph) (p : Port) : Option (List Port) := do
  let m ← g.node? p.node
  let s ← m.ports.get? p.index
  match s.attr.direction with
  | .input => some (g.source? p).toList
  | .output => match s.peer with
    | some q => some [q]
    | none => some ((m.ports.inputsOf p.index).map (Port.mk p.node))

def leadsTo (g : Graph) (p target : Port) : Option Bool := do
  let way ← strictWalk (successors g) g.ports [p]
  some (way.contains target)

def typeSources (g : Graph) (p : Port) : Option (List Port) := do
  let s ← g.slot? p
  match s.attr.type, s.attr.direction with
  | some _, _ => some []
  | none, .input => some (g.source? p).toList
  | none, .output => some (s.peer.toList ++ g.sinks p)

def effectiveType (g : Graph) (p : Port) : Option PortType := do
  let way ← strictWalk (typeSources g) g.ports [p]
  some (way.findSome? g.declaredType)

def spread (g : Graph) (starts : List Port) : Option Graph := do
  let way ← strictWalk (successors g) g.currentPorts starts
  way.foldlM (fun h p => touch h p (h.setStale p)) g

section Look
variable {g : Graph} {p : Port}

theorem successors_eq (hp : g.Live p) : successors g p = some (g.successors p) := by
  obtain ⟨m, s, hm, hs, -⟩ := hp.node
  simp only [successors, Graph.successors, hm, hs, Option.bind_eq_bind, Option.bind_some]
  cases s.attr.direction <;> rfl

theorem predecessors_eq (hp : g.Live p) : predecessors g p = some (g.predecessors p) := by
  obtain ⟨m, s, hm, hs, -⟩ := hp.node
  simp only [predecessors, Graph.predecessors, hm, hs, Option.bind_eq_bind, Option.bind_some]
  cases s.attr.direction with
  | input => rfl
  | output => cases s.peer <;> rfl

theorem typeSources_eq (hp : g.Live p) : typeSources g p = some (g.typeSources p) := by
  obtain ⟨s, hs⟩ := hp.slot
  simp only [typeSources, Graph.typeSources, hs, Option.bind_eq_bind, Option.bind_some]
  cases s.attr.type with
  | some t => rfl
  | none => cases s.attr.direction <;> rfl

variable (w : g.WellFormed)
include w

theorem strictWalk_successors_eq (free : List Port) {starts : List Port}
    (hs : ∀ q ∈ starts, g.Live q) :
    strictWalk (successors g) free starts = some (walk g.successors free starts) :=
  strictWalk_eq (fun _ hp => ⟨successors_eq hp, fun _ => live_of_mem_successors w⟩) free starts hs

theorem leadsTo_eq (hp : g.Live p) (target : Port) :
    leadsTo g p target = some (g.leadsTo p target) := by
  rw [leadsTo, strictWalk_successors_eq w _ (by simpa using hp)]
  rfl

theorem effectiveType_eq (hp : g.Live p) :
    effectiveType g p = some (g.effectiveType p) := by
  have step (q : Port) (hq : g.Live q) :
      typeSources g q = some (g.typeSources q) ∧ ∀ r ∈ g.typeSources q, g.Live r :=
    ⟨typeSources_eq hq, fun _ => live_of_mem_typeSources w⟩
  rw [effectiveType, strictWalk_eq step _ _ (by simpa using hp)]
  rfl

theorem spread_eq {starts : List Port} (hs : ∀ q ∈ starts, g.Live q) :
    spread g starts = some (g.spread starts) := by
  rw [spread, strictWalk_successors_eq w _ hs]
  refine foldlM_eq_some (fun l h => ∀ p ∈ l, h.Live p) ?pass _ _ ?start
  case pass =>
    intro p l h live
    refine ⟨touch_eq (live p (by simp)) _, fun q hq => ?_⟩
    rw [(h.sameFrame_setStale p).live]
    exact live q (List.mem_cons_of_mem _ hq)
  case start =>
    intro p hp
    have free := mem_free_of_mem_walk _ _ _ _ hp
    exact live_iff.2 ((mem_currentPorts_iff w.tree p).1 free).1

end Look

end Strict
end Graph
end Dataflow
