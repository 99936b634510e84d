import Dataflow.Proofs.Watched
set_option autoImplicit false

/-!
What changes tell of themselves. Main statement: where each change of a flag or of a status is one and
is told of at once, and each store later on, the events give back all changes of flags, come where the
flags and the statuses change and nowhere else, and come after the last store to each port.
-/

namespace Dataflow

def Entry.event? : Entry → Option Event
  | .event e => some e
  | .computing _ => none

def Change.event? : Change → Option Event
  | .tell e => some e
  | _ => none

namespace Graph

def status? (g : Graph) (n : NodeId) : Option Status := (g.node? n).map Node.status

/-- All events so far, in the order in which they came. -/
def events (g : Graph) : List Event := (g.journal.filterMap Entry.event?).reverse

/-- The events among the changes. -/
def news (l : List Change) : List Event := l.filterMap Change.event?

/-- The flag of `p` after an event, if just that event tells of its changes. -/
def toggled (p : Port) (b : Bool) (e : Event) : Bool := if e = .flagsChanged p then !b else b

/-- Right after each change of what is observed comes the event, and nowhere else. -/
structure AtOnce {β : Type} (observed : Graph → β) (e : Event) (g : Graph) (l : List Change) :
    Prop where
  told : ∀ before c rest, l = before ++ c :: rest →
    observed ((g.play before).after c) ≠ observed (g.play before) → ∃ rest', rest = .tell e :: rest'
  only : ∀ before rest, l = before ++ .tell e :: rest → ∃ before' c, before = before' ++ [c] ∧
    observed ((g.play before').after c) ≠ observed (g.play before')

/-- The port is stored to, and after the last time it is told that its value has changed. -/
def Announced (p : Port) (l : List Change) : Prop :=
  ∃ before v rest, l = before ++ .value p v :: rest ∧ (∀ u, .value p u ∉ rest) ∧
    .tell (.valueChanged p) ∈ rest

theorem Announced.cons {p : Port} {l : List Change} (a : Announced p l) (c : Change) :
    Announced p (c :: l) := by
  obtain ⟨before, v, rest, rfl, told⟩ := a
  exact ⟨c :: before, v, rest, rfl, told⟩

/-- What a piece of evaluation tells of itself: every flip of a flag and every change of a status where
it comes, and of each port that is stored to, after its last store, that its value has changed. -/
structure Exact (g : Graph) (l : List Change) : Prop where
  flags : ∀ p, AtOnce (·.isStale p) (.flagsChanged p) g l
  toggles : ∀ p, (news l).foldl (toggled p) (g.isStale p) = (g.play l).isStale p
  statuses : ∀ n, AtOnce (·.status? n) (.stateChanged n) g l
  values : ∀ p, (g.play l).held p ≠ g.held p → Announced p l

/-- Changes of flags and of statuses are changes, and are told at once. Nothing else is told as one of
these. A value that is stored is told later. -/
inductive Voiced : Graph → List Change → Prop where
  | nil (g : Graph) : Voiced g []
  | value {g : Graph} {p : Port} {v : Value} {l : List Change}
    (told : .tell (.valueChanged p) ∈ l) (rest : Voiced (g.after (.value p v)) l) :
    Voiced g (.value p v :: l)
  | flag {g : Graph} {p : Port} {b : Bool} {l : List Change} (before : g.isStale p = !b)
    (after : (g.after (.flag p b)).isStale p = b)
    (rest : Voiced ((g.after (.flag p b)).emit (.flagsChanged p)) l) :
    Voiced g (.flag p b :: .tell (.flagsChanged p) :: l)
  | status {g : Graph} {n : NodeId} {s : Status} {l : List Change} (before : g.status? n ≠ some s)
    (after : (g.after (.status n s)).status? n = some s)
    (rest : Voiced ((g.after (.status n s)).emit (.stateChanged n)) l) :
    Voiced g (.status n s :: .tell (.stateChanged n) :: l)
  | count {g : Graph} {c : Computation} {p : Port} {l : List Change}
    (rest : Voiced (g.after (.count c p)) l) : Voiced g (.count c p :: l)
  | tell {g : Graph} {e : Event} {l : List Change} (flag : ∀ p, e ≠ .flagsChanged p)
    (status : ∀ n, e ≠ .stateChanged n) (rest : Voiced (g.emit e) l) : Voiced g (.tell e :: l)

section After
variable (g : Graph)

theorem sameFrame_after (c : Change) : SameFrame g (g.after c) := by
  cases c with
  | value p v => exact g.sameFrame_put p v
  | flag p b => exact g.sameFrame_modifySlot p _ (fun _ => rfl) fun _ => rfl
  | status n s =>
    exact sameFrame_modifyNode g n _ (fun _ => rfl) (fun _ => rfl) (fun _ => rfl) (fun _ => rfl)
      fun _ => rfl
  | count c p => exact sameFrame_of_nodes rfl rfl rfl
  | tell e => exact g.sameFrame_emit e

theorem sameFrame_play (l : List Change) : SameFrame g (g.play l) := by
  induction l generalizing g with
  | nil => exact .refl g
  | cons c l ih => exact (g.sameFrame_after c).trans (ih _)

theorem events_play (l : List Change) : (g.play l).events = g.events ++ news l := by
  induction l generalizing g with
  | nil => simp [news]
  | cons c l ih =>
    rw [play_cons, ih]
    cases c with
    | tell e =>
      have new : (g.emit e).events = g.events ++ [e] := by simp [events, emit, Entry.event?]
      rw [after, new, List.append_assoc]
      rfl
    | value p v | flag p b | status n s | count c p => rfl

theorem slot?_after_status (n : NodeId) (s : Status) (p : Port) :
    (g.after (.status n s)).slot? p = g.slot? p := by
  simp only [slot?, Option.bind_eq_bind]
  exact bind_node?_modifyNode g n (fun m => { m with status := s }) (fun m => m.ports.get? p.index)
    (fun _ => rfl) p.node

theorem isStale_after_flag (p q : Port) (b : Bool) : (g.after (.flag p b)).isStale q =
    if p = q then (g.slot? q).isSome && b else g.isStale q := by
  simp only [after, isStale, slot?_modifySlot]
  split
  · cases g.slot? q <;> rfl
  · rfl

/-- Only a write to the flag changes it. -/
theorem isStale_after {c : Change} {p : Port} (other : ∀ b, c ≠ .flag p b) :
    (g.after c).isStale p = g.isStale p := by
  cases c with
  | value q v => exact g.isStale_put q v p
  | flag q b =>
    rw [isStale_after_flag, if_neg]
    rintro rfl
    exact other b rfl
  | status n s => rw [isStale, slot?_after_status, isStale]
  | count c q => rfl
  | tell e => rfl

theorem isStale_play {l : List Change} {p : Port} (other : ∀ b, .flag p b ∉ l) :
    (g.play l).isStale p = g.isStale p := by
  induction l generalizing g with
  | nil => rfl
  | cons c l ih =>
    simp only [List.mem_cons, not_or] at other
    rw [play_cons, ih _ fun b => (other b).2, isStale_after g fun b hc => (other b).1 hc.symm]

theorem status?_after_status {n : NodeId} {m : Node} (hm : g.node? n = some m) (s : Status) :
    (g.after (.status n s)).status? n = some s := by
  rw [status?, after, node?_modifyNode, if_pos rfl, hm]
  rfl

theorem status?_after {c : Change} {n : NodeId} (other : ∀ s, c ≠ .status n s) :
    (g.after c).status? n = g.status? n := by
  have kept (g : Graph) (p : Port) (f : Slot → Slot) : (g.modifySlot p f).status? n = g.status? n :=
    map_node?_modifyNode g p.node (fun m => { m with ports := m.ports.modify p.index f }) Node.status
      (fun _ => rfl) n
  cases c with
  | value p v => exact kept _ p _
  | flag p b => exact kept g p _
  | status k s =>
    rw [status?, after, node?_modifyNode, if_neg, status?]
    rintro rfl
    exact other s rfl
  | count c p => rfl
  | tell e => rfl

/-- Only a store changes what is held. -/
theorem held_after {c : Change} {p : Port} (other : ∀ v, c ≠ .value p v) :
    (g.after c).held p = g.held p := by
  cases c with
  | value q v =>
    have ne : q ≠ p := by
      rintro rfl
      exact other v rfl
    simp only [held, after, put, slot?_modifySlot, if_neg ne]
    rfl
  | flag q b =>
    simp only [held, after, slot?_modifySlot]
    split
    · cases g.slot? p <;> rfl
    · rfl
  | status n s => rw [held, slot?_after_status, held]
  | count c q => rfl
  | tell e => rfl

theorem held_play {l : List Change} {p : Port} (other : ∀ v, .value p v ∉ l) :
    (g.play l).held p = g.held p := by
  induction l generalizing g with
  | nil => rfl
  | cons c l ih =>
    simp only [List.mem_cons, not_or] at other
    rw [play_cons, ih _ fun v => (other v).2, held_after g fun v hc => (other v).1 hc.symm]

end After

/-! ### Telling at once -/

section AtOnce
variable {β : Type} {observed : Graph → β} {e : Event} {g : Graph} {c : Change} {l : List Change}

theorem AtOnce.nil : AtOnce observed e g [] := by
  constructor <;> intros <;> simp_all

/-- A change of something else. -/
theorem AtOnce.skip (rest : AtOnce observed e (g.after c) l) (other : c ≠ .tell e)
    (same : observed (g.after c) = observed g) : AtOnce observed e g (c :: l) where
  told before c' l' eq differ := by
    cases before with
    | nil =>
      cases eq
      exact absurd same differ
    | cons d before =>
      obtain ⟨rfl, tail⟩ := List.cons.inj eq
      exact rest.told before c' l' tail differ
  only before l' eq := by
    cases before with
    | nil =>
      cases eq
      exact absurd rfl other
    | cons d before =>
      obtain ⟨rfl, tail⟩ := List.cons.inj eq
      obtain ⟨before', c', rfl, differ⟩ := rest.only before l' tail
      exact ⟨c :: before', c', rfl, differ⟩

/-- A change of what is observed, with the event. -/
theorem AtOnce.change (rest : AtOnce observed e ((g.after c).emit e) l) (other : c ≠ .tell e)
    (silent : ∀ h : Graph, observed (h.emit e) = observed h)
    (differ : observed (g.after c) ≠ observed g) : AtOnce observed e g (c :: .tell e :: l) where
  told before c' l' eq differ' := by
    match before with
    | [] =>
      cases eq
      exact ⟨l, rfl⟩
    | [d] =>
      cases eq
      exact absurd (silent _) differ'
    | d :: d' :: before =>
      simp only [List.cons_append, List.cons.injEq] at eq
      obtain ⟨rfl, rfl, eq⟩ := eq
      exact rest.told before c' l' eq differ'
  only before l' eq := by
    match before with
    | [] =>
      cases eq
      exact absurd rfl other
    | [d] =>
      cases eq
      exact ⟨[], c, rfl, differ⟩
    | d :: d' :: before =>
      simp only [List.cons_append, List.cons.injEq] at eq
      obtain ⟨rfl, rfl, eq⟩ := eq
      obtain ⟨before', c', rfl, differ'⟩ := rest.only before l' eq
      exact ⟨c :: .tell e :: before', c', rfl, differ'⟩

end AtOnce

namespace Voiced
variable {g : Graph} {l l' : List Change} {p : Port} {n : NodeId}

theorem append (first : Voiced g l) (second : Voiced (g.play l) l') : Voiced g (l ++ l') := by
  induction first with
  | nil g => exact second
  | value told _ ih => exact .value (List.mem_append_left _ told) (ih second)
  | flag before after _ ih => exact .flag before after (ih second)
  | status before after _ ih => exact .status before after (ih second)
  | count _ ih => exact .count (ih second)
  | tell flag status _ ih => exact .tell flag status (ih second)

theorem flags (t : Voiced g l) (p : Port) : AtOnce (·.isStale p) (.flagsChanged p) g l := by
  induction t with
  | nil g => exact .nil
  | value _ _ ih => exact ih.skip (by simp) (isStale_after _ (by simp))
  | @flag g q b l before after _ ih =>
    by_cases hq : q = p
    · subst hq
      exact ih.change (by simp) (fun _ => rfl) (by simp [after, before])
    · exact (AtOnce.skip (c := .tell _) ih (by simp [hq]) rfl).skip (by simp)
        (isStale_after _ (by simp [hq]))
  | status _ _ _ ih =>
    exact (AtOnce.skip (c := .tell _) ih (by simp) rfl).skip (by simp) (isStale_after _ (by simp))
  | count _ ih => exact ih.skip (by simp) rfl
  | tell flag _ _ ih => exact AtOnce.skip (c := .tell _) ih (by simpa using flag p) rfl

theorem statuses (t : Voiced g l) (n : NodeId) : AtOnce (·.status? n) (.stateChanged n) g l := by
  induction t with
  | nil g => exact .nil
  | value _ _ ih => exact ih.skip (by simp) (status?_after _ (by simp))
  | flag _ _ _ ih =>
    exact (AtOnce.skip (c := .tell _) ih (by simp) rfl).skip (by simp) (status?_after _ (by simp))
  | @status g k s l before after _ ih =>
    by_cases hk : k = n
    · subst hk
      exact ih.change (by simp) (fun _ => rfl) (by simp [after, Ne.symm before])
    · exact (AtOnce.skip (c := .tell _) ih (by simp [hk]) rfl).skip (by simp)
        (status?_after _ (by simp [hk]))
  | count _ ih => exact ih.skip (by simp) rfl
  | tell _ status _ ih => exact AtOnce.skip (c := .tell _) ih (by simpa using status n) rfl

theorem toggles (t : Voiced g l) (p : Port) :
    (news l).foldl (toggled p) (g.isStale p) = (g.play l).isStale p := by
  induction t with
  | nil g => rfl
  | @value g q v l _ _ ih =>
    rw [isStale_after g (by simp)] at ih
    exact ih
  | @flag g q b l before after _ ih =>
    refine Eq.trans (congrArg (fun b => (news l).foldl (toggled p) b) ?_) ih
    show toggled p (g.isStale p) (.flagsChanged q) = (g.after (.flag q b)).isStale p
    by_cases hq : q = p
    · subst hq
      rw [after, before, toggled, if_pos rfl, Bool.not_not]
    · rw [isStale_after g (by simp [hq]), toggled, if_neg (by simp [hq])]
  | @status g n s l _ _ _ ih =>
    rw [isStale, slot?_emit, ← isStale, isStale_after g (by simp)] at ih
    exact ih
  | count _ ih => exact ih
  | @tell g e l flag _ _ ih =>
    refine Eq.trans (congrArg (fun b => (news l).foldl (toggled p) b) ?_) ih
    exact if_neg (flag p)

theorem announced (t : Voiced g l) {p : Port} {v : Value} (stored : .value p v ∈ l) :
    Announced p l := by
  induction t generalizing v with
  | nil g => cases stored
  | @value g q w l told _ ih =>
    -- if there is a later store to `p` then the last one is among the rest
    by_cases again : ∃ u, .value p u ∈ l
    · exact (ih again.choose_spec).cons _
    · rcases List.mem_cons.1 stored with eq | stored
      · cases eq
        exact ⟨[], w, l, rfl, fun u hu => again ⟨u, hu⟩, told⟩
      · exact absurd ⟨v, stored⟩ again
  | flag _ _ _ ih | status _ _ _ ih =>
    simp only [List.mem_cons, reduceCtorEq, false_or] at stored
    exact ((ih stored).cons _).cons _
  | count _ ih | tell _ _ _ ih =>
    simp only [List.mem_cons, reduceCtorEq, false_or] at stored
    exact (ih stored).cons _

theorem exact (t : Voiced g l) : Exact g l where
  flags := t.flags
  toggles := t.toggles
  statuses := t.statuses
  values p differ := by
    by_cases stored : ∃ v, .value p v ∈ l
    · exact t.announced stored.choose_spec
    · exact absurd (held_play g fun v hv => stored ⟨v, hv⟩) differ

end Voiced

end Graph
end Dataflow
