import Dataflow.Proofs.Standard
set_option autoImplicit false

/-!
How being out of date is closed along the flow of values. The law has a part for wires, one for peers
and one for influences, and the last one may be left out. Main statement: every operation but reads
keeps the law, in either form.
-/

namespace Dataflow.Graph

/-- Along wires, except for those in `x`, along peers, and if `all` is set along influences, what
follows on a port that is out of date is out of date as well. -/
structure ClosedBut (all : Bool) (x : Port → Port → Prop) (g : Graph) : Prop where
  wires : ∀ o i, g.Feeds o i → g.isStale o = true → g.isStale i = true ∨ x o i
  peers : ∀ p q, g.direction? p = some .input → g.peer? p = some q → g.isStale p = true →
    g.isStale q = true
  influences : all = true → ∀ p q, g.Influences p q → g.isStale p = true → g.isStale q = true

/-- The law without exceptions. -/
abbrev Closed (all : Bool) (g : Graph) : Prop := ClosedBut all (fun _ _ => False) g

section Closed
variable {all : Bool} {x : Port → Port → Prop} {g h : Graph}

theorem Closed.wire (c : Closed all g) {o i : Port} (hf : g.Feeds o i) (ho : g.isStale o = true) :
    g.isStale i = true := (c.wires o i hf ho).resolve_right id

theorem Closed.flow (c : Closed true g) {p q : Port} (hf : g.Flows p q) (hp : g.isStale p = true) :
    g.isStale q = true := by
  rcases hf with hf | hf | ⟨hd, hf⟩
  · exact c.influences rfl p q hf hp
  · exact c.wire hf hp
  · exact c.peers p q hd hf hp

theorem SameFrame.closedBut (a : SameFrame g h) (hs : h.isStale = g.isStale)
    (c : ClosedBut all x g) : ClosedBut all x h := by
  constructor
  · rw [a.feeds, hs]; exact c.wires
  · rw [a.direction, a.peer, hs]; exact c.peers
  · rw [a.influences, hs]; exact c.influences

theorem Quiet.closed (a : Quiet g h) (c : Closed all g) : Closed all h :=
  a.frame.closedBut a.isStale c

/-- Where nothing flows that did not flow before between ports as they were, the law is kept. -/
theorem Closed.of_map (c : Closed all g) (f : Port → Port)
    (stale : ∀ p, h.isStale p = g.isStale (f p))
    (wires : ∀ o i, h.Feeds o i → g.Feeds (f o) (f i))
    (peers : ∀ p q, h.direction? p = some .input → h.peer? p = some q →
      g.direction? (f p) = some .input ∧ g.peer? (f p) = some (f q))
    (influences : ∀ p q, h.Influences p q → g.Influences (f p) (f q)) : Closed all h := by
  constructor
  case wires =>
    intro o i hf ho
    rw [stale] at ho ⊢
    exact c.wires _ _ (wires o i hf) ho
  case peers =>
    intro p q hd hp hs
    rw [stale] at hs ⊢
    obtain ⟨hd', hp'⟩ := peers p q hd hp
    exact c.peers _ _ hd' hp' hs
  case influences =>
    intro ha p q hi hs
    rw [stale] at hs ⊢
    exact c.influences ha _ _ (influences p q hi) hs

/-- Marking the ends of the excepted wires, with all that they flow into, mends the law. -/
theorem ClosedBut.spread (w : g.WellFormed) (c : ClosedBut all x g) {starts : List Port}
    (hx : ∀ o i, x o i → g.Feeds o i → i ∈ starts) : Closed all (g.spread starts) := by
  have frame := g.sameFrame_spread starts
  have old {q : Port} (h : g.isStale q = true) : (g.spread starts).isStale q = true :=
    g.isStale_spread_of_isStale starts q h
  -- what was marked before is taken care of by the old law, what is new by the walk
  have split {p q : Port} (hp : (g.spread starts).isStale p = true) (hf : g.Flows p q)
      (ho : g.isStale p = true → (g.spread starts).isStale q = true) :
      (g.spread starts).isStale q = true := by
    cases hs : g.isStale p with
    | true => exact ho hs
    | false => exact isStale_spread_of_flows w starts p q hp hs hf
  constructor
  case wires =>
    intro o i hf ho
    rw [frame.feeds] at hf
    refine .inl (split ho (.inr (.inl hf)) fun hs => ?_)
    rcases c.wires o i hf hs with hi | hi
    · exact old hi
    · exact isStale_spread_of_mem w.tree starts i (hx o i hi hf) (by simp [hf.input w.wired])
  case peers =>
    intro p q hd hp hs
    rw [frame.direction] at hd
    rw [frame.peer] at hp
    exact split hs (.inr (.inr ⟨hd, hp⟩)) fun h => old (c.peers p q hd hp h)
  case influences =>
    intro ha p q hi hs
    rw [frame.influences] at hi
    exact split hs (.inl hi) fun h => old (c.influences ha p q hi h)

theorem closed_spread (w : g.WellFormed) (c : Closed all g) (starts : List Port) :
    Closed all (g.spread starts) :=
  ClosedBut.spread w c (by simp)

/-- A port all of whose sources are up to date may be so as well. -/
theorem closed_setCurrent (c : Closed all g) (p : Port)
    (wires : ∀ o, g.Feeds o p → g.isStale o = false)
    (peers : ∀ q, g.direction? q = some .input → g.peer? q = some p → g.isStale q = false)
    (influences : all = true → ∀ q, g.Influences q p → g.isStale q = false) :
    Closed all (g.setCurrent p) := by
  have frame := g.sameFrame_setCurrent p
  have stale {q : Port} (h : (g.setCurrent p).isStale q = true) : g.isStale q = true := by
    rw [isStale_setCurrent] at h
    split at h
    · cases h
    · exact h
  have keep {q : Port} (hq : q ≠ p) (h : g.isStale q = true) :
      (g.setCurrent p).isStale q = true := by
    rw [isStale_setCurrent, if_neg (Ne.symm hq)]
    exact h
  constructor
  case wires =>
    intro o i hf ho
    rw [frame.feeds] at hf
    have hs := stale ho
    by_cases hi : i = p
    · subst hi
      rw [wires o hf] at hs
      cases hs
    · exact .inl (keep hi (c.wire hf hs))
  case peers =>
    intro q r hd hp hq
    rw [frame.direction] at hd
    rw [frame.peer] at hp
    have hs := stale hq
    by_cases hr : r = p
    · subst hr
      rw [peers q hd hp] at hs
      cases hs
    · exact keep hr (c.peers q r hd hp hs)
  case influences =>
    intro ha q r hi hq
    rw [frame.influences] at hi
    have hs := stale hq
    by_cases hr : r = p
    · subst hr
      rw [influences ha q hi] at hs
      cases hs
    · exact keep hr (c.influences ha q r hi hs)

end Closed

/-! ### Edits -/

section Edits
variable {all : Bool} {g h : Graph}

theorem isStale_seedEnds (e : Edge) : (g.seedEnds e).isStale = g.isStale := by
  funext p
  simp only [seedEnds]
  split <;> split <;> simp only [isStale_hold]

theorem isStale_resetEnds (e : Edge) : (g.resetEnds e).isStale = g.isStale := by
  have output (g : Graph) (p q : Port) : (g.resetOutput p).isStale q = g.isStale q := by
    simp only [resetOutput]
    split
    · split
      · exact isStale_hold _ _ _ _
      · rfl
    · rfl
  have input (g : Graph) (p q : Port) : (g.resetInput p).isStale q = g.isStale q := by
    simp only [resetInput]
    split
    · split
      · exact isStale_hold _ _ _ _
      · rfl
    · rfl
  funext p
  rw [resetEnds_eq, output, input]

theorem closed_sever {m : NodeId} {e : Edge} (w : g.WellFormed) (he : e ∈ g.wires m)
    (c : Closed all g) : Closed all (g.sever e) := by
  obtain ⟨g₁, a, eq⟩ := severed w he
  have frame := g₁.sameFrame_resetEnds e
  have w₁ := frame.wellFormed (wellFormed_remove a w)
  rw [eq]
  refine closed_spread w₁ (frame.closedBut (isStale_resetEnds e) ?_) _
  refine c.of_map id (fun p => by rw [a.isStale]; rfl) (fun o i hf => ?_) (fun p q hd hp => ?_) ?_
  · exact ((feeds_remove a w.wired he o i).1 hf).1
  · rw [a.direction] at hd
    rw [a.peer] at hp
    exact ⟨hd, hp⟩
  · intro p q hi
    rwa [a.influences] at hi

theorem Renumbered.closed {n : NodeId} {old new : Nat → Nat} (a : Renumbered n old new g h)
    (w : g.WellFormed) (c : Closed all g) : Closed all h := by
  refine c.of_map (Port.moved n old) a.isStale (fun _ _ => a.feeds_old) (fun p q hd hp => ?_)
    a.influences
  rw [a.direction] at hd
  exact ⟨hd, a.peer_old w.linked hp⟩

theorem Unlinked.closed {b t : Port} (a : Unlinked b t g h) (c : Closed all g) : Closed all h := by
  refine c.of_map id (fun p => by rw [a.isStale]; rfl) (fun o i hf => ?_) (fun p q hd hp => ?_) ?_
  · rwa [a.feeds] at hf
  · rw [a.direction] at hd
    exact ⟨hd, a.peer_old hp⟩
  · intro p q hi
    rwa [a.influences] at hi

theorem closed_dropPort {b t : Port} (w : g.WellFormed) (hb : g.peer? b = some t)
    (hc : ¬ g.Connected b) (c : Closed all g) : Closed all (g.dropPort b) := by
  obtain ⟨g₁, g₂, a, w₁, r, eq⟩ := dropped w hb hc
  rw [eq]
  exact (quiet_emit _ _).closed (r.closed w₁ (a.closed c))

theorem Removed.closed {n : NodeId} (x : Removed n g h) (b : Bare n g) (w : g.WellFormed)
    (c : Closed all g) : Closed all h := by
  have live {p q : Port} (hf : h.Flows p q) : h.isStale p = g.isStale p ∧
      h.isStale q = g.isStale q := by
    have w' := x.wellFormed b w
    have same {p : Port} (hp : (h.direction? p).isSome) : h.isStale p = g.isStale p := by
      obtain ⟨d, hd⟩ := Option.isSome_iff_exists.1 hp
      rw [isStale, x.slot, if_neg (x.direction_old hd).1]
      rfl
    exact ⟨same (hf.isSome_left w'), same (hf.isSome_right w')⟩
  constructor
  case wires =>
    intro o i hf ho
    have hs := live (.inr (.inl hf))
    rw [hs.1] at ho
    rw [hs.2]
    exact c.wires o i (x.feeds_old hf) ho
  case peers =>
    intro p q hd hp hs
    have hl := live (.inr (.inr ⟨hd, hp⟩))
    rw [hl.1] at hs
    rw [hl.2]
    exact c.peers p q (x.direction_old hd).2 (x.peer_old hp).2 hs
  case influences =>
    intro ha p q hi hs
    have hl := live (.inl hi)
    rw [hl.1] at hs
    rw [hl.2]
    obtain ⟨hn, t, ht, hm⟩ := hi
    rw [x.type] at ht
    split at ht
    · cases ht
    · exact c.influences ha p q ⟨hn, t, ht, hm⟩ hs

theorem Inserted.closed {id parent : NodeId} {t : NodeType} {name : String} {values : Datablock}
    (x : Inserted id parent t name values g h) (a : Insertable id parent t name values g)
    (w : g.WellFormed) (c : Closed all g) : Closed all h := by
  have same {p : Port} (hp : p.node ≠ id) : h.isStale p = g.isStale p := by
    rw [isStale, x.slot p hp]
    rfl
  have live {p : Port} (hp : (g.direction? p).isSome) := a.node_ne hp
  constructor
  case wires =>
    intro o i hf ho
    rw [x.feeds a] at hf
    rw [same (live (by simp [hf.output w.wired]))] at ho
    rw [same (live (by simp [hf.input w.wired]))]
    exact c.wires o i hf ho
  case peers =>
    intro p q hd hp hs
    rw [x.peer a] at hp
    have there {p r : Port} (h : g.peer? p = some r) : p.node ≠ id := by
      refine live ?_
      rw [direction?_eq, Option.isSome_map]
      exact isSome_attr?_of_peer? g h
    have hpn := there hp
    rw [same hpn] at hs
    rw [same (there (w.linked.back p q hp))]
    refine c.peers p q ?_ hp hs
    rw [direction?, ← x.slot p hpn]
    exact hd
  case influences =>
    intro ha p q hi hs
    by_cases hp : p.node = id
    · -- an input of the new node is up to date
      have hd := hi.input (x.wellFormed a w)
      simp only [direction?] at hd
      obtain ⟨s, hslot, hdir⟩ := Option.map_eq_some_iff.1 hd
      obtain ⟨v, hv, -⟩ := x.new p s hp hslot
      have current : s.stale = false := by
        rw [hv]
        simp [newSlot, hdir]
      simp [isStale, hslot, current] at hs
    · rw [same hp] at hs
      rw [same (hi.1 ▸ hp)]
      refine c.influences ha p q ?_ hs
      obtain ⟨hn, u, hu, hm⟩ := hi
      rw [x.type, if_neg hp] at hu
      exact ⟨hn, u, hu, hm⟩

theorem Renamed.closed {n : NodeId} {b? : Option Port} {new : String}
    (x : Renamed n b? new g h) (c : Closed all g) : Closed all h := by
  refine c.of_map id (fun p => by rw [x.isStale]; rfl) (fun o i hf => ?_) (fun p q hd hp => ?_) ?_
  · rwa [x.feeds] at hf
  · rw [x.direction] at hd
    rw [x.peer] at hp
    exact ⟨hd, hp⟩
  · intro p q hi
    rwa [x.influences] at hi

theorem Growth.closedBut {side : Direction} {t b : Port} {a : Attribute}
    {x : Port → Port → Prop} (k : Growth side t b a g h) (r : Growth.Ready side t b a g)
    (w : g.WellFormed) (c : ClosedBut all x g) : ClosedBut all x h := by
  have fresh : g.direction? b = none := by simp [direction?, k.fresh]
  have same {p : Port} (hp : (g.direction? p).isSome) : h.isStale p = g.isStale p := by
    rw [k.isStale, if_neg]
    rintro rfl
    simp [fresh] at hp
  constructor
  case wires =>
    intro o i hf ho
    rw [k.feeds] at hf
    rw [same (by simp [hf.output w.wired])] at ho
    rw [same (by simp [hf.input w.wired])]
    exact c.wires o i hf ho
  case peers =>
    intro p q hd hp hs
    rcases (k.peer_eq_some_iff r p q).1 hp with hp | ⟨rfl, rfl⟩ | ⟨rfl, rfl⟩
    · have live {p r : Port} (h : g.peer? p = some r) : (g.direction? p).isSome := by
        rw [Graph.direction?_eq, Option.isSome_map]
        exact isSome_attr?_of_peer? g h
      rw [same (live hp)] at hs
      rw [same (live (w.linked.back p q hp))]
      refine c.peers p q ?_ hp hs
      rw [k.direction?_eq, if_neg] at hd
      · exact hd
      · rintro rfl
        have := live hp
        simp [fresh] at this
    · -- a new input is up to date
      rw [k.direction?_eq, if_pos rfl, Option.some.injEq] at hd
      rw [k.isStale, if_pos rfl, hd] at hs
      cases hs
    · -- a new output is not
      rw [k.direction?_eq, if_neg (k.ne r)] at hd
      have := (terminal?_direction r.terminal).1
      rw [k.isStale, if_pos rfl]
      cases side <;> simp_all
  case influences =>
    intro ha p q hi hs
    rw [k.influences] at hi
    rw [same (by simp [hi.input w])] at hs
    rw [same (by simp [hi.output w])]
    exact c.influences ha p q hi hs

theorem Extended.closedBut {side : Direction} {p : Port} {n : NodeId} {x : Port → Port → Prop}
    (y : Extended side p n g h) (w : g.WellFormed) (c : ClosedBut all x g) :
    ClosedBut all x h :=
  y.elim (P := fun k => ClosedBut all x k) c fun _ _ k r => k.closedBut r w c

/-- The new wire is the one exception until its ends are marked. -/
theorem Drawn.closed {g₁ g₂ g₃ g₄ : Graph} {n : NodeId} {e : Edge}
    (y : Drawn n e g g₁ g₂ g₃ g₄ h) (d : Drawable n e g) (w : g.WellFormed) (c : Closed all g) :
    Closed all h := by
  have c₁ : ClosedBut all (fun o i => o = e.output ∧ i = e.input) g₁ := by
    constructor
    case wires =>
      intro o i hf ho
      rw [y.wire.isStale] at ho ⊢
      rcases (feeds_add y.wire o i).1 hf with hf | hf
      · exact .inl (c.wire hf ho)
      · exact .inr hf
    case peers => rw [y.wire.direction, y.wire.peer, y.wire.isStale]; exact c.peers
    case influences => rw [y.wire.influences, y.wire.isStale]; exact c.influences
  have c₂ : ClosedBut all (fun o i => o = e.output ∧ i = e.input) g₂ := by
    refine y.frame₂.closedBut ?_ c₁
    rw [y.seeds, isStale_seedEnds]
  have c₄ := y.atInput.closedBut (y.wellFormed₃ d w) (y.atOutput.closedBut (y.wellFormed₂ d w) c₂)
  have w₄ := y.wellFormed₄ d w
  rw [y.spread]
  refine (quiet_emit _ _).closed (closed_spread ((sameFrame_spread _ _).wellFormed w₄) ?_ _)
  exact c₄.spread w₄ fun o i hx _ => by simp [hx.2]

theorem free_of_checkAssign {p : Port} {s : Slot} {v : Value} (ok : g.checkAssign p v = .ok s) :
    g.direction? p = some .input ∧ g.source? p = none := by
  simp only [checkAssign, slot, node, bind, Except.bind, throw, throwThe,
    MonadExceptOf.throw] at ok
  simp only [direction?, slot?, Option.bind_eq_bind]
  cases hm : g.node? p.node with
  | none => simp [hm] at ok
  | some m =>
    simp only [hm] at ok
    cases hs : m.ports.get? p.index with
    | none => simp [hs] at ok
    | some t =>
      simp only [hs] at ok
      split at ok
      · cases ok
      · next hdir =>
        split at ok
        · cases ok
        · next hsource =>
          refine ⟨?_, by simpa using hsource⟩
          cases hd : t.attr.direction <;> simp_all

theorem closed_replace {p : Port} {s : Slot} {v : Value} (w : g.WellFormed)
    (ok : g.checkAssign p v = .ok s) (c : Closed all g) : Closed all (g.replace p s v) := by
  obtain ⟨hd, free⟩ := free_of_checkAssign ok
  have frame := g.sameFrame_hold p v
  have c₁ : Closed all (g.hold p v) :=
    frame.closedBut (funext fun q => isStale_hold g p v q) c
  have w₁ := frame.wellFormed w
  have c₂ : Closed all (if s.stale then (g.hold p v).setCurrent p else g.hold p v) := by
    split
    · -- an input without a wire has no source
      refine closed_setCurrent c₁ p (fun o hf => ?_) (fun q hq hp => ?_) fun _ q hi => ?_
      · rw [frame.feeds] at hf
        rw [(source?_eq_some_iff w.wired o p).2 hf] at free
        cases free
      · have := peer_direction w₁ hp hq
        rw [frame.direction, hd] at this
        cases this
      · have := hi.output w₁
        rw [frame.direction, hd] at this
        cases this
    · exact c₁
  have w₂ : (if s.stale then (g.hold p v).setCurrent p else g.hold p v).WellFormed := by
    split
    · exact (sameFrame_setCurrent _ p).wellFormed w₁
    · exact w₁
  exact closed_spread w₂ c₂ _

theorem closed_create (config : Config) (ids : IdSupply) (marks : Nat) (calls : Table Nat Nat) :
    Closed all (create config ids marks calls) := by
  have stale (p : Port) : (create config ids marks calls).isStale p = false := by
    simp [isStale, slot?_create]
  constructor
  · intro o i _ h
    simp [stale] at h
  · intro p q _ _ h
    simp [stale] at h
  · intro _ p q _ h
    simp [stale] at h

end Edits

theorem keptByEdits_closed (all : Bool) :
    KeptByEdits false (fun t _ => t.Standard) (Closed all) where
  toKeptByGrowth :=
    { quiet := fun _ _ a c => a.closed c
      insert := fun g _ _ _ _ _ attachment w _ a c => (inserted g attachment a).closed a w c
      draw := fun _ _ _ w d c => by
        obtain ⟨g₁, g₂, g₃, g₄, x⟩ := drawn d w.wellFormed
        exact x.closed d w.wellFormed c
      assign := fun _ _ _ _ w ok c => closed_replace w ok c
      arrange := fun _ _ _ names w _ ok c => by
        rcases arranged w names ok with rfl | ⟨-, old, new, g₁, r, rfl⟩
        · exact c
        · exact (quiet_emit _ _).closed (r.closed w c) }
  sever := fun _ _ _ w he c => closed_sever w he c
  drop := fun _ _ _ w hb _ hc _ c => closed_dropPort w hb hc c
  remove := fun _ _ _ w b x c => x.closed b w c
  start := closed_create
  rename := fun _ _ _ _ _ _ x c => x.closed c

end Dataflow.Graph
