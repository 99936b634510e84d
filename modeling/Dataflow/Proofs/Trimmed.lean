import Dataflow.Proofs.Remove
set_option autoImplicit false

/-!
Wires by name. A port that goes moves the later ports of its network, so that a wire is known again
by the nodes and the names of its ports only. Main statement: while wires are cut and nodes removed,
no wire comes, each network port that stays stands for the terminal for which it stood, and every
wire that goes was asked for or lost the terminal behind one of its ends.
-/

namespace Dataflow.Graph

/-- The port `q` of `h` is the port of the same node and the same name as `p` of `g`. -/
structure Namesake (g h : Graph) (p q : Port) : Prop where
  node : q.node = p.node
  name : ∃ a, (g.attr? p).map Attribute.name = some a ∧ (h.attr? q).map Attribute.name = some a

/-- The wire `d` of `h` has its ends where `e` of `g` has them, by name. -/
def Kin (g h : Graph) (e d : Edge) : Prop :=
  Namesake g h e.output d.output ∧ Namesake g h e.input d.input

/-- The wire `e` of `g` is in `h`. -/
def Survives (g h : Graph) (e : Edge) : Prop := ∃ d, h.Feeds d.output d.input ∧ Kin g h e d

/-- The port `b` of a network stands for the terminal `t`. -/
def Hosts (g : Graph) (b t : Port) : Prop := g.peer? b = some t ∧ (g.contents? b.node).isSome

section Names
variable {g h k : Graph} {p p' q q' : Port} {e e' d f : Edge}

theorem port_of_label (w : g.WellFormed) {a : String} (node : p.node = p'.node)
    (hp : (g.attr? p).map Attribute.name = some a)
    (hp' : (g.attr? p').map Attribute.name = some a) : p = p' := by
  obtain ⟨n, i⟩ := p
  obtain ⟨m, j⟩ := p'
  subst node
  rw [index_of_name w hp hp']

theorem Namesake.trans {r : Port} (x : Namesake g h p q) (y : Namesake h k q r) :
    Namesake g k p r := by
  obtain ⟨a, hp, hq⟩ := x.name
  obtain ⟨b, hq', hr⟩ := y.name
  obtain rfl : a = b := Option.some.inj (hq.symm.trans hq')
  exact ⟨y.node.trans x.node, a, hp, hr⟩

theorem Namesake.symm (x : Namesake g h p q) : Namesake h g q p := by
  obtain ⟨a, hp, hq⟩ := x.name
  exact ⟨x.node.symm, a, hq, hp⟩

theorem Namesake.self (live : (g.direction? p).isSome) : Namesake g g p p := by
  rw [direction?_eq, Option.isSome_map] at live
  obtain ⟨a, ha⟩ := Option.isSome_iff_exists.1 live
  exact ⟨rfl, a.name, by rw [ha]; rfl, by rw [ha]; rfl⟩

/-- A port is known by name in a graph where its node is what it was. -/
theorem Namesake.of_type (same : k.type? q.node = h.type? q.node) (x : Namesake g k p q) :
    Namesake g h p q := by
  have attr : k.attr? q = h.attr? q := by rw [attr?_eq, attr?_eq, same]
  exact ⟨x.node, by rw [← attr]; exact x.name⟩

theorem Namesake.unique (w : g.WellFormed) (x : Namesake g h p q) (y : Namesake g h p' q) :
    p = p' := by
  obtain ⟨a, hp, hq⟩ := x.name
  obtain ⟨b, hp', hq'⟩ := y.name
  obtain rfl : a = b := Option.some.inj (hq.symm.trans hq')
  exact port_of_label w (x.node.symm.trans y.node) hp hp'

theorem Kin.trans (x : Kin g h e d) (y : Kin h k d f) : Kin g k e f :=
  ⟨x.1.trans y.1, x.2.trans y.2⟩

theorem Kin.symm (x : Kin g h e d) : Kin h g d e := ⟨x.1.symm, x.2.symm⟩

theorem Kin.self (w : g.Wired) (he : g.Feeds e.output e.input) : Kin g g e e :=
  ⟨.self (by simp [he.output w]), .self (by simp [he.input w])⟩

theorem Kin.unique (w : g.WellFormed) (x : Kin g h e d) (y : Kin g h e' d) : e = e' := by
  obtain ⟨o, i⟩ := e
  obtain ⟨o', i'⟩ := e'
  rw [Edge.mk.injEq]
  exact ⟨x.1.unique w y.1, x.2.unique w y.2⟩

/-- An end of a wire is known again at the wire that it has become. -/
theorem Kin.endsAt (x : Kin g h e d) (hq : d.endsAt q = true) :
    ∃ p, e.endsAt p = true ∧ Namesake g h p q := by
  simp only [Edge.endsAt, Bool.or_eq_true, beq_iff_eq] at hq
  rcases hq with rfl | rfl
  · exact ⟨e.output, by simp [Edge.endsAt], x.1⟩
  · exact ⟨e.input, by simp [Edge.endsAt], x.2⟩

theorem Kin.endsAt' (x : Kin g h e d) (hp : e.endsAt p = true) :
    ∃ q, d.endsAt q = true ∧ Namesake g h p q := by
  simp only [Edge.endsAt, Bool.or_eq_true, beq_iff_eq] at hp
  rcases hp with rfl | rfl
  · exact ⟨d.output, by simp [Edge.endsAt], x.1⟩
  · exact ⟨d.input, by simp [Edge.endsAt], x.2⟩

end Names

section Hosts
variable {g : Graph} {b t : Port} (w : g.WellFormed)
include w

theorem Hosts.faces (x : g.Hosts b t) : g.Faces t b := faces_of_contents? w x.1 x.2

theorem Hosts.contents? (x : g.Hosts b t) : g.contents? t.node = none :=
  contents?_of_terminal? w.tree (x.faces w).isSome_terminal?

theorem Deserted.hosts (d : Deserted b t g) : g.Hosts b t :=
  ⟨d.peer, d.faces.isSome_contents? w.tree⟩

end Hosts

/-! ### One step -/

/-- Ports and wires have gone, those in `lost` or with a port; the others are where `old` says, and
what stands for what is as before. -/
structure Narrowed (old : Port → Port) (lost : Edge → Prop) (g h : Graph) : Prop where
  root : h.root = g.root
  network : ∀ n, (h.contents? n).isSome → (g.contents? n).isSome
  node : ∀ p, (old p).node = p.node
  fixed : ∀ p, g.contents? p.node = none → old p = p
  attr : ∀ p, (h.attr? p).isSome → h.attr? p = g.attr? (old p)
  hosts : ∀ p t, (h.attr? p).isSome → (h.Hosts p t ↔ g.Hosts (old p) t)
  feeds : ∀ o i, h.Feeds o i → g.Feeds (old o) (old i)
  stays : ∀ e, g.Feeds e.output e.input → ¬ lost e →
    ∃ d : Edge, h.Feeds d.output d.input ∧ old d.output = e.output ∧ old d.input = e.input

namespace Narrowed
variable {old : Port → Port} {lost : Edge → Prop} {f g h : Graph} (x : Narrowed old lost g h)
include x

theorem namesake_iff {p q : Port} (hq : (h.attr? q).isSome) :
    Namesake f h p q ↔ Namesake f g p (old q) := by
  have attr := x.attr q hq
  constructor
  · rintro ⟨node, name⟩
    exact ⟨(x.node q).trans node, by rwa [← attr]⟩
  · rintro ⟨node, name⟩
    exact ⟨(x.node q).symm.trans node, by rwa [attr]⟩

theorem bare {t : Port} (leaf : g.contents? t.node = none) (ht : ¬ g.Connected t) :
    ¬ h.Connected t := by
  rintro ⟨r, hr | hr⟩
  · have := x.feeds _ _ hr
    rw [x.fixed t leaf] at this
    exact ht ⟨_, .inl this⟩
  · have := x.feeds _ _ hr
    rw [x.fixed t leaf] at this
    exact ht ⟨_, .inr this⟩

end Narrowed

theorem narrowed_of_quiet {g h : Graph} (a : Quiet g h) : Narrowed id (fun _ => False) g h where
  root := a.frame.root
  network := fun n hn => by rwa [a.frame.contents] at hn
  node := fun _ => rfl
  fixed := fun _ _ => rfl
  attr := fun p _ => by rw [a.frame.attr]; rfl
  hosts := fun p t _ => by rw [Hosts, Hosts, a.frame.peer, a.frame.contents]; rfl
  feeds := fun o i hf => by rwa [a.frame.feeds] at hf
  stays := fun e he _ => ⟨e, by rwa [a.frame.feeds], rfl, rfl⟩

theorem narrowed_sever {g : Graph} {m : NodeId} {e : Edge} (w : g.WellFormed) (he : e ∈ g.wires m) :
    Narrowed id (· = e) g (g.sever e) where
  root := (sameTree_sever w he).root
  network := fun n hn => by rwa [(sameTree_sever w he).network] at hn
  node := fun _ => rfl
  fixed := fun _ _ => rfl
  attr := fun p _ => by rw [attr?_eq, attr?_eq, type?_sever w he]; rfl
  hosts := fun p t _ => by rw [Hosts, Hosts, peer?_sever w he, (sameTree_sever w he).network]; rfl
  feeds := fun o i hf => ((feeds_sever w he o i).1 hf).1
  stays := fun d hd ne => by
    refine ⟨d, (feeds_sever w he _ _).2 ⟨hd, fun same => ne ?_⟩, rfl, rfl⟩
    obtain ⟨o, i⟩ := d
    obtain ⟨o', i'⟩ := e
    rw [Edge.mk.injEq]
    exact same

theorem unshift_ne (gone i : Nat) : unshift gone i ≠ gone := by
  rw [unshift]
  split <;> omega

/-- A port that goes is the only one, and no wire goes with it. -/
theorem narrowed_dropPort {g : Graph} {b t : Port} (w : g.WellFormed) (d : Deserted b t g)
    (hc : ¬ g.Connected b) :
    Narrowed (Port.moved b.node (unshift b.index)) (fun _ => False) g (g.dropPort b) := by
  obtain ⟨g₁, g₂, a, w₁, r, eq⟩ := dropped w d.peer hc
  have tree := sameTree_dropPort w d.peer hc
  have network : (g.contents? b.node).isSome := d.faces.isSome_contents? w.tree
  rw [eq] at tree ⊢
  have frame := g₂.sameFrame_emit (.metadataChanged b.node)
  constructor
  case root => exact tree.root
  case network => exact fun n hn => by rwa [tree.network] at hn
  case node => exact fun p => node_moved ..
  case fixed =>
    intro p hp
    refine moved_of_ne _ fun same => ?_
    rw [same] at hp
    simp [hp] at network
  case attr => exact fun p _ => by rw [frame.attr, r.attr, a.attr]
  case hosts =>
    intro p s _
    have apart : p.moved b.node (unshift b.index) ≠ b := by
      intro same
      have node := node_moved p b.node (unshift b.index)
      rw [same] at node
      rw [Port.moved, if_pos node.symm] at same
      exact unshift_ne _ _ (congrArg Port.index same)
    rw [Hosts, Hosts, tree.network, node_moved, and_congr_left_iff]
    intro inside
    have far : p.moved b.node (unshift b.index) ≠ t := by
      intro same
      have leaf := (d.hosts w).contents? w
      rw [← same, node_moved] at leaf
      simp [leaf] at inside
    rw [frame.peer, r.peer, a.peer, if_neg (by simp [apart, far])]
    -- a terminal stays in its place
    have still {s : Port} (hs : g.peer? (p.moved b.node (unshift b.index)) = some s) :
        s.moved b.node (Layout.shift b.index) = s := by
      have hosts : g.Hosts (p.moved b.node (unshift b.index)) s := ⟨hs, by rwa [node_moved]⟩
      refine moved_of_ne _ fun same => ?_
      have leaf := hosts.contents? w
      rw [same] at leaf
      simp [leaf] at network
    constructor
    · intro hs
      obtain ⟨s', hs', rfl⟩ := Option.map_eq_some_iff.1 hs
      rw [still hs', hs']
    · intro hs
      rw [hs, Option.map_some, still hs]
  case feeds =>
    intro o i hf
    rw [frame.feeds] at hf
    rw [← a.feeds]
    exact r.feeds_old hf
  case stays =>
    intro e he _
    rw [← a.feeds] at he
    refine ⟨⟨e.output.moved b.node (Layout.shift b.index),
      e.input.moved b.node (Layout.shift b.index)⟩, ?_, r.kept_output he, r.kept_input he⟩
    rw [frame.feeds]
    exact (r.feeds_iff _ _).2 ⟨_, _, he, rfl, rfl⟩

theorem Removed.narrowed {n : NodeId} {g h : Graph} (x : Removed n g h) (b : Bare n g)
    (w : g.WellFormed) : Narrowed id (fun _ => False) g h where
  root := x.root
  network := fun k hk => by
    rw [x.contents] at hk
    split at hk
    · cases hk
    · split at hk
      · simpa using hk
      · exact hk
  node := fun _ => rfl
  fixed := fun _ _ => rfl
  attr := fun p hp => by
    rw [← isSome_slot?, x.slot] at hp
    split at hp
    · cases hp
    · next ne => rw [attr?, attr?, x.slot, if_neg ne]; rfl
  hosts := fun p t hp => by
    rw [← isSome_slot?, x.slot] at hp
    split at hp
    · cases hp
    · next ne =>
      rw [Hosts, Hosts, x.peer b, x.contents, if_neg ne]
      split <;> simp
  feeds := fun o i hf => x.feeds_old hf
  stays := fun e he _ => ⟨e, by rwa [x.feeds b w], rfl, rfl⟩

/-! ### All steps -/

/-- How far `h` is `g` without some nodes and wires, where the wires in `gone` had to go. -/
structure Trimmed (g : Graph) (gone : Edge → Prop) (h : Graph) : Prop where
  root : h.root = g.root
  network : ∀ n, (h.contents? n).isSome → (g.contents? n).isSome
  hosts : ∀ p q t, Namesake g h p q → (g.Hosts p t ↔ h.Hosts q t)
  feeds : ∀ d, h.Feeds d.output d.input → ∃ e, g.Feeds e.output e.input ∧ Kin g h e d
  lost : ∀ e, g.Feeds e.output e.input → Survives g h e ∨ gone e ∨
    ∃ b t, e.endsAt b = true ∧ g.Hosts b t ∧ ¬ h.Connected t

section Trim
variable {g h k : Graph} {gone : Edge → Prop} (w : g.WellFormed)
include w

theorem trimmed_refl : Trimmed g gone g := by
  refine ⟨rfl, fun _ h => h, fun p q t x => ?_, fun e he => ⟨e, he, .self w.wired he⟩,
    fun e he => .inl ⟨e, he, .self w.wired he⟩⟩
  obtain ⟨a, hp, hq⟩ := x.name
  rw [port_of_label w x.node hq hp]

theorem Trimmed.narrow {old : Port → Port} {lost : Edge → Prop} (x : Trimmed g gone h)
    (wk : k.WellFormed) (n : Narrowed old lost h k)
    (why : ∀ e d, lost d → g.Feeds e.output e.input → Kin g h e d → gone e ∨ h.Dangles d)
    (wh : h.WellFormed) : Trimmed g gone k := by
  have live {p : Port} {d : Direction} (hp : k.direction? p = some d) : (k.attr? p).isSome := by
    obtain ⟨a, ha, -⟩ := isSome_attr?_of_direction? hp
    simp [ha]
  have kin {e d : Edge} (hd : k.Feeds d.output d.input)
      (x : Kin g h e ⟨old d.output, old d.input⟩) : Kin g k e d :=
    ⟨(n.namesake_iff (live (hd.output wk.wired))).2 x.1,
      (n.namesake_iff (live (hd.input wk.wired))).2 x.2⟩
  -- a terminal that has lost its last wire gets no other
  have bare {b t : Port} (hosts : g.Hosts b t) (ht : ¬ h.Connected t) : ¬ k.Connected t := by
    refine n.bare ?_ ht
    have leaf := hosts.contents? w
    cases hc : h.contents? t.node with
    | none => rfl
    | some c =>
      have := x.network t.node (by simp [hc])
      simp [leaf] at this
  constructor
  case root => exact n.root.trans x.root
  case network => exact fun m hm => x.network m (n.network m hm)
  case hosts =>
    intro p q t same
    have hq : (k.attr? q).isSome := by
      obtain ⟨a, -, hq⟩ := same.name
      obtain ⟨b, hb, -⟩ := Option.map_eq_some_iff.1 hq
      simp [hb]
    rw [n.hosts q t hq]
    exact x.hosts p _ t ((n.namesake_iff hq).1 same)
  case feeds =>
    intro d hd
    obtain ⟨e, he, same⟩ := x.feeds ⟨old d.output, old d.input⟩ (n.feeds _ _ hd)
    exact ⟨e, he, kin hd same⟩
  case lost =>
    intro e he
    rcases x.lost e he with ⟨d, hd, same⟩ | asked | ⟨b, t, ends, hosts, ht⟩
    · by_cases hl : lost d
      · rcases why e d hl he same with asked | ⟨b, t, ends, deserted⟩
        · exact .inr (.inl asked)
        · obtain ⟨p, hp, namesake⟩ := same.endsAt ends
          have hosts := (x.hosts p b t namesake).2 (deserted.hosts wh)
          exact .inr (.inr ⟨p, t, hp, hosts, bare hosts deserted.bare⟩)
      · obtain ⟨f, hf, output, input⟩ := n.stays d hd hl
        refine .inl ⟨f, hf, kin hf ?_⟩
        rw [output, input]
        exact same
    · exact .inr (.inl asked)
    · exact .inr (.inr ⟨b, t, ends, hosts, bare hosts ht⟩)

/-- Whatever is cut or removed on demand, the wires that go are in `gone` or lose a terminal. -/
theorem keptByRemoving_trimmed {asked : Graph → Edge → Prop}
    (why : ∀ h e d, asked h d → g.Feeds e.output e.input → Kin g h e d → gone e) :
    KeptByRemoving asked fun h => h.WellFormed ∧ Trimmed g gone h where
  quiet := fun h k a ⟨wh, x⟩ =>
    ⟨a.frame.wellFormed wh, x.narrow w (a.frame.wellFormed wh) (narrowed_of_quiet a) nofun wh⟩
  sever := fun h m d wh hd reason ⟨_, x⟩ => by
    have wk := wellFormed_sever wh hd
    refine ⟨wk, x.narrow w wk (narrowed_sever wh hd) ?_ wh⟩
    rintro e _ rfl he same
    exact reason.imp_left fun ask => why h e _ ask he same
  drop := fun h b t wh d hc ⟨_, x⟩ =>
    ⟨wellFormed_dropPort wh d.peer hc,
      x.narrow w (wellFormed_dropPort wh d.peer hc) (narrowed_dropPort wh d hc) nofun wh⟩
  remove := fun h k n wh b r ⟨_, x⟩ =>
    ⟨r.wellFormed b wh, x.narrow w (r.wellFormed b wh) (r.narrowed b wh) nofun wh⟩

/-- Whatever wires go. -/
theorem keptByRemoving_any :
    KeptByRemoving (fun _ _ => True) fun h => h.WellFormed ∧ Trimmed g (fun _ => True) h :=
  keptByRemoving_trimmed w fun _ _ _ _ _ _ => trivial

end Trim
end Dataflow.Graph
