import Dataflow.Proofs.Arena
import Dataflow.Proofs.Start
set_option autoImplicit false

/-!
Copies of graphs in the making. Main statements: the finished part of a sketch has the wires, the
boundaries and the types of its model, and values flow in it only as they do in the model.
-/

namespace Dataflow

/-- What the wiring and a document can tell of an attribute. -/
def Attribute.face (a : Attribute) : Attribute := { a with default := .null }

namespace Graph
variable {g k : Graph} {r : NodeId} {stack : List NodeId}

/-! ### Networks in one another -/

/-- Networks, each directly in the next, up to the root. -/
inductive Nest (k : Graph) : List NodeId → Prop where
  | nil : Nest k []
  | root : Nest k [k.root]
  | push {c n : NodeId} {l : List NodeId} (around : k.around? c = some n) (rest : Nest k (n :: l)) :
    Nest k (c :: n :: l)

theorem Nest.pop {n : NodeId} (a : Nest k (n :: stack)) : Nest k stack := by
  cases a with
  | root => exact .nil
  | push _ rest => exact rest

theorem Nest.root_mem {n : NodeId} (a : Nest k (n :: stack)) : k.root ∈ n :: stack := by
  induction stack generalizing n with
  | nil =>
    cases a
    exact List.mem_singleton_self _
  | cons p l ih =>
    cases a with
    | push _ rest => exact List.mem_cons_of_mem _ (ih rest)

/-- The network around one of them is one of the others. -/
theorem Nest.up (a : Nest k stack) (w : k.Tree) {m p : NodeId} (hm : m ∈ stack)
    (hp : k.around? m = some p) : p ∈ stack.tail := by
  induction a with
  | nil => cases hm
  | root =>
    rw [List.mem_singleton.1 hm, w.root] at hp
    cases hp
  | push around _ ih =>
    rcases List.mem_cons.1 hm with rfl | hm
    · rw [around, Option.some.injEq] at hp
      rw [← hp]
      exact List.mem_cons_self
    · exact List.mem_of_mem_tail (ih hm)

theorem Nest.rank_lt {n : NodeId} (a : Nest k (n :: stack)) (w : k.Tree) {m : NodeId}
    (hm : m ∈ stack) : k.rank m < k.rank n := by
  induction stack generalizing n with
  | nil => cases hm
  | cons p l ih =>
    cases a with
    | push around rest =>
      have above := Graph.rank_lt w around
      rcases List.mem_cons.1 hm with rfl | hm
      · exact above
      · exact (ih rest hm).trans above

theorem Nest.not_mem {n : NodeId} (a : Nest k (n :: stack)) (w : k.Tree) : n ∉ stack :=
  fun hn => lt_irrefl _ (a.rank_lt w hn)

theorem Nest.congr {h : Graph} (a : Nest k stack) (root : h.root = k.root)
    (around : ∀ m p, k.around? m = some p → h.around? m = some p) : Nest h stack := by
  induction a with
  | nil => exact .nil
  | root =>
    rw [← root]
    exact .root
  | push ha _ ih => exact .push (around _ _ ha) ih

theorem Nest.isSome_contents? (a : Nest k stack) (w : k.Tree) {m : NodeId} (hm : m ∈ stack.tail) :
    (k.contents? m).isSome := by
  induction a with
  | nil => cases hm
  | root => cases hm
  | push around rest ih =>
    rcases List.mem_cons.1 hm with rfl | hm
    · exact isSome_contents?_of_around? w around
    · exact ih hm

/-! ### Sketches -/

/-- What `m` stands for in a copy with the root `r`: the root for the root, any other for itself. -/
def origin (g : Graph) (r m : NodeId) : NodeId := if m = r then g.root else m

theorem origin_self (g : Graph) (r : NodeId) : g.origin r r = g.root := if_pos rfl

theorem origin_of_ne {m : NodeId} (hm : m ≠ r) : g.origin r m = m := if_neg hm

/-- The port that `p` stands for. -/
def originPort (g : Graph) (r : NodeId) (p : Port) : Port := ⟨g.origin r p.node, p.index⟩

/-- Two nodes of which documents keep the same, but for ports and contents. -/
structure Twin (g k : Graph) (c : NodeId) : Prop where
  name : k.name? c = g.name? c
  note : k.note? c = g.note? c
  typeName : (k.type? c).map NodeType.name = (g.type? c).map NodeType.name
  leaf : k.contents? c = none → k.type? c = g.type? c

/-- `k` is to become a copy of `g` with the root `r`. The networks of `stack` are not finished, each is
in the next, and all but the first are without wires as yet. -/
structure Sketch (g : Graph) (r : NodeId) (stack : List NodeId) (k : Graph) : Prop where
  neat : LawfulWith Neat k
  root : k.root = r
  nest : Nest k stack
  placed : ∀ c p, k.around? c = some p → g.around? c = some (g.origin r p)
  twin : ∀ c p, k.around? c = some p → Twin g k c
  children : ∀ m, (k.contents? m).isSome → m ∉ stack → k.children m = g.children (g.origin r m)
  drawn : ∀ m, k.wires m <+: g.wires (g.origin r m)
  full : ∀ m, (k.contents? m).isSome → m ∉ stack → k.wires m = g.wires (g.origin r m)
  waiting : ∀ m ∈ stack.tail, k.wires m = []
  boundary : ∀ b t, (k.contents? b.node).isSome → k.peer? b = some t → ∃ c, g.peer? t = some c ∧
    k.declaredType b = g.declaredType c ∧ (b.node ∉ stack → c.index = b.index)

namespace Sketch
variable (s : Sketch g r stack k) (w : g.Lawful)
include s

theorem wellFormed : k.WellFormed := s.neat.lawful.wellFormed

theorem tree : k.Tree := s.wellFormed.tree

theorem standard : k.Standard := s.neat.holds.standard

theorem ne_root {c p : NodeId} (hc : k.around? c = some p) : c ≠ r := by
  rintro rfl
  rw [← s.root, s.tree.root] at hc
  cases hc

theorem origin_child {c p : NodeId} (hc : k.around? c = some p) : g.origin r c = c :=
  origin_of_ne (s.ne_root hc)

theorem originPort_child {p : Port} {n : NodeId} (hp : k.around? p.node = some n) :
    g.originPort r p = p := by
  rw [originPort, s.origin_child hp]

/-- A node that is not the root stands somewhere. -/
theorem root_or_child {n : NodeId} (live : (k.type? n).isSome) :
    n = r ∨ ∃ p, k.around? n = some p := by
  cases hp : k.around? n with
  | none => exact .inl ((s.tree.orphan n live hp).trans s.root)
  | some p => exact .inr ⟨p, rfl⟩

theorem origin_injective {m n : NodeId} (hm : (k.type? m).isSome) (hn : (k.type? n).isSome)
    (eq : g.origin r m = g.origin r n) (w : g.Tree) : m = n := by
  have apart {m p : NodeId} (hp : k.around? m = some p) : g.root ≠ m := by
    rintro rfl
    have := s.placed _ _ hp
    rw [w.root] at this
    cases this
  rcases s.root_or_child hm with rfl | ⟨p, hp⟩ <;> rcases s.root_or_child hn with rfl | ⟨q, hq⟩
  · rfl
  · rw [origin_self, s.origin_child hq] at eq
    exact absurd eq (apart hq)
  · rw [origin_self, s.origin_child hp] at eq
    exact absurd eq.symm (apart hp)
  · rwa [s.origin_child hp, s.origin_child hq] at eq

theorem feeds {o i : Port} (hf : k.Feeds o i) : g.Feeds o i := by
  obtain ⟨m, hm⟩ := hf
  exact ⟨_, (s.drawn m).subset hm⟩

theorem name_of_child {c p : NodeId} (hc : k.around? c = some p) : k.name? c = g.name? c :=
  (s.twin c p hc).name

include w

/-- A node is a network if the one that it stands for is. -/
theorem isSome_contents? {n : NodeId} (live : (k.type? n).isSome) :
    (k.contents? n).isSome ↔ (g.contents? (g.origin r n)).isSome := by
  rcases s.root_or_child live with rfl | ⟨p, hp⟩
  · rw [origin_self]
    refine ⟨fun _ => w.wellFormed.tree.rootNetwork, fun _ => ?_⟩
    rw [← s.root]
    exact s.tree.rootNetwork
  · rw [s.origin_child hp]
    obtain ⟨t, ht⟩ := Option.isSome_iff_exists.1 live
    have same := (s.twin n p hp).typeName
    rw [ht, Option.map_some] at same
    obtain ⟨u, hu, name⟩ := Option.map_eq_some_iff.1 same.symm
    rw [s.tree.kind n t ht, w.wellFormed.tree.kind n u hu, name]

theorem terminal {t : Port} {n : NodeId} (ht : k.around? t.node = some n) :
    k.terminal? t = g.terminal? t := by
  have live := isSome_type?_of_around? ht
  cases inside : k.contents? t.node with
  | none =>
    have type := (s.twin _ _ ht).leaf inside
    have attr : k.attr? t = g.attr? t := by rw [attr?_eq, type, attr?_eq]
    exact terminal?_congr (by rw [type]) (by rw [direction?_eq, attr, direction?_eq])
  | some x =>
    have there := (s.isSome_contents? w live).1 (by rw [inside]; rfl)
    rw [s.origin_child ht] at there
    rw [terminal?_of_contents? s.tree (by rw [inside]; rfl),
      terminal?_of_contents? w.wellFormed.tree there]

/-- The peer of a network port stands in the network, and so does what it stands for. -/
theorem faces {b t : Port} (inside : (k.contents? b.node).isSome) (hb : k.peer? b = some t) :
    ∃ side, k.terminal? t = some side ∧ k.direction? b = some side ∧ k.around? t.node = some b.node ∧
      g.terminal? t = some side := by
  obtain ⟨side, ht, hd, ha⟩ := faces_of_contents? s.wellFormed hb inside
  exact ⟨side, ht, hd, ha, by rw [← s.terminal w ha, ht]⟩

theorem node_of_peer {b c t : Port} (inside : (k.contents? b.node).isSome) (hb : k.peer? b = some t)
    (hc : g.peer? t = some c) : c.node = g.origin r b.node := by
  obtain ⟨side, -, -, around, terminal⟩ := s.faces w inside hb
  obtain ⟨-, -, -, there⟩ := faces_of_terminal? w.wellFormed hc (by rw [terminal]; rfl)
  rw [s.placed _ _ around, Option.some.injEq] at there
  exact there.symm

/-- A network with all wires has a peer for every terminal that has one in the model. -/
theorem peer_of_wired {n : NodeId} {j : Nat} {t : Port} (inside : (k.contents? n).isSome)
    (children : k.children n = g.children (g.origin r n)) (wires : k.wires n = g.wires (g.origin r n))
    (hb : g.peer? ⟨g.origin r n, j⟩ = some t) : ∃ i, k.peer? ⟨n, i⟩ = some t := by
  have there := (s.isSome_contents? w (isSome_type?_of_contents? inside)).1 inside
  obtain ⟨side, ht, -, ha⟩ := faces_of_contents? w.wellFormed hb there
  have back := w.wellFormed.linked.back _ _ hb
  have child : k.around? t.node = some n := by
    rw [← s.tree.child, children, w.wellFormed.tree.child]
    exact ha
  have connected : k.Connected t := by
    obtain ⟨q, hq⟩ := (w.fitted t (by rw [ht]; rfl)).1 (by rw [back]; rfl)
    have here {m : NodeId} {e : Edge} (he : e ∈ g.wires m) (hm : g.around? t.node = some m) :
        e ∈ k.wires n := by
      rw [ha, Option.some.injEq] at hm
      rw [wires]
      change g.origin r n = m at hm
      rwa [hm]
    refine ⟨q, hq.imp ?_ ?_⟩ <;> rintro ⟨m, hm⟩
    · exact ⟨_, here hm (w.wellFormed.wired.outputAround _ _ hm)⟩
    · exact ⟨_, here hm (w.wellFormed.wired.inputAround _ _ hm)⟩
  have terminal : (k.terminal? t).isSome := by rw [s.terminal w child, ht]; rfl
  obtain ⟨b, hb'⟩ := Option.isSome_iff_exists.1 ((s.neat.lawful.fitted t terminal).2 connected)
  obtain ⟨-, -, -, around⟩ := faces_of_terminal? s.wellFormed hb' terminal
  rw [child, Option.some.injEq] at around
  subst around
  exact ⟨b.index, s.wellFormed.linked.back _ _ hb'⟩

section Finished
variable {b t : Port} (inside : (k.contents? b.node).isSome) (done : b.node ∉ stack)
include inside done

theorem peer_there (hb : k.peer? b = some t) : g.peer? (g.originPort r b) = some t ∧
    k.declaredType b = g.declaredType (g.originPort r b) := by
  obtain ⟨c, hc, type, index⟩ := s.boundary b t inside hb
  have place : c = g.originPort r b :=
    congrArg₂ Port.mk (s.node_of_peer w inside hb hc) (index done)
  rw [← place]
  exact ⟨w.wellFormed.linked.back _ _ hc, type⟩

/-- A finished network has a port wherever its model has one. -/
theorem peer_here (hb : g.peer? (g.originPort r b) = some t) : k.peer? b = some t := by
  have children := s.children _ inside done
  obtain ⟨i, hi⟩ := s.peer_of_wired w inside children (s.full _ inside done) hb
  obtain ⟨c, hc, -, index⟩ := s.boundary ⟨b.node, i⟩ t inside hi
  rw [w.wellFormed.linked.back _ _ hb, Option.some.injEq] at hc
  have place : i = b.index := (index done).symm.trans (congrArg Port.index hc).symm
  rwa [place] at hi

end Finished

/-- What is finished looks like what it stands for. -/
theorem face (d : g.Standard) {p : Port} (live : (k.type? p.node).isSome) (done : p.node ∉ stack) :
    (k.attr? p).map Attribute.face = (g.attr? (g.originPort r p)).map Attribute.face := by
  cases inside : k.contents? p.node with
  | none =>
    rcases s.root_or_child live with root | ⟨n, hn⟩
    · have := s.tree.rootNetwork
      rw [s.root, ← root, inside] at this
      cases this
    · rw [s.originPort_child hn, attr?_eq, (s.twin _ _ hn).leaf inside, attr?_eq]
  | some x =>
    have inside : (k.contents? p.node).isSome := by rw [inside]; rfl
    have there := (s.isSome_contents? w live).1 inside
    cases ha : k.attr? p with
    | none =>
      cases hb : g.attr? (g.originPort r p) with
      | none => rfl
      | some b =>
        obtain ⟨t, ht⟩ := Option.isSome_iff_exists.1 (d.projected _ there (by rw [hb]; rfl))
        have := isSome_attr?_of_peer? k (s.peer_here w inside done ht)
        simp [ha] at this
    | some a =>
      obtain ⟨t, ht⟩ := Option.isSome_iff_exists.1 (s.standard.projected p inside (by rw [ha]; rfl))
      obtain ⟨hg, type⟩ := s.peer_there w inside done ht
      obtain ⟨side, -, direction, around, terminal⟩ := s.faces w inside ht
      obtain ⟨side', terminal', direction', -⟩ := faces_of_contents? w.wellFormed hg there
      obtain ⟨b, hb⟩ := Option.isSome_iff_exists.1 (isSome_attr?_of_peer? g hg)
      have name := (s.standard.named p t ht inside).trans
        ((s.name_of_child around).trans (d.named _ t hg there).symm)
      rw [terminal, Option.some.injEq] at terminal'
      rw [direction?_eq, ha, Option.map_some, Option.some.injEq] at direction
      rw [direction?_eq, hb, Option.map_some, Option.some.injEq] at direction'
      rw [ha, hb, Option.map_some, Option.map_some, Option.some.injEq] at name
      rw [declaredType_eq, declaredType_eq, ha, hb] at type
      have serial := (s.standard.serial p a inside ha).trans (d.serial _ b there hb).symm
      rw [hb, Option.map_some, Option.map_some, Option.some.injEq, Attribute.face, Attribute.face]
      congr 1
      exact direction.trans (terminal'.trans direction'.symm)

section Child
variable {p : Port} {n : NodeId} (d : g.Standard) (hp : k.around? p.node = some n)
  (done : p.node ∉ stack)
include d hp done

theorem face_child : (k.attr? p).map Attribute.face = (g.attr? p).map Attribute.face := by
  rw [s.face w d (isSome_type?_of_around? hp) done, s.originPort_child hp]

theorem direction : k.direction? p = g.direction? p := by
  have := congrArg (Option.map Attribute.direction) (s.face_child w d hp done)
  rw [Option.map_map, Option.map_map] at this
  rw [direction?_eq, direction?_eq]
  exact this

theorem portName : (k.attr? p).map Attribute.name = (g.attr? p).map Attribute.name := by
  have := congrArg (Option.map Attribute.name) (s.face_child w d hp done)
  rwa [Option.map_map, Option.map_map] at this

theorem declaredType : k.declaredType p = g.declaredType p := by
  have bind (o : Option Attribute) : o.bind Attribute.type = (o.map Attribute.face).bind Attribute.type := by
    cases o <;> rfl
  rw [declaredType_eq, declaredType_eq, bind, s.face_child w d hp done, ← bind]

end Child

/-! ### Flow -/

omit w

/-- Nothing flows through a network that has no wires around it yet. -/
theorem dead_end {p q z : Port} (inside : (k.contents? z.node).isSome) (hz : z.node ∈ stack)
    (hp : k.Flows p z) (hq : k.Flows z q) : False := by
  have unwired {m : NodeId} (hm : k.around? z.node = some m) : k.wires m = [] :=
    s.waiting m (s.nest.up s.tree hz hm)
  have output : k.direction? z = some .output := by
    rcases hp with hp | ⟨m, hm⟩ | ⟨hd, hp⟩
    · have := s.standard.apart _ _ hp
      rw [hp.1] at this
      simp [this] at inside
    · have := unwired (s.wellFormed.wired.inputAround m _ hm)
      simp [this] at hm
    · exact peer_direction s.wellFormed hp hd
  rcases hq with hq | ⟨m, hm⟩ | ⟨hd, -⟩
  · have := s.standard.apart _ _ hq
    simp [this] at inside
  · have := unwired (s.wellFormed.wired.outputAround m _ hm)
    simp [this] at hm
  · rw [output] at hd
    cases hd

include w

theorem flows (d : g.Standard) (open_ : r ∈ stack) {p q : Port} (hp : p.node ∉ stack)
    (hq : q.node ∉ stack) (hf : k.Flows p q) : g.Flows p q := by
  have child {z : Port} (live : (k.direction? z).isSome) (hz : z.node ∉ stack) :
      ∃ n, k.around? z.node = some n := by
    obtain ⟨x, hx⟩ := Option.isSome_iff_exists.1 live
    obtain ⟨t, ht⟩ := exists_type?_of_direction? hx
    refine (s.root_or_child (by rw [ht]; rfl)).resolve_left ?_
    intro h
    exact hz (h ▸ open_)
  obtain ⟨n, hn⟩ := child (hf.isSome_left s.wellFormed) hp
  rcases hf with ⟨node, t, ht, pair⟩ | hf | ⟨hd, hpq⟩
  · have leaf := s.standard.apart p q ⟨node, t, ht, pair⟩
    rw [(s.twin _ _ hn).leaf leaf] at ht
    exact .inl ⟨node, t, ht, pair⟩
  · exact .inr (.inl (s.feeds hf))
  · refine .inr (.inr ⟨by rw [← s.direction w d hn hp, hd], ?_⟩)
    rcases s.wellFormed.linked.faces _ _ hpq with f | f
    · have inside := f.isSome_contents? s.tree
      have back := (s.peer_there w inside hq (s.wellFormed.linked.back _ _ hpq)).1
      obtain ⟨m, hm⟩ := child (by
        rw [isSome_direction?_iff]
        exact isSome_attr?_of_peer? k (s.wellFormed.linked.back _ _ hpq)) hq
      rw [s.originPort_child hm] at back
      exact w.wellFormed.linked.back _ _ back
    · have there := (s.peer_there w (f.isSome_contents? s.tree) hp hpq).1
      rwa [s.originPort_child hn] at there

/-- A way from one finished node to another is a way in the model. -/
theorem reaches (d : g.Standard) (open_ : r ∈ stack)
    (networks : ∀ m ∈ stack, (k.contents? m).isSome) {p q : Port} (hp : p.node ∉ stack)
    (hq : q.node ∉ stack) (path : Relation.ReflTransGen k.Flows p q) :
    Relation.ReflTransGen g.Flows p q := by
  induction path with
  | refl => exact .refl
  | @tail y z before last ih =>
    by_cases hy : y.node ∈ stack
    · rcases before.cases_tail with rfl | ⟨x, -, into⟩
      · exact absurd hy hp
      · exact (s.dead_end (networks _ hy) hy into last).elim
    · exact (ih hy).tail (s.flows w d open_ hy hq last)

end Sketch
end Graph
end Dataflow
