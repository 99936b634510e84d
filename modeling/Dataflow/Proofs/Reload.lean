import Dataflow.Proofs.Honest
import Dataflow.Proofs.Replay
set_option autoImplicit false

/-!
Loading a document of a graph. Main statement: a graph whose document is loaded again, by a registry
that knows all types in it, becomes a graph with the same document, unless it owes a wire or the type
of a network port to something that is gone, or holds a value that agrees with a default but is written
in another way.
-/

namespace Dataflow.Graph
variable {g k h : Graph} {r n : NodeId} {stack : List NodeId} {reg : Registry}

/-! ### All values of a network -/

section Values
variable (b : g.Buildable) (readable : g.Readable) (s : Draft g r (n :: stack) k)

/-- A value that documents keep stands in the document of its node. -/
theorem exists_entry (w : g.Lawful) (suited : g.Suited) {p : Port} (kept : g.Kept p) :
    ∃ e ∈ g.keptTable p.node, g.entry p = some e := by
  obtain ⟨t, ht⟩ := Option.isSome_iff_exists.1 kept.typed
  have held := suited.declared p t ht
  rw [heldType_eq_value, Option.map_eq_some_iff] at held
  obtain ⟨x, hx, -⟩ := held
  obtain ⟨a, ha, -⟩ := isSome_attr?_of_direction? kept.input
  have he : g.entry p = some (a.name, x.toJson) :=
    (entry_eq_some_iff w suited).2 ⟨kept, by rw [ha]; rfl, by rw [written, hx]; rfl⟩
  refine ⟨_, ?_, he⟩
  have low := g.getElem?_portNames p.node p.index
  rw [ha] at low
  rw [keptTable_eq, List.mem_filterMap]
  exact ⟨p.index, List.mem_range.2 (List.getElem?_eq_some_iff.1 low).1, he⟩

include b readable s

theorem Draft.loadTable (f : Filling g n k h) {c : NodeId} (hc : k.around? c = some n) :
    ∃ h', ((g.keptTable c).forM fun p => Graph.loadValue c p.1 p.2).apply h = (.ok (), h') ∧
      Filling g n k h' ∧ (∀ q, Restored g h q → Restored g h' q) ∧
      ∀ i, g.Kept ⟨c, i⟩ → Restored g h' ⟨c, i⟩ := by
  let Done (e : String × Json) (h' : Graph) : Prop :=
    ∀ i, g.entry ⟨c, i⟩ = some e → Restored g h' ⟨c, i⟩
  obtain ⟨h', ok, -, f', still, all⟩ := Edit.forM_ok
    (fun e => Graph.loadValue c e.1 e.2)
    (fun rest h' => (∀ e ∈ rest, e ∈ g.keptTable c) ∧ Filling g n k h' ∧
      (∀ q, Restored g h q → Restored g h' q) ∧ ∀ e ∈ g.keptTable c, e ∈ rest ∨ Done e h')
    (fun e rest h₁ ⟨sub, f₁, still, all⟩ => by
      have there := sub e List.mem_cons_self
      rw [keptTable_eq, List.mem_filterMap] at there
      obtain ⟨i, -, he⟩ := there
      obtain ⟨h₂, ok, f₂, stored, others⟩ := s.loadValue b readable f₁ (p := ⟨c, i⟩) hc he
      have still₂ (q : Port) (hq : Restored g h₁ q) : Restored g h₂ q := by
        by_cases hqi : q = ⟨c, i⟩
        · rw [hqi]
          exact stored
        · exact hq.congr (others q hqi)
      refine ⟨h₂, ok, fun e' he' => sub e' (List.mem_cons_of_mem _ he'), f₂,
        fun q hq => still₂ q (still q hq), fun e' he' => ?_⟩
      rcases all e' he' with here | done
      · rcases List.mem_cons.1 here with rfl | here
        · -- the name of the port tells which one it is
          refine .inr fun j hj => ?_
          have first := ((entry_eq_some_iff b.lawful b.toSuited).1 he).2.1
          have second := ((entry_eq_some_iff b.lawful b.toSuited).1 hj).2.1
          rw [index_of_name b.lawful.wellFormed second first]
          exact stored
        · exact .inl here
      · exact .inr fun j hj => still₂ _ (done j hj))
    (g.keptTable c) h ⟨fun _ he => he, f, fun _ hq => hq, fun _ he => .inl he⟩
  refine ⟨h', ok, f', still, fun i kept => ?_⟩
  obtain ⟨e, he, entry⟩ := exists_entry b.lawful b.toSuited kept
  exact (all e he).elim nofun fun done => done i entry

/-- All values of the model are stored at the nodes of a network. -/
theorem Draft.loadValues {l : List (NodeId × NodeDocument)}
    (docs : ∀ x ∈ l, k.around? x.1 = some n ∧ x.2.ports = g.keptTable x.1) :
    ∃ h, (loadTables l).apply k = (.ok (), h) ∧ Filled n k h ∧
      ∀ x ∈ l, ∀ i, g.Kept ⟨x.1, i⟩ → Restored g h ⟨x.1, i⟩ := by
  obtain ⟨h, ok, -, f, all⟩ := Edit.forM_ok
    (fun x => x.2.ports.forM fun p => Graph.loadValue x.1 p.1 p.2)
    (fun rest h => (∀ x ∈ rest, x ∈ l) ∧ Filling g n k h ∧ ∀ x ∈ l,
      x ∈ rest ∨ ∀ i, g.Kept ⟨x.1, i⟩ → Restored g h ⟨x.1, i⟩)
    (fun x rest h₁ ⟨sub, f₁, all⟩ => by
      obtain ⟨hc, ports⟩ := docs x (sub x List.mem_cons_self)
      obtain ⟨h₂, ok, f₂, still, stored⟩ := s.loadTable b readable f₁ hc
      refine ⟨h₂, by rw [ports]; exact ok, fun y hy => sub y (List.mem_cons_of_mem _ hy), f₂,
        fun y hy => ?_⟩
      rcases all y hy with here | done
      · rcases List.mem_cons.1 here with rfl | here
        · exact .inr stored
        · exact .inl here
      · exact .inr fun i kept => still _ (done i kept))
    l k ⟨fun _ hx => hx, ⟨.refl s.neat, fun _ _ => .inl rfl⟩, fun _ hx => .inl hx⟩
  exact ⟨h, ok, f.toFilled, fun x hx => (all x hx).elim nofun id⟩

end Values

/-! ### Networks in one another -/

/-- Nothing has come to the networks of `stack` or gone from them. -/
def Untouched (stack : List NodeId) (k h : Graph) : Prop :=
  ∀ m ∈ stack, h.children m = k.children m ∧ h.wires m = k.wires m

theorem Untouched.trans {k' : Graph} (a : Untouched stack k k') (b : Untouched stack k' h) :
    Untouched stack k h := fun m hm =>
  ⟨(b m hm).1.trans (a m hm).1, (b m hm).2.trans (a m hm).2⟩

/-- All that can be said of a graph whose document is to be loaded. -/
structure Loadable (reg : Registry) (g : Graph) : Prop extends Buildable g where
  known : reg.Knows g
  readable : g.Readable

/-- The networks of the model that have documents of so many levels can be loaded into empty ones. -/
def Loads (reg : Registry) (g : Graph) (r : NodeId) (levels : Nat) : Prop :=
  ∀ n d k stack, g.saveWithin levels (g.origin r n) = .ok d → Draft g r (n :: stack) k →
    (k.contents? n).isSome → k.children n = [] → k.wires n = [] →
    (loadInto reg n d).Goes (¬ Copyable g r) (fun _ h => Draft g r stack h ∧ Untouched stack k h) k

section Load
variable (b : Loadable reg g) {levels : Nat} (ih : Loads reg g r levels)
include b ih

/-- A node comes with all that is in it. -/
theorem Draft.loadNode (s : Draft g r (n :: stack) k) (inside : (k.contents? n).isSome) {c : NodeId}
    {name : String} {d : NodeDocument} (hc : c ∈ g.children (g.origin r n)) (new : c ∉ k.children n)
    (bare : k.wires n = []) (saved : g.SavedAs levels c name d) :
    (loadNode reg n name d).Goes (¬ Copyable g r) (fun c' h => c' = c ∧ Draft g r (n :: stack) h ∧
      h.children n = k.children n ++ [c] ∧ h.wires n = [] ∧ Untouched stack k h) k := by
  rw [loadNode_eq]
  refine (s.add b.toBuildable b.known b.readable inside hc new saved.name saved bare).bind ?_
  rintro ⟨t, c'⟩ h ⟨same, known, draft, children, wires, networks, contents⟩
  obtain rfl : c' = c := same
  have own : Untouched stack k h := fun m hm => by
    have ne : m ≠ n := fun e => s.nest.not_mem s.tree (e ▸ hm)
    exact ⟨by rw [children, if_neg ne], by rw [wires]⟩
  cases nested : g.contents? c' with
  | none =>
    rw [nested] at contents
    have leaf : h.contents? c' = none := contents
    have finished : Draft g r (n :: stack) h := by
      refine draft.close (.refl draft.neat) (fun hin => ?_) fun p hp => ?_
      · simp [leaf] at hin
      · have := isSome_contents?_of_around? draft.tree hp
        simp [leaf] at this
    refine .ok c' h ?_ ⟨rfl, finished, by rw [children, if_pos rfl], by rw [wires, bare], own⟩
    rw [saved.leaf nested]
    rfl
  | some x =>
    have network : (g.contents? c').isSome := by rw [nested]; rfl
    obtain ⟨d', hd', saved'⟩ := saved.inner network
    rw [if_pos network] at contents
    have around : h.around? c' = some n := by
      rw [← draft.tree.child, children, if_pos rfl]
      simp
    have run : loadContents reg t c' d.network = loadInto reg c' d' := by
      rw [hd', loadContents, if_pos (known.network.2 network)]
    rw [run]
    refine (ih c' d' h (n :: stack) (by rwa [draft.origin_child around]) draft (by rw [contents]; rfl)
      (by rw [Graph.children, contents]; rfl) (by rw [Graph.wires, contents]; rfl)).bind ?_
    rintro _ h' ⟨finished, untouched⟩
    have top := untouched n List.mem_cons_self
    exact .ok c' h' rfl ⟨rfl, finished, by rw [top.1, children, if_pos rfl], by rw [top.2, wires, bare],
      own.trans fun m hm => untouched m (List.mem_cons_of_mem _ hm)⟩

theorem Draft.loadNodes {cs : List NodeId} {l : List (String × NodeDocument)}
    (docs : List.Forall₂ (fun c e => g.SavedAs levels c e.1 e.2) cs l)
    (s : Draft g r (n :: stack) k) (inside : (k.contents? n).isSome) (bare : k.wires n = [])
    (next : g.children (g.origin r n) = k.children n ++ cs) :
    (loadNodes reg n l).Goes (¬ Copyable g r) (fun loaded h => loaded = cs.zip (l.map Prod.snd) ∧
      Draft g r (n :: stack) h ∧ (h.contents? n).isSome ∧
      h.children n = g.children (g.origin r n) ∧ h.wires n = [] ∧ Untouched stack k h) k := by
  induction docs generalizing k with
  | nil =>
    exact .ok [] k rfl ⟨rfl, s, inside, by rw [next, List.append_nil], bare, fun _ _ => ⟨rfl, rfl⟩⟩
  | @cons c e cs l doc _ rest =>
    have nodup := b.lawful.wellFormed.tree.nodup (g.origin r n)
    rw [next] at nodup
    have new : c ∉ k.children n := fun hc =>
      (List.nodup_append.1 nodup).2.2 c hc c List.mem_cons_self rfl
    rw [Graph.loadNodes]
    refine (s.loadNode b ih inside (by rw [next]; simp) new bare doc).bind ?_
    rintro c' h ⟨rfl, draft, children, wires, untouched⟩
    have inside' : (h.contents? n).isSome :=
      isSome_contents?_of_mem_children (c := c') (by rw [children]; simp)
    refine (rest draft inside' wires (by rw [children, next, List.append_assoc]; rfl)).bind ?_
    rintro _ h' ⟨rfl, draft', inside'', children', wires', untouched'⟩
    exact .ok _ h' rfl ⟨rfl, draft', inside'', children', wires', untouched.trans untouched'⟩

end Load

/-- By induction on the levels, each network is loaded with those in it. -/
theorem loads (b : Loadable reg g) (r : NodeId) (levels : Nat) : Loads reg g r levels := by
  induction levels with
  | zero =>
    intro n d k stack saved
    cases saved
  | succ levels ih =>
    intro n d k stack saved s inside empty bare
    obtain ⟨-, nodes, connections, boundary⟩ := (saveWithin_succ_iff g).1 saved
    obtain ⟨ns, cs, names⟩ := d
    cases boundary
    rw [loadInto]
    refine (s.loadNodes b ih nodes inside bare (by rw [empty]; rfl)).bind ?_
    rintro _ h₁ ⟨rfl, s₁, inside₁, children₁, bare₁, untouched₁⟩
    refine (s₁.loadConnections b.toBuildable inside₁ children₁ bare₁ connections).bind ?_
    rintro _ h₂ ⟨s₂, tree₂, wires₂, others₂⟩
    have inside₂ : (h₂.contents? n).isSome := by rwa [tree₂.network]
    obtain ⟨h₃, ok₃, s₃, tended₃, complete₃⟩ := s₂.arrange b.toBuildable inside₂
      (by rw [tree₂.children, children₁]) wires₂
    have tables : List.Forall₂ (fun c x => x.ports = g.keptTable c) (g.children (g.origin r n))
        (ns.map Prod.snd) :=
      List.forall₂_map_right_iff.2 (nodes.imp fun _ _ saved => saved.ports)
    have child (c : NodeId) : h₃.around? c = some n ↔ c ∈ g.children (g.origin r n) := by
      rw [← s₃.tree.child, complete₃.children]
    obtain ⟨h₄, ok₄, filled, kept⟩ := s₃.loadValues b.toBuildable b.readable
      (l := (g.children (g.origin r n)).zip (ns.map Prod.snd)) fun x hx =>
        ⟨(child x.1).2 (List.of_mem_zip hx).1, (List.forall₂_iff_zip.1 tables).2 hx⟩
    have apart (m : NodeId) (hm : m ∈ stack) : m ≠ n := fun e => s.nest.not_mem s.tree (e ▸ hm)
    have others : Untouched stack h₁ h₄ := fun m hm => by
      rw [filled.frame.children, filled.frame.wires, tended₃.tree.children,
        tended₃.wires m (apart m hm), tree₂.children, others₂ m (apart m hm)]
      exact ⟨rfl, rfl⟩
    refine .step_bind (Edit.apply_step_ok ok₃) (.ok ⟨⟩ h₄ ok₄
      ⟨s₃.close filled (fun _ => complete₃) fun p hp keep => ?_, untouched₁.trans others⟩)
    have all := List.map_fst_zip (List.Forall₂.length_eq tables).le
    obtain ⟨x, hx, same⟩ := List.mem_map.1 (all.symm ▸ (child p.node).1 hp)
    obtain ⟨c, i⟩ := p
    cases same
    exact kept x hx i keep

/-! ### The document of a copy -/

section Save
variable (b : g.Buildable) (s : Draft g r [] k)
include b s

theorem Draft.portNames (live : (k.type? n).isSome) : k.portNames n = g.portNames (g.origin r n) := by
  refine List.ext_getElem? fun i => ?_
  have same := congrArg (Option.map Attribute.name)
    (s.face b.lawful b.standard (p := ⟨n, i⟩) live List.not_mem_nil)
  rw [Option.map_map, Option.map_map] at same
  rw [getElem?_portNames, getElem?_portNames]
  exact same

section Child
variable {c : NodeId} (hc : k.around? c = some n)
include hc

theorem Draft.isSome_contents?_child : (k.contents? c).isSome ↔ (g.contents? c).isSome := by
  rw [s.isSome_contents? b.lawful (isSome_type?_of_around? hc), s.origin_child hc]

theorem Draft.feeds_child {o : Port} {i : Nat} : k.Feeds o ⟨c, i⟩ ↔ g.Feeds o ⟨c, i⟩ := by
  refine ⟨s.feeds, fun ⟨m, hm⟩ => ⟨n, ?_⟩⟩
  have around := b.lawful.wellFormed.wired.inputAround m _ hm
  rw [s.placed c n hc, Option.some.injEq] at around
  rw [s.full n (isSome_contents?_of_around? s.tree hc) List.not_mem_nil, around]
  exact hm

theorem Draft.kept_iff (i : Nat) : k.Kept ⟨c, i⟩ ↔ g.Kept ⟨c, i⟩ := by
  have input := s.direction b.lawful b.standard (p := ⟨c, i⟩) hc List.not_mem_nil
  have type := s.declaredType b.lawful b.standard (p := ⟨c, i⟩) hc List.not_mem_nil
  have serial := congrArg (Option.map Attribute.serializable)
    (s.face_child b.lawful b.standard (p := ⟨c, i⟩) hc List.not_mem_nil)
  rw [Option.map_map, Option.map_map] at serial
  have source : k.source? ⟨c, i⟩ = g.source? ⟨c, i⟩ := by
    refine Option.ext fun o => ?_
    rw [source?_eq_some_iff s.wellFormed.wired, source?_eq_some_iff b.lawful.wellFormed.wired]
    exact s.feeds_child b hc
  exact ⟨fun a => ⟨input ▸ a.input, serial ▸ a.serial, type ▸ a.typed, source ▸ a.free⟩,
    fun a => ⟨input ▸ a.input, serial ▸ a.serial, type ▸ a.typed, source ▸ a.free⟩⟩

section Written
variable (discernible : g.Discernible)
include discernible

omit b in
/-- What agrees is written alike. -/
theorem Draft.written {i : Nat} (kept : g.Kept ⟨c, i⟩) : k.written ⟨c, i⟩ = g.written ⟨c, i⟩ := by
  obtain ⟨x, y, hx, hy, held⟩ := s.kept ⟨c, i⟩ n List.not_mem_nil hc kept
  rw [Graph.written, held, Graph.written, hy, Option.map_some, Option.map_some]
  split
  · next agrees => rw [discernible _ x y kept hy hx agrees]
  · rfl

theorem Draft.entry (i : Nat) : k.entry ⟨c, i⟩ = g.entry ⟨c, i⟩ := by
  refine Option.ext fun e => ?_
  rw [entry_eq_some_iff s.neat.lawful s.neat.holds.typed.toSuited,
    entry_eq_some_iff b.lawful b.toSuited, s.kept_iff b hc,
    s.portName b.lawful b.standard (p := ⟨c, i⟩) hc List.not_mem_nil]
  refine and_congr_right fun kept => ?_
  rw [s.written hc discernible kept]

theorem Draft.keptTable : k.keptTable c = g.keptTable c := by
  rw [keptTable_eq, keptTable_eq, s.portNames b (isSome_type?_of_around? hc), s.origin_child hc]
  exact List.filterMap_congr fun i _ => s.entry b hc discernible i

theorem Draft.savedAs {levels : Nat} {name : String} {d : NodeDocument}
    (saved : g.SavedAs levels c name d)
    (inner : ∀ e, (k.contents? c).isSome → g.saveWithin levels (g.origin r c) = .ok e →
      k.saveWithin levels c = .ok e) : k.SavedAs levels c name d := by
  have twin := s.twin c n hc
  have network := s.isSome_contents?_child b hc
  refine ⟨by rw [twin.name, saved.name], by rw [twin.typeName, saved.typeName], saved.id,
    by rw [s.keptTable b hc discernible, saved.ports], by rw [twin.note, saved.attachment],
    fun leaf => ?_, fun inside => ?_⟩
  · refine saved.leaf (Option.not_isSome_iff_eq_none.1 fun h => ?_)
    rw [← network, leaf] at h
    cases h
  · obtain ⟨e, he, saved'⟩ := saved.inner (network.1 inside)
    exact ⟨e, he, inner e inside (by rwa [s.origin_child hc])⟩

end Written
end Child

/-- A finished copy has the documents of its model. -/
theorem Draft.saves (discernible : g.Discernible) {levels : Nat} {d : NetworkDocument}
    (inside : (k.contents? n).isSome) (saved : g.saveWithin levels (g.origin r n) = .ok d) :
    k.saveWithin levels n = .ok d := by
  induction levels generalizing n d with
  | zero => cases saved
  | succ levels ih =>
    obtain ⟨-, nodes, connections, boundary⟩ := (saveWithin_succ_iff g).1 saved
    rw [← s.children n inside List.not_mem_nil] at nodes
    rw [← s.full n inside List.not_mem_nil] at connections
    refine (saveWithin_succ_iff k).2 ⟨inside, ?_, ?_, ?_⟩
    · refine ((List.forall₂_and_left _ _).2 ⟨fun c hc => hc, nodes⟩).imp ?_
      rintro c e ⟨hc, a⟩
      exact s.savedAs b ((s.tree.child n c).1 hc) discernible a fun _ => ih
    · refine ((List.forall₂_and_left _ _).2 ⟨fun e he => he, connections⟩).imp ?_
      rintro e c ⟨he, doc⟩
      have ho := s.wellFormed.wired.outputAround n e he
      have hi := s.wellFormed.wired.inputAround n e he
      rw [connectionDocument_eq_ok_iff] at *
      rwa [s.name_of_child ho, s.name_of_child hi,
        s.portName b.lawful b.standard ho List.not_mem_nil,
        s.portName b.lawful b.standard hi List.not_mem_nil]
    · rw [boundary, s.portNames b (isSome_type?_of_contents? inside)]

end Save

/-! ### The whole graph -/

/-- An empty graph is the start of a copy. -/
theorem draft_create (config : Config) (ids : IdSupply) (marks : Nat) (calls : Table Nat Nat) :
    Draft g (create config ids marks calls).root [(create config ids marks calls).root]
      (create config ids marks calls) := by
  have alone (m : NodeId) (hm : ((create config ids marks calls).contents? m).isSome) :
      m = (create config ids marks calls).root := by
    by_contra ne
    have gone : (create config ids marks calls).node? m = none :=
      (node?_create ..).trans (if_neg ne)
    simp [contents?, gone] at hm
  have noAttr (p : Port) : (create config ids marks calls).attr? p = none := by
    rw [attr?, slot?_create]
    rfl
  have noPeer (p : Port) : (create config ids marks calls).peer? p = none := by
    cases hp : (create config ids marks calls).peer? p with
    | none => rfl
    | some q =>
      have := isSome_attr?_of_peer? _ hp
      simp [noAttr] at this
  refine ⟨⟨⟨lawful_create .., neat_create ..⟩, rfl, .root, ?_, ?_, ?_, ?_, ?_, ?_, ?_⟩, ?_, ?_,
    fun _ => keptByEdits_coherent.start ..⟩
  · intro c p hc
    simp [around?_create] at hc
  · intro c p hc
    simp [around?_create] at hc
  · exact fun m hm done => absurd (List.mem_singleton.2 (alone m hm)) done
  · intro m
    rw [wires_create]
    exact List.nil_prefix
  · exact fun m hm done => absurd (List.mem_singleton.2 (alone m hm)) done
  · exact by simp
  · intro p t _ hp
    simp [noPeer] at hp
  · intro p y _ hy
    rw [value_eq_none (noAttr p)] at hy
    cases hy
  · intro p m _ hp
    simp [around?_create] at hp

/-- No node has the last of all numbers. -/
def Numbered (g : Graph) : Prop := ∀ n p, g.around? n = some p → n.raw.toNat + 1 < 2 ^ 64

/-- The number of the new root is not that of a node in the document. -/
theorem around?_vacant (w : g.WellFormed) (numbered : g.Numbered) {d : NetworkDocument}
    (saved : g.document = .ok d) (config : Config) (f : Graph) :
    g.around? (vacant config d f).root = none := by
  cases hp : g.around? (vacant config d f).root with
  | none => rfl
  | some p =>
    have ne : (vacant config d f).root ≠ g.root := by
      intro h
      rw [h, w.tree.root] at hp
      cases hp
    obtain ⟨x, hx, le⟩ :=
      le_largestId w saved (inside_root w.tree _ (isSome_type?_of_around? hp)) ne
    obtain ⟨c, q, hc, rfl⟩ := exists_of_largestId w saved hx
    have above : c.raw < (f.ids.passOver c.raw).next := f.ids.lt_passOver c.raw (numbered c q hc)
    have root : (vacant config d f).root = ⟨(f.ids.passOver c.raw).next⟩ := by
      rw [vacant, passOverIds, hx]
      rfl
    rw [root] at le
    exact absurd above (UInt64.not_lt.2 le)

/-- What loading of a graph relies on. All but the first three can fail in what clients build. -/
structure Reloadable (reg : Registry) (g : Graph) : Prop where
  known : reg.Knows g
  readable : g.Readable
  numbered : g.Numbered
  suited : g.Suited
  mirrored : g.Mirrored
  leading : g.Leading
  distinct : g.Distinct

theorem Reloadable.loadable (a : Reloadable reg g) (run : StandardRun g) : Loadable reg g where
  toSuited := a.suited
  lawful := (standard_of_run run).lawful
  standard := (standard_of_run run).holds
  acyclic := (acyclic_of_grown (grown_of_standard run)).holds
  mirrored := a.mirrored
  known := a.known
  readable := a.readable

theorem rebuilt (b : Loadable reg g) {d : NetworkDocument} (saved : g.document = .ok d)
    (config : Config) (f : Graph) : (rebuild config reg d).Goes (¬ Copyable g (vacant config d f).root)
      (fun h _ => h.root = (vacant config d f).root ∧ Draft g h.root [] h) f := by
  have start : Draft g (vacant config d f).root [(vacant config d f).root] (vacant config d f) :=
    draft_create ..
  have empty : (vacant config d f).children (vacant config d f).root = [] :=
    List.eq_nil_iff_forall_not_mem.2 fun c hc => by
      rw [start.tree.child, vacant, around?_create] at hc
      cases hc
  have go := loads b (vacant config d f).root (g.nodes.length + 1) _ d _ []
    (by rw [origin_self]; exact saved) start start.tree.rootNetwork empty (wires_create ..)
  cases go with
  | ok _ h ok done =>
    exact .ok h _ (by rw [rebuild_apply, ok]) ⟨done.1.root, done.1.root.symm ▸ done.1⟩
  | error e h stops cause => exact .error e _ (by rw [rebuild_apply, stops]) cause

/-- A graph is restored as a copy of the one that was saved. -/
theorem restored (b : Loadable reg g) {d : NetworkDocument} (saved : g.document = .ok d) (f : Graph) :
    (restore reg d).Goes (¬ Copyable g (vacant f.config d f).root) (fun _ h => Draft g h.root [] h) f := by
  refine .step_bind (Edit.apply_get f) <| (rebuilt b saved f.config f).bind ?_
  rintro h k ⟨-, draft⟩
  have quiet : Quiet h (({ h with journal := k.journal }).emit .cleared) := .of_nodes rfl rfl rfl
  exact .ok ⟨⟩ _ rfl (draft.quiet quiet rfl)

theorem made (b : Loadable reg g) {d : NetworkDocument} (saved : g.document = .ok d) (f : Graph) :
    (ofDocument reg d).Goes (¬ Copyable g (vacant .standard d f).root) (fun _ h => Draft g h.root [] h)
      f := by
  refine (rebuilt b saved .standard f).bind ?_
  rintro h k ⟨-, draft⟩
  have quiet : Quiet h { h with journal := [] } := .of_nodes rfl rfl rfl
  exact .ok ⟨⟩ _ rfl (draft.quiet quiet rfl)

/-- The document of a graph is loaded and saved again without a change. -/
theorem Loadable.reloads (b : Loadable reg g) (leading : g.Leading) (discernible : g.Discernible)
    (numbered : g.Numbered) : ∃ d, g.document = .ok d ∧ ∀ f : Graph,
      (∃ h, (restore reg d).apply f = (.ok (), h) ∧ h.document = .ok d) ∧
      ∃ h, (ofDocument reg d).apply f = (.ok (), h) ∧ h.document = .ok d := by
  obtain ⟨d, saved⟩ := exists_document b.lawful.wellFormed
  have again {h : Graph} (draft : Draft g h.root [] h) : h.document = .ok d := by
    have again : h.saveWithin (g.nodes.length + 1) h.root = .ok d :=
      draft.saves b.toBuildable discernible draft.tree.rootNetwork (by rw [origin_self]; exact saved)
    exact document_of_saveWithin draft.wellFormed again
  have copyable (config : Config) (f : Graph) : ¬¬ Copyable g (vacant config d f).root :=
    not_not_intro ⟨around?_vacant b.lawful.wellFormed numbered saved config f, leading⟩
  refine ⟨d, saved, fun f => ⟨?_, ?_⟩⟩
  · obtain ⟨_, h, ok, draft⟩ := (restored b saved f).sure (copyable f.config f)
    exact ⟨h, ok, again draft⟩
  · obtain ⟨_, h, ok, draft⟩ := (made b saved f).sure (copyable .standard f)
    exact ⟨h, ok, again draft⟩

/-- A document is loaded and saved again without a change, whatever else has been done in the run. -/
theorem reloaded (run : StandardRun g) (a : Reloadable reg g) :
    ∃ d, g.document = .ok d ∧ ∀ f : Graph,
      (∃ h, (restore reg d).apply f = (.ok (), h) ∧ h.document = .ok d) ∧
      ∃ h, (ofDocument reg d).apply f = (.ok (), h) ∧ h.document = .ok d :=
  (a.loadable run).reloads a.leading a.distinct.discernible a.numbered

/-- The network of `inputRelay`, with a number that has been stored from outside. -/
def presetRelay : Graph := (Action.assign ⟨⟨2⟩, 0⟩ (.fresh (.int 5))).after inputRelay

theorem honestRun_presetRelay : HonestRun presetRelay := by
  have fits {t : NodeType} (s : t.Standard) (c : t.Consistent) : Fits t (.ofType t) :=
    ⟨s, c, Datablock.suits_ofType c⟩
  have network := fits NodeType.standard_network (by decide)
  have input := fits NodeType.standard_networkInput (by decide)
  have relay := fits (.of_name sound_relay (by decide) (by decide) (by decide)) (by decide)
  exact .step (.step (.step (.step (.step (.start ..) ⟨network, nofun⟩) ⟨input, nofun⟩) ⟨relay, nofun⟩)
    ⟨trivial, nofun⟩) ⟨trivial, nofun⟩

/-- Knows relays and what networks are made of. -/
def relays : Registry := { Registry.standard with
  nodeTypes := ("relay", relay) :: Registry.standard.nodeTypes }

theorem reloadable_presetRelay : Reloadable relays presetRelay := by
  have w := sorted_of_honestRun honestRun_presetRelay
  have tree := w.lawful.wellFormed.tree
  have known : (presetRelay.nodes.keys, presetRelay.ports) =
      ([⟨1⟩, ⟨2⟩, ⟨3⟩, ⟨4⟩], [⟨⟨2⟩, 0⟩, ⟨⟨3⟩, 0⟩, ⟨⟨4⟩, 0⟩, ⟨⟨4⟩, 1⟩]) := by cbv
  simp only [Prod.mk.injEq] at known
  have nodes {n : NodeId} (live : (presetRelay.type? n).isSome) :
      n = ⟨1⟩ ∨ n = ⟨2⟩ ∨ n = ⟨3⟩ ∨ n = ⟨4⟩ := by
    rw [isSome_type?_iff, known.1] at live
    simpa using live
  have ports {p : Port} (live : (presetRelay.attr? p).isSome) :
      p = ⟨⟨2⟩, 0⟩ ∨ p = ⟨⟨3⟩, 0⟩ ∨ p = ⟨⟨4⟩, 0⟩ ∨ p = ⟨⟨4⟩, 1⟩ := by
    rw [← isSome_direction?_iff, ← mem_ports_iff tree, known.2] at live
    simpa using live
  have values : (presetRelay.value ⟨⟨2⟩, 0⟩, presetRelay.value ⟨⟨3⟩, 0⟩, presetRelay.value ⟨⟨4⟩, 0⟩,
      presetRelay.value ⟨⟨4⟩, 1⟩) = (some (.int 5), some (.int 0), some (.int 0), some (.int 0)) := by cbv
  have peers : (presetRelay.peer? ⟨⟨2⟩, 0⟩, presetRelay.peer? ⟨⟨3⟩, 0⟩, presetRelay.peer? ⟨⟨4⟩, 0⟩,
      presetRelay.peer? ⟨⟨4⟩, 1⟩) = (some ⟨⟨3⟩, 0⟩, some ⟨⟨2⟩, 0⟩, none, none) := by cbv
  have types : (presetRelay.declaredType ⟨⟨2⟩, 0⟩, presetRelay.declaredType ⟨⟨3⟩, 0⟩,
      presetRelay.declaredType ⟨⟨4⟩, 0⟩, presetRelay.declaredType ⟨⟨4⟩, 1⟩) =
      (some .int, none, some .int, some .int) := by cbv
  have defaults : ((presetRelay.attr? ⟨⟨2⟩, 0⟩).bind (·.default.payload?),
      (presetRelay.attr? ⟨⟨3⟩, 0⟩).bind (·.default.payload?),
      (presetRelay.attr? ⟨⟨4⟩, 0⟩).bind (·.default.payload?),
      (presetRelay.attr? ⟨⟨4⟩, 1⟩).bind (·.default.payload?)) =
      (some (.int 0), none, some (.int 0), some (.int 0)) := by cbv
  simp only [Prod.mk.injEq] at values peers types defaults
  have notes {n : NodeId} {x : Payload} (hx : presetRelay.note? n = some x) : False := by
    have all : (presetRelay.note? ⟨1⟩, presetRelay.note? ⟨2⟩, presetRelay.note? ⟨3⟩,
        presetRelay.note? ⟨4⟩) = (none, none, none, none) := by cbv
    simp only [Prod.mk.injEq] at all
    obtain ⟨m, hm, -⟩ := Option.bind_eq_some_iff.1 hx
    rcases nodes (n := n) (by simp [type?, hm]) with rfl | rfl | rfl | rfl <;> simp [all] at hx
  have value {p : Port} {x : Payload} (hx : presetRelay.value p = some x) : x = .int 5 ∨ x = .int 0 := by
    have live : (presetRelay.attr? p).isSome := by
      cases ha : presetRelay.attr? p with
      | none => simp [value_eq_none ha] at hx
      | some a => rfl
    rcases ports live with rfl | rfl | rfl | rfl <;> simp_all
  have default {p : Port} {a : Attribute} {x : Payload} (ha : presetRelay.attr? p = some a)
      (hx : a.default.payload? = some x) : x = .int 0 := by
    rcases ports (p := p) (by rw [ha]; rfl) with rfl | rfl | rfl | rfl <;> simp_all
  refine ⟨⟨fun n t ht leaf => ?_, fun _ _ _ => rfl, fun _ _ hx => (notes hx).elim⟩,
    ⟨fun _ _ hx => (notes hx).elim, fun p x hx => ?_⟩, fun n p hp => ?_, w.holds.typed.toSuited,
    fun p q hd hp => ?_, fun o i free head => ?_, fun p q a y x _ hy ha hx _ agrees => ?_⟩
  · have type : (presetRelay.type? ⟨3⟩, presetRelay.type? ⟨4⟩) = (some .networkInput, some relay) := by cbv
    have inner : ((presetRelay.contents? ⟨1⟩).isSome, (presetRelay.contents? ⟨2⟩).isSome) =
        (true, true) := by cbv
    simp only [Prod.mk.injEq] at type inner
    rcases nodes (n := n) (by rw [ht]; rfl) with rfl | rfl | rfl | rfl
    · simp [leaf] at inner
    · simp [leaf] at inner
    · rw [type.1, Option.some.injEq] at ht
      rw [← ht]
      rfl
    · rw [type.2, Option.some.injEq] at ht
      rw [← ht]
      rfl
  · rcases value hx with rfl | rfl <;> cbv
  · rcases nodes (isSome_type?_of_around? hp) with rfl | rfl | rfl | rfl <;> decide
  · have sides : (presetRelay.direction? ⟨⟨2⟩, 0⟩, presetRelay.effectiveType ⟨⟨3⟩, 0⟩,
        presetRelay.effectiveType ⟨⟨2⟩, 0⟩) = (some .input, some .int, some .int) := by cbv
    simp only [Prod.mk.injEq] at sides
    rcases ports (isSome_attr?_of_peer? _ hp) with rfl | rfl | rfl | rfl <;> simp_all
  · have first : (presetRelay.sinks ⟨⟨3⟩, 0⟩).head? = some ⟨⟨4⟩, 0⟩ := by cbv
    have fed := (mem_sinks_iff w.lawful.wellFormed.wired o i).1 (List.mem_of_mem_head? head)
    rcases ports (fed.isSome_attr? w.lawful.wellFormed.wired).1 with rfl | rfl | rfl | rfl
    · simp [types] at free
    · rw [first, Option.some.injEq] at head
      simp [← head, types]
    · simp [types] at free
    · simp [types] at free
  · rw [default ha hx] at agrees ⊢
    rcases value hy with rfl | rfl
    · cases agrees
    · rfl

/-- A network comes back with the number that had been stored from outside. -/
theorem presetRelay_reloaded : ∃ d, presetRelay.document = .ok d ∧ ∀ f : Graph,
    ∃ h, (restore relays d).apply f = (.ok (), h) ∧ h.document = .ok d := by
  have run : StandardRun presetRelay := .step standardRun_inputRelay trivial
  obtain ⟨d, saved, loaded⟩ := reloaded run reloadable_presetRelay
  exact ⟨d, saved, fun f => (loaded f).1⟩

end Dataflow.Graph
