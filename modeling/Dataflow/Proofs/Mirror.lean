import Dataflow.Proofs.Listening
set_option autoImplicit false

/-!
How far a listener knows the graph. Main statement: whoever listens from the start of a run has the
nodes and the number of the wires right as long as no document has replaced the graph. Where one has,
what came with it is not told, and the listener is right again just when all of that has gone.
-/

namespace Dataflow

/-- Nothing of the node is left after what is told. -/
def Entry.Takes (n : NodeId) (e : Entry) : Prop := e = .event (.nodeRemoved n) ∨ e = .event .cleared

namespace Picture

/-- The wires that are told to come less those that are told to go, since all was cleared. -/
def balance : List Entry → Int
  | [] => 0
  | .event (.connected _ _) :: es => balance es + 1
  | .event (.disconnected _ _) :: es => balance es - 1
  | .event .cleared :: _ => 0
  | _ :: es => balance es

variable {x : Picture} {es : List Entry}

/-- What was in the picture at first is what a listener without that picture lacks, until it goes. -/
theorem mem_replay_iff (follows : x.Follows es) (n : NodeId) :
    (n ∈ (x.replay es).nodes ↔
      n ∈ (blank.replay es).nodes ∨ n ∈ x.nodes ∧ ∀ e ∈ es, ¬ e.Takes n) ∧
    (n ∈ x.nodes → (∀ e ∈ es, ¬ e.Takes n) → n ∉ (blank.replay es).nodes) := by
  induction es with
  | nil => simp [replay, blank]
  | cons e es ih =>
    rcases e with e | p
    · obtain ⟨fits, follows⟩ := follows
      obtain ⟨mem, lacks⟩ := ih follows
      cases e with
      | nodeAdded m =>
        have passes : ¬ (Entry.event (.nodeAdded m)).Takes n := by simp [Entry.Takes]
        simp only [replay, hear, Finset.mem_insert, List.forall_mem_cons, passes, not_false_iff,
          true_and]
        refine ⟨by rw [mem, or_assoc], fun hn untaken => ?_⟩
        rintro (rfl | hb)
        · exact fits (mem.2 (.inr ⟨hn, untaken⟩))
        · exact lacks hn untaken hb
      | nodeRemoved m =>
        have takes : (Entry.event (.nodeRemoved m)).Takes n ↔ n = m := by
          simp [Entry.Takes, eq_comm]
        simp only [replay, hear, Finset.mem_erase, List.forall_mem_cons, takes]
        constructor
        · rw [mem, and_or_left, and_left_comm]
        · rintro hn ⟨-, untaken⟩ ⟨-, hb⟩
          exact lacks hn untaken hb
      | cleared => simp [replay, hear, blank, Entry.Takes]
      | _ => simpa [replay, hear, Entry.Takes] using And.intro mem lacks
    · simpa [replay, Entry.Takes] using ih follows

theorem nodes_replay_eq_iff (follows : x.Follows es) :
    (blank.replay es).nodes = (x.replay es).nodes ↔ ∀ n ∈ x.nodes, ∃ e ∈ es, e.Takes n := by
  constructor
  · intro same n hn
    by_contra untaken
    have untaken : ∀ e ∈ es, ¬ e.Takes n := fun e he takes => untaken ⟨e, he, takes⟩
    obtain ⟨mem, lacks⟩ := mem_replay_iff follows n
    refine lacks hn untaken ?_
    rw [same, mem]
    exact .inr ⟨hn, untaken⟩
  · intro taken
    ext n
    rw [(mem_replay_iff follows n).1]
    refine ⟨.inl, ?_⟩
    rintro (hn | ⟨hn, untaken⟩)
    · exact hn
    · obtain ⟨e, he, takes⟩ := taken n hn
      exact absurd takes (untaken e he)

/-- Each wire that goes was there, so the balance is short by what was there at first. -/
theorem card_replay (follows : x.Follows es) : ((x.replay es).wires.card : Int) =
    balance es + if .event .cleared ∈ es then 0 else (x.wires.card : Int) := by
  induction es with
  | nil => simp [replay, balance]
  | cons e es ih =>
    rcases e with e | p
    · obtain ⟨fits, follows⟩ := follows
      have rest := ih follows
      cases e with
      | connected o i =>
        simp only [replay, hear, Multiset.card_cons, balance]
        simp only [List.mem_cons, reduceCtorEq, Entry.event.injEq, false_or]
        omega
      | disconnected o i =>
        have card := Multiset.card_erase_add_one fits
        simp only [replay, hear, balance]
        simp only [List.mem_cons, reduceCtorEq, Entry.event.injEq, false_or]
        omega
      | cleared => simp [replay, hear, blank, balance]
      | _ => simpa [replay, hear, balance] using rest
    · simpa [replay, balance] using ih follows

theorem no_wire_of_removed {later earlier : List Entry} {n : NodeId}
    (follows : x.Follows (later ++ .event (.nodeRemoved n) :: earlier)) :
    ∀ s ∈ (x.replay earlier).wires, s.1 ≠ n ∧ s.2 ≠ n :=
  ((x.follows_append _ _).1 follows).1.1.2

end Picture

namespace Graph

/-- What a listener knows that has listened from the start. -/
def mirror (g : Graph) : Picture := Picture.blank.replay g.journal

/-- The wires of all networks together. -/
def wireCount (g : Graph) : Nat := (g.nodes.map fun p => (p.2.inner.elim [] Network.wires).length).sum

theorem card_strands (g : Graph) : g.strands.card = g.wireCount := by
  simp only [strands, wireCount]
  induction g.nodes with
  | nil => rfl
  | cons p rest ih =>
    simp only [List.map_cons, List.sum_cons, Multiset.card_add, ih]
    congr 1
    cases h : p.2.inner <;> simp [Node.strands, h]

/-- A new graph, or one that a document has just filled in place of another. -/
inductive Base : Graph → Prop where
  | new (config : Config) (ids : IdSupply) (marks : Nat) (calls : Table Nat Nat) :
    Base (create config ids marks calls)
  | filled {g : Graph} {o : Action} (r : Grown g) (uses : o.Uses NodeType.Sound)
    (done : Replaces o g) : Base (o.after g)

/-- The second graph came from the first one, and no document has replaced it meanwhile. -/
inductive Onward (b : Graph) : Graph → Prop where
  | here : Onward b b
  | on {g : Graph} {o : Action} (a : Onward b g) (uses : o.Uses NodeType.Sound)
    (own : ¬ Replaces o g) : Onward b (o.after g)

theorem Base.grown {b : Graph} (base : Base b) : Grown b := by
  cases base with
  | new config ids marks calls => exact .start ..
  | filled r uses done => exact .step r uses

theorem Onward.grown {b g : Graph} (a : Onward b g) (r : Grown b) : Grown g := by
  induction a with
  | here => exact r
  | on _ uses _ ih => exact .step ih uses

theorem exists_base {g : Graph} (r : Grown g) : ∃ b, Base b ∧ Onward b g := by
  induction r with
  | start config ids marks calls => exact ⟨_, .new .., .here⟩
  | @step g o r uses ih =>
    by_cases done : Replaces o g
    · exact ⟨_, .filled r uses done, .here⟩
    · obtain ⟨b, base, a⟩ := ih
      exact ⟨b, base, a.on uses done⟩

/-- What a listener knows of a base is that nothing is there. -/
theorem Base.unknown {b : Graph} (base : Base b) (es : List Entry) :
    Picture.blank.replay (es ++ b.journal) = Picture.blank.replay es ∧
      Picture.balance (es ++ b.journal) = Picture.balance es := by
  have cleared (js : List Entry) (blank : Picture.blank.replay js = Picture.blank)
      (zero : Picture.balance js = 0) : Picture.blank.replay (es ++ js) = Picture.blank.replay es ∧
        Picture.balance (es ++ js) = Picture.balance es := by
    refine ⟨by rw [Picture.replay_append, blank], ?_⟩
    induction es with
    | nil => exact zero
    | cons e es ih =>
      rcases e with e | p
      · cases e <;> simp [Picture.balance, ih]
      · exact ih
  cases base with
  | new config ids marks calls => exact cleared [] rfl rfl
  | filled r uses done =>
    obtain ⟨reg, d, rfl, ok⟩ := done
    simp only [Action.after, Action.edit] at ok ⊢
    rw [restore_apply] at ok ⊢
    split at ok
    · exact cleared (.event .cleared :: _) rfl rfl
    · cases ok

theorem picture_create (config : Config) (ids : IdSupply) (marks : Nat) (calls : Table Nat Nat) :
    (create config ids marks calls).picture = Picture.blank := by
  have live : (create config ids marks calls).live = ∅ := by
    ext n
    simp [Graph.live, create, Table.keys]
  rw [picture, live]
  simp [strands, create, Node.strands, Network.empty, Picture.blank]

/-- From a base on everything is told. -/
theorem Onward.reported {b g : Graph} (a : Onward b g) (r : Grown b) : Reported b g := by
  induction a with
  | here => exact .refl b
  | on a uses own ih => exact ih.trans (reported_after (acyclic_of_grown (a.grown r)) uses own)

/-- A listener has the nodes right just when all nodes that the last document brought have gone, and the
number of the wires just when it brought none or all has been cleared. Where no document has replaced
the graph the whole picture is right. No wire of a node is left when the node is told to go. -/
theorem mirror_of_run {g : Graph} (r : Grown g) :
    (∃ b, Base b ∧ Onward b g) ∧
    (∀ b, Base b → Onward b g → ∃ es, g.journal = es ++ b.journal ∧
      (g.mirror.nodes = g.live ↔ ∀ n ∈ b.live, ∃ e ∈ es, e.Takes n) ∧
      ((g.wireCount : Int) = Picture.balance g.journal ↔ b.wireCount = 0 ∨ .event .cleared ∈ es) ∧
      ∀ later n earlier, es = later ++ .event (.nodeRemoved n) :: earlier →
        ∀ s ∈ (b.picture.replay earlier).wires, s.1 ≠ n ∧ s.2 ≠ n) ∧
    (∀ config ids marks calls, Onward (create config ids marks calls) g →
      g.mirror = g.picture ∧ (g.wireCount : Int) = Picture.balance g.journal) ∧
    ∀ h n p, LawfulWith Acyclic h → h.around? n = some p → h.children n = [] →
      h.removeLeaf n = ((h.stripped n).emit (.nodeRemoved n)).detach n p ∧
        ∀ k, ∀ e ∈ (h.stripped n).wires k, e.touches n = false := by
  have known (b : Graph) (base : Base b) (a : Onward b g) : ∃ es, g.journal = es ++ b.journal ∧
      g.picture = b.picture.replay es ∧ b.picture.Follows es ∧
      g.mirror = Picture.blank.replay es ∧ Picture.balance g.journal = Picture.balance es := by
    obtain ⟨es, journal, picture, follows⟩ := (a.reported base.grown).told
    obtain ⟨mirror, balance⟩ := base.unknown es
    exact ⟨es, journal, picture, follows, by rw [Graph.mirror, journal, mirror], by rw [journal, balance]⟩
  refine ⟨exists_base r, fun b base a => ?_, fun config ids marks calls a => ?_,
    fun h n p w ha empty => ?_⟩
  · obtain ⟨es, journal, picture, follows, mirror, balance⟩ := known b base a
    refine ⟨es, journal, ?_, ?_, fun later n earlier eq => ?_⟩
    · rw [mirror, show g.live = g.picture.nodes from rfl, picture]
      exact Picture.nodes_replay_eq_iff follows
    · have card := Picture.card_replay follows
      rw [← picture] at card
      rw [balance, ← card_strands, ← card_strands, show g.strands = g.picture.wires from rfl, card]
      rw [show b.picture.wires = b.strands from rfl]
      split <;> simp [*]
    · rw [eq] at follows
      exact Picture.no_wire_of_removed follows
  · obtain ⟨es, journal, picture, follows, mirror, balance⟩ := known _ (.new ..) a
    rw [picture_create] at picture follows
    refine ⟨by rw [mirror, picture], ?_⟩
    have card := Picture.card_replay follows
    rw [← picture] at card
    rw [← card_strands, balance, show g.strands = g.picture.wires from rfl, card]
    simp [Picture.blank]
  · obtain ⟨-, bare, -⟩ := stripped_spec (keptByEdits_acyclic.toKeptByRemovals.removing fun _ _ => True)
      (fun _ _ _ => trivial) w ha empty
    refine ⟨removeLeaf_eq h ha, fun k e he => ?_⟩
    obtain ⟨output, input⟩ := bare.end_ne he
    simp [Edge.touches, output, input]

/-- A new graph that a document with one relay has replaced. -/
def filledRelay : Graph :=
  (Action.restore relayRegistry ⟨[("a", ⟨"relay", none, [], none, none⟩)], [], []⟩).after
    (create .standard .start 0 [])

/-- The relay is not told, and the listener is right again when it has gone. -/
theorem filledRelay_unknown :
    filledRelay.mirror.nodes ≠ filledRelay.live ∧
      ((Action.removeNode ⟨3⟩).after filledRelay).mirror.nodes =
        ((Action.removeNode ⟨3⟩).after filledRelay).live := by
  have base : Base filledRelay := .filled (.start ..) sound_relayRegistry ⟨_, _, rfl, by cbv⟩
  have brought : filledRelay.nodes.keys = [⟨2⟩, ⟨3⟩] := by cbv
  have root : filledRelay.root = ⟨2⟩ := by cbv
  have live : filledRelay.live = {⟨3⟩} := by
    rw [Graph.live, brought, root]
    decide
  constructor
  · intro same
    obtain ⟨es, journal, nodes, -⟩ := (mirror_of_run base.grown).2.1 _ base .here
    obtain ⟨e, he, -⟩ := nodes.1 same ⟨3⟩ (by simp [live])
    have none : es = [] := List.append_left_eq_self.1 journal.symm
    rw [none] at he
    cases he
  · have onward : Onward filledRelay ((Action.removeNode ⟨3⟩).after filledRelay) :=
      Onward.here.on trivial (by rintro ⟨_, _, other, -⟩; cases other)
    obtain ⟨es, journal, nodes, -⟩ := (mirror_of_run (onward.grown base.grown)).2.1 _ base onward
    have told : ((Action.removeNode ⟨3⟩).after filledRelay).journal =
        [.event (.nodeRemoved ⟨3⟩)] ++ filledRelay.journal := by cbv
    have eq := List.append_cancel_right (journal.symm.trans told)
    refine nodes.2 fun n hn => ?_
    rw [live, Finset.mem_singleton] at hn
    exact ⟨_, by rw [eq]; exact List.mem_singleton.2 rfl, .inl (by rw [hn])⟩

end Graph
end Dataflow
