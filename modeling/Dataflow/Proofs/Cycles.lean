import Dataflow.Proofs.Run
set_option autoImplicit false

/-!
No value is ever made from itself. Main statements: every graph of a run is acyclic, through wires,
influences and boundaries of any depth, and a wire between ports that are free for it is refused as
a cycle just where it would close one.
-/

namespace Dataflow.Graph

theorem keptByCuts_acyclic : KeptByCuts Acyclic where
  quiet := fun _ _ a ha => a.frame.acyclic ha
  sever := fun _ _ _ w he ha => acyclic_sever w he ha
  drop := fun _ _ _ w hb _ hc _ ha => acyclic_dropPort w hb hc ha

theorem keptByEdits_acyclic : KeptByEdits false (fun t _ => t.Sound) Acyclic where
  toKeptByGrowth :=
    { quiet := fun _ _ a ha => a.frame.acyclic ha
      insert := fun g _ _ _ _ _ attachment w _ a ha => (inserted g attachment a).acyclic a w ha
      draw := fun g n e w d ha => by
        obtain ⟨g₁, g₂, g₃, g₄, x⟩ := drawn d w.wellFormed
        exact x.acyclic d w.wellFormed ha
      assign := fun g p v s _ _ ha => (g.sameFrame_replace p s v).acyclic ha
      arrange := fun _ _ _ names w _ ok ha => acyclic_arrange w ha names ok }
  sever := keptByCuts_acyclic.sever
  drop := keptByCuts_acyclic.drop
  remove := fun _ _ _ _ _ x ha => x.acyclic ha
  start := acyclic_create
  rename := fun _ _ _ _ _ _ x ha => x.acyclic ha

/-- Graphs of runs whose node types are sound. -/
abbrev Grown (g : Graph) : Prop := Reachable (fun _ o => o.Uses NodeType.Sound) g

theorem acyclic_after {g : Graph} {o : Action} (w : LawfulWith Acyclic g)
    (uses : o.Uses NodeType.Sound) : LawfulWith Acyclic (o.after g) := by
  refine w.after keptByEdits_acyclic (fun _ _ h => h) uses.makes (aimed_false g o) fun ho => ?_
  have a := (calmer_reads ho g).frame
  exact w.of_sameFrame a (a.acyclic w.holds)

theorem acyclic_of_grown {g : Graph} (r : Grown g) : LawfulWith Acyclic g := by
  induction r with
  | start config ids marks calls => exact ⟨lawful_create .., acyclic_create config ids marks calls⟩
  | step _ uses w => exact acyclic_after w uses

/-- No port is made from itself. A wire between an output and a free input is refused for a cycle if
and only if the output is made from the input, whatever else is wrong with the wire. -/
theorem acyclic_and_refused_iff {g : Graph} (r : Grown g) :
    (∀ p q, q ∈ g.successors p → ¬ Along g.successors q p) ∧
    ∀ o i, g.direction? o = some .output → g.direction? i = some .input → g.source? i = none →
      (g.connect o i = .error (.cyclicDependency o i) ↔ Along g.successors i o) := by
  obtain ⟨lawful, acyclic⟩ := acyclic_of_grown r
  have w := lawful.wellFormed
  constructor
  · intro p q hq back
    have step := (mem_successors_iff w p q).1 hq
    exact acyclic p (.head' step ((along_iff w q p).1 back))
  · intro o i ho hi free
    rw [← leadsTo_iff w i o (by simp [hi]), ← checkConnect_cycle_iff (e := ⟨o, i⟩) ho hi free]
    simp only [connect, bind, Except.bind]
    cases g.checkConnect ⟨o, i⟩ <;> simp

def oneRelay : Graph :=
  (Action.addNode ⟨1⟩ relay "a" .standard).after (create .standard .start 0 [])

/-- A node cannot be wired to itself past its influence. -/
theorem relay_not_wired_to_itself :
    oneRelay.connect ⟨⟨2⟩, 1⟩ ⟨⟨2⟩, 0⟩ = .error (.cyclicDependency ⟨⟨2⟩, 1⟩ ⟨⟨2⟩, 0⟩) := by
  have grown : Grown oneRelay := .step (.start ..) sound_relay
  have exact_at := (acyclic_and_refused_iff grown).2 ⟨⟨2⟩, 1⟩ ⟨⟨2⟩, 0⟩ rfl rfl rfl
  exact exact_at.2 (.step (by decide) (.here _))

end Dataflow.Graph
