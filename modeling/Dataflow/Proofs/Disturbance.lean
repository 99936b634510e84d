import Dataflow.Proofs.Agreement
set_option autoImplicit false

/-!
Documents that are loaded into nodes that are no networks. All that such a load may do is to let the
ports of the node change places, and then its outputs may go on counting as up to date with what they
were before. Main statement: if they do not, all that is kept by other operations is kept.
-/

namespace Dataflow.Graph

section Plain
variable {g : Graph} {n : NodeId} (plain : g.contents? n = none)
include plain

theorem network_of_plain : ∃ e, g.network n = .error e := by
  rw [network]
  cases hm : g.node? n with
  | none => exact ⟨.nodeNotFound n, by simp [node, hm, bind, Except.bind]⟩
  | some m =>
    have inner : m.inner = none := by simpa [contents?, hm] using plain
    exact ⟨.notANetwork n, by simp [node, hm, inner, bind, Except.bind]⟩

theorem loadNode_plain (r : Registry) (name : String) (d : NodeDocument) :
    ∃ e h, (loadNode r n name d).apply g = (.error e, h) ∧ Quiet g h := by
  cases d with
  | mk typeName id ports attachment inner =>
    rw [loadNode, Edit.apply_bind, Edit.apply_look]
    cases r.get typeName with
    | error e => exact ⟨e, g, rfl, .refl g⟩
    | ok t =>
      simp only
      rw [Edit.apply_bind, Edit.apply_look]
      cases readAttachment r attachment with
      | error e => exact ⟨e, g, rfl, .refl g⟩
      | ok b =>
        simp only
        obtain ⟨h, eq, quiet⟩ : ∃ h, (keptId id).apply g = (.ok (id.map NodeId.mk), h) ∧ Quiet g h := by
          cases id with
          | none => exact ⟨g, rfl, .refl g⟩
          | some k => exact ⟨g.passOver k, rfl, .of_nodes rfl rfl rfl⟩
        have plain' : h.contents? n = none := by rw [quiet.frame.contents, plain]
        obtain ⟨e, he⟩ := network_of_plain plain'
        rw [Edit.apply_bind, eq]
        simp only
        rw [Edit.apply_bind, addNode, Edit.apply_bind, Edit.apply_look, he]
        exact ⟨e, h, rfl, quiet⟩

theorem loadConnection_plain (c : ConnectionDocument) :
    ∃ e, (loadConnection n c).apply g = (.error e, g) := by
  have absent : g.find? n c.outNode = none := by
    rw [find?, show (g.node? n).bind Node.inner = none from plain]
  refine ⟨.portNotFound n c.outNode, ?_⟩
  rw [loadConnection, Edit.apply_step]
  simp [childNamed, absent, bind, Except.bind]

/-- Nothing can be put into a node that is no network. -/
theorem loadInto_plain (r : Registry) (d : NetworkDocument) :
    Quiet g ((loadInto r n d).apply g).2 ∨
      g.arrangeBoundary n d.boundary = .ok ((loadInto r n d).apply g).2 := by
  match d with
  | ⟨nodes, connections, boundary⟩ =>
    rw [loadInto, Edit.apply_bind]
    cases nodes with
    | cons named rest =>
      obtain ⟨e, h, eq, quiet⟩ := loadNode_plain plain r named.1 named.2
      rw [loadNodes, Edit.apply_bind, eq]
      exact .inl quiet
    | nil =>
      rw [loadNodes, Edit.apply_pure]
      simp only
      rw [Edit.apply_bind]
      cases connections with
      | cons c cs =>
        obtain ⟨e, eq⟩ := loadConnection_plain plain c
        simp only [List.forM]
        rw [Edit.apply_bind, eq]
        exact .inl (.refl g)
      | nil =>
        simp only [List.forM]
        rw [Edit.apply_pure]
        simp only
        rw [Edit.apply_bind, Edit.apply_step]
        cases g.arrangeBoundary n boundary with
        | error e => exact .inl (.refl g)
        | ok h => exact .inr rfl

/-- A node does not become a network by such a load. -/
theorem contents?_loadInto_plain (w : g.WellFormed) (r : Registry) (d : NetworkDocument) :
    ((loadInto r n d).apply g).2.contents? n = none := by
  rcases loadInto_plain plain r d with quiet | ok
  · rw [quiet.frame.contents, plain]
  · rcases arranged w _ ok with same | ⟨-, old, new, g₁, a, eq⟩
    · rw [same, plain]
    · rw [eq, (quiet_emit g₁ _).frame.contents, ← Option.not_isSome_iff_eq_none, a.tree.network, plain]
      nofun

end Plain
/-- If the operation loads a document into a node that is no network, the node still computes by
functions, and those of its ports that count as up to date still have their values from scratch. -/
def Undisturbed (g : Graph) (o : Action) : Prop :=
  ∀ r n d, o = .loadInto r n d → g.contents? n = none →
    (∀ t, (o.after g).type? n = some t → t.compute.isSome → t.Functional) ∧
      ∀ p x, p.node = n → (o.after g).isStale p = false → (o.after g).FromScratch p x →
        (o.after g).value p = x

theorem undisturbed_of_aimed {g : Graph} {o : Action} (aimed : Aimed true g o) :
    Undisturbed g o := by
  rintro r n d rfl plain
  have inside := aimed rfl
  rw [plain] at inside
  cases inside

section Coherent
variable {g h : Graph}

/-- Where all inputs carry their values from scratch, an output that does too is computed. -/
theorem computed_of_value_eq (w : g.WellFormed) (d : g.Standard) (a : g.Acyclic)
    (c : Closed true g)
    (each : ∀ p, g.isStale p = false → g.Agrees p ∨ ∀ x, g.FromScratch p x → g.value p = x)
    {p : Port} (hp : g.isStale p = false) (done : ∀ x, g.FromScratch p x → g.value p = x) :
    g.Computed p := by
  intro t f hd ht hf
  obtain ⟨x, hx⟩ := exists_fromScratch w a d (p := p) (by simp [hd])
  rw [done x hx]
  cases hx with
  | computed _ _ ht' hf' hx =>
    rw [ht, Option.some.injEq] at ht'
    subst ht'
    rw [hf, Option.some.injEq] at hf'
    subst hf'
    refine NodeType.outcome_congr _ _ _ fun i hi => ?_
    have influence := influences_of_mem ht hi
    refine (value_eq_of_each w d c each (hx i hi) ?_ fun loose => ?_).symm
    · cases hs : g.isStale ⟨p.node, i⟩ with
      | false => rfl
      | true =>
        rw [c.influences rfl _ _ influence hs] at hp
        cases hp
    · have := influence.input w
      rw [loose.direction] at this
      cases this
  | linked _ hq =>
    rw [(d.of_peer? w hq ht).1] at hf
    cases hf
  | _ => simp_all

/-- The ports of a node may change places if its outputs do not notice. -/
theorem Coherent.arrange {n : NodeId} (s : g.Coherent) (w : g.WellFormed) (names : List String)
    (ok : g.arrangeBoundary n names = .ok h)
    (functional : ∀ t, h.type? n = some t → t.compute.isSome → t.Functional)
    (done : ∀ p x, p.node = n → h.isStale p = false → h.FromScratch p x → h.value p = x) :
    h.Coherent := by
  have weak : Target false n g := fun strict => nomatch strict
  have standard := keptByEdits_standard.arrange g h n names w weak ok s.standard
  have closed := (keptByEdits_closed true).arrange g h n names w weak ok s.closed
  have acyclic := acyclic_arrange w s.acyclic names ok
  rcases arranged w names ok with rfl | ⟨-, old, new, g₁, r, rfl⟩
  · exact s
  have quiet := quiet_emit g₁ (.metadataChanged n)
  have w' := quiet.frame.wellFormed (r.wellFormed w)
  have agrees {p : Port} (hp : (g₁.emit (.metadataChanged n)).isStale p = false)
      (own : p.node = n → (g₁.emit (.metadataChanged n)).Computed p) :
      (g₁.emit (.metadataChanged n)).Agrees p := by
    rw [quiet.isStale, r.isStale] at hp
    simp only [Computed, quiet.frame.direction, quiet.frame.type, quiet.value] at own
    have alike : Alike id g₁ (g₁.emit (.metadataChanged n)) p :=
      quiet.frame.alike (by rw [quiet.value]) fun q _ => by rw [quiet.value]
    exact alike.agrees w' (r.agrees w own (s.settled _ hp))
  refine ⟨standard, fun k t ht hc => ?_, acyclic, closed, fun p hp => agrees hp fun hn => ?_⟩
  · by_cases hk : k = n
    · exact functional t (hk ▸ ht) hc
    · rw [quiet.frame.type, r.type k hk] at ht
      exact s.computes k t ht hc
  · refine computed_of_value_eq w' standard acyclic closed (fun q hq => ?_) hp (done p · hn hp)
    by_cases hn : q.node = n
    · exact .inr (done q · hn hq)
    · exact .inl (agrees hq fun h => absurd h hn)

/-- What is kept by loads into networks is kept by a load into another node that does not disturb
it. -/
theorem LawfulWith.loadInto_plain (w : LawfulWith Coherent g) {r : Registry} {n : NodeId}
    {d : NetworkDocument} (plain : g.contents? n = none) (u : Undisturbed g (.loadInto r n d)) :
    LawfulWith Coherent ((Action.loadInto r n d).after g) := by
  obtain ⟨functional, done⟩ := u r n d rfl plain
  rcases Graph.loadInto_plain plain r d with quiet | ok
  · exact w.quiet quiet (keptByEdits_coherent.quiet _ _ quiet w.holds)
  · exact ⟨lawful_arrange w.lawful _ ok,
      w.holds.arrange w.lawful.wellFormed _ ok functional done⟩

end Coherent
end Dataflow.Graph
