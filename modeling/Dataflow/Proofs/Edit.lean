import Dataflow.Graph.Basic
set_option autoImplicit false

/-!
How edits run. Each of the steps from which edits are put together gives its result and the graph
that it leaves. A property is kept by an edit if every graph with it is left with it, also when the
edit stops on an error. An edit leads along a relation if that holds between the graph before it and
the one after it.
-/

namespace Dataflow.Edit
variable {α β : Type}

theorem apply_pure (a : α) (g : Graph) : (pure a : Edit α).apply g = (.ok a, g) := rfl

theorem apply_bind (x : Edit α) (f : α → Edit β) (g : Graph) :
    (x >>= f).apply g =
      match (x.apply g).1 with
      | .ok a => (f a).apply (x.apply g).2
      | .error e => (.error e, (x.apply g).2) := by
  change (do let r ← x.run; ExceptT.bindCont f r : StateM Graph (Except Error β)) g = _
  simp only [bind, StateT.bind, apply, ExceptT.run]
  rcases x g with ⟨a | e, h⟩ <;> rfl

/-- What holds of both ways on which the first step may end holds of the two steps together. -/
theorem bind_elim {motive : Except Error β × Graph → Prop} {x : Edit α} {f : α → Edit β}
    {g : Graph} (ok : ∀ a h, x.apply g = (.ok a, h) → motive ((f a).apply h))
    (error : ∀ e h, x.apply g = (.error e, h) → motive (.error e, h)) :
    motive ((x >>= f).apply g) := by
  rw [apply_bind]
  rcases hx : x.apply g with ⟨e | a, h⟩
  · exact error e h hx
  · exact ok a h hx

theorem apply_bind_ok {x : Edit α} {f : α → Edit β} {g h : Graph} {a : α}
    (ok : x.apply g = (.ok a, h)) : (x >>= f).apply g = (f a).apply h := by
  rw [apply_bind, ok]

/-- Two steps go well if each of them does. -/
theorem ok_of_bind {x : Edit α} {f : α → Edit β} {g : Graph} {b : β}
    (ok : ((x >>= f).apply g).1 = .ok b) :
    ∃ a, (x.apply g).1 = .ok a ∧ ((f a).apply (x.apply g).2).1 = .ok b := by
  rw [apply_bind] at ok
  cases hx : (x.apply g).1 with
  | error e => simp [hx] at ok
  | ok a => exact ⟨a, rfl, by simpa [hx] using ok⟩

theorem apply_get (g : Graph) : (get : Edit Graph).apply g = (.ok g, g) := rfl

theorem apply_change (f : Graph → Graph) (g : Graph) :
    (change f).apply g = (.ok (), f g) := rfl

theorem apply_look (f : Graph → Except Error α) (g : Graph) : (look f).apply g = (f g, g) := by
  rw [look, apply_bind, apply_get]
  simp only
  cases f g <;> rfl

theorem apply_step (f : Graph → Except Error Graph) (g : Graph) :
    (step f).apply g =
      match f g with
      | .ok h => (.ok (), h)
      | .error e => (.error e, g) := by
  rw [step, apply_bind, apply_look]
  simp only
  cases f g <;> rfl

theorem apply_look_ok {f : Graph → Except Error α} {g : Graph} {a : α} (ok : f g = .ok a) :
    (look f).apply g = (.ok a, g) := by
  rw [apply_look, ok]

theorem apply_step_ok {f : Graph → Except Error Graph} {g h : Graph} (ok : f g = .ok h) :
    (step f).apply g = (.ok (), h) := by
  rw [apply_step, ok]

/-- The edit comes to a result and a graph as `post` says, or it stops on an error, which it does only
for the reason `bad`. -/
inductive Goes (bad : Prop) (post : α → Graph → Prop) (x : Edit α) (g : Graph) : Prop where
  | ok (a : α) (h : Graph) (eq : x.apply g = (.ok a, h)) (done : post a h)
  | error (e : Error) (h : Graph) (eq : x.apply g = (.error e, h)) (cause : bad)

section Goes
variable {bad : Prop} {P : α → Graph → Prop} {Q : β → Graph → Prop} {x : Edit α} {g : Graph}

theorem Goes.bind {f : α → Edit β} (first : Goes bad P x g) (rest : ∀ a h, P a h → Goes bad Q (f a) h) :
    Goes bad Q (x >>= f) g := by
  cases first with
  | error e h eq cause => exact .error e h (by rw [apply_bind, eq]) cause
  | ok a h eq done =>
    cases rest a h done with
    | error e k eq' cause => exact .error e k (by rw [apply_bind_ok eq, eq']) cause
    | ok b k eq' done' => exact .ok b k (by rw [apply_bind_ok eq, eq']) done'

theorem Goes.mono {P' : α → Graph → Prop} (a : Goes bad P x g) (more : ∀ a h, P a h → P' a h) :
    Goes bad P' x g := by
  cases a with
  | ok a h eq done => exact .ok a h eq (more a h done)
  | error e h eq cause => exact .error e h eq cause

/-- A step that needs nothing to go well. -/
theorem Goes.step_bind {a : α} {h : Graph} {f : α → Edit β} (eq : x.apply g = (.ok a, h))
    (rest : Goes bad Q (f a) h) : Goes bad Q (x >>= f) g :=
  Goes.bind (P := fun b k => b = a ∧ k = h) (.ok a h eq ⟨rfl, rfl⟩) fun _ _ ⟨hb, hk⟩ => by
    rw [hb, hk]
    exact rest

/-- What has gone well has come to what was said. -/
theorem Goes.done {a : α} {h : Graph} (go : Goes bad P x g) (eq : x.apply g = (.ok a, h)) : P a h := by
  cases go with
  | ok b k eq' done =>
    rw [eq'] at eq
    cases eq
    exact done
  | error e k eq' => rw [eq'] at eq; cases eq

/-- Without a reason to stop the edit goes well. -/
theorem Goes.sure (go : Goes bad P x g) (good : ¬ bad) : ∃ a h, x.apply g = (.ok a, h) ∧ P a h := by
  cases go with
  | ok a h eq done => exact ⟨a, h, eq, done⟩
  | error e h eq cause => exact absurd cause good

/-- A loop of which each pass leads on to what is needed for the rest of it. -/
theorem goes_forM (f : β → Edit PUnit) (I : List β → Graph → Prop)
    (step : ∀ b l g, I (b :: l) g → Goes bad (fun _ h => I l h) (f b) g) (l : List β) (g : Graph)
    (start : I l g) : Goes bad (fun _ h => I [] h) (l.forM f) g := by
  induction l generalizing g with
  | nil => exact .ok ⟨⟩ g rfl start
  | cons b l ih => exact (step b l g start).bind fun _ h next => ih h next

end Goes

/-- A loop of which each pass goes well does so as a whole. -/
theorem forM_ok (f : β → Edit PUnit) (I : List β → Graph → Prop)
    (step : ∀ b l g, I (b :: l) g → ∃ h, (f b).apply g = (.ok (), h) ∧ I l h) (l : List β) (g : Graph)
    (start : I l g) : ∃ h, (l.forM f).apply g = (.ok (), h) ∧ I [] h := by
  have pass (b : β) (l : List β) (g : Graph) (next : I (b :: l) g) :
      Goes False (fun _ h => I l h) (f b) g := by
    obtain ⟨h, eq, done⟩ := step b l g next
    exact .ok ⟨⟩ h eq done
  obtain ⟨_, h, eq, done⟩ := (goes_forM f I pass l g start).sure id
  exact ⟨h, eq, done⟩

/-- A loop in which each pass leaves what the later ones need, also where it stops on an error. -/
theorem forM_rest (f : β → Edit PUnit) (I : List β → Graph → Prop)
    (pass : ∀ b l g, I (b :: l) g → I l ((f b).apply g).2) (skip : ∀ b l g, I (b :: l) g → I l g)
    (l : List β) (g : Graph) (start : I l g) : I [] ((l.forM f).apply g).2 := by
  induction l generalizing g with
  | nil => exact start
  | cons b l ih =>
    change I [] ((f b >>= fun _ => l.forM f).apply g).2
    have next := pass b l g start
    rw [apply_bind]
    cases ((f b).apply g).1 with
    | ok u => exact ih _ next
    | error e =>
      change I [] ((f b).apply g).2
      clear ih start
      induction l with
      | nil => exact next
      | cons c l down => exact down (skip c l _ next)

theorem apply_outcome (x : Edit α) (g : Graph) :
    (outcome x).apply g = (.ok (x.apply g).1, (x.apply g).2) := rfl

/-- Every graph with the property is left with it. -/
def Keeps (P : Graph → Prop) (x : Edit α) : Prop := ∀ g, P g → P (x.apply g).2

section Keeps
variable {P : Graph → Prop}

theorem keeps_pure (a : α) : Keeps P (pure a) := fun _ h => h

theorem keeps_bind {x : Edit α} {f : α → Edit β} (hx : Keeps P x) (hf : ∀ a, Keeps P (f a)) :
    Keeps P (x >>= f) := by
  intro g h
  have hxg := hx g h
  rw [apply_bind]
  cases (x.apply g).1 with
  | ok a => exact hf a _ hxg
  | error e => exact hxg

theorem keeps_change {f : Graph → Graph} (hf : ∀ g, P g → P (f g)) : Keeps P (change f) :=
  fun g h => hf g h

theorem keeps_step {f : Graph → Except Error Graph} (hf : ∀ g h, P g → f g = .ok h → P h) :
    Keeps P (step f) := by
  intro g hg
  rw [apply_step]
  cases h : f g with
  | ok k => exact hf g k hg h
  | error e => exact hg

theorem keeps_forM {f : β → Edit PUnit} (l : List β) (hf : ∀ b ∈ l, Keeps P (f b)) :
    Keeps P (l.forM f) := by
  induction l with
  | nil => exact keeps_pure _
  | cons b l ih =>
    change Keeps P (f b >>= fun _ => l.forM f)
    exact keeps_bind (hf b (by simp)) fun _ => ih fun c hc => hf c (by simp [hc])

/-- Each pass of a loop that goes well goes well itself, where the passes before it lead, and the later
ones go on from there. -/
theorem pass_of_forM {f : β → Edit PUnit} {l : List β} {g : Graph}
    (ok : ((l.forM f).apply g).1 = .ok ()) {b : β} (hb : b ∈ l) : ∃ h k, (f b).apply h = (.ok (), k) ∧
      (∀ P, (∀ c ∈ l, Keeps P (f c)) → P g → P h) ∧
      ∀ P, (∀ c ∈ l, Keeps P (f c)) → P k → P ((l.forM f).apply g).2 := by
  induction l generalizing g with
  | nil => cases hb
  | cons c l ih =>
    change ((f c >>= fun _ => l.forM f).apply g).1 = .ok () at ok
    obtain ⟨u, first, later⟩ := ok_of_bind ok
    have step : (f c).apply g = (.ok (), ((f c).apply g).2) := Prod.ext first rfl
    have whole : ((c :: l).forM f).apply g = (l.forM f).apply ((f c).apply g).2 := apply_bind_ok step
    rw [whole]
    rcases List.mem_cons.1 hb with rfl | hb
    · refine ⟨g, _, step, fun _ _ start => start, fun P keeps there => ?_⟩
      exact keeps_forM l (fun c hc => keeps c (List.mem_cons_of_mem _ hc)) _ there
    · obtain ⟨h, k, eq, before, after⟩ := ih later hb
      refine ⟨h, k, eq, fun P keeps start => ?_, fun P keeps there => ?_⟩
      · exact before P (fun c hc => keeps c (List.mem_cons_of_mem _ hc)) (keeps c List.mem_cons_self g start)
      · exact after P (fun c hc => keeps c (List.mem_cons_of_mem _ hc)) there

end Keeps

/-- A relation that can be put together from steps. -/
structure Steps (R : Graph → Graph → Prop) : Prop where
  refl : ∀ g, R g g
  trans : ∀ {g h k}, R g h → R h k → R g k

/-- What is a step wherever a law holds that steps keep. -/
theorem Steps.under {P : Graph → Prop} {R : Graph → Graph → Prop} (refl : ∀ g, R g g)
    (keep : ∀ {g h}, P g → R g h → P h)
    (trans : ∀ {g h k}, P g → R g h → R h k → R g k) : Steps fun g h => P g → R g h :=
  ⟨fun g _ => refl g, fun a b p => trans p (a p) (b (keep p (a p)))⟩

/-- Every graph is in the relation to the one that it is left as. -/
def Leads (R : Graph → Graph → Prop) (x : Edit α) : Prop := ∀ g, R g (x.apply g).2

section Leads
variable {R : Graph → Graph → Prop} (s : Steps R)
include s

theorem leads_pure (a : α) : Leads R (pure a) := fun g => s.refl g

theorem leads_throw (e : Error) : Leads R (throw e : Edit α) := fun g => s.refl g

theorem leads_get : Leads R (get : Edit Graph) := fun g => s.refl g

theorem leads_look (f : Graph → Except Error α) : Leads R (look f) := by
  intro g
  rw [apply_look]
  exact s.refl g

theorem leads_bind {x : Edit α} {f : α → Edit β} (hx : Leads R x) (hf : ∀ a, Leads R (f a)) :
    Leads R (x >>= f) := by
  intro g
  have hxg := hx g
  rw [apply_bind]
  cases (x.apply g).1 with
  | ok a => exact s.trans hxg (hf a _)
  | error e => exact hxg

end Leads

section Leads
variable {R : Graph → Graph → Prop}

theorem leads_change {f : Graph → Graph} (hf : ∀ g, R g (f g)) : Leads R (change f) := hf

theorem leads_ite {c : Prop} [Decidable c] {x y : Edit α} (hx : Leads R x) (hy : Leads R y) :
    Leads R (if c then x else y) := by
  split
  · exact hx
  · exact hy

theorem leads_outcome {x : Edit α} (hx : Leads R x) : Leads R (outcome x) := hx

theorem Leads.keeps {P : Graph → Prop} {x : Edit α} (hx : Leads R x)
    (hP : ∀ g h, R g h → P g → P h) : Keeps P x := fun g h => hP _ _ (hx g) h

end Leads
end Dataflow.Edit
