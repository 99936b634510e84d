import Dataflow.Proofs.Agreement
import Dataflow.Proofs.Firm
set_option autoImplicit false

/-!
Reads that bring up to date nothing but what is of the type by which it goes. Main statement: so do
all reads of graphs in which each output that is out of date holds such a value or will have one
stored, and each network port goes by the type of its terminal.
-/

namespace Dataflow

/-- A task that ends well has stored a value in the attribute `out`. -/
def Task.Stores (out : Nat) : Task (Except String Status) → Prop
  | .done (.ok _) => False
  | .done (.error _) => True
  | .read _ next => ∀ r, (next r).Stores out
  | .write i _ next => if i = out then ∀ e, (next (.error e)).Stores out else ∀ r, (next r).Stores out
  | .typeOf _ next => ∀ r, (next r).Stores out
  | .attachment next => ∀ v, (next v).Stores out

namespace Graph

/-- What is up to date and goes by a type is of that type. -/
def Truthful (g : Graph) : Prop :=
  ∀ p t, g.isStale p = false → g.effectiveType p = some t → g.heldType p = some t

/-- An output that takes its type from its wires and is out of date holds a value of this type, or
its computation stores one whenever it ends well. -/
def Diligent (g : Graph) : Prop :=
  ∀ p t, g.direction? p = some .output → g.peer? p = none → g.declaredType p = none →
    g.effectiveType p = some t → g.isStale p = true → g.heldType p = some t ∨
      ∃ u c, g.type? p.node = some u ∧ u.compute = some c ∧
        ∀ count, (c.body ⟨p.node, p.index, count⟩).Stores p.index

/-- An output that has its value from its peer goes by the type by which the peer goes. -/
def Mirrored (g : Graph) : Prop :=
  ∀ p q, g.direction? p = some .output → g.peer? p = some q →
    g.effectiveType p = g.effectiveType q

/-- A graph of which all reads are fair. -/
structure Upright (g : Graph) : Prop extends Apt g where
  diligent : g.Diligent
  mirrored : g.Mirrored
  truthful : g.Truthful
  declared : ∀ p t, g.declaredType p = some t → g.heldType p = some t

/-- What is brought up to date is of the type by which it goes. -/
structure Fair (g h : Graph) : Prop extends Firm g h where
  new : ∀ p t, g.isStale p = true → h.isStale p = false → g.effectiveType p = some t →
    h.heldType p = some t

section Fair
variable {g h k : Graph}

theorem Fair.refl (g : Graph) : Fair g g :=
  ⟨.refl g, fun p t hg hh => by rw [hg] at hh; cases hh⟩

/-- Nothing is brought up to date. -/
theorem Firm.fair (a : Firm g h) (same : ∀ p, h.isStale p = g.isStale p) : Fair g h :=
  ⟨a, fun p t hg hh => by rw [same, hg] at hh; cases hh⟩

/-- What is of the right type stays so. -/
theorem Fair.kept (a : Fair g h) {p : Port} {t : DataType} (ht : g.effectiveType p = some t)
    (held : g.heldType p = some t) : h.heldType p = some t := by
  have firm (hs : g.isStale p = false ∨ h.isStale p = true) : h.heldType p = some t := by
    rcases a.held p t ht hs with same | new
    · rw [same, held]
    · exact new
  cases hg : g.isStale p with
  | false => exact firm (.inl hg)
  | true =>
    cases hh : h.isStale p with
    | false => exact a.new p t hg hh ht
    | true => exact firm (.inr hh)

theorem Fair.trans (s : g.Apt) (a : Fair g k) (b : Fair k h) : Fair g h := by
  refine ⟨a.toFirm.trans s b.toFirm, fun p t hg hh ht => ?_⟩
  have ht' : k.effectiveType p = some t := by rwa [s.effectiveType a.frame]
  cases hk : k.isStale p with
  | false => exact b.kept ht' (a.new p t hg hk ht)
  | true => exact b.new p t hk hh ht'

theorem Fair.upright (u : g.Upright) (a : Fair g h) : h.Upright := by
  have type := u.toApt.effectiveType a.frame
  refine ⟨a.frame.apt u.toApt, ?diligent, ?mirrored, ?truthful, ?declared⟩
  case diligent =>
    intro p t
    rw [a.frame.direction, a.frame.peer, a.frame.declaredType, type, a.frame.type]
    intro hd hp free ht hs
    exact (u.diligent p t hd hp free ht (a.stale p hs)).imp_left (a.kept ht)
  case mirrored =>
    intro p q
    rw [a.frame.direction, a.frame.peer, type]
    exact u.mirrored p q
  case truthful =>
    intro p t hs ht
    rw [type] at ht
    cases hg : g.isStale p with
    | false => exact a.kept ht (u.truthful p t hg ht)
    | true => exact a.new p t hg hs ht
  case declared =>
    intro p t ht
    rw [a.frame.declaredType] at ht
    exact a.kept (effectiveType_of_declared u.lawful.wellFormed.tree ht) (u.declared p t ht)

theorem Fair.steps : Edit.Steps fun g h => g.Upright → Fair g h :=
  .under .refl (fun u a => a.upright u) fun u => .trans u.toApt

/-- One port is brought up to date. -/
theorem Fair.renew (p : Port) (a : Fair g k) (firm : Firm g h)
    (other : ∀ q, q ≠ p → h.heldType q = k.heldType q ∧ h.isStale q = k.isStale q)
    (own : ∀ t, g.effectiveType p = some t → h.heldType p = some t) : Fair g h := by
  refine ⟨firm, fun q t hg hh ht => ?_⟩
  by_cases ne : q = p
  · subst ne
    exact own t ht
  · obtain ⟨held, stale⟩ := other q ne
    rw [held]
    exact a.new q t hg (stale ▸ hh) ht

end Fair

/-! ### Computations -/

/-- The default that an output takes is of its type. -/
theorem portType_of_fallback {g : Graph} (m : g.Matching) (w : g.Wired) {p : Port} {v : Value}
    {t : DataType} (hv : g.fallback? p = some v) (ht : g.Lends p t) : v.portType = some t := by
  rw [fallback?_eq] at hv
  obtain ⟨a, ha, hv⟩ := Option.bind_eq_some_iff.1 hv
  have type {q : Port} {b : Attribute} (hb : g.attr? q = some b) : b.type = g.declaredType q := by
    rw [declaredType_eq, hb]
    rfl
  split at hv
  · next typed =>
    cases hv
    obtain ⟨u, hu⟩ := Option.isSome_iff_exists.1 typed
    rw [m.defaults p a ha, hu, m.lends_unique ht (.inl (type ha ▸ hu))]
  · next untyped =>
    obtain ⟨b, hb, hv⟩ := List.exists_of_findSome?_eq_some hv
    obtain ⟨i, hi, hb⟩ := List.mem_filterMap.1 hb
    split at hv
    · next typed =>
      cases hv
      obtain ⟨u, hu⟩ := Option.isSome_iff_exists.1 typed
      have open_ : g.declaredType p = none := by
        rw [← type ha]
        simpa using untyped
      have lends : g.Lends p u := .inr ⟨open_, i, (mem_sinks_iff w p i).1 hi, .inl (type hb ▸ hu)⟩
      rw [m.defaults i b hb, hu, m.lends_unique ht lends]
    · cases hv

theorem fair_writeFor {g : Graph} {p : Port} {v : Value} (c : g.Active p.node) :
    Fair g ((writeFor p v).apply g).2 := by
  refine (firm_writeFor c).fair fun q => ?_
  rcases writeFor_apply g p v with ⟨e, eq⟩ | ⟨eq, -⟩
  · rw [eq]
  · rw [eq]
    exact isStale_hold g p v q

/-- Once the task has ended well, the output `p` will hold a value of the type by which it goes. -/
structure Promising (p : Port) (t : DataType) (task : Task (Except String Status)) (g : Graph) :
    Prop extends Upright g where
  active : g.Active p.node
  goes : g.effectiveType p = some t
  held : g.heldType p = some t ∨ task.Stores p.index

section Reads
open Edit
variable {below : Port → Edit Value} (hb : ∀ p, Leads (fun g h => g.Upright → Fair g h) (below p))
include hb

theorem fair_perform {α : Type} {g : Graph} (u : g.Upright) {n : NodeId} (c : g.Active n)
    (t : Task α) : Fair g ((t.perform below n).apply g).2 := by
  have steps : Steps fun g h => g.Upright ∧ g.Active n → Fair g h :=
    .under .refl (fun s a => ⟨a.upright s.1, a.frame.active s.2⟩) fun s => .trans s.1.toApt
  exact leads_perform steps (fun q g s => hb q g s.1) (fun i v g s => fair_writeFor s.2) t g ⟨u, c⟩

omit hb in
theorem Promising.step {g k : Graph} {p : Port} {t : DataType}
    {task next : Task (Except String Status)} (a : Promising p t task g) (fair : Fair g k)
    (stores : task.Stores p.index → k.heldType p = some t ∨ next.Stores p.index) :
    Promising p t next k where
  toUpright := fair.upright a.toUpright
  active := fair.frame.active a.active
  goes := by rw [a.effectiveType fair.frame, a.goes]
  held := a.held.elim (fun held => .inl (fair.kept a.goes held)) stores

theorem Promising.heldType {g h : Graph} {p : Port} {t : DataType}
    {task : Task (Except String Status)} (a : Promising p t task g) {s : Status}
    (eq : (task.perform below p.node).apply g = (.ok (.ok s), h)) : h.heldType p = some t := by
  induction task generalizing g with
  | done x =>
    cases eq
    exact a.held.resolve_right id
  | read i next ih =>
    rw [perform_read, apply_bind, apply_outcome] at eq
    exact ih _ (a.step (leads_readFor Fair.steps hb _ g a.toUpright) fun stores => .inr (stores _)) eq
  | write i v next ih =>
    rw [perform_write, apply_bind, apply_outcome] at eq
    have fair : Fair g ((writeFor ⟨p.node, i⟩ v).apply g).2 := fair_writeFor a.active
    by_cases hi : i = p.index
    · subst hi
      rcases writeFor_apply g p v with ⟨e, refused⟩ | ⟨stored, hd, fits⟩
      · refine ih _ (a.step fair fun stores => ?_) eq
        rw [Task.Stores, if_pos rfl] at stores
        rw [refused]
        exact .inr (stores e)
      · have held : (g.hold p v).heldType p = some t :=
          (heldType_hold (by rw [hd]; rfl)).trans (fits t a.goes)
        rw [stored] at fair eq
        exact ih _ (a.step fair fun _ => .inl held) eq
    · refine ih _ (a.step fair fun stores => ?_) eq
      rw [Task.Stores, if_neg hi] at stores
      exact .inr (stores _)
  | typeOf i next ih =>
    rw [Task.perform, apply_bind, apply_outcome, apply_bind, apply_look] at eq
    cases hslot : g.slot ⟨p.node, i⟩ with
    | error e =>
      simp only [hslot] at eq
      exact ih _ (a.step (.refl g) fun stores => .inr (stores _)) eq
    | ok slot =>
      simp only [hslot] at eq
      exact ih _ (a.step (.refl g) fun stores => .inr (stores _)) eq
  | attachment next ih => exact ih _ (a.step (.refl g) fun stores => .inr (stores _)) eq

theorem fair_attempt {g : Graph} (u : g.Upright) {p : Port} (c : Option Computation)
    (hc : c.isSome → g.Active p.node) (inputs : Except String Unit) :
    Fair g ((attempt below p c inputs).apply g).2 := by
  cases inputs with
  | error message => exact .refl g
  | ok x =>
    cases c with
    | none => exact .refl g
    | some c =>
      have noted : Fair g (g.noted c p) :=
        (Firm.of_quiet (quiet_noted g c p)).fair fun q => by rw [(quiet_noted g c p).isStale]
      rw [attempt, invoke_apply]
      exact noted.trans u.toApt
        (fair_perform hb (noted.upright u) (noted.frame.active (hc rfl)) _)

/-- A computation that ends well leaves a value of the right type, found or stored. -/
theorem heldType_attempt {g h : Graph} (u : g.Upright) {p : Port} {m : NodeType} {t : DataType}
    (hm : g.type? p.node = some m) (ht : g.effectiveType p = some t)
    (hd : g.direction? p = some .output) (hp : g.peer? p = none) {inputs : Except String Unit}
    {s : Status} (eq : (attempt below p m.compute inputs).apply g = (.ok (.ok s), h)) :
    h.heldType p = some t := by
  have held : g.heldType p = some t ∨ ∃ v c, g.type? p.node = some v ∧ v.compute = some c ∧
      ∀ count, (c.body ⟨p.node, p.index, count⟩).Stores p.index := by
    cases hs : g.isStale p with
    | false => exact .inl (u.truthful p t hs ht)
    | true =>
      cases own : g.declaredType p with
      | none => exact u.diligent p t hd hp own ht hs
      | some v =>
        rw [effectiveType_of_declared u.lawful.wellFormed.tree own] at ht
        obtain rfl := Option.some.inj ht
        exact .inl (u.declared p v own)
  cases inputs with
  | error message => cases eq
  | ok x =>
    cases hc : m.compute with
    | none =>
      rw [hc] at eq
      cases eq
      refine held.resolve_right ?_
      rintro ⟨v, c, hv, hvc, -⟩
      rw [hm] at hv
      cases hv
      rw [hc] at hvc
      cases hvc
    | some c =>
      have quiet := quiet_noted g c p
      have noted : Fair g (g.noted c p) :=
        (Firm.of_quiet quiet).fair fun q => by rw [quiet.isStale]
      rw [hc, attempt, invoke_apply] at eq
      refine Promising.heldType hb ⟨noted.upright u, ?_, ?_, ?_⟩ eq
      · exact noted.frame.active (active_of_isSome hm (by rw [hc]; rfl))
      · rw [u.toApt.effectiveType noted.frame, ht]
      · refine held.imp (noted.kept ht) ?_
        rintro ⟨v, d, hv, hvc, stores⟩
        rw [hm] at hv
        cases hv
        rw [hc] at hvc
        cases hvc
        exact stores _

omit hb in
/-- An output is settled on a value of the right type, if the computation left one or failed. -/
theorem fair_settle {g k : Graph} (u : g.Upright) {p : Port} (a : Fair g k)
    (hd : g.direction? p = some .output) (result : Except String Status)
    (firm : Firm g ((settle p result).apply k).2)
    (done : ∀ s t, result = .ok s → g.effectiveType p = some t → k.heldType p = some t) :
    Fair g ((settle p result).apply k).2 := by
  have wired := u.lawful.wellFormed.wired
  have live : (k.direction? p).isSome := by rw [a.frame.direction, hd]; rfl
  cases result with
  | ok status =>
    rw [settle_ok] at firm ⊢
    have same (q : Port) : ((k.setStatus p.node status).settled p).heldType q = k.heldType q := by
      rw [heldType_settled, heldType_setStatus]
    refine a.renew p firm (fun q hq => ⟨same q, ?_⟩) fun t ht => (same p).trans (done _ t rfl ht)
    rw [isStale_settled, if_neg hq.symm, isStale_setStatus]
  | error message =>
    cases hv : k.fallback? p with
    | some v =>
      rw [settle_error_of_some k p message hv] at firm ⊢
      refine a.renew p firm (fun q hq => ⟨?_, ?_⟩) fun t ht => ?_
      · rw [heldType_settled, heldType_setStatus, (Stored.put k p v).heldType hq]
      · rw [isStale_settled, if_neg hq.symm, isStale_setStatus, isStale_put]
      · rw [heldType_settled, heldType_setStatus, heldType_put live]
        rw [a.frame.fallback] at hv
        refine portType_of_fallback u.matching wired hv ((bears_output_iff wired hd t).1 ?_)
        exact (u.matching.effectiveType_eq_some_iff u.lawful p t).1 ht
    | none =>
      rw [settle_error_of_none k p message hv] at firm ⊢
      refine a.trans u.toApt (Firm.fair ?_ fun q => isStale_setStatus ..)
      exact .of_held (calmer_setStatus _ _ _) fun q => heldType_setStatus ..

theorem fair_compute {g : Graph} (u : g.Upright) {p : Port} (hd : g.direction? p = some .output)
    (hp : g.peer? p = none) (stale : g.isStale p = true) : Fair g ((compute below p).apply g).2 := by
  obtain ⟨t, ht⟩ := exists_type?_of_direction? hd
  obtain ⟨m, hm, rfl⟩ := Option.map_eq_some_iff.1 ht
  have first := leads_readAll Fair.steps ((m.ports.inputsOf p.index).map (Port.mk p.node))
    (fun q _ => hb q) g u
  refine compute_cases hm (motive := fun r => Fair g r.2) ?stopped ?reached
  case stopped =>
    intro e h hr
    rw [hr] at first
    exact first
  case reached =>
    intro inputs h result k hr ha
    rw [hr] at first
    have u₁ := first.upright u
    have second := fair_attempt hb u₁ m.compute
      (fun hc => first.frame.active (active_of_isSome ht hc)) inputs
    rw [ha] at second
    have both := first.trans u.toApt second
    refine fair_settle u both hd result ?_ fun s v hs hv => ?_
    · exact firm_settle u.toApt both.toFirm stale result fun inert => inert.settles hm hr ha
    · subst hs
      refine heldType_attempt hb u₁ (m := m.type) ?_ ?_ ?_ ?_ ha
      · rw [first.frame.type, ht]
      · rw [u.toApt.effectiveType first.frame, hv]
      · rw [first.frame.direction, hd]
      · rw [first.frame.peer, hp]

/-- A copy is of the right type if the port goes by the same type as the one that it copies. -/
theorem fair_copyFrom (f : Faithful below) {g : Graph} (u : g.Upright) {p q : Port}
    (live : (g.direction? p).isSome) (stale : g.isStale p = true) (made : ¬ g.Inert p)
    (same : g.effectiveType p = g.effectiveType q) : Fair g ((copyFrom below p q).apply g).2 := by
  have first := hb q g u
  rw [copyFrom, apply_bind]
  rcases hr : (below q).apply g with ⟨e | v, k⟩
  · rw [hr] at first
    exact first
  · rw [hr] at first
    change Fair g ((k.hold p v).setCurrent p)
    refine first.renew p (first.toFirm.copied stale made) (fun r hr => ⟨?_, ?_⟩) fun t ht => ?_
    · rw [heldType_setCurrent, (Stored.hold k p v).heldType hr]
    · rw [isStale_setCurrent, if_neg hr.symm, isStale_hold]
    · rw [heldType_setCurrent, heldType_hold (by rw [first.frame.direction]; exact live)]
      have held : k.heldType q = some t := by
        refine (first.upright u).truthful q t (f.current q g v k hr) ?_
        rw [u.toApt.effectiveType first.frame, ← same, ht]
      rw [← held, heldType_eq_value, ← f.value q g v k hr]
      cases v <;> rfl

theorem fair_freshen (f : Faithful below) (p : Port) :
    Leads (fun g h => g.Upright → Fair g h) (freshen below p) := by
  intro g u
  have wf := u.lawful.wellFormed
  refine freshen_cases (motive := fun r => Fair g r.2) (fun _ => .refl g) (fun _ _ => .refl g)
    ?wired ?given ?linked fun hd stale hp => fair_compute hb u hd hp stale
  case wired =>
    intro q hd stale hq
    have hf := (source?_eq_some_iff wf.wired q p).1 hq
    refine fair_copyFrom hb f u (by rw [hd]; rfl) stale (fun inert => ?_)
      (u.matching.effectiveType_ends u.lawful hf).symm
    rw [inert.1] at hd
    cases hd
  case given =>
    intro hd stale hq
    refine (Fair.refl g).renew p ?_ (fun q hne => ⟨heldType_setCurrent .., ?_⟩) fun t ht => ?_
    · exact .of_held (calmer_setCurrent g p) fun q => heldType_setCurrent ..
    · rw [isStale_setCurrent, if_neg hne.symm]
    · rw [heldType_setCurrent]
      refine u.declared p t ?_
      refine Bears.declared_of_bare ((u.matching.effectiveType_eq_some_iff u.lawful p t).1 ht)
        fun o => ⟨not_feeds_of_input wf.wired hd, fun hf => ?_⟩
      rw [(source?_eq_some_iff wf.wired o p).2 hf] at hq
      cases hq
  case linked =>
    intro q hd stale hq
    refine fair_copyFrom hb f u (by rw [hd]; rfl) stale (fun inert => ?_) (u.mirrored p q hd hq)
    rw [inert.2.1] at hq
    cases hq

end Reads

theorem fair_readWithin (levels : Nat) (p : Port) :
    Edit.Leads (fun g h => g.Upright → Fair g h) (readWithin levels p) := by
  induction levels generalizing p with
  | zero => exact fun g _ => .refl g
  | succ levels ih => exact fair_freshen ih (faithful_readWithin levels) p

theorem fair_reads {g : Graph} (u : g.Upright) {o : Action} (ho : o.reads = true) :
    Fair g (o.after g) := leads_reads Fair.steps fair_readWithin ho g u

end Graph
end Dataflow
