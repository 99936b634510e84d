import Dataflow.Proofs.Cut
import Dataflow.Proofs.Draw
import Dataflow.Proofs.Strict
set_option autoImplicit false

/-!
Strict drawing and cutting of wires. Main statements: in a well-formed graph, every wire is checked,
drawn and removed without missing a port, also where the removal takes ports from boundaries and
further wires with them, and the levels of networks are enough for that.
-/

namespace Dataflow.Graph
namespace Strict

/-! ### Boundaries -/

def setPeer (g : Graph) (p : Port) (q : Option Port) : Option Graph := touch g p (g.setPeer p q)

def peer? (g : Graph) (p : Port) : Option (Option Port) := do
  let s ← g.slot? p
  some s.peer

/-- The ports of nodes that are no terminals are not looked up. -/
def terminal? (g : Graph) (p : Port) : Option (Option Direction) :=
  match g.node? p.node with
  | some m =>
    if m.typeName = NodeType.networkInput.name ∨ m.typeName = NodeType.networkOutput.name then
      touch g p g >>= fun g => some (g.terminal? p)
    else some none
  | none => some none

def grows (g : Graph) (side : Direction) (p : Port) : Option Bool := do
  if (← terminal? g p) = some side then
    let q ← peer? g p
    some q.isNone
  else some false

def checkGrowth (g : Graph) (side : Direction) (p : Port) : Check Unit := do
  let _ ← grows g side p
  g.checkGrowth side p

def checkBoundary (g : Graph) (e : Edge) : Check Unit := do
  checkGrowth g .input e.output
  checkGrowth g .output e.input

def firstValue (g : Graph) (terminal other : Port) : Option Value := do
  let t ← g.slot? terminal
  if !t.held.isNull then some t.held
  else
    let o ← g.slot? other
    some (if !o.held.isNull then o.held else o.attr.default)

/-- The new port is looked up as its terminal is. -/
def grow (g : Graph) (side : Direction) (terminal other : Port) : Option Graph := do
  let v ← firstValue g terminal other
  match g.node? terminal.node with
  | some t => match t.parent with
    | some n => match g.node? n with
      | some m =>
        let (v, g) := g.stamp v
        let slot := { newSlot (.ofValue t.name side v) v with peer := some terminal }
        let g := g.modifyNode n fun m => { m with ports := m.ports.declare slot }
        let g := g.emit (.metadataChanged n)
        let b : Port := ⟨n, m.ports.length⟩
        let g ← touch g b g
        setPeer g terminal (some b)
      | none => some g
    | none => some g
  | none => some g

section Boundary
variable {g : Graph} {p t other : Port}

theorem setPeer_eq (hp : g.Live p) (q : Option Port) : setPeer g p q = some (g.setPeer p q) :=
  touch_eq hp _

theorem peer?_eq (hp : g.Live p) : peer? g p = some (g.peer? p) := by
  obtain ⟨s, hs⟩ := hp.slot
  simp [peer?, Graph.peer?, hs]

theorem terminal?_eq (hp : g.Live p) : terminal? g p = some (g.terminal? p) := by
  obtain ⟨m, s, hm, -, hs⟩ := hp.node
  simp only [terminal?, hm, touch_eq hp, Option.bind_eq_bind, Option.bind_some]
  split
  · rfl
  · next other =>
    simp only [not_or] at other
    simp only [Graph.terminal?, direction?, hm, hs, Option.bind_eq_bind, Option.bind_some,
      Option.map_some, other.1, other.2, if_false]
    cases s.attr.direction <;> rfl

theorem grows_eq (hp : g.Live p) (side : Direction) : grows g side p = some (g.grows side p) := by
  simp only [grows, terminal?_eq hp, peer?_eq hp, Graph.grows, Option.bind_eq_bind,
    Option.bind_some]
  split <;> simp_all

theorem checkGrowth_eq (hp : g.Live p) (side : Direction) :
    checkGrowth g side p = sure (g.checkGrowth side p) := sure_look (grows_eq hp side) rfl

theorem firstValue_eq (ht : g.Live t) (ho : g.Live other) :
    firstValue g t other = some (g.firstValue t other) := by
  obtain ⟨s, hs⟩ := ht.slot
  obtain ⟨u, hu⟩ := ho.slot
  simp only [firstValue, Graph.firstValue, held, hs, hu, Option.bind_eq_bind, Option.bind_some,
    Option.elim_some]
  split
  · rfl
  · split <;> rfl

theorem live_declare (n : NodeId) (s : Slot) (e : Event) (hp : g.Live p) :
    ((g.modifyNode n fun m => { m with ports := m.ports.declare s }).emit e).Live p := by
  obtain ⟨m, u, hm, hu, -⟩ := hp.node
  have low : p.index < m.ports.length := (List.getElem?_eq_some_iff.1 hu).1
  rw [Live, slot?_emit, slot?, node?_modifyNode, hm]
  split
  · simp [Layout.get?_declare m.ports s p.index low, hu]
  · simp [hu]

theorem live_declared {n : NodeId} {m : Node} (hm : g.node? n = some m) (s : Slot) (e : Event) :
    ((g.modifyNode n fun m => { m with ports := m.ports.declare s }).emit e).Live
      ⟨n, m.ports.length⟩ := by
  rw [Live, slot?_emit, slot?, node?_modifyNode]
  simp [hm, Layout.get?, Layout.declare, Layout.length]

theorem grow_eq (ht : g.Live t) (ho : g.Live other) (side : Direction) :
    grow g side t other = some (g.grow side t other) := by
  obtain ⟨k, -, hk, -⟩ := ht.node
  simp only [grow, Graph.grow, firstValue_eq ht ho, hk, Option.bind_eq_bind, Option.bind_some]
  cases k.parent with
  | none => rfl
  | some n =>
    cases hm : g.node? n with
    | none => simp only [hm]
    | some m =>
      simp only [hm]
      let g₁ := (g.stamp (g.firstValue t other)).2
      have new := live_declared (g := g₁) hm
      have old (s : Slot) (e : Event) := live_declare (g := g₁) n s e ht
      exact Option.bind_eq_some_iff.2 ⟨_, touch_eq (new _ _) _, setPeer_eq (old _ _) _⟩

end Boundary

/-! ### Drawing -/

/-- Grows the boundary at one end of a wire, if it has to. -/
def growAt (g : Graph) (side : Direction) (terminal other : Port) : Option Graph := do
  if ← grows g side terminal then grow g side terminal other else some g

def growBoundary (g : Graph) (e : Edge) : Option Graph := do
  let g ← growAt g .input e.output e.input
  growAt g .output e.input e.output

def seedEnds (g : Graph) (e : Edge) : Option Graph := do
  let i ← g.slot? e.input
  let o ← g.slot? e.output
  let g := if i.attr.type.isNone then g.hold e.input o.held else g
  let i ← g.slot? e.input
  let o ← g.slot? e.output
  some (if o.attr.type.isNone && o.held.isNull then g.hold e.output i.held else g)

def checkConnect (g : Graph) (e : Edge) : Check Unit := do
  g.expect .output e.output
  g.expect .input e.input
  if (g.source? e.input).isSome then throw (.alreadyConnected e.input)
  if ← leadsTo g e.input e.output then throw (.cyclicDependency e.output e.input)
  checkTypes (← effectiveType g e.output) (← effectiveType g e.input)
  let around := g.around? e.output.node
  if around.isNone || around != g.around? e.input.node then
    throw (.crossNetworkConnection e.output e.input)
  checkBoundary g e

def drawWire (g : Graph) (e : Edge) : Option Graph := do
  let g := g.modifyWiresAround e.input.node fun w => w.add e
  let g ← seedEnds g e
  let g ← growBoundary g e
  let g ← spread g [e.input]
  let g ← spread g [e.output]
  some (g.emit (.connected e.output e.input))

def connect (g : Graph) (output input : Port) : Check Graph := do
  let e : Edge := ⟨output, input⟩
  checkConnect g e
  drawWire g e

section Draw
variable {g g₁ g₂ g₃ g₄ h : Graph} {n : NodeId} {e : Edge}

theorem seedEnds_eq (ho : g.Live e.output) (hi : g.Live e.input) :
    seedEnds g e = some (g.seedEnds e) := by
  obtain ⟨s, hs⟩ := hi.slot
  obtain ⟨u, hu⟩ := ho.slot
  -- what the ends hold may change with the first step, but not that they are there
  let g₁ := if s.attr.type.isNone then g.hold e.input u.held else g
  have frame : SameFrame g g₁ := by
    simp only [g₁]
    split
    · exact g.sameFrame_hold _ _
    · exact .refl g
  obtain ⟨s', hs'⟩ := (frame.live ▸ hi : g₁.Live e.input).slot
  obtain ⟨u', hu'⟩ := (frame.live ▸ ho : g₁.Live e.output).slot
  have type : u'.attr.type = u.attr.type := by
    have := congrFun frame.declaredType e.output
    simpa [declaredType, hu, hu'] using this
  have same : (if (g.declaredType e.input).isNone = true then g.hold e.input (g.held e.output)
      else g) = g₁ := by simp [g₁, declaredType, held, hs, hu]
  simp only [seedEnds, Graph.seedEnds, hs, hu, Option.bind_eq_bind, Option.bind_some, same]
  change (do
    let i ← g₁.slot? e.input
    let o ← g₁.slot? e.output
    some (if o.attr.type.isNone && o.held.isNull then g₁.hold e.output i.held else g₁)) = _
  simp [hs', hu', type, declaredType, held, hu]

theorem growAt_eq {t other : Port} (ht : g.Live t) (ho : g.Live other) (side : Direction) :
    growAt g side t other = some (if g.grows side t then g.grow side t other else g) := by
  simp only [growAt, grows_eq ht, Option.bind_eq_bind, Option.bind_some, grow_eq ht ho]
  split <;> rfl

theorem live_of_extended {side : Direction} {p q : Port} (x : Extended side p n g h)
    (hq : g.Live q) : h.Live q := by
  rcases x with ⟨-, rfl⟩ | ⟨i, a, c, -⟩
  · exact hq
  · rw [Live, c.slot]
    split
    · rfl
    · split
      · next hp => simpa [hp, Live] using hq
      · exact hq

theorem checkConnect_eq (w : g.WellFormed) (e : Edge) :
    checkConnect g e = sure (g.checkConnect e) := by
  refine sure_bind rfl fun _ ho => sure_bind rfl fun _ hi => ?_
  have ho := live_of_direction? (expect_ok ho)
  have hi := live_of_direction? (expect_ok hi)
  refine sure_ite (fun _ => rfl) fun _ => ?_
  refine sure_look (leadsTo_eq w hi _) (sure_ite (fun _ => rfl) fun _ => ?_)
  refine sure_look (effectiveType_eq w ho) (sure_look (effectiveType_eq w hi) ?_)
  refine sure_bind rfl fun _ _ => sure_ite (fun _ => rfl) fun _ => ?_
  exact sure_bind (checkGrowth_eq ho _) fun _ _ => checkGrowth_eq hi _

theorem drawWire_eq (w : g.WellFormed) (d : Drawable n e g) :
    drawWire g e = some (g.drawWire e) := by
  obtain ⟨g₁, g₂, g₃, g₄, x⟩ := drawn d w
  have live₁ : g₁.Live = g.Live := by
    funext p
    rw [live_iff, live_iff, x.wire.direction]
  have live₂ : g₂.Live = g.Live := by rw [x.frame₂.live, live₁]
  have out₂ : g₂.Live e.output := live₂ ▸ live_of_direction? d.output
  have in₂ : g₂.Live e.input := live₂ ▸ live_of_direction? d.input
  have out₃ := live_of_extended x.atOutput out₂
  have in₃ := live_of_extended x.atOutput in₂
  have out₄ := live_of_extended x.atInput out₃
  have in₄ := live_of_extended x.atInput in₃
  have w₄ := x.wellFormed₄ d w
  have seeds : seedEnds g₁ e = some g₂ := by
    rw [x.seeds]
    exact seedEnds_eq (live₁ ▸ live_of_direction? d.output) (live₁ ▸ live_of_direction? d.input)
  have growth : growBoundary g₂ e = some g₄ := by
    rw [growBoundary, growAt_eq out₂ in₂, ← x.grown₃, Option.bind_eq_bind, Option.bind_some,
      growAt_eq in₃ out₃, ← x.grown₄]
  have spread₁ : spread g₄ [e.input] = some (g₄.spreadFrom e.input) :=
    spread_eq w₄ (by simpa using in₄)
  have frame := g₄.sameFrame_spread [e.input]
  have spread₂ : spread (g₄.spreadFrom e.input) [e.output] =
      some ((g₄.spreadFrom e.input).spreadFrom e.output) := by
    refine spread_eq (frame.wellFormed w₄) ?_
    simpa only [List.mem_singleton, forall_eq, frame.live] using out₄
  simp only [drawWire, ← x.added, seeds, growth, spread₁, spread₂, Option.bind_eq_bind,
    Option.bind_some, x.spread]

theorem connect_eq (w : g.WellFormed) (o i : Port) : connect g o i = sure (g.connect o i) := by
  refine sure_bind (checkConnect_eq w _) fun _ ok => ?_
  obtain ⟨n, d⟩ := checkConnect_ok ok
  rw [drawWire_eq w d]
  rfl

end Draw

/-! ### Cutting -/

def resetEnds (g : Graph) (e : Edge) : Option Graph := do
  let g ← touch g e.input (g.resetInput e.input)
  touch g e.output (g.resetOutput e.output)

/-- Tells the peer of one port of `n` where that port is. -/
def address (n : NodeId) (g : Graph) (s : Slot × Nat) : Option Graph :=
  match s.1.peer with
  | some q => setPeer g q (some ⟨n, s.2⟩)
  | none => some g

def readdress (g : Graph) (n : NodeId) (start : Nat) : Option Graph :=
  match g.node? n with
  | some m => (m.ports.entries.zipIdx.drop start).foldlM (address n) g
  | none => some g

/-- The port is looked up for its peer, and once more where it is taken away. -/
def dropPort (g : Graph) (b : Port) : Option Graph := do
  let q ← peer? g b
  let g ← q.elim (some g) fun q => setPeer g q none
  let g ← touch g b (g.modifyNode b.node fun m => { m with ports := m.ports.remove b.index })
  let g ← readdress g b.node b.index
  let g := g.modifyWiresAround b.node fun w => w.shift b.node b.index
  some (g.emit (.metadataChanged b.node))

def dropBoundary (cut : Graph → Edge → Option Graph) (g : Graph) (b : Port) : Option Graph := do
  let g ← ((g.wiresAround b.node).filter (Edge.endsAt b)).foldlM cut g
  dropPort g b

def shrinkAt (cut : Graph → Edge → Option Graph) (g : Graph) (t : Port) : Option Graph := do
  match ← peer? g t with
  | some b => dropBoundary cut g b
  | none => some g

/-- The part of `shrinkBoundary` that comes first. -/
def shrinkOutput (cut : Graph → Edge → Option Graph) (g : Graph) (o : Port) : Option Graph := do
  if (← terminal? g o) = some .input ∧ g.sinks o = [] then shrinkAt cut g o else some g

def shrinkInput (cut : Graph → Edge → Option Graph) (g : Graph) (i : Port) : Option Graph := do
  if (← terminal? g i) = some .output then shrinkAt cut g i else some g

def shrinkBoundary (cut : Graph → Edge → Option Graph) (g : Graph) (e : Edge) : Option Graph := do
  let g ← shrinkOutput cut g e.output
  shrinkInput cut g e.input

/-- There has to be a level left for each wire that is removed. -/
def cutWithin : Nat → Graph → Edge → Option Graph
  | 0, _, _ => none
  | levels + 1, g, e =>
    if (g.wiresAround e.input.node).has e then do
      let g := g.modifyWiresAround e.input.node fun w => w.remove e
      let g ← resetEnds g e
      let g ← spread g [e.input]
      let g ← shrinkBoundary (cutWithin levels) g e
      some (g.emit (.disconnected e.output e.input))
    else some g

def cut (g : Graph) (e : Edge) : Option Graph := cutWithin g.nodes.length g e

def disconnect (g : Graph) (output input : Port) : Check Graph := do
  let _ ← g.slot output
  let _ ← g.slot input
  let e : Edge := ⟨output, input⟩
  if (g.wiresAround input.node).has e then cut g e else throw (.notConnected output input)

section Readdress
variable {g h : Graph} {n : NodeId}

theorem live_setPeer (p : Port) (q : Option Port) : (g.setPeer p q).Live = g.Live := by
  funext r
  rw [live_iff, live_iff, direction?, direction?, slot?_setPeer]
  split
  · cases g.slot? r <;> rfl
  · rfl

theorem readdress_eq (start : Nat) (live : ∀ i q, g.peer? ⟨n, i⟩ = some q → g.Live q) :
    readdress g n start = some (g.readdress n start) := by
  rw [Graph.readdress_eq, readdress]
  cases hm : g.node? n with
  | none => rfl
  | some m =>
    refine foldlM_eq_some (fun l (h : Graph) => ∀ s ∈ l, ∀ q, s.1.peer = some q → h.Live q)
      ?pass _ _ ?first
    case pass =>
      intro s l h live
      have rest : ∀ u ∈ l, ∀ q, u.1.peer = some q → h.Live q :=
        fun u hu => live u (List.mem_cons_of_mem _ hu)
      cases hs : s.1.peer with
      | none => simpa only [address, Graph.address, hs, true_and] using rest
      | some q =>
        simp only [address, Graph.address, hs, live_setPeer]
        exact ⟨setPeer_eq (live s (by simp) q hs) _, rest⟩
    case first =>
      intro s hs q hq
      have get := ((mem_drop_zipIdx _ _ _).1 hs).2
      refine live s.2 q ?_
      simp only [Graph.peer?, slot?, hm, Option.bind_eq_bind, Option.bind_some, Layout.get?, get, hq]

/-- The peers of ports that have moved are where they were. -/
theorem live_peer_of_moves {m : Node} {f : Layout Slot → Layout Slot} {start : Nat}
    {old new : Nat → Nat} (w : g.WellFormed) (hm : g.node? n = some m)
    (a : Moves g n m f start old new) (i : Nat) (q : Port)
    (hq : (g.modifyNode n fun m => { m with ports := f m.ports }).peer? ⟨n, i⟩ = some q) :
    (g.modifyNode n fun m => { m with ports := f m.ports }).Live q := by
  rw [Graph.peer?, a.slot?_modifyNode hm] at hq
  have ne := peer_node_ne w hq
  rw [node_moved] at ne
  rw [Live, a.slot?_modifyNode hm, moved_of_ne old ne.symm]
  exact live_of_peer? w hq

end Readdress

section Drop
variable {g : Graph} {b t : Port}

theorem dropPort_eq (w : g.WellFormed) (hb : g.peer? b = some t) (hc : ¬ g.Connected b) :
    dropPort g b = some (g.dropPort b) := by
  have live : g.Live b := live_of_peer? w (w.linked.back b t hb)
  have liveT : g.Live t := live_of_peer? w hb
  let g₁ := (g.setPeer t none).setPeer b none
  have a : Unlinked b t g g₁ := g.unlinked_setPeer b t
  have live₁ : g₁.Live b := by
    simp only [g₁, live_setPeer]
    exact live
  obtain ⟨m, -, hm, -⟩ := live₁.node
  have moves := moves_remove (b := b) m (by rw [a.peer]; simp) (by rw [a.connected]; exact hc)
  have told := readdress_eq b.index (live_peer_of_moves (a.wellFormed w hb) hm moves)
  rw [modifyNode_setPeer_remove] at told
  simp only [dropPort, Graph.dropPort, peer?_eq live, hb, Option.bind_eq_bind, Option.bind_some,
    Option.elim_some, setPeer_eq liveT, touch_eq ((live_setPeer t none) ▸ live), told]

end Drop

section CutAll
variable {strict : Graph → Edge → Option Graph} {cut : Graph → Edge → Graph} {levels : Nat}
  (spec : ∀ g m e, g.WellFormed → e ∈ g.wires m → True ∨ g.Dangles e → g.rank m < levels →
    Cutting (fun _ => True) m e g (cut g e))
  (eq : ∀ g m e, g.WellFormed → e ∈ g.wires m → g.rank m < levels → strict g e = some (cut g e))
include spec eq

/-- Wires that are cut one after another are there when their turn comes. -/
theorem foldlM_cut_eq {g : Graph} {m : NodeId} {l : List Edge} (w : g.WellFormed)
    (hl : ∀ e ∈ l, e ∈ g.wires m) (nodup : l.Nodup) (hm : g.rank m < levels) :
    l.foldlM strict g = some (l.foldl cut g) := by
  refine foldlM_eq_some (fun l (g : Graph) => g.WellFormed ∧ (∀ e ∈ l, e ∈ g.wires m) ∧ l.Nodup ∧
    g.rank m < levels) ?_ l g ⟨w, hl, nodup, hm⟩
  rintro e l g ⟨w, hl, nodup, hm⟩
  obtain ⟨new, nodup⟩ := List.nodup_cons.1 nodup
  have he := hl e (by simp)
  have c := spec g m e w he (.inl trivial) hm
  refine ⟨eq g m e w he hm, c.wellFormed, fun d hd => ?_, nodup, ?_⟩
  · rw [c.wires, List.mem_erase_of_ne]
    · exact hl d (List.mem_cons_of_mem _ hd)
    · rintro rfl
      exact new hd
  · rw [c.outward.tree.rank]
    exact hm

theorem dropBoundary_eq {g : Graph} {b t : Port} (w : g.WellFormed) (d : Deserted b t g)
    (hr : g.rank b.node ≤ levels) :
    dropBoundary strict g b = some (Graph.dropBoundary cut g b) := by
  obtain ⟨g₁, eq₁, w₁, -, -, -, -, d₁, off⟩ := deserted_foldl_cut spec w d hr
  have all : ((g.wiresAround b.node).filter (Edge.endsAt b)).foldlM strict g = some g₁ := by
    rw [← eq₁]
    cases ha : g.around? b.node with
    | none =>
      rw [wiresAround_eq, ha]
      rfl
    | some n =>
      have outer := rank_lt w.tree ha
      rw [wiresAround_of_around? ha]
      exact foldlM_cut_eq spec eq w (fun e he => (List.mem_filter.1 he).1)
        ((nodup_wires w.wired n).filter _) (by omega)
  rw [dropBoundary, all, Graph.dropBoundary_eq, eq₁]
  exact dropPort_eq w₁ d₁.peer off

theorem shrinkAt_eq {g : Graph} {m : NodeId} {t : Port} (w : g.WellFormed)
    (ht : (g.terminal? t).isSome) (hc : ¬ g.Connected t) (hm : g.around? t.node = some m)
    (hr : g.rank m ≤ levels) : shrinkAt strict g t = some (Graph.shrinkAt cut g t) := by
  rw [shrinkAt, peer?_eq (live_of_terminal? ht), Graph.shrinkAt]
  cases hb : g.peer? t with
  | none => rfl
  | some b =>
    have d := deserted_of_peer? w ht hc hb
    exact dropBoundary_eq spec eq w d (by rw [d.node hm]; exact hr)

theorem shrinkBoundary_eq {g : Graph} {m : NodeId} {e : Edge} (w : g.WellFormed)
    (he : e ∈ g.wires m) (hm : g.rank m ≤ levels) :
    shrinkBoundary strict (g.sever e) e = some (Graph.shrinkBoundary cut (g.sever e) e) := by
  have w₁ : (g.sever e).WellFormed := wellFormed_sever w he
  have rank₁ : (g.sever e).rank m ≤ levels := by
    rw [(sameTree_sever w he).rank]
    exact hm
  have hout : (g.sever e).direction? e.output = some .output := by
    rw [direction?_sever w he]
    exact w.wired.output m e he
  have outer : (g.sever e).around? e.output.node = some m := by
    rw [(sameTree_sever w he).around]
    exact w.wired.outputAround m e he
  obtain ⟨g₂, eq₂, w₂, -, outward₂, -, -, around₂, bare⟩ :=
    shrinkOutput_spec keptByCutting_true spec w he hm
  have first : shrinkOutput strict (g.sever e) e.output = some g₂ := by
    rw [shrinkOutput, terminal?_eq (live_of_direction? hout), ← eq₂, Graph.shrinkOutput]
    simp only [Option.bind_eq_bind, Option.bind_some]
    split
    · next h =>
      exact shrinkAt_eq spec eq w₁ (by simp [h.1]) (not_connected_of_sinks w₁.wired hout h.2)
        outer rank₁
    · rfl
  have live₂ : g₂.Live e.input := by
    have inner := rank_lt w₁.tree (outward₂.tree.around ▸ around₂)
    rw [live_iff, outward₂.direction inner, direction?_sever w he, w.wired.input m e he]
    rfl
  rw [shrinkBoundary, first, Graph.shrinkBoundary_eq, eq₂, Option.bind_eq_bind, Option.bind_some,
    shrinkInput, terminal?_eq live₂, Graph.shrinkInput]
  simp only [Option.bind_eq_bind, Option.bind_some]
  split
  · next h =>
    refine shrinkAt_eq spec eq w₂ (by simp [h]) bare around₂ ?_
    rw [outward₂.tree.rank]
    exact rank₁
  · rfl

end CutAll

theorem resetEnds_eq {g : Graph} {e : Edge} (hi : g.Live e.input) (ho : g.Live e.output) :
    resetEnds g e = some (g.resetEnds e) := by
  have frame := g.sameFrame_resetInput e.input
  rw [resetEnds, touch_eq hi, Graph.resetEnds_eq, Option.bind_eq_bind, Option.bind_some]
  exact touch_eq (by rw [frame.live]; exact ho) _

theorem cutWithin_eq (levels : Nat) (g : Graph) (m : NodeId) (e : Edge) (w : g.WellFormed)
    (he : e ∈ g.wires m) (hm : g.rank m < levels) :
    cutWithin levels g e = some (Graph.cutWithin levels g e) := by
  induction levels generalizing g m e with
  | zero => omega
  | succ levels ih =>
    have has : (g.wiresAround e.input.node).has e = true := by
      rw [Wiring.has, List.contains_iff_mem]
      exact (mem_wiresAround_iff w.wired e).2 ⟨m, he⟩
    let g₁ := g.modifyWiresAround e.input.node fun w => w.remove e
    have a : Rewired m (·.remove e) g g₁ :=
      have ha := w.wired.inputAround m e he
      g.rewired_modifyWiresAround _ m _ ha (isSome_contents?_of_around? w.tree ha)
    have live₁ : g₁.Live = g.Live := by
      funext p
      rw [live_iff, live_iff, a.direction]
    have hi : g₁.Live e.input := live₁ ▸ live_of_direction? (w.wired.input m e he)
    have ho : g₁.Live e.output := live₁ ▸ live_of_direction? (w.wired.output m e he)
    have frame := g₁.sameFrame_resetEnds e
    have spread₁ : spread (g₁.resetEnds e) [e.input] = some (g.sever e) := by
      refine spread_eq (frame.wellFormed (wellFormed_remove a w)) ?_
      simpa only [List.mem_singleton, forall_eq, frame.live] using hi
    have boundary : shrinkBoundary (cutWithin levels) (g.sever e) e =
        some (Graph.shrinkBoundary (Graph.cutWithin levels) (g.sever e) e) :=
      shrinkBoundary_eq (fun g m e => cutWithin_spec keptByCutting_true levels g m e) ih w he
        (by omega)
    rw [cutWithin, Graph.cutWithin, if_pos has, if_pos has]
    simp only [resetEnds_eq hi ho, spread₁, boundary, g₁, Option.bind_eq_bind, Option.bind_some]
    rfl

/-- A wire is removed, if it is there, with all that it alone keeps. -/
theorem cut_eq {g : Graph} (w : g.WellFormed) (e : Edge) : cut g e = some (g.cut e) := by
  by_cases he : g.Feeds e.output e.input
  · obtain ⟨m, he⟩ := he
    have inside := isSome_contents?_of_around? w.tree (w.wired.outputAround m e he)
    exact cutWithin_eq _ g m e w he (rank_lt_length (isSome_type?_of_contents? inside))
  · have has : ¬ (g.wiresAround e.input.node).has e = true := by
      rw [Wiring.has, List.contains_iff_mem, mem_wiresAround_iff w.wired]
      exact he
    have low := rank_lt_length (isSome_type?_of_contents? w.tree.rootNetwork)
    rw [cut_of_not_mem w e he, cut]
    cases hn : g.nodes.length with
    | zero => omega
    | succ levels => rw [cutWithin, if_neg has]

theorem disconnect_eq {g : Graph} (w : g.WellFormed) (o i : Port) :
    disconnect g o i = sure (g.disconnect o i) := by
  refine sure_bind rfl fun _ _ => sure_bind rfl fun _ _ => sure_ite (fun _ => ?_) fun _ => rfl
  rw [cut_eq w]
  rfl

end Strict
end Dataflow.Graph
