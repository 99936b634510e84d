import Dataflow.Proofs.StrictEdits
set_option autoImplicit false

/-!
A switchboard keeps the wires of a network twice: under each input its source, in the order in which
the wires were drawn, and under each output all that it feeds. Where ports get new names it is wired
again from nothing. Main statements: after any changes that fit, both sides tell of the same wires in
the same order, nothing is kept under an output that feeds nothing, no input has two sources, and new
names go to each wire in its place.
-/

namespace Dataflow

structure Switchboard where
  sources : Table Port Port
  sinks : Table Port (List Port)
  deriving DecidableEq

namespace Switchboard

def empty : Switchboard := ⟨[], []⟩

def edges (b : Switchboard) : List Edge := b.sources.map fun p => ⟨p.2, p.1⟩

def source? (b : Switchboard) (input : Port) : Option Port := b.sources.get? input

def sinksOf (b : Switchboard) (output : Port) : List Port := (b.sinks.get? output).getD []

def isConnected (b : Switchboard) (p : Port) : Bool := b.sources.has p || b.sinks.has p

def has (b : Switchboard) (e : Edge) : Bool := b.source? e.input == some e.output

/-- An input that has a source would take the new one instead and stay under the old one. -/
def add (b : Switchboard) (e : Edge) : Switchboard :=
  ⟨b.sources.put e.input e.output, b.sinks.put e.output (b.sinksOf e.output ++ [e.input])⟩

/-- Takes an input from the list of an output, and the list away with its last input. -/
def release (sinks : Table Port (List Port)) (e : Edge) : Table Port (List Port) :=
  match sinks.get? e.output with
  | some inputs =>
    let left := inputs.filter (· != e.input)
    if left.isEmpty then sinks.erase e.output else sinks.put e.output left
  | none => sinks

/-- Says whether there was such a wire. -/
def remove (b : Switchboard) (e : Edge) : Bool × Switchboard :=
  if b.has e then (true, ⟨b.sources.erase e.input, release b.sinks e⟩) else (false, b)

def ofEdges (es : List Edge) : Switchboard := es.foldl add empty

def shift (b : Switchboard) (n : NodeId) (gone : Nat) : Switchboard :=
  ofEdges (b.edges.map (Edge.mapPorts (Port.shifted n gone)))

/-- The new places stand in a table, from which none may be missing. -/
def remap (b : Switchboard) (n : NodeId) (table : List Nat) : Option Switchboard :=
  (Graph.Strict.remap b.edges n table).map ofEdges

/-! ### What it shows -/

/-- The wires are the same on both sides of the board. -/
structure Shows (b : Switchboard) (w : Wiring) : Prop where
  sources : b.sources = w.map fun e => (e.input, e.output)
  sinks : ∀ o, b.sinks.get? o = if w.sinks o = [] then none else some (w.sinks o)
  keys : b.sinks.keys.Nodup
  inputs : (w.map Edge.input).Nodup

theorem shows_empty : Shows empty [] := ⟨rfl, fun _ => rfl, .nil, .nil⟩

section Shows
variable {b : Switchboard} {w : Wiring}

theorem Shows.edges (s : Shows b w) : b.edges = w := by
  rw [Switchboard.edges, s.sources, List.map_map]
  exact List.map_id _

theorem source?_cons (e : Edge) (w : Wiring) (i : Port) :
    Wiring.source? (e :: w) i = if e.input = i then some e.output else w.source? i := by
  by_cases h : e.input = i <;> simp [Wiring.source?, h]

theorem Shows.source? (s : Shows b w) (i : Port) : b.source? i = w.source? i := by
  rw [Switchboard.source?, s.sources]
  clear s
  induction w with
  | nil => rfl
  | cons e w ih =>
    rw [List.map_cons, Table.get?, source?_cons, ih]

theorem Shows.sinksOf (s : Shows b w) (o : Port) : b.sinksOf o = w.sinks o := by
  rw [Switchboard.sinksOf, s.sinks]
  split
  · next h => rw [h, Option.getD_none]
  · rfl

theorem source?_eq_some_iff (inputs : (w.map Edge.input).Nodup) {o i : Port} :
    w.source? i = some o ↔ (⟨o, i⟩ : Edge) ∈ w := by
  refine ⟨w.mem_of_source? o i, fun h => ?_⟩
  induction w with
  | nil => cases h
  | cons e w ih =>
    obtain ⟨new, inputs⟩ := List.nodup_cons.1 inputs
    rw [source?_cons]
    rcases List.mem_cons.1 h with rfl | h
    · exact if_pos rfl
    · have apart : e.input ≠ i := by
        rintro rfl
        exact new (List.mem_map.2 ⟨_, h, rfl⟩)
      rw [if_neg apart, ih inputs h]

theorem Shows.has (s : Shows b w) (e : Edge) : b.has e = w.has e := by
  rw [Bool.eq_iff_iff, Switchboard.has, s.source?, beq_iff_eq, source?_eq_some_iff s.inputs,
    Wiring.has, List.contains_iff_mem]

theorem source?_eq_none_iff (i : Port) : w.source? i = none ↔ i ∉ w.map Edge.input := by
  rw [Wiring.source?, Option.map_eq_none_iff, List.find?_eq_none, List.mem_map]
  simp

theorem Shows.isConnected (s : Shows b w) (p : Port) : b.isConnected p = w.isConnected p := by
  rw [Bool.eq_iff_iff, Switchboard.isConnected, Bool.or_eq_true]
  have source : b.sources.has p = true ↔ ∃ e ∈ w, e.input = p := by
    rw [Table.has, ← Switchboard.source?, s.source?, Option.isSome_iff_ne_none, Ne,
      source?_eq_none_iff, not_not, List.mem_map]
  have sink : b.sinks.has p = true ↔ ∃ e ∈ w, e.output = p := by
    rw [Table.has, s.sinks]
    by_cases none : w.sinks p = []
    · simp only [none, if_true, Option.isSome_none, Bool.false_eq_true, false_iff]
      rintro ⟨e, he, rfl⟩
      exact List.ne_nil_of_mem ((w.mem_sinks e.output e.input).2 he) none
    · simp only [none, if_false, Option.isSome_some, true_iff]
      obtain ⟨i, hi⟩ := List.exists_mem_of_ne_nil _ none
      exact ⟨_, (w.mem_sinks p i).1 hi, rfl⟩
  rw [source, sink]
  simp only [Wiring.isConnected, List.any_eq_true, Edge.endsAt, Bool.or_eq_true, beq_iff_eq]
  constructor
  · rintro (⟨e, he, h⟩ | ⟨e, he, h⟩)
    · exact ⟨e, he, .inr h⟩
    · exact ⟨e, he, .inl h⟩
  · rintro ⟨e, he, h | h⟩
    · exact .inr ⟨e, he, h⟩
    · exact .inl ⟨e, he, h⟩

/-- No list is kept that is empty. -/
theorem Shows.nonempty (s : Shows b w) {o : Port} {l : List Port} (h : (o, l) ∈ b.sinks) :
    l ≠ [] := by
  have get := Table.get?_of_mem_of_nodup s.keys h
  rw [s.sinks] at get
  split at get
  · cases get
  · next some => exact Option.some.inj get ▸ some

/-! ### What becomes of it -/

theorem Shows.add (s : Shows b w) {e : Edge} (free : b.source? e.input = none) :
    Shows (b.add e) (w.add e) := by
  rw [s.source?, source?_eq_none_iff] at free
  have new : e.input ∉ b.sources.keys := by
    rw [s.sources]
    simpa [Table.keys] using free
  refine ⟨?sources, fun o => ?sinks, Table.nodup_keys_put s.keys _ _, ?inputs⟩
  case sources =>
    rw [Switchboard.add, Table.put_of_notMem _ _ new, s.sources, Wiring.add, List.map_append]
    rfl
  case sinks =>
    rw [Switchboard.add, Table.get?_put, s.sinksOf, Wiring.sinks_add, s.sinks]
    by_cases h : e.output = o
    · subst h
      simp
    · rw [if_neg h, if_neg h]
  case inputs =>
    rw [Wiring.add, List.map_append]
    simpa using s.inputs.concat free

theorem erase_sources (inputs : (w.map Edge.input).Nodup) {e : Edge} (he : e ∈ w) :
    Table.erase (w.map fun e => (e.input, e.output)) e.input =
      (w.erase e).map fun e => (e.input, e.output) := by
  induction w with
  | nil => cases he
  | cons d w ih =>
    obtain ⟨new, inputs⟩ := List.nodup_cons.1 inputs
    rcases List.mem_cons.1 he with rfl | he
    · simp [Table.erase]
    · have apart : d.input ≠ e.input := fun same => new (same ▸ List.mem_map_of_mem he)
      have other : d ≠ e := fun same => apart (same ▸ rfl)
      rw [List.map_cons, Table.erase, if_neg apart, ih inputs he,
        List.erase_cons_tail (by simpa using other), List.map_cons]

theorem sinks_remove (inputs : (w.map Edge.input).Nodup) (e : Edge) (o : Port) :
    (w.remove e).sinks o =
      if e.output = o then (w.sinks o).filter (· != e.input) else w.sinks o := by
  rw [Wiring.remove, inputs.of_map.erase_eq_filter, Wiring.sinks, List.filter_filter]
  split
  · next h =>
    subst h
    rw [Wiring.sinks, List.filter_map, List.filter_filter]
    refine congrArg _ (List.filter_congr fun d _ => ?_)
    obtain ⟨o, i⟩ := d
    obtain ⟨o', i'⟩ := e
    by_cases ho : o = o'
    · simp [ho, bne]
    · simp [beq_eq_false_iff_ne.2 ho]
  · next h =>
    refine congrArg _ (List.filter_congr fun d _ => ?_)
    by_cases hd : d.output = o
    · have other : d ≠ e := by
        rintro rfl
        exact h hd
      simp [hd, other]
    · simp [hd]

theorem release_spec (s : Shows b w) {e : Edge} (he : e ∈ w) :
    (∀ o, (release b.sinks e).get? o =
      if (w.remove e).sinks o = [] then none else some ((w.remove e).sinks o)) ∧
    (release b.sinks e).keys.Nodup := by
  have fed : w.sinks e.output ≠ [] := List.ne_nil_of_mem ((w.mem_sinks e.output e.input).2 he)
  have here : b.sinks.get? e.output = some (w.sinks e.output) := by rw [s.sinks, if_neg fed]
  simp only [release, here, List.isEmpty_iff]
  constructor
  · intro o
    rw [sinks_remove s.inputs]
    split
    · next last =>
      rw [Table.get?_erase _ _ _ s.keys]
      by_cases h : e.output = o
      · subst h
        simp only [if_true, last]
      · rw [if_neg h, if_neg h, s.sinks]
    · next left =>
      rw [Table.get?_put]
      by_cases h : e.output = o
      · subst h
        simp only [if_true, left, if_false]
      · rw [if_neg h, if_neg h, s.sinks]
  · split
    · rw [Table.keys_erase]
      exact s.keys.erase _
    · exact Table.nodup_keys_put s.keys _ _

theorem Shows.remove (s : Shows b w) (e : Edge) : Shows (b.remove e).2 (w.remove e) := by
  have has := s.has e
  rw [Wiring.has] at has
  by_cases he : e ∈ w
  · rw [List.contains_iff_mem.2 he] at has
    obtain ⟨sinks, keys⟩ := release_spec s he
    rw [Switchboard.remove, if_pos has]
    refine ⟨?_, sinks, keys, s.inputs.sublist (List.erase_sublist.map _)⟩
    rw [s.sources]
    exact erase_sources s.inputs he
  · have gone : w.contains e = false := by simpa using he
    rw [gone] at has
    rw [Switchboard.remove, has, Wiring.remove, List.erase_of_not_mem he]
    exact s

theorem Shows.foldl_add (s : Shows b w) (es : List Edge)
    (inputs : ((w ++ es).map Edge.input).Nodup) : Shows (es.foldl Switchboard.add b) (w ++ es) := by
  induction es generalizing b w with
  | nil => simpa using s
  | cons e es ih =>
    have split : w ++ e :: es = w.add e ++ es := by simp [Wiring.add]
    have free : b.source? e.input = none := by
      rw [s.source?, source?_eq_none_iff]
      rw [List.map_append, List.nodup_append] at inputs
      exact fun h => inputs.2.2 _ h _ (by simp) rfl
    rw [split] at inputs ⊢
    exact ih (s.add free) inputs

/-- A board that is wired anew under other names. -/
theorem Shows.rename (s : Shows b w) {f : Port → Port}
    (apart : ∀ d ∈ w, ∀ e ∈ w, f d.input = f e.input → d.input = e.input) :
    Shows (ofEdges (w.map (Edge.mapPorts f))) (w.map (Edge.mapPorts f)) := by
  refine shows_empty.foldl_add _ ?_
  have names : (w.map (Edge.mapPorts f)).map Edge.input = (w.map Edge.input).map f := by
    rw [List.map_map, List.map_map]
    rfl
  rw [List.nil_append, names]
  refine s.inputs.map_on fun i hi j hj same => ?_
  obtain ⟨d, hd, rfl⟩ := List.mem_map.1 hi
  obtain ⟨e, he, rfl⟩ := List.mem_map.1 hj
  exact apart d hd e he same

end Shows

/-! ### Changes in a row -/

inductive Change where
  | add (e : Edge)
  | remove (e : Edge)
  | shift (n : NodeId) (gone : Nat)
  | remap (n : NodeId) (table : List Nat)

/-- Only an input without a source gets one, no wire ends where an attribute has gone, and a table
names every place once and has all that are in use. -/
def Change.Fits (b : Switchboard) : Change → Prop
  | .add e => b.source? e.input = none
  | .remove _ => True
  | .shift n gone => b.isConnected ⟨n, gone⟩ = false
  | .remap n table => table.Perm (List.range table.length) ∧
      ∀ p, b.isConnected p = true → p.node = n → p.index < table.length

/-- How ports are called after a change. -/
def Change.name : Change → Port → Port
  | .shift n gone => Port.shifted n gone
  | .remap n table => Port.moved n fun i => (table[i]?).getD i
  | _ => id

/-- Whether ports have new names after it. -/
def Change.renames : Change → Bool
  | .shift .. | .remap .. => true
  | _ => false

def change (b : Switchboard) : Change → Option Switchboard
  | .add e => some (b.add e)
  | .remove e => some (b.remove e).2
  | .shift n gone => some (b.shift n gone)
  | .remap n table => b.remap n table

end Switchboard

def Wiring.change (w : Wiring) : Switchboard.Change → Wiring
  | .add e => w.add e
  | .remove e => w.remove e
  | .shift n gone => w.shift n gone
  | .remap n table => w.remap n fun i => (table[i]?).getD i

namespace Switchboard

/-- A board and the wires that it came by, from none on. -/
inductive Wired : Switchboard → Wiring → Prop where
  | empty : Wired empty []
  | step {b b' : Switchboard} {w : Wiring} (c : Change) (r : Wired b w) (fits : c.Fits b)
      (done : b.change c = some b') : Wired b' (w.change c)

section Change
variable {b : Switchboard} {w : Wiring}

theorem shifted_inj {n : NodeId} {gone : Nat} {p q : Port} (hp : p ≠ ⟨n, gone⟩) (hq : q ≠ ⟨n, gone⟩)
    (same : p.shifted n gone = q.shifted n gone) : p = q := by
  obtain ⟨k, i⟩ := p
  obtain ⟨l, j⟩ := q
  simp only [Port.shifted, ne_eq, Port.mk.injEq, not_and] at hp hq same ⊢
  split at same <;> split at same <;> simp only [Port.mk.injEq] at same <;> grind

theorem moved_inj {n : NodeId} {table : List Nat} (perm : table.Perm (List.range table.length))
    {p q : Port} (hp : p.node = n → p.index < table.length)
    (hq : q.node = n → q.index < table.length)
    (same : p.moved n (fun i => (table[i]?).getD i) = q.moved n fun i => (table[i]?).getD i) :
    p = q := by
  have nodup := perm.nodup_iff.2 List.nodup_range
  obtain ⟨k, i⟩ := p
  obtain ⟨l, j⟩ := q
  simp only [Port.moved] at hp hq same
  split at same <;> split at same <;> simp only [Port.mk.injEq] at same
  · next hk hl =>
    obtain ⟨-, same⟩ := same
    rw [List.getElem?_eq_getElem (hp hk), List.getElem?_eq_getElem (hq hl), Option.getD_some,
      Option.getD_some, nodup.getElem_inj_iff] at same
    rw [hk, hl, same]
  · next hk hl => exact absurd same.1.symm hl
  · next hk hl => exact absurd same.1 hk
  · next hk hl => rw [same.1, same.2]

theorem Shows.connected_ends (s : Shows b w) {e : Edge} (he : e ∈ w) :
    b.isConnected e.output = true ∧ b.isConnected e.input = true := by
  simp only [s.isConnected, Wiring.isConnected, List.any_eq_true]
  exact ⟨⟨e, he, by simp [Edge.endsAt]⟩, ⟨e, he, by simp [Edge.endsAt]⟩⟩

/-- Two ports that are in use never come to one name. -/
theorem Change.name_inj {c : Change} (fits : c.Fits b) {p q : Port} (hp : b.isConnected p = true)
    (hq : b.isConnected q = true) (same : c.name p = c.name q) : p = q := by
  cases c with
  | add e => exact same
  | remove e => exact same
  | shift n gone =>
    refine shifted_inj ?_ ?_ same <;> rintro rfl
    · rw [fits] at hp
      cases hp
    · rw [fits] at hq
      cases hq
  | remap n table => exact moved_inj fits.1 (fits.2 p hp) (fits.2 q hq) same

theorem Shows.change (s : Shows b w) {c : Change} (fits : c.Fits b) :
    ∃ b', b.change c = some b' ∧ Shows b' (w.change c) := by
  have apart (d : Edge) (hd : d ∈ w) (e : Edge) (he : e ∈ w)
      (same : c.name d.input = c.name e.input) : d.input = e.input :=
    Change.name_inj fits (s.connected_ends hd).2 (s.connected_ends he).2 same
  cases c with
  | add e => exact ⟨_, rfl, s.add fits⟩
  | remove e => exact ⟨_, rfl, s.remove e⟩
  | shift n gone =>
    refine ⟨_, rfl, ?_⟩
    rw [shift, s.edges]
    exact s.rename apart
  | remap n table =>
    have moved : Graph.Strict.remap w n table = some (w.remap n fun i => (table[i]?).getD i) := by
      refine Graph.Strict.remap_eq fun e he p hp hn => ?_
      have used : b.isConnected p = true := by
        rw [s.isConnected, Wiring.isConnected, List.any_eq_true]
        exact ⟨e, he, hp⟩
      have low := fits.2 p used hn
      rw [List.getElem?_eq_getElem low, Option.getD_some]
    refine ⟨_, ?_, s.rename apart⟩
    rw [Switchboard.change, remap, s.edges, moved]
    rfl

theorem Wired.shows (r : Wired b w) : Shows b w := by
  induction r with
  | empty => exact shows_empty
  | step c _ fits done s =>
    obtain ⟨b', done', s'⟩ := s.change fits
    obtain rfl := Option.some.inj (done'.symm.trans done)
    exact s'

end Change

/-- Every change that fits can be made. The board then has the wires of the network, the inputs of an
output in the order in which they were wired and no empty list, and all that is asked of it comes out
as from the list of its wires. No input has two sources. New names go to each wire in its place, and
ports that are in use keep apart. -/
theorem wired_board {b : Switchboard} {w : Wiring} (r : Wired b w) :
    b.edges = w ∧
    (∀ o, b.sinksOf o = (b.edges.filter fun e => e.output == o).map Edge.input) ∧
    (∀ o l, (o, l) ∈ b.sinks → l ≠ []) ∧
    (∀ p, b.isConnected p = b.edges.any (Edge.endsAt p)) ∧
    (∀ o i, b.has ⟨o, i⟩ = true ↔ ⟨o, i⟩ ∈ b.edges) ∧
    (∀ o i, b.source? i = some o ↔ ⟨o, i⟩ ∈ b.edges) ∧
    (∀ o i, i ∈ b.sinksOf o ↔ ⟨o, i⟩ ∈ b.edges) ∧
    (b.edges.map Edge.input).Nodup ∧
    (∀ e, (b.remove e).1 = b.edges.contains e) ∧
    ∀ c : Change, c.Fits b → ∃ b', b.change c = some b' ∧ Wired b' (w.change c) ∧
      (∀ p q, b.isConnected p = true → b.isConnected q = true → c.name p = c.name q → p = q) ∧
      (c.renames = true → b'.edges = b.edges.map (Edge.mapPorts c.name)) := by
  have s := r.shows
  have edges := s.edges
  rw [edges]
  refine ⟨rfl, s.sinksOf, fun _ _ => s.nonempty, s.isConnected, fun o i => ?has, fun o i => ?source,
    fun o i => ?sink, s.inputs, fun e => ?removed, fun c fits => ?changed⟩
  case has => rw [s.has, Wiring.has, List.contains_iff_mem]
  case source => rw [s.source?, source?_eq_some_iff s.inputs]
  case sink => rw [s.sinksOf, w.mem_sinks]
  case removed =>
    rw [← Wiring.has, ← s.has, remove]
    cases h : b.has e <;> rfl
  case changed =>
    obtain ⟨b', done, s'⟩ := s.change fits
    refine ⟨b', done, .step c r fits done, fun p q hp hq => Change.name_inj fits hp hq, fun h => ?_⟩
    cases c with
    | add e => cases h
    | remove e => cases h
    | shift n gone => exact s'.edges
    | remap n table => exact s'.edges

/-- Two wires from one output, the second of them back to its own node. -/
def forked : Switchboard :=
  ⟨[(⟨⟨3⟩, 1⟩, ⟨⟨2⟩, 2⟩), (⟨⟨2⟩, 0⟩, ⟨⟨2⟩, 2⟩)], [(⟨⟨2⟩, 2⟩, [⟨⟨3⟩, 1⟩, ⟨⟨2⟩, 0⟩])]⟩

theorem wired_forked : Wired forked [⟨⟨⟨2⟩, 2⟩, ⟨⟨3⟩, 1⟩⟩, ⟨⟨⟨2⟩, 2⟩, ⟨⟨2⟩, 0⟩⟩] :=
  .step (.shift ⟨2⟩ 1) (.step (.remove ⟨⟨⟨2⟩, 2⟩, ⟨⟨3⟩, 0⟩⟩) (.step (.add ⟨⟨⟨2⟩, 3⟩, ⟨⟨2⟩, 0⟩⟩)
    (.step (.add ⟨⟨⟨2⟩, 2⟩, ⟨⟨3⟩, 0⟩⟩) (.step (.add ⟨⟨⟨2⟩, 3⟩, ⟨⟨3⟩, 1⟩⟩) .empty rfl rfl) rfl rfl)
    rfl rfl) trivial rfl) rfl rfl

/-- The places of the node change round. -/
theorem forked_renamed : Wired forked [⟨⟨⟨2⟩, 2⟩, ⟨⟨3⟩, 1⟩⟩, ⟨⟨⟨2⟩, 2⟩, ⟨⟨2⟩, 0⟩⟩] ∧
    (Change.remap ⟨2⟩ [2, 0, 1]).Fits forked ∧
    forked.sinksOf ⟨⟨2⟩, 2⟩ = [⟨⟨3⟩, 1⟩, ⟨⟨2⟩, 0⟩] ∧
    ∃ b, forked.change (.remap ⟨2⟩ [2, 0, 1]) = some b ∧
      b.edges = [⟨⟨⟨2⟩, 1⟩, ⟨⟨3⟩, 1⟩⟩, ⟨⟨⟨2⟩, 1⟩, ⟨⟨2⟩, 2⟩⟩] := by
  obtain ⟨-, sinks, -, connected, -, -, -, -, -, changed⟩ := wired_board wired_forked
  have fits : (Change.remap ⟨2⟩ [2, 0, 1]).Fits forked := by
    refine ⟨by decide, fun p used hn => ?_⟩
    rw [connected] at used
    obtain ⟨k, i⟩ := p
    simp [forked, edges, Edge.endsAt] at used hn ⊢
    omega
  obtain ⟨b, done, -, -, renamed⟩ := changed _ fits
  exact ⟨wired_forked, fits, sinks _, b, done, renamed rfl⟩

end Switchboard
end Dataflow
