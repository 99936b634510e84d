import Dataflow.Proofs.Refreshed
set_option autoImplicit false

/-!
Ordering things by counting down. Each thing has a counter of the needs it still waits for, and each
need a list of those that wait for it. What is placed counts down the counters of what waits for it,
and a counter that comes to zero sends its thing to the queue. Main statements: counting down gives
the order that `schedule` gives, also where needs are repeated or go round in a circle, the order
loses and repeats nothing, and where nothing in the list needs itself in the end, everything comes
after what it needs.
-/

namespace Dataflow

variable {α : Type}

/-- The counters, those that wait for each thing, and what waits for nothing. -/
structure Countdown (α : Type) where
  counters : Table α Nat
  waiters : Table α (List α)
  queue : List α

namespace Countdown
variable [DecidableEq α]

def start : Countdown α := ⟨[], [], []⟩

/-- Adds a waiter at the end of a list, which may be its first. -/
def await (a : α) (waiters : Table α (List α)) (need : α) : Table α (List α) :=
  waiters.put need ((waiters.get? need).getD [] ++ [a])

/-- Enters a thing with those of its needs that are among `things`. -/
def enter (needs : α → List α) (things : List α) (c : Countdown α) (a : α) : Countdown α :=
  let counted := (needs a).filter (· ∈ things)
  ⟨c.counters.put a counted.length, counted.foldl (await a) c.waiters,
    if counted.isEmpty then c.queue ++ [a] else c.queue⟩

/-- Counts down once, no further than to zero. -/
def count (s : Table α Nat × List α) (a : α) : Table α Nat × List α :=
  match s.1.get? a with
  | some n => (s.1.put a (n - 1), if n - 1 = 0 then s.2 ++ [a] else s.2)
  | none => s

/-- Places the things of the queue until it is empty, for at most so many rounds. -/
def drain (waiters : Table α (List α)) : Nat → Table α Nat → List α → Option (List α)
  | _, _, [] => some []
  | 0, _, _ :: _ => none
  | rounds + 1, counters, a :: queue =>
    let (counters, queue) := ((waiters.get? a).getD []).foldl count (counters, queue)
    (drain waiters rounds counters queue).map (a :: ·)

/-- The things that are placed, and behind them those that never come to be. -/
def order (rounds : Nat) (needs : α → List α) (things : List α) : Option (List α) :=
  let c := things.foldl (enter needs things) start
  (drain c.waiters rounds c.counters c.queue).map fun placed =>
    if placed.length < things.length then placed ++ things.filter (· ∉ placed) else placed

/-! ### Entering -/

theorem get?_await (a : α) (ds : List α) (w : Table α (List α)) (d : α) :
    ((ds.foldl (await a) w).get? d).getD [] =
      (w.get? d).getD [] ++ List.replicate (ds.count d) a := by
  induction ds generalizing w with
  | nil => simp
  | cons e ds ih =>
    rw [List.foldl_cons, ih, await, Table.get?_put]
    by_cases h : e = d
    · subst h
      simp [List.replicate_succ]
    · simp [h, List.count_cons_of_ne h]

variable (needs : α → List α) (things : List α)

/-- What is entered one thing after the other. -/
structure Entered (c : Countdown α) (entered : List α) : Prop where
  counters : ∀ a, c.counters.get? a =
    if a ∈ entered then some ((needs a).filter (· ∈ things)).length else none
  waiters : ∀ d, (c.waiters.get? d).getD [] =
    entered.flatMap fun a => List.replicate (((needs a).filter (· ∈ things)).count d) a
  queue : c.queue = entered.filter fun a => ((needs a).filter (· ∈ things)).isEmpty

theorem Entered.enter {c : Countdown α} {entered : List α} (x : Entered needs things c entered)
    (a : α) : Entered needs things (c.enter needs things a) (entered ++ [a]) where
  counters b := by
    simp only [Countdown.enter, Table.get?_put, x.counters, List.mem_append, List.mem_singleton]
    by_cases h : a = b
    · simp [h]
    · simp [h, Ne.symm h]
  waiters d := by
    simp only [Countdown.enter, get?_await, x.waiters, List.flatMap_append, List.flatMap_singleton]
  queue := by
    simp only [Countdown.enter, x.queue, List.filter_append]
    by_cases h : ((needs a).filter (· ∈ things)).isEmpty = true <;> simp [h]

theorem entered_foldl (l : List α) {c : Countdown α} {entered : List α}
    (x : Entered needs things c entered) :
    Entered needs things (l.foldl (Countdown.enter needs things) c) (entered ++ l) := by
  induction l generalizing c entered with
  | nil => simpa using x
  | cons a l ih => simpa using ih (x.enter needs things a)

theorem entered_all : Entered needs things (things.foldl (enter needs things) start) things := by
  have none_yet : Entered needs things start [] := ⟨fun _ => rfl, fun _ => rfl, rfl⟩
  simpa using entered_foldl needs things things none_yet

/-! ### Counting down -/

section Rounds
variable {needs : α → List α} {counters : Table α Nat} {queue : List α} {waiting : List (Pending α)}

theorem length_filter_ne (a : α) (l : List α) :
    (l.filter (· ≠ a)).length = l.length - l.count a := by
  have parts := l.length_eq_countP_add_countP (· == a)
  rw [← List.countP_eq_length_filter, List.count]
  simp only [ne_eq, decide_not, beq_iff_eq] at parts ⊢
  omega

/-- Only the last of the needs sends a thing to the queue. -/
theorem foldl_count_replicate {a : α} {n k : Nat} (held : counters.get? a = some n) (pos : 0 < n)
    (enough : k ≤ n) (queue : List α) :
    ∃ counters', (List.replicate k a).foldl count (counters, queue) =
        (counters', queue ++ if n = k then [a] else []) ∧
      ∀ b, counters'.get? b = if a = b then some (n - k) else counters.get? b := by
  induction k generalizing n counters with
  | zero =>
    refine ⟨counters, by simp [pos.ne'], fun b => ?_⟩
    by_cases h : a = b
    · simp [← h, held]
    · simp [h]
  | succ k ih =>
    have step : count (counters, queue) a =
        (counters.put a (n - 1), if n - 1 = 0 then queue ++ [a] else queue) := by
      simp [count, held]
    have held' : (counters.put a (n - 1)).get? a = some (n - 1) := by simp [Table.get?_put]
    rw [List.replicate_succ, List.foldl_cons, step]
    by_cases last : n - 1 = 0
    · obtain ⟨rfl, rfl⟩ : n = 1 ∧ k = 0 := by omega
      exact ⟨_, by simp, fun b => Table.get?_put ..⟩
    · obtain ⟨counters', run, get⟩ := ih held' (by omega) (by omega)
      refine ⟨counters', ?_, fun b => ?_⟩
      · rw [if_neg last, run]
        simp only [show n - 1 = k ↔ n = k + 1 by omega]
      · rw [get, Table.get?_put]
        by_cases h : a = b
        · simp [h]
          omega
        · simp [h]

/-- Whoever waits for `b`, once for each time that it needs `b`. -/
def waitersOf (b : α) (waiting : List (Pending α)) : List α :=
  waiting.flatMap fun p => List.replicate (p.needs.count b) p.thing

theorem waitersOf_stuck (b : α) (waiting : List (Pending α)) :
    waitersOf b (Schedule.stuck waiting) = waitersOf b waiting := by
  induction waiting with
  | nil => rfl
  | cons p ps ih =>
    simp only [waitersOf, Schedule.stuck] at ih ⊢
    rw [List.filter_cons, List.flatMap_cons, ← ih]
    cases none : p.needs.isEmpty with
    | false => rfl
    | true => simp [List.isEmpty_iff.1 none]

theorem waitersOf_release {a b : α} (h : b ≠ a) (waiting : List (Pending α)) :
    waitersOf b (Schedule.release a waiting) = waitersOf b waiting := by
  rw [waitersOf, Schedule.release, List.flatMap_map]
  refine List.flatMap_congr fun p _ => ?_
  rw [List.count_filter (by simpa using h)]

theorem ready_release_cons (a : α) (p : Pending α) (ps : List (Pending α)) :
    Schedule.ready (Schedule.release a (p :: ps)) =
      (if p.needs.length = p.needs.count a then [p.thing] else []) ++
        Schedule.ready (Schedule.release a ps) := by
  have left := length_filter_ne a p.needs
  have most : p.needs.count a ≤ p.needs.length := List.count_le_length
  have first : (p.needs.filter (· ≠ a)).isEmpty = true ↔ p.needs.length = p.needs.count a := by
    rw [List.isEmpty_iff_length_eq_zero, left]
    omega
  simp only [Schedule.ready, Schedule.release, List.map_cons, List.filter_cons, first]
  split <;> simp

/-- Everything that waits is counted down once for each time that it needs `a`. -/
theorem foldl_count_waiting (a : α) (nodup : (waiting.map Pending.thing).Nodup)
    (held : ∀ p ∈ waiting, counters.get? p.thing = some p.needs.length)
    (blocked : ∀ p ∈ waiting, p.needs ≠ []) (queue : List α) :
    ∃ counters',
      (waitersOf a waiting).foldl count (counters, queue) =
        (counters', queue ++ Schedule.ready (Schedule.release a waiting)) ∧
      (∀ b ∉ waiting.map Pending.thing, counters'.get? b = counters.get? b) ∧
      ∀ p ∈ Schedule.release a waiting, counters'.get? p.thing = some p.needs.length := by
  induction waiting generalizing counters queue with
  | nil => exact ⟨counters, by simp [waitersOf, Schedule.ready, Schedule.release], by simp,
    by simp [Schedule.release]⟩
  | cons p ps ih =>
    obtain ⟨apart, nodup⟩ := List.nodup_cons.1 nodup
    have other (q : Pending α) (hq : q ∈ ps) : p.thing ≠ q.thing := fun h =>
      apart (h ▸ List.mem_map_of_mem hq)
    obtain ⟨counters₁, run₁, get₁⟩ := foldl_count_replicate (held p List.mem_cons_self)
      (List.length_pos_iff.2 (blocked p List.mem_cons_self)) List.count_le_length queue
    obtain ⟨counters₂, run₂, same₂, get₂⟩ := ih nodup
      (fun q hq => by rw [get₁, if_neg (other q hq), held q (List.mem_cons_of_mem p hq)])
      (fun q hq => blocked q (List.mem_cons_of_mem p hq))
      (queue ++ if p.needs.length = p.needs.count a then [p.thing] else [])
    refine ⟨counters₂, ?run, fun b hb => ?same, fun q hq => ?get⟩
    case run =>
      rw [waitersOf, List.flatMap_cons, List.foldl_append, run₁, ← waitersOf, run₂,
        List.append_assoc, ready_release_cons]
    case same =>
      simp only [List.map_cons, List.mem_cons, not_or] at hb
      rw [same₂ b hb.2, get₁, if_neg (Ne.symm hb.1)]
    case get =>
      rcases List.mem_cons.1 hq with rfl | hq
      · change counters₂.get? p.thing = some (p.needs.filter (· ≠ a)).length
        rw [same₂ _ apart, get₁, if_pos rfl, length_filter_ne]
      · exact get₂ q hq

/-- How far the counting has come: the counters stand at the needs that are left, and the lists of
waiters name just those that still wait. -/
structure Counting (waiters : Table α (List α)) (counters : Table α Nat) (queue : List α)
    (waiting : List (Pending α)) : Prop where
  nodup : (queue ++ waiting.map Pending.thing).Nodup
  held : ∀ p ∈ waiting, counters.get? p.thing = some p.needs.length
  blocked : ∀ p ∈ waiting, p.needs ≠ []
  waiters : ∀ a ∈ queue ++ waiting.map Pending.thing,
    (waiters.get? a).getD [] = waitersOf a waiting

open Schedule in
theorem Counting.next {waiters : Table α (List α)} {a : α}
    (x : Counting waiters counters (a :: queue) waiting) :
    ∃ counters', ((waiters.get? a).getD []).foldl count (counters, queue) =
        (counters', queue ++ ready (release a waiting)) ∧
      Counting waiters counters' (queue ++ ready (release a waiting))
        (stuck (release a waiting)) := by
  have left : (queue ++ ready (release a waiting) ++
      (stuck (release a waiting)).map Pending.thing).Perm (queue ++ waiting.map Pending.thing) := by
    rw [List.append_assoc, ← things_release a waiting]
    exact (ready_append_stuck_perm _).append_left queue
  obtain ⟨gone, nodup⟩ := List.nodup_cons.1 x.nodup
  obtain ⟨counters', run, -, held⟩ := foldl_count_waiting a
    (List.nodup_append.1 nodup).2.1 x.held x.blocked queue
  refine ⟨counters', by rw [x.waiters a (by simp), run], left.nodup_iff.2 nodup, ?_, ?_, ?_⟩
  · exact fun p hp => held p ((mem_stuck_iff _ _).1 hp).1
  · exact fun p hp => ((mem_stuck_iff _ _).1 hp).2
  · intro b hb
    have known := left.mem_iff.1 hb
    rw [waitersOf_stuck, waitersOf_release fun h : b = a => gone (by rwa [h] at known)]
    exact x.waiters b (List.mem_cons_of_mem a known)

theorem things_stuck_sublist (a : α) (waiting : List (Pending α)) :
    ((Schedule.stuck (Schedule.release a waiting)).map Pending.thing).Sublist
      (waiting.map Pending.thing) := by
  rw [← Schedule.things_release a waiting]
  exact List.filter_sublist.map _

/-- The queue runs empty with all in the order of `run`, but for what is left waiting. -/
theorem drain_eq (waiters : Table α (List α)) (rounds : Nat)
    (x : Counting waiters counters queue waiting) (enough : queue.length + waiting.length ≤ rounds) :
    ∃ placed left, drain waiters rounds counters queue = some placed ∧
      Schedule.run waiting queue = placed ++ left ∧ left.Sublist (waiting.map Pending.thing) := by
  induction rounds generalizing counters queue waiting with
  | zero =>
    obtain rfl : queue = [] := List.length_eq_zero_iff.1 (by omega)
    exact ⟨[], _, rfl, by rw [Schedule.run, List.nil_append], .refl _⟩
  | succ rounds ih =>
    cases queue with
    | nil => exact ⟨[], _, rfl, by rw [Schedule.run, List.nil_append], .refl _⟩
    | cons a queue =>
      obtain ⟨counters', run, y⟩ := x.next
      have total := Schedule.length_ready_add_stuck (Schedule.release a waiting)
      have same : (Schedule.release a waiting).length = waiting.length := List.length_map _
      obtain ⟨placed, left, drained, ran, sub⟩ := ih y (by simp at enough ⊢; omega)
      refine ⟨a :: placed, left, ?_, ?_, sub.trans (things_stuck_sublist a waiting)⟩
      · simp [drain, run, drained]
      · rw [Schedule.run, ran, List.cons_append]

end Rounds

/-! ### The order -/

theorem filter_notMem_of_perm {placed left things : List α} (nodup : things.Nodup)
    (all : (placed ++ left).Perm things) (sub : left.Sublist things) :
    things.filter (· ∉ placed) = left := by
  have apart := List.nodup_append.1 (all.nodup_iff.2 nodup)
  have same : things.filter (· ∉ placed) = things.filter (· ∈ left) := by
    refine List.filter_congr fun a ha => ?_
    have here := List.mem_append.1 (all.mem_iff.2 ha)
    simp only [decide_eq_decide]
    exact ⟨here.resolve_left, fun hl hp => apart.2.2 a hp a hl rfl⟩
  have whole : left.Sublist (things.filter (· ∈ left)) := by
    simpa [List.filter_eq_self.2] using sub.filter (· ∈ left)
  rw [same]
  refine (whole.eq_of_length_le ?_).symm
  exact ((nodup.filter _).subperm fun a ha => by simpa using (List.mem_filter.1 ha).2).length_le

/-- Counting down gives the order of `schedule`, in no more rounds than there are things. -/
theorem order_eq_schedule (needs : α → List α) {things : List α} (nodup : things.Nodup)
    {rounds : Nat} (enough : things.length ≤ rounds) :
    order rounds needs things = some (schedule needs things) := by
  let all : List (Pending α) := things.map fun a => ⟨a, (needs a).filter (· ∈ things)⟩
  have names : all.map Pending.thing = things := by simp [all, Function.comp_def]
  have known (p : Pending α) (hp : p ∈ all) : p.needs = (needs p.thing).filter (· ∈ things) := by
    obtain ⟨a, -, rfl⟩ := List.mem_map.1 hp
    rfl
  have split := Schedule.ready_append_stuck_perm all
  rw [names] at split
  have entered := entered_all needs things
  have queued : (things.foldl (enter needs things) start).queue = Schedule.ready all := by
    simp [entered.queue, Schedule.ready, all, List.filter_map, Function.comp_def]
  have counting : Counting (things.foldl (enter needs things) start).waiters
      (things.foldl (enter needs things) start).counters (Schedule.ready all)
      (Schedule.stuck all) := by
    refine ⟨split.nodup_iff.2 nodup, fun p hp => ?held, fun p hp => ?blocked, fun a _ => ?waiters⟩
    case held =>
      have hp := ((Schedule.mem_stuck_iff _ _).1 hp).1
      have here : p.thing ∈ things := names ▸ List.mem_map_of_mem hp
      rw [entered.counters, if_pos here, known p hp]
    case blocked => exact ((Schedule.mem_stuck_iff _ _).1 hp).2
    case waiters =>
      rw [entered.waiters, waitersOf_stuck, waitersOf, List.flatMap_map]
  have total := Schedule.length_ready_add_stuck all
  have whole : all.length = things.length := List.length_map _
  obtain ⟨placed, left, drained, ran, sub⟩ := drain_eq _ rounds counting (by omega)
  have perm := schedule_perm needs things
  rw [schedule, ran] at perm
  have sub : left.Sublist things := by
    refine sub.trans ?_
    rw [← names]
    exact List.filter_sublist.map _
  have lengths := perm.length_eq
  rw [List.length_append] at lengths
  rw [order, queued, drained, Option.map_some, schedule, ran, filter_notMem_of_perm nodup perm sub]
  by_cases some : placed.length < things.length
  · rw [if_pos some]
  · have none : left = [] := List.length_eq_zero_iff.1 (by omega)
    rw [if_neg some, none, List.append_nil]

end Countdown

/-! ### Needs among the things of a list -/

section Among
variable [DecidableEq α] (needs : α → List α) (things : List α)

/-- `a` needs `b`, and both are in the list. -/
def NeedsAmong (a b : α) : Prop := a ∈ things ∧ b ∈ things ∧ b ∈ needs a

/-- No thing of the list needs itself, also not through others of the list. -/
def Unlooped : Prop := ∀ a, ¬ Relation.TransGen (NeedsAmong needs things) a a

theorem schedule_filter :
    schedule (fun a => (needs a).filter (· ∈ things)) things = schedule needs things := by
  simp only [schedule, List.filter_filter, Bool.and_self]

variable {needs things}

theorem Unlooped.wellFounded (u : Unlooped needs things) :
    WellFounded fun b a => b ∈ (needs a).filter (· ∈ things) := by
  let r (b a : {a // a ∈ things}) : Prop := Relation.TransGen (NeedsAmong needs things) a.1 b.1
  have : IsTrans _ r := ⟨fun _ _ _ hcb hba => Relation.TransGen.trans hba hcb⟩
  have : Std.Irrefl r := ⟨fun a => u a.1⟩
  have founded : WellFounded r := Finite.wellFounded_of_trans_of_irrefl r
  have inside (a : α) (ha : a ∈ things) :
      Acc (fun b a => b ∈ (needs a).filter (· ∈ things)) a := by
    refine founded.induction (C := fun a => Acc _ a.1) ⟨a, ha⟩ fun a ih => ⟨a.1, fun b hb => ?_⟩
    obtain ⟨hb, here⟩ := List.mem_filter.1 hb
    have here : b ∈ things := by simpa using here
    exact ih ⟨b, here⟩ (.single ⟨a.2, here, hb⟩)
  exact ⟨fun a => ⟨a, fun b hb => inside b (by simpa using (List.mem_filter.1 hb).2)⟩⟩

theorem idxOf_lt_of_pairwise {r : α → α → Prop} {l : List α} {a b : α} (sorted : l.Pairwise r)
    (ha : a ∈ l) (hb : b ∈ l) (ne : a ≠ b) (no : ¬ r a b) : l.idxOf b < l.idxOf a := by
  by_contra later
  have first : l.idxOf a ≠ l.idxOf b := fun h => ne (List.idxOf_inj ha |>.1 h)
  have lt : l.idxOf a < l.idxOf b := by omega
  have := List.pairwise_iff_getElem.1 sorted _ _ (List.idxOf_lt_length_of_mem ha)
    (List.idxOf_lt_length_of_mem hb) lt
  rw [List.getElem_idxOf, List.getElem_idxOf] at this
  exact no this

/-- Everything comes after what it needs. -/
theorem Unlooped.idxOf_lt (u : Unlooped needs things) (nodup : things.Nodup) {a b : α}
    (x : NeedsAmong needs things a b) :
    (schedule needs things).idxOf b < (schedule needs things).idxOf a := by
  have sorted := schedule_pairwise u.wellFounded nodup
  rw [schedule_filter] at sorted
  have same := schedule_perm needs things
  have ne : a ≠ b := by
    rintro rfl
    exact u a (.single x)
  refine idxOf_lt_of_pairwise sorted (same.mem_iff.2 x.1) (same.mem_iff.2 x.2.1) ne ?_
  simpa using ⟨x.2.2, x.2.1⟩

end Among

namespace Graph

theorem unlooped_predecessors {g : Graph} (r : StandardRun g) (ports : List Port) :
    Unlooped g.predecessors ports := by
  have w := (standard_of_run r).lawful.wellFormed
  have founded := predecessors_wellFounded w (standard_of_run r).holds
    (acyclic_of_grown (grown_of_standard r)).holds
  intro p loop
  have back : Relation.TransGen (fun q p => q ∈ g.predecessors p) p p :=
    Relation.transGen_swap.1 (loop.lift id fun _ _ h => h.2.2)
  exact founded.transGen.irrefl.irrefl p back

/-- However the ports need one another, counting down places every port once, in no more rounds than
there are ports, and the order is the one in which a refresh reads. If no port needs itself among
them, each port comes after all those of them that it needs. This is so for the ports of a graph and
those that they are made from. -/
theorem counted_down {ports : List Port} (nodup : ports.Nodup) (needs : Port → List Port) :
    (∀ rounds, ports.length ≤ rounds →
      Countdown.order rounds needs ports = some (schedule needs ports)) ∧
    (schedule needs ports).Perm ports ∧
    (Unlooped needs ports → ∀ p ∈ ports, ∀ q ∈ ports, q ∈ needs p →
      (schedule needs ports).idxOf q < (schedule needs ports).idxOf p) ∧
    ∀ g, StandardRun g → Unlooped g.predecessors ports :=
  ⟨fun _ enough => Countdown.order_eq_schedule needs nodup enough, schedule_perm needs ports,
    fun u _ hp _ hq hn => u.idxOf_lt nodup ⟨hp, hq, hn⟩,
    fun _ r => unlooped_predecessors r ports⟩

/-- A port needs the other one of its node twice, and itself. -/
def circling (p : Port) : List Port := [⟨p.node, 1 - p.index⟩, p, ⟨p.node, 1 - p.index⟩]

/-- The ports of a row, given from its end, and ports that go round in a circle. -/
theorem repeated_counted_down :
    schedule repeated.predecessors [⟨⟨4⟩, 1⟩, ⟨⟨4⟩, 0⟩, ⟨⟨3⟩, 1⟩, ⟨⟨3⟩, 0⟩] =
        [⟨⟨3⟩, 0⟩, ⟨⟨3⟩, 1⟩, ⟨⟨4⟩, 0⟩, ⟨⟨4⟩, 1⟩] ∧
      (schedule repeated.predecessors [⟨⟨4⟩, 1⟩, ⟨⟨4⟩, 0⟩, ⟨⟨3⟩, 1⟩, ⟨⟨3⟩, 0⟩]).idxOf ⟨⟨3⟩, 1⟩ <
        (schedule repeated.predecessors [⟨⟨4⟩, 1⟩, ⟨⟨4⟩, 0⟩, ⟨⟨3⟩, 1⟩, ⟨⟨3⟩, 0⟩]).idxOf ⟨⟨4⟩, 0⟩ ∧
      schedule circling [⟨⟨4⟩, 1⟩, ⟨⟨4⟩, 0⟩, ⟨⟨3⟩, 0⟩] = [⟨⟨4⟩, 1⟩, ⟨⟨4⟩, 0⟩, ⟨⟨3⟩, 0⟩] := by
  have apart : ([⟨⟨4⟩, 1⟩, ⟨⟨4⟩, 0⟩, ⟨⟨3⟩, 1⟩, ⟨⟨3⟩, 0⟩] : List Port).Nodup := by decide
  have row := counted_down apart repeated.predecessors
  have apart : ([⟨⟨4⟩, 1⟩, ⟨⟨4⟩, 0⟩, ⟨⟨3⟩, 0⟩] : List Port).Nodup := by decide
  have circle := counted_down apart circling
  refine ⟨?_, ?_, ?_⟩
  · exact Option.some.inj ((row.1 4 (by decide)).symm.trans (by cbv))
  · exact row.2.2.1 (row.2.2.2 _ standardRun_repeated) _ (by decide) _ (by decide)
      (by rw [show repeated.predecessors ⟨⟨4⟩, 0⟩ = [⟨⟨3⟩, 1⟩] by cbv]; simp)
  · exact Option.some.inj ((circle.1 3 (by decide)).symm.trans (by cbv))

end Graph
end Dataflow
