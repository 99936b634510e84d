set_option autoImplicit false

/-!
Putting things in an order in which each comes after all that it needs. Things that need nothing
more stand in a queue. The first one is placed, and those that waited for nothing else join the
queue behind it. What never gets that far comes last. Main statements: nothing is lost or repeated,
and where no chain of needs goes on for ever, nothing comes before what it needs.
-/

namespace Dataflow

variable {α : Type}

/-- A thing and what it still waits for. -/
structure Pending (α : Type) where
  thing : α
  needs : List α

namespace Schedule

def release [DecidableEq α] (a : α) (waiting : List (Pending α)) : List (Pending α) :=
  waiting.map fun p => ⟨p.thing, p.needs.filter (· ≠ a)⟩

def ready (waiting : List (Pending α)) : List α :=
  (waiting.filter fun p => p.needs.isEmpty).map Pending.thing

def stuck (waiting : List (Pending α)) : List (Pending α) :=
  waiting.filter fun p => !p.needs.isEmpty

theorem length_ready_add_stuck (waiting : List (Pending α)) :
    (ready waiting).length + (stuck waiting).length = waiting.length := by
  induction waiting with
  | nil => rfl
  | cons p ps ih =>
    cases hp : p.needs.isEmpty <;> simp_all [ready, stuck] <;> omega

def run [DecidableEq α] (waiting : List (Pending α)) (queue : List α) : List α :=
  match queue with
  | [] => waiting.map Pending.thing
  | a :: queue =>
    let left := release a waiting
    a :: run (stuck left) (queue ++ ready left)
termination_by waiting.length + queue.length
decreasing_by
  have := length_ready_add_stuck (release a waiting)
  simp_all [release]
  omega

end Schedule

/-- Only the needs that are among `things` count. -/
def schedule [DecidableEq α] (needs : α → List α) (things : List α) : List α :=
  let all := things.map fun a => ⟨a, (needs a).filter (· ∈ things)⟩
  Schedule.run (Schedule.stuck all) (Schedule.ready all)

namespace Schedule

theorem ready_append_stuck_perm (waiting : List (Pending α)) :
    (ready waiting ++ (stuck waiting).map Pending.thing).Perm (waiting.map Pending.thing) := by
  induction waiting with
  | nil => exact .refl _
  | cons p ps ih =>
    cases hp : p.needs.isEmpty
    · simpa [ready, stuck, hp] using List.perm_middle.trans (ih.cons p.thing)
    · simpa [ready, stuck, hp] using ih.cons p.thing

theorem things_release [DecidableEq α] (a : α) (waiting : List (Pending α)) :
    (release a waiting).map Pending.thing = waiting.map Pending.thing := by
  simp [release, Function.comp_def]

theorem run_perm [DecidableEq α] (waiting : List (Pending α)) (queue : List α) :
    (run waiting queue).Perm (queue ++ waiting.map Pending.thing) := by
  fun_induction run waiting queue with
  | case1 waiting => exact .refl _
  | case2 waiting a queue left ih =>
    refine List.Perm.cons a (ih.trans ?_)
    rw [List.append_assoc, ← things_release a waiting]
    exact (ready_append_stuck_perm left).append_left queue

/-- How far the placing has come: what stands in the queue needs nothing that is left, and what waits
does so for just those of its needs that are left. -/
structure Progress (needs : α → List α) (waiting : List (Pending α)) (queue : List α) : Prop where
  nodup : (queue ++ waiting.map Pending.thing).Nodup
  queued : ∀ a ∈ queue, ∀ b ∈ needs a, b ∉ queue ++ waiting.map Pending.thing
  waits : ∀ p ∈ waiting, ∀ b,
    b ∈ p.needs ↔ b ∈ needs p.thing ∧ b ∈ queue ++ waiting.map Pending.thing
  blocked : ∀ p ∈ waiting, p.needs ≠ []

theorem mem_ready_iff (waiting : List (Pending α)) (a : α) :
    a ∈ ready waiting ↔ ∃ p ∈ waiting, p.needs = [] ∧ p.thing = a := by
  simp [ready, List.isEmpty_iff, and_assoc]

theorem mem_stuck_iff (waiting : List (Pending α)) (p : Pending α) :
    p ∈ stuck waiting ↔ p ∈ waiting ∧ p.needs ≠ [] := by
  simp [stuck]

section Progress
variable {needs : α → List α} {waiting : List (Pending α)} {queue : List α}

/-- Of things that wait for one another one would come first. -/
theorem Progress.done (founded : WellFounded fun b a => b ∈ needs a)
    (x : Progress needs waiting []) : waiting = [] := by
  have none (a : α) : ∀ p ∈ waiting, p.thing ≠ a := by
    induction a using founded.induction with
    | _ a ih =>
      rintro p hp rfl
      obtain ⟨b, hb⟩ := List.exists_mem_of_ne_nil _ (x.blocked p hp)
      obtain ⟨needed, left⟩ := (x.waits p hp b).1 hb
      obtain ⟨q, hq, rfl⟩ := List.mem_map.1 left
      exact ih _ needed q hq rfl
  exact List.eq_nil_iff_forall_not_mem.2 fun p hp => none _ p hp rfl

variable [DecidableEq α]

theorem Progress.next {a : α} (x : Progress needs waiting (a :: queue)) :
    Progress needs (stuck (release a waiting)) (queue ++ ready (release a waiting)) := by
  have left : (queue ++ ready (release a waiting) ++
      (stuck (release a waiting)).map Pending.thing).Perm (queue ++ waiting.map Pending.thing) := by
    rw [List.append_assoc, ← things_release a waiting]
    exact (ready_append_stuck_perm _).append_left queue
  obtain ⟨gone, nodup⟩ := List.nodup_cons.1 x.nodup
  -- what is released waits for what is left without `a`
  have released (p : Pending α) (hp : p ∈ release a waiting) (b : α) :
      b ∈ p.needs ↔ b ∈ needs p.thing ∧ b ∈ queue ++ waiting.map Pending.thing := by
    obtain ⟨q, hq, rfl⟩ := List.mem_map.1 hp
    simp only [List.mem_filter, x.waits q hq, decide_eq_true_eq, List.cons_append, List.mem_cons]
    constructor
    · rintro ⟨⟨hb, h⟩, hne⟩
      exact ⟨hb, h.resolve_left hne⟩
    · rintro ⟨hb, h⟩
      refine ⟨⟨hb, .inr h⟩, ?_⟩
      rintro rfl
      exact gone h
  constructor
  case nodup => exact left.nodup_iff.2 nodup
  case queued =>
    intro c hc b hb
    rw [left.mem_iff]
    rcases List.mem_append.1 hc with hc | hc
    · exact fun h => x.queued c (by simp [hc]) b hb (List.mem_cons_of_mem _ h)
    · obtain ⟨p, hp, none, rfl⟩ := (mem_ready_iff _ _).1 hc
      intro h
      have := (released p hp b).2 ⟨hb, h⟩
      rw [none] at this
      cases this
  case waits =>
    intro p hp b
    rw [left.mem_iff]
    exact released p ((mem_stuck_iff _ _).1 hp).1 b
  case blocked => exact fun p hp => ((mem_stuck_iff _ _).1 hp).2

theorem run_pairwise (founded : WellFounded fun b a => b ∈ needs a)
    (x : Progress needs waiting queue) :
    (run waiting queue).Pairwise fun a b => b ∉ needs a := by
  fun_induction run waiting queue with
  | case1 waiting =>
    rw [x.done founded]
    exact .nil
  | case2 waiting a queue left ih =>
    refine List.pairwise_cons.2 ⟨fun b hb needed => ?_, ih x.next⟩
    have later := (run_perm _ _).mem_iff.1 hb
    rw [List.append_assoc, List.mem_append, (ready_append_stuck_perm left).mem_iff,
      things_release, ← List.mem_append] at later
    exact x.queued a (by simp) b needed (List.mem_cons_of_mem _ later)

end Progress
end Schedule

theorem schedule_perm [DecidableEq α] (needs : α → List α) (things : List α) :
    (schedule needs things).Perm things := by
  simp only [schedule]
  refine (Schedule.run_perm _ _).trans ((Schedule.ready_append_stuck_perm _).trans ?_)
  simp [Function.comp_def]

/-- No thing comes before one that it needs. -/
theorem schedule_pairwise [DecidableEq α] {needs : α → List α} {things : List α}
    (founded : WellFounded fun b a => b ∈ needs a) (nodup : things.Nodup) :
    (schedule needs things).Pairwise fun a b => b ∉ needs a := by
  let all : List (Pending α) := things.map fun a => ⟨a, (needs a).filter (· ∈ things)⟩
  have names : all.map Pending.thing = things := by simp [all, Function.comp_def]
  have left := Schedule.ready_append_stuck_perm all
  rw [names] at left
  have known (p : Pending α) (hp : p ∈ all) (b : α) :
      b ∈ p.needs ↔ b ∈ needs p.thing ∧ b ∈ things := by
    obtain ⟨a, -, rfl⟩ := List.mem_map.1 hp
    simp
  refine Schedule.run_pairwise founded ⟨left.nodup_iff.2 nodup, ?queued, ?waits, ?blocked⟩
  case queued =>
    intro a ha b hb
    rw [left.mem_iff]
    obtain ⟨p, hp, none, rfl⟩ := (Schedule.mem_ready_iff _ _).1 ha
    intro h
    have := (known p hp b).2 ⟨hb, h⟩
    rw [none] at this
    cases this
  case waits =>
    intro p hp b
    rw [left.mem_iff]
    exact known p ((Schedule.mem_stuck_iff _ _).1 hp).1 b
  case blocked => exact fun p hp => ((Schedule.mem_stuck_iff _ _).1 hp).2

end Dataflow
