import Mathlib

/-! Structured task groups. A task is what running it does: succeed, fail with its error
slot, or panic. The caller registers tasks and then joins; every runner, a helper or the
joining caller, claims batches from the shared queue under the lock, runs them task by
task on its own, and publishes what it saw. A step is one of these, by any runner, so a
run is any interleaving. `tasks`, `published` and `ran` only record what happened. -/
namespace Align.TaskGroup
open List

variable {ε π : Type}

inductive Outcome (ε π : Type) where
  | ok
  | failed (slot : ε)
  | panicked (payload : π)

namespace Outcome

def error : Outcome ε π → Option ε
  | failed slot => some slot
  | _ => none

def panic : Outcome ε π → Option π
  | panicked payload => some payload
  | _ => none

end Outcome

/-- A queued task with its registration index. -/
abbrev Task (ε π : Type) := Nat × Outcome ε π

structure GenerationState (ε π : Type) where
  pending : List (Task ε π)
  registered : Nat
  completed : Nat
  helpers : Nat
  error : Option (Nat × ε)
  panic : Option (Nat × π)

def tgClaimBatchSize (taskCount workers : Nat) : Nat :=
  if taskCount ≤ workers then 1
  else
    let claimSlots := min (max workers 1 * 4) (2 ^ 64 - 1)
    max ((taskCount + claimSlots - 1) / claimSlots) 1

structure Batch (ε π : Type) where
  left : List (Task ε π)
  done : List (Task ε π)
  error : Option (Nat × ε)
  panic : Option (Nat × π)

/-- `slot.is_none()`: the first of a batch is kept. -/
def keepFirst {α : Type} (index : Nat) (kept : Option (Nat × α)) (seen : Option α) :
    Option (Nat × α) :=
  kept.or (seen.map (index, ·))

/-- `old.is_none_or(|old| new.0 < old.0)`: the lowest of the batches is kept. -/
def keepLowest {α : Type} (kept : Option (Nat × α)) : Option (Nat × α) → Option (Nat × α)
  | none => kept
  | some new => if kept.all (new.1 < ·.1) then some new else kept

namespace GenerationState

def start : GenerationState ε π := ⟨[], 0, 0, 0, none, none⟩

def register (state : GenerationState ε π) (task : Outcome ε π) (workers : Nat) :
    Bool × GenerationState ε π :=
  let state := { state with
    pending := state.pending ++ [(state.registered, task)], registered := state.registered + 1 }
  if state.helpers < workers then (true, { state with helpers := state.helpers + 1 })
  else (false, state)

def retire (state : GenerationState ε π) (helper : Bool) : GenerationState ε π :=
  if helper then { state with helpers := state.helpers - 1 } else state

def claim (state : GenerationState ε π) (workers : Nat) : Batch ε π × GenerationState ε π :=
  let count := tgClaimBatchSize state.pending.length workers
  (⟨state.pending.take count, [], none, none⟩, { state with pending := state.pending.drop count })

def publish (state : GenerationState ε π) (batch : Batch ε π) : GenerationState ε π :=
  { state with
    error := keepLowest state.error batch.error
    panic := keepLowest state.panic batch.panic
    completed := state.completed + batch.done.length }

/-- What `join` returns or raises once every task is complete. -/
def joined (state : GenerationState ε π) : Outcome ε π :=
  match state.panic, state.error with
  | some (_, payload), _ => .panicked payload
  | none, some (_, slot) => .failed slot
  | none, none => .ok

end GenerationState

def Batch.run (batch : Batch ε π) (task : Task ε π) (left : List (Task ε π)) : Batch ε π :=
  ⟨left, batch.done ++ [task], keepFirst task.1 batch.error task.2.error,
    keepFirst task.1 batch.panic task.2.panic⟩

/-- A runner stands before the lock or in a batch. -/
structure Runner (ε π : Type) where
  helper : Bool
  batch : Option (Batch ε π)

structure System (ε π : Type) where
  state : GenerationState ε π
  runners : Multiset (Runner ε π)
  joining : Bool
  tasks : List (Outcome ε π)
  published : List (Task ε π)
  ran : List (Task ε π)

def System.start : System ε π := ⟨.start, 0, false, [], [], []⟩

inductive Step (workers : Nat) (s : System ε π) : System ε π → Prop where
  | register (task : Outcome ε π) (spawning : s.joining = false) :
    Step workers s { s with
      state := (s.state.register task workers).2
      runners := if (s.state.register task workers).1 then ⟨true, none⟩ ::ₘ s.runners else s.runners
      tasks := s.tasks ++ [task] }
  | join (spawning : s.joining = false) :
    Step workers s { s with joining := true, runners := ⟨false, none⟩ ::ₘ s.runners }
  | claim (helper : Bool) (rest : Multiset (Runner ε π))
      (at_lock : s.runners = ⟨helper, none⟩ ::ₘ rest) (work : s.state.pending ≠ []) :
    Step workers s { s with
      state := (s.state.claim workers).2
      runners := ⟨helper, some (s.state.claim workers).1⟩ ::ₘ rest }
  | retire (helper : Bool) (rest : Multiset (Runner ε π))
      (at_lock : s.runners = ⟨helper, none⟩ ::ₘ rest) (empty : s.state.pending = []) :
    Step workers s { s with state := s.state.retire helper, runners := rest }
  | run (helper : Bool) (batch : Batch ε π) (task : Task ε π) (left : List (Task ε π))
      (rest : Multiset (Runner ε π)) (inside : s.runners = ⟨helper, some batch⟩ ::ₘ rest)
      (next : batch.left = task :: left) :
    Step workers s { s with
      runners := ⟨helper, some (batch.run task left)⟩ ::ₘ rest, ran := s.ran ++ [task] }
  | publish (helper : Bool) (batch : Batch ε π) (rest : Multiset (Runner ε π))
      (inside : s.runners = ⟨helper, some batch⟩ ::ₘ rest) (over_batch : batch.left = []) :
    Step workers s { s with
      state := s.state.publish batch
      runners := ⟨helper, none⟩ ::ₘ rest
      published := s.published ++ batch.done }

def Reachable (workers : Nat) : System ε π → Prop :=
  Relation.ReflTransGen (Step workers) System.start

/-- `join` returns: the caller has left its own run, and the wait has ended. -/
def System.Joined (s : System ε π) : Prop :=
  s.joining ∧ (∀ runner ∈ s.runners, runner.helper) ∧ s.state.completed = s.state.registered

/-- The lowest-index panic, else the lowest-index error, else success. -/
def report (tasks : List (Outcome ε π)) : Outcome ε π :=
  match tasks.findSome? Outcome.panic, tasks.findSome? Outcome.error with
  | some payload, _ => .panicked payload
  | none, some slot => .failed slot
  | none, none => .ok

/-- `kept` is what the lowest-index task of `tasks` with something to see shows. -/
def Lowest {α : Type} (seen : Outcome ε π → Option α) (tasks : List (Task ε π)) :
    Option (Nat × α) → Prop
  | none => ∀ task ∈ tasks, seen task.2 = none
  | some kept => (∃ task ∈ tasks, task.1 = kept.1 ∧ seen task.2 = some kept.2) ∧
      ∀ task ∈ tasks, (seen task.2).isSome → kept.1 ≤ task.1

section
variable {α : Type} {seen : Outcome ε π → Option α} {kept : Option (Nat × α)}

theorem Lowest.keepLowest (old : Lowest seen tasks kept) (found : Lowest seen more new) :
    Lowest seen (tasks ++ more) (keepLowest kept new) := by
  all_goals simp only [Lowest, TaskGroup.keepLowest, Option.all, mem_append] at *
  all_goals grind [Lowest]

theorem Lowest.keepFirst (old : Lowest seen done kept) (later : ∀ before ∈ done, before.1 < task.1) :
    Lowest seen (done ++ [task]) (keepFirst task.1 kept (seen task.2)) := by
  rcases kept with _ | kept <;> rcases look : seen task.2 with _ | value
  all_goals simp only [Lowest, TaskGroup.keepFirst, mem_append, mem_singleton] at *
  all_goals grind

theorem Lowest.findSome? {done : List (Task ε π)} {tasks : List (Outcome ε π)}
    (lowest : Lowest seen done kept) (whole : done.Perm (tasks.mapIdx Prod.mk)) :
    kept.map Prod.snd = tasks.findSome? seen := by
  have indexed (index : Nat) (bound : index < tasks.length) : (index, tasks[index]) ∈ done :=
    whole.mem_iff.mpr (mem_mapIdx.mpr ⟨index, bound, rfl⟩)
  rcases kept with _ | kept
  · symm
    rw [Option.map_none, findSome?_eq_none_iff]
    intro task member
    obtain ⟨index, bound, rfl⟩ := getElem_of_mem member
    exact lowest _ (indexed index bound)
  · obtain ⟨⟨task, member, same, shows⟩, least⟩ := lowest
    obtain ⟨index, bound, rfl⟩ := mem_mapIdx.mp (whole.mem_iff.mp member)
    symm
    rw [Option.map_some, findSome?_eq_some_iff]
    refine ⟨tasks.take index, tasks[index], tasks.drop (index + 1),
      by rw [← drop_eq_getElem_cons bound, take_append_drop], shows, fun task early => ?_⟩
    obtain ⟨before, inside, rfl⟩ := mem_take_iff_getElem.mp early
    by_contra some_seen
    have := least _ (indexed before (by omega)) (Option.isSome_iff_ne_none.mpr some_seen)
    omega

end

theorem tgClaimBatchSize_bounds (workers : Nat) (work : 0 < taskCount) :
    0 < tgClaimBatchSize taskCount workers ∧ tgClaimBatchSize taskCount workers ≤ taskCount := by
  unfold tgClaimBatchSize
  split_ifs
  · omega
  dsimp only
  refine ⟨by omega, max_le ?_ work⟩
  rw [Nat.div_le_iff_le_mul_add_pred (by omega)]
  have := Nat.le_mul_of_pos_left taskCount (show 0 < min (max workers 1 * 4) (2 ^ 64 - 1) by omega)
  omega

namespace Batch

/-- A batch in hand: its tasks in registration order, and the first failures of those run. -/
structure Ordered (batch : Batch ε π) : Prop where
  sorted : (batch.done ++ batch.left).Pairwise (·.1 < ·.1)
  error : Lowest Outcome.error batch.done batch.error
  panic : Lowest Outcome.panic batch.done batch.panic

theorem Ordered.run {batch : Batch ε π} {task : Task ε π} {left : List (Task ε π)}
    (kept : batch.Ordered) (next : batch.left = task :: left) : (batch.run task left).Ordered := by
  have sorted := kept.sorted
  rw [next] at sorted
  have later : ∀ before ∈ batch.done, before.1 < task.1 := fun before old =>
    (pairwise_append.mp sorted).2.2 before old task mem_cons_self
  exact ⟨by simpa [Batch.run] using sorted, kept.error.keepFirst later, kept.panic.keepFirst later⟩

end Batch

namespace Runner

def executed (runner : Runner ε π) : Multiset (Task ε π) :=
  (runner.batch.elim [] Batch.done : List _)

def left (runner : Runner ε π) : Multiset (Task ε π) :=
  (runner.batch.elim [] Batch.left : List _)

end Runner

/-- Every registered task has run, is held by one runner, or is pending; what has run is
published or in the hands of its runner. -/
structure Accounted (workers : Nat) (s : System ε π) : Prop where
  placed : ↑s.ran + s.runners.bind Runner.left + ↑s.state.pending = ↑(s.tasks.mapIdx Prod.mk)
  executed : ↑s.ran = ↑s.published + s.runners.bind Runner.executed
  registered : s.state.registered = s.tasks.length
  completed : s.state.completed = s.published.length
  helpers : s.state.helpers = (s.runners.map (·.helper.toNat)).sum
  reserved : s.state.helpers ≤ workers
  ordered : s.state.pending.Pairwise (·.1 < ·.1)
  batches : ∀ runner ∈ s.runners, ∀ batch ∈ runner.batch, batch.Ordered
  error : Lowest Outcome.error s.published s.state.error
  panic : Lowest Outcome.panic s.published s.state.panic

theorem start_accounted (workers : Nat) : Accounted workers (System.start : System ε π) := by
  constructor <;> simp [System.start, GenerationState.start, Lowest]

variable {workers : Nat} {s s' : System ε π}

namespace Accounted

theorem pending_lt (kept : Accounted workers s)
    (member : task ∈ s.state.pending) : task.1 < s.tasks.length := by
  have placed : task ∈ (↑(s.tasks.mapIdx Prod.mk) : Multiset (Task ε π)) :=
    kept.placed ▸ Multiset.mem_add.mpr (.inr member)
  obtain ⟨index, bound, rfl⟩ := mem_mapIdx.mp placed
  exact bound

theorem enter (kept : Accounted workers s) (helper : Bool) (room : s.state.helpers + helper.toNat ≤ workers) :
    Accounted workers { s with
      state.helpers := s.state.helpers + helper.toNat
      runners := ⟨helper, none⟩ ::ₘ s.runners } :=
  { kept with
    placed := by simpa [Runner.left] using kept.placed
    executed := by simpa [Runner.executed] using kept.executed
    helpers := by simp [kept.helpers, add_comm]
    reserved := room
    batches := by simpa using kept.batches }

theorem register (kept : Accounted workers s) (task : Outcome ε π) :
    Accounted workers { s with
      state.pending := s.state.pending ++ [(s.state.registered, task)]
      state.registered := s.state.registered + 1
      tasks := s.tasks ++ [task] } :=
  { kept with
    placed := by
      simp [mapIdx_concat, ← Multiset.coe_add, ← kept.placed, kept.registered, add_assoc]
    registered := by simp [kept.registered]
    ordered := by
      rw [pairwise_append]
      refine ⟨kept.ordered, pairwise_singleton _ _, fun old member new last => ?_⟩
      rw [mem_singleton.mp last, kept.registered]
      exact kept.pending_lt member }

theorem step (kept : Accounted workers s) (step : Step workers s s') : Accounted workers s' := by
  have ⟨placed, executed, registered, completed, helpers, reserved, ordered, batches, error, panic⟩ := kept
  cases step with
  | register task _ =>
    by_cases room : s.state.helpers < workers
    · simpa [GenerationState.register, room] using (kept.register _).enter true room
    · simpa [GenerationState.register, room] using kept.register _
  | join spawning => exact { kept.enter false reserved with }
  | claim helper rest at_lock work =>
    simp [at_lock, Runner.left, Runner.executed] at placed executed helpers batches
    have split := take_append_drop (tgClaimBatchSize s.state.pending.length workers) s.state.pending
    rw [← split, pairwise_append] at ordered
    rw [← split, ← Multiset.coe_add] at placed
    refine ⟨?_, ?_, registered, completed, ?_, reserved, ordered.2.1, ?_, error, panic⟩
    · simpa [GenerationState.claim, Runner.left, add_assoc, add_left_comm, -Multiset.coe_add] using placed
    · simpa [GenerationState.claim, Runner.executed] using executed
    · simpa [GenerationState.claim] using helpers
    · simpa using ⟨⟨ordered.1, nofun, nofun⟩, batches⟩
  | retire helper rest at_lock empty =>
    simp [at_lock, Runner.left, Runner.executed] at placed executed helpers batches
    cases helper
    · exact { kept with placed, executed, helpers := by simpa [GenerationState.retire] using helpers, batches }
    · exact { kept with
        placed, executed, batches
        helpers := by simp [GenerationState.retire, helpers]
        reserved := (Nat.sub_le _ _).trans reserved }
  | run helper batch task left rest inside next =>
    simp [inside, Runner.left, Runner.executed] at placed executed helpers batches
    refine ⟨?_, ?_, registered, completed, ?_, reserved, ordered, ?_, error, panic⟩
    · simpa [Runner.left, Batch.run, next, ← Multiset.coe_add, ← Multiset.cons_coe, add_assoc] using placed
    · simp [Runner.executed, Batch.run, ← Multiset.coe_add, executed, add_assoc,
        add_comm (rest.bind _)]
    · simpa using helpers
    · simpa using ⟨batches.1.run next, batches.2⟩
  | publish helper batch rest inside over_batch =>
    simp [inside, Runner.left, Runner.executed, over_batch] at placed executed helpers batches
    refine ⟨?_, ?_, registered, ?_, ?_, reserved, ordered, ?_,
      error.keepLowest batches.1.error, panic.keepLowest batches.1.panic⟩
    · simpa [Runner.left, GenerationState.publish] using placed
    · simpa [Runner.executed, ← Multiset.coe_add, add_assoc] using executed
    · simp [GenerationState.publish, completed]
    · simpa [GenerationState.publish] using helpers
    · simpa using batches.2

end Accounted

theorem reachable_accounted (reached : Reachable workers s) : Accounted workers s := by
  induction reached with
  | refl => exact start_accounted _
  | tail _ step ih => exact ih.step step

theorem joined_eq {state : GenerationState ε π}
    {tasks : List (Outcome ε π)} (whole : done.Perm (tasks.mapIdx Prod.mk))
    (error : Lowest Outcome.error done state.error)
    (panic : Lowest Outcome.panic done state.panic) : state.joined = report tasks := by
  unfold GenerationState.joined report
  rw [← error.findSome? whole, ← panic.findSome? whole]
  rcases state.panic with _ | _ <;> rcases state.error with _ | _ <;> rfl

/-- Over every interleaving: never more helpers than workers, and when `join` returns each
registered task has run once and the result is that of the outcomes alone. -/
theorem join_reports_tasks (workers : Nat) (s : System ε π) (reached : Reachable workers s) :
    s.state.helpers ≤ workers ∧
      (s.Joined → s.ran.Perm (s.tasks.mapIdx Prod.mk) ∧ s.state.joined = report s.tasks) := by
  have kept := reachable_accounted reached
  refine ⟨kept.reserved, fun ⟨_, _, complete⟩ => ?_⟩
  -- As many are published as were registered, and those are among the ones that have run.
  have inside : (s.ran : Multiset (Task ε π)) ≤ ↑(s.tasks.mapIdx Prod.mk) := by
    rw [← kept.placed, add_assoc]
    exact Multiset.le_add_right _ _
  have among : (s.published : Multiset (Task ε π)) ≤ ↑s.ran := by
    rw [kept.executed]
    exact Multiset.le_add_right _ _
  have all : (s.published : Multiset (Task ε π)) = ↑(s.tasks.mapIdx Prod.mk) :=
    Multiset.eq_of_le_of_card_le (among.trans inside)
      (by simp [← kept.completed, complete, kept.registered])
  exact ⟨Multiset.coe_eq_coe.mp (inside.antisymm (all ▸ among)),
    joined_eq (Multiset.coe_eq_coe.mp all) kept.error kept.panic⟩

theorem join_reports_failure :
    ∃ s : System Nat Nat, s.tasks = [.failed 7] ∧ s.Joined ∧ s.state.joined = report s.tasks := by
  have reached : Reachable 0 (_ : System Nat Nat) :=
    .tail (.tail (.tail (.tail (.tail (.tail .refl (.register (.failed 7) rfl)) (.join rfl))
      (.claim false 0 rfl nofun)) (.run false _ _ _ 0 rfl rfl)) (.publish false _ 0 rfl rfl))
      (.retire false 0 rfl rfl)
  refine ⟨_, rfl, ?joined, ((join_reports_tasks 0 _ reached).2 ?joined).2⟩
  exact ⟨rfl, fun _ none => absurd none (Multiset.notMem_zero _), rfl⟩

/-- A bound on the steps that are left once the caller has joined. -/
def System.work (s : System ε π) : Nat :=
  3 * s.state.pending.length + (s.runners.map fun r => r.batch.elim 1 (·.left.length + 2)).sum

theorem Step.work_lt (step : Step workers s s') (joining : s.joining = true) :
    s'.joining = true ∧ s'.work < s.work := by
  cases step with
  | register _ spawning => simp [spawning] at joining
  | join spawning => simp [spawning] at joining
  | claim helper rest at_lock work =>
    have size := tgClaimBatchSize_bounds workers (length_pos_iff.mpr work)
    simp [System.work, at_lock, GenerationState.claim, joining]
    omega
  | retire helper rest at_lock _ => cases helper <;> simp [System.work, at_lock, GenerationState.retire, joining]
  | run _ _ _ _ _ inside next => simp [System.work, inside, next, Batch.run, joining]
  | publish _ _ _ inside over_batch => simp [System.work, inside, over_batch, GenerationState.publish, joining]

theorem caller_stays (reached : Reachable workers s) (joining : s.joining = true) :
    s.state.pending = [] ∨ false ∈ s.runners.map Runner.helper := by
  induction reached with
  | refl => cases joining
  | tail _ step ih =>
    cases step with
    | retire helper rest at_lock empty =>
      cases helper <;> exact .inl empty
    | _ => simp_all [GenerationState.publish]

/-- Over every interleaving `join` returns: no run after it is infinite, and one that cannot
go on has joined. -/
theorem join_returns (reached : Reachable workers s) (joining : s.joining = true) :
    Acc (fun after before => Step workers before after) s ∧ ((∀ s', ¬ Step workers s s') → s.Joined) := by
  constructor
  · clear reached
    induction size : s.work using Nat.strong_induction_on generalizing s with
    | _ n ih => exact ⟨_, fun s' step => ih _ (size ▸ (step.work_lt joining).2) (step.work_lt joining).1 rfl⟩
  · intro stuck
    have kept := reachable_accounted reached
    have gone : s.runners = 0 := by
      by_contra some_
      obtain ⟨⟨helper, batch⟩, member⟩ := Multiset.exists_mem_of_ne_zero some_
      obtain ⟨rest, here⟩ := Multiset.exists_cons_of_mem member
      rcases batch with _ | ⟨_ | ⟨task, left⟩, _⟩
      · by_cases empty : s.state.pending = []
        · exact stuck _ (.retire helper rest here empty)
        · exact stuck _ (.claim helper rest here empty)
      · exact stuck _ (.publish helper _ rest here rfl)
      · exact stuck _ (.run helper _ task left rest here rfl)
    have empty : s.state.pending = [] := by simpa [gone] using caller_stays reached joining
    have placed : s.ran.length = s.tasks.length := by simpa [gone, empty] using congrArg Multiset.card kept.placed
    have executed : s.ran.length = s.published.length := by simpa [gone] using congrArg Multiset.card kept.executed
    refine ⟨joining, by simp [gone], ?_⟩
    rw [kept.completed, kept.registered, ← executed, placed]

theorem join_returns_task : ∃ s : System Nat Nat, s.tasks = [.failed 7] ∧ s.joining = true ∧
    Acc (fun after before => Step 1 before after) s :=
  ⟨_, rfl, rfl, (join_returns (.tail (.tail .refl (.register (.failed 7) rfl)) (.join rfl)) rfl).1⟩

end Align.TaskGroup
