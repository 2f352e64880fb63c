import Mathlib.Logic.Function.Basic
import Mathlib.Algebra.Order.Ring.Nat
import Hammam.Lib.SortedMap

/-!
# The scheduler (`sched/mod.rs`, `sched/task.rs`)

Tasks are shared: the run queue, `current` and the process table hold references, and the scheduler writes `state` and
`vruntime` through them.  A reference is a number, and `tasks` holds what it points to.  The run queue is a map from
virtual run times to references.

The search for a free key in `insert_task_into_queue` runs forever when every key from the start to `u64::MAX` is
taken.  An operation of the scheduler returns `none` in that case, and `some` of its result and the new state
otherwise.
-/

namespace Hammam

/-- `u64::MAX`. -/
def u64Max : Nat := 2 ^ 64 - 1

/-- `u64::saturating_add`. -/
def satAdd (a b : Nat) : Nat := min (a + b) u64Max

inductive TaskState where
  | running
  | ready
  | blocked
  | dead
  deriving DecidableEq, Repr

/-- An `Arc<Task>`, up to `Arc::ptr_eq`. -/
abbrev TaskRef := Nat

structure Task where
  id : Nat
  state : TaskState
  priority : Int
  vruntime : Nat
  userEntry : Nat
  userStack : Nat
  deriving DecidableEq, Repr

def Task.new (id : Nat) (priority : Int) : Task := ⟨id, .ready, priority, 0, 0, 0⟩

/-- The fields of `Scheduler`, the tasks behind its references and the static `CURRENT_TASK`. -/
structure Scheduler where
  tasks : TaskRef → Task
  runQueue : SortedMap Nat TaskRef
  current : Option TaskRef
  minVruntime : Nat
  currentTicks : Nat
  currentTask : Option TaskRef

/-- `QUANTUM_TICKS`. -/
def quantumTicks : Nat := 10

/-- The search loop of `insert_task_into_queue`, for at most `fuel` iterations. -/
def probe (q : SortedMap Nat TaskRef) : Nat → Nat → Option Nat
  | 0, _ => none
  | fuel + 1, key => if q.contains key then probe q fuel (satAdd key 1) else some key

/-- The search loop: among `size + 1` keys one is free, unless the search has reached `u64::MAX` and stays there. -/
def searchKey (q : SortedMap Nat TaskRef) (key : Nat) : Option Nat := probe q (q.size + 1) key

namespace Scheduler

def new (tasks : TaskRef → Task) : Scheduler := ⟨tasks, .empty, none, 0, 0, none⟩

def weight (priority : Int) : Nat := 1024 / (min (max priority 1) 1024).toNat

def setVruntime (s : Scheduler) (t : TaskRef) (v : Nat) : Scheduler :=
  { s with tasks := Function.update s.tasks t { s.tasks t with vruntime := v } }

def setState (s : Scheduler) (t : TaskRef) (st : TaskState) : Scheduler :=
  { s with tasks := Function.update s.tasks t { s.tasks t with state := st } }

/-- The key at which `insert_task_into_queue` starts its search. -/
def startKey (s : Scheduler) : Nat :=
  match s.current with
  | some c => max s.minVruntime (satAdd (s.tasks c).vruntime 1)
  | none => s.minVruntime

def insertTaskIntoQueue (s : Scheduler) (t : TaskRef) : Option Scheduler :=
  match searchKey s.runQueue s.startKey with
  | none => none
  | some key =>
    let s₁ := if key ≠ (s.tasks t).vruntime then s.setVruntime t key else s
    some { s₁ with runQueue := s₁.runQueue.insert key t }

def addTask (s : Scheduler) (t : TaskRef) : Option Scheduler :=
  match s.current with
  | none => some { s with current := some t }
  | some _ => s.insertTaskIntoQueue t

/-- The first part of `pick_next`: the outgoing task goes back to the queue unless it is dead. -/
def requeueCurrent (s : Scheduler) : Option Scheduler :=
  match s.current with
  | none => some s
  | some c =>
    let s₁ := { s with current := none }
    if (s.tasks c).state ≠ .dead then s₁.insertTaskIntoQueue c else some s₁

/-- The second part of `pick_next`: the first task of the queue becomes the current one. -/
def takeFirst (s : Scheduler) : Option TaskRef × Scheduler :=
  match s.runQueue.first? with
  | none => (none, s)
  | some (k, next) =>
    (some next, { s with runQueue := s.runQueue.erase k, minVruntime := k, current := some next })

def pickNext (s : Scheduler) : Option (Option TaskRef × Scheduler) :=
  if s.runQueue.entries.isEmpty then some (none, s) else s.requeueCurrent.map takeFirst

/-- The result is the pair of tasks to switch between: the contexts in the source are theirs. -/
def scheduleLocked (s : Scheduler) : Option (Option (TaskRef × TaskRef) × Scheduler) :=
  match s.current with
  | none => some (none, s)
  | some c =>
    match s.pickNext with
    | none => none
    | some (none, s₁) => some (none, s₁)
    | some (some n, s₁) =>
      if c = n then some (none, s₁)
      else some (some (c, n), { (s₁.setState c .ready).setState n .running with currentTask := some n })

def schedule (s : Scheduler) : Option (Option (TaskRef × TaskRef) × Scheduler) := s.scheduleLocked

/-- The run time that one tick charges to the current task. -/
def charge (s : Scheduler) (c : TaskRef) : Scheduler :=
  s.setVruntime c (satAdd (s.tasks c).vruntime (1000000 / weight (s.tasks c).priority))

/-- The end of a tick: `current_ticks` is a `u8`, and a full quantum ends in a switch. -/
def countTick (s : Scheduler) : Option (Option (TaskRef × TaskRef) × Scheduler) :=
  let ticks := min (s.currentTicks + 1) 255
  if quantumTicks ≤ ticks then { s with currentTicks := 0 }.scheduleLocked
  else some (none, { s with currentTicks := ticks })

def tick (s : Scheduler) : Option (Option (TaskRef × TaskRef) × Scheduler) :=
  match s.current with
  | none => some (none, s)
  | some c => (s.charge c).countTick

/-- The timer handler; unlike `tick` it counts ticks also while there is no current task. -/
def tickNow (s : Scheduler) : Option (Option (TaskRef × TaskRef) × Scheduler) :=
  match s.current with
  | none => s.countTick
  | some c => (s.charge c).countTick

/-- `exit_current` marks the current task before it calls `schedule`. -/
def killCurrent (s : Scheduler) : Scheduler :=
  match s.current with
  | none => s
  | some c => s.setState c .dead

/-- `exit_current` up to its switch; with `none` in place of a pair it halts. -/
def exitCurrent (s : Scheduler) : Option (Option (TaskRef × TaskRef) × Scheduler) := s.killCurrent.schedule

/-- There is a key for the outgoing task: none is needed when no task is waiting or the current one is dead, and
`min_vruntime` will do as long as it is below `u64::MAX`. -/
def Room (s : Scheduler) : Prop :=
  ∀ c, s.current = some c → s.runQueue.entries = [] ∨ (s.tasks c).state = .dead ∨ s.minVruntime < u64Max

/-- The tasks that the scheduler holds. -/
def held (s : Scheduler) : List TaskRef := s.current.toList ++ s.runQueue.values

/-- The task that `pick_next` drops: a dead current task, when there is another task to run. -/
def drops (s : Scheduler) : List TaskRef :=
  match s.current with
  | none => []
  | some c => if (s.tasks c).state = .dead ∧ s.runQueue.entries ≠ [] then [c] else []

/-- The task that a tick drops, at the end of a quantum. -/
def tickDrops (s : Scheduler) : List TaskRef := if quantumTicks ≤ min (s.currentTicks + 1) 255 then s.drops else []

end Scheduler

/-- The runs of a scheduler from `Scheduler::new`, with the tasks added and dropped so far; `P` holds in every state
in which an operation is called.  A task is added only while it is not held. -/
inductive SchedRun (P : Scheduler → Prop) : Scheduler → List TaskRef → List TaskRef → Prop
  | new (tasks : TaskRef → Task) : (∀ t, (tasks t).vruntime ≤ u64Max) → SchedRun P (Scheduler.new tasks) [] []
  | add {s s' : Scheduler} {added dropped : List TaskRef} {t : TaskRef} : SchedRun P s added dropped → P s →
    t ∉ s.held → s.addTask t = some s' → SchedRun P s' (t :: added) dropped
  | pick {s s' : Scheduler} {added dropped : List TaskRef} {r : Option TaskRef} : SchedRun P s added dropped → P s →
    s.pickNext = some (r, s') → SchedRun P s' added (s.drops ++ dropped)
  | schedule {s s' : Scheduler} {added dropped : List TaskRef} {r : Option (TaskRef × TaskRef)} :
    SchedRun P s added dropped → P s → s.schedule = some (r, s') → SchedRun P s' added (s.drops ++ dropped)
  | tick {s s' : Scheduler} {added dropped : List TaskRef} {r : Option (TaskRef × TaskRef)} :
    SchedRun P s added dropped → P s → s.tick = some (r, s') → SchedRun P s' added (s.tickDrops ++ dropped)
  | kill {s : Scheduler} {added dropped : List TaskRef} : SchedRun P s added dropped → P s →
    SchedRun P s.killCurrent added dropped

/-- Every virtual run time lies below `u64::MAX` minus the number of tasks. -/
def Bounded (s : Scheduler) : Prop := ∀ t ∈ s.held, (s.tasks t).vruntime + s.held.length < u64Max

end Hammam
