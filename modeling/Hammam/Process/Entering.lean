import Hammam.Arch.Context
import Hammam.Process.Lifecycle

/-!
# The way into user space (`arch/x86_64/syscall.rs`, `process/mod.rs`, `sched/mod.rs`)

A process starts in the kernel: its first switch enters `return_to_userspace_trampoline`, which asks `CURRENT_TASK`
where the process begins and jumps there.  So three things have to fit together: the stack that the creator of the
task has prepared, the switch of contexts, and the scheduler, which sets `CURRENT_TASK` before the switch.

The kernel and the processor run side by side here.  A call that ends in a switch is one step of the kernel and one
pass through the block of `switch_context`; everything else that the processor does is only required to leave alone
what the waiting tasks own.
-/

namespace Hammam

open Switch

/-! ### What a call does to the scheduler -/

/-- A call that returns the pair `r`: without a pair the current task stays, with a pair the scheduler has moved
from one task to another one and has dropped the first one. -/
structure Moved (s s' : Scheduler) (r : Option (TaskRef × TaskRef)) : Prop where
  inv : SchedInv s'
  image : ∀ t, (s'.tasks t).userEntry = (s.tasks t).userEntry ∧ (s'.tasks t).userStack = (s.tasks t).userStack
  held : ∀ t ∈ s'.held, t ∈ s.held
  stays : r = none → s'.current = s.current
  moves : ∀ c n, r = some (c, n) → s.current = some c ∧ s'.current = some n ∧ s'.currentTask = some n ∧
    n ∈ s.held ∧ c ≠ n ∧ c ∉ s'.held

namespace Moved

variable {s s₁ s' : Scheduler} {r : Option (TaskRef × TaskRef)}

theorem image_setVruntime (s : Scheduler) (t u : TaskRef) (v : Nat) :
    ((s.setVruntime t v).tasks u).userEntry = (s.tasks u).userEntry ∧
      ((s.setVruntime t v).tasks u).userStack = (s.tasks u).userStack := by
  by_cases e : u = t
  · subst e
    simp [Scheduler.setVruntime]
  · simp [Scheduler.setVruntime, e]

theorem image_setState (s : Scheduler) (t u : TaskRef) (st : TaskState) :
    ((s.setState t st).tasks u).userEntry = (s.tasks u).userEntry ∧
      ((s.setState t st).tasks u).userStack = (s.tasks u).userStack := by
  by_cases e : u = t
  · subst e
    simp [Scheduler.setState]
  · simp [Scheduler.setState, e]

/-- What is done before the call does not move the scheduler. -/
theorem of_calm (h : Moved s₁ s' r) (hq : s₁.runQueue = s.runQueue) (hc : s₁.current = s.current)
    (hi : ∀ t, (s₁.tasks t).userEntry = (s.tasks t).userEntry ∧ (s₁.tasks t).userStack = (s.tasks t).userStack) :
    Moved s s' r := by
  have hheld : s₁.held = s.held := by rw [Scheduler.held, Scheduler.held, hq, hc]
  refine ⟨h.inv, fun t => ⟨(h.image t).1.trans (hi t).1, (h.image t).2.trans (hi t).2⟩, ?_, ?_, ?_⟩
  · rw [← hheld]
    exact h.held
  · rw [← hc]
    exact h.stays
  · rw [← hc, ← hheld]
    exact h.moves

theorem pickNext_image {r : Option TaskRef} (h : SchedInv s) (hp : s.pickNext = some (r, s')) (t : TaskRef) :
    (s'.tasks t).userEntry = (s.tasks t).userEntry ∧ (s'.tasks t).userStack = (s.tasks t).userStack := by
  rcases h.pickNext_cases hp with ⟨-, -, rfl⟩ | ⟨c, -, -, -, -, rfl⟩ | ⟨c, k, n, -, -, -, -, rfl⟩
  · exact ⟨rfl, rfl⟩
  · exact image_setVruntime s c t _
  · exact ⟨rfl, rfl⟩

theorem schedule (h : SchedInv s) (hs : s.schedule = some (r, s')) : Moved s s' r := by
  have hheld := h.held_scheduleLocked hs
  have hinv := h.scheduleLocked hs
  refine ⟨hinv, fun t => ?_, fun t ht => hheld.mem_iff.2 (List.mem_append_left _ ht), ?_, ?_⟩
  · unfold Scheduler.schedule Scheduler.scheduleLocked at hs
    cases hc : s.current with
    | none =>
      simp only [hc, Option.some.injEq, Prod.mk.injEq] at hs
      rw [← hs.2]
      exact ⟨rfl, rfl⟩
    | some c =>
      cases hp : s.pickNext with
      | none => simp [hc, hp] at hs
      | some p =>
        obtain ⟨n, s₁⟩ := p
        have himage := pickNext_image h hp t
        cases n with
        | none =>
          simp only [hc, hp, Option.some.injEq, Prod.mk.injEq] at hs
          rw [← hs.2]
          exact himage
        | some n =>
          simp only [hc, hp] at hs
          split at hs
          · simp only [Option.some.injEq, Prod.mk.injEq] at hs
            rw [← hs.2]
            exact himage
          · simp only [Option.some.injEq, Prod.mk.injEq] at hs
            rw [← hs.2]
            have h1 := image_setState (s₁.setState c .ready) n t .running
            have h2 := image_setState s₁ c t .ready
            exact ⟨h1.1.trans (h2.1.trans himage.1), h1.2.trans (h2.2.trans himage.2)⟩
  · rintro rfl
    rcases h.scheduleLocked_cases hs with ⟨-, -, hc, -⟩ | ⟨c, k, n, -, -, -, -, hr, -⟩
    · exact hc
    · cases hr
  · rintro c n rfl
    rcases h.scheduleLocked_cases hs with ⟨hr, -⟩ | ⟨c', k, n', hc, hd, hf, hne, hr, rfl⟩
    · cases hr
    · cases hr
      have hn : n ∈ s.held :=
        List.mem_append_right _ (SortedMap.mem_values.2 ⟨k, (SortedMap.first?_eq_some.1 hf).1⟩)
      refine ⟨hc, rfl, rfl, hn, hne, fun hm => ?_⟩
      -- the outgoing task is dead, so it is the one that is dropped
      have hdrop : c ∈ s.drops := by
        have hq : s.runQueue.entries ≠ [] := by
          intro he
          rw [SortedMap.first?, he] at hf
          cases hf
        rw [Scheduler.drops, hc]
        simp only [hd, hq, ne_eq, not_false_eq_true, and_self, if_true, List.mem_singleton]
      have hnd := hheld.nodup_iff.1 h.nodup
      exact (List.nodup_append.1 hnd).2.2 c hm c hdrop rfl

theorem countTick (h : SchedInv s) (hs : s.countTick = some (r, s')) : Moved s s' r := by
  unfold Scheduler.countTick at hs
  simp only at hs
  split at hs
  · exact (schedule (h.ticks 0) hs).of_calm rfl rfl fun _ => ⟨rfl, rfl⟩
  · cases hs
    exact ⟨h.ticks _, fun _ => ⟨rfl, rfl⟩, fun _ ht => ht, fun _ => rfl, fun _ _ hr => by cases hr⟩

theorem tickNow (h : SchedInv s) (hs : s.tickNow = some (r, s')) : Moved s s' r := by
  unfold Scheduler.tickNow at hs
  cases hc : s.current with
  | none =>
    simp only [hc] at hs
    exact countTick h hs
  | some c =>
    simp only [hc] at hs
    exact (countTick (h.charge hc) hs).of_calm rfl rfl fun t => image_setVruntime s c t _

theorem exitCurrent (h : SchedInv s) (hs : s.exitCurrent = some (r, s')) : Moved s s' r := by
  refine (schedule h.killCurrent hs).of_calm ?_ ?_ fun t => ?_
  all_goals
    unfold Scheduler.killCurrent
    cases hc : s.current with
    | none => simp [hc]
    | some c => first | rfl | exact image_setState s c t .dead | exact hc

end Moved

/-! ### The trampoline -/

/-- What user space starts with. -/
structure UserState where
  rip : BitVec 64
  rsp : BitVec 64
  rbp : BitVec 64
  rflags : BitVec 64
  deriving DecidableEq, Repr

/-- `jump_to_userspace`, with its operands in registers that it does not write before it has read them; `sysretq`
goes on at `RCX` with the flags of `R11`. -/
def jumpToUserspace (m : Switch.Machine) (entry stack : BitVec 64) : UserState :=
  let m := m.setReg .rcx entry
  let m := m.setReg .r11 0x3202
  let m := m.setReg .rsp stack
  let m := m.setReg .rbp 0
  ⟨m.reg .rcx, m.reg .rsp, m.reg .rbp, m.reg .r11⟩

/-- Without a current task the trampoline stops the processor. -/
def returnToUserspaceTrampoline (k : Kernel) (m : Switch.Machine) : Option UserState :=
  match k.sched.currentTask with
  | none => none
  | some t =>
    some (jumpToUserspace m (BitVec.ofNat 64 (k.sched.tasks t).userEntry)
      (BitVec.ofNat 64 (k.sched.tasks t).userStack))

/-- What comes after the `ret` of `switch_context`, if that goes to the trampoline. -/
def arrival (trampoline : BitVec 64) (k : Kernel) (m : Switch.Machine) : Option UserState :=
  if m.rip = trampoline then returnToUserspaceTrampoline k m else none

/-! ### The kernel and its processor -/

/-- `STACK_SIZE`. -/
def stackSize : Nat := 4096 * 4

/-- The code that boots runs on `MAIN_CONTEXT`. -/
inductive Thread where
  | main
  | task (t : TaskRef)
  deriving DecidableEq

abbrev TaskLayout := Layout Thread

/-- The kernel, the machine, the tasks that wait for a switch to them, and what is known about each task: its frame,
the entry point and the stack with which it was created, and for every task switched to, the machine after the
switch and how user space starts. -/
structure Node where
  kernel : Kernel
  machine : Switch.Machine
  waiting : List Thread
  frame : Thread → Frame
  image : TaskRef → Nat × Nat
  arrivals : List (TaskRef × Switch.Machine × Option UserState)

/-- The task that runs. -/
def Node.running (s : Node) : List Thread := s.kernel.sched.current.toList.map .task

/-- The pair of tasks between which the event switches. -/
def Event.switch (k : Kernel) : Event → Option (TaskRef × TaskRef)
  | .yield => k.sched.schedule.bind Prod.fst
  | .tick => k.sched.tickNow.bind Prod.fst
  | .exit _ => k.sched.exitCurrent.bind Prod.fst
  | _ => none

section Node

variable (L : TaskLayout) (trampoline : BitVec 64)

/-- The top of the kernel stack of a task. -/
def TaskLayout.top (t : TaskRef) : Nat := kernelStackTop (L.stack (.task t)).1 stackSize

/-- The frame that `from_elf`, and `sys_exec` or the boot code after it, prepare. -/
def firstFrame (t : TaskRef) : Frame := ⟨fun _ => 0, BitVec.ofNat 64 (TaskLayout.top L t), trampoline⟩

/-- The place of a new task, which is not used by the tasks in `others`. -/
structure Room (t : TaskRef) (others : List Thread) : Prop where
  fits : L.Fits (.task t)
  size : (L.stack (.task t)).2 = stackSize
  separate : ∀ j ∈ others, L.Separate (.task t) j

/-- The runs from the switch on with which `start_scheduler` leaves the boot code. -/
inductive NodeRun : Node → Prop
  | boot {k : Kernel} {entry stack : Nat} {m m' : Switch.Machine} : Kernel.boot entry stack = some k → L.Fits .main →
    Room L 0 [.main] → (∀ x, L.Owns (.task 0) x → m'.mem x = (newTask m (L.context (.task 0)) (TaskLayout.top L 0)
      trampoline).mem x) → L.AtBlock m' .main (.task 0) →
    NodeRun ⟨k, run m' switchContext, [], fun _ => firstFrame L trampoline 0, fun _ => (entry, stack),
      [(0, run m' switchContext, arrival trampoline k (run m' switchContext))]⟩
  | compute {s : Node} {m : Switch.Machine} : NodeRun s →
    (∀ i ∈ s.waiting, ∀ x, L.Owns i x → m.mem x = s.machine.mem x) → NodeRun { s with machine := m }
  | stay {s : Node} {e : Event} {k : Kernel} {r : Int} : NodeRun s → s.kernel.halted = false →
    (∀ entry stack, e ≠ .exec (.loaded entry stack)) → e.switch s.kernel = none → s.kernel.step e = some (r, k) →
    NodeRun { s with kernel := k }
  | spawn {s : Node} {entry stack : Nat} {k : Kernel} {r : Int} : NodeRun s → s.kernel.halted = false →
    s.kernel.step (.exec (.loaded entry stack)) = some (r, k) →
    Room L s.kernel.nextRef (s.running ++ s.waiting) →
    NodeRun { s with
      kernel := k
      machine := newTask s.machine (L.context (.task s.kernel.nextRef)) (TaskLayout.top L s.kernel.nextRef) trampoline
      waiting := .task s.kernel.nextRef :: s.waiting
      frame := Function.update s.frame (.task s.kernel.nextRef) (firstFrame L trampoline s.kernel.nextRef)
      image := Function.update s.image s.kernel.nextRef (entry, stack) }
  | switch {s : Node} {e : Event} {k : Kernel} {r : Int} {c n : TaskRef} : NodeRun s → s.kernel.halted = false →
    e.switch s.kernel = some (c, n) → s.kernel.step e = some (r, k) → L.AtBlock s.machine (.task c) (.task n) →
    NodeRun { s with
      kernel := k
      machine := run s.machine switchContext
      waiting := s.waiting.erase (.task n)
      arrivals := (n, run s.machine switchContext, arrival trampoline k (run s.machine switchContext)) :: s.arrivals }

end Node

/-! ### What an event does to the kernel -/

theorem Moved.refl {s : Scheduler} (h : SchedInv s) : Moved s s none :=
  ⟨h, fun _ => ⟨rfl, rfl⟩, fun _ ht => ht, fun _ => rfl, fun _ _ hr => by cases hr⟩

theorem Kernel.step_moved {k k' : Kernel} {e : Event} {r : Int} (h : SchedInv k.sched)
    (he : ∀ entry stack, e ≠ .exec (.loaded entry stack)) (hs : k.step e = some (r, k')) :
    Moved k.sched k'.sched (e.switch k) ∧ k'.nextRef = k.nextRef := by
  cases e with
  | yield =>
    simp only [Kernel.step, Kernel.sysYield] at hs
    split at hs
    · cases hs
    · rename_i pair sched hsch
      cases hs
      rw [Event.switch, hsch]
      exact ⟨Moved.schedule h hsch, rfl⟩
  | tick =>
    simp only [Kernel.step, Kernel.timer] at hs
    split at hs
    · cases hs
    · rename_i pair sched hsch
      cases hs
      rw [Event.switch, hsch]
      exact ⟨Moved.tickNow h hsch, rfl⟩
  | exit code =>
    simp only [Kernel.step, Kernel.sysExit] at hs
    split at hs
    · cases hs
    · rename_i pair sched hsch
      cases hs
      rw [Event.switch, hsch]
      exact ⟨Moved.exitCurrent h hsch, rfl⟩
  | waitpid pid flags =>
    simp only [Kernel.step, Option.some.injEq, Kernel.sysWaitpid] at hs
    split at hs
    · cases hs
      exact ⟨Moved.refl h, rfl⟩
    · split at hs
      · cases hs
        exact ⟨Moved.refl h, rfl⟩
      · split at hs
        · cases hs
          exact ⟨Moved.refl h, rfl⟩
        · cases hs
          exact ⟨Moved.refl h, rfl⟩
  | exec image =>
    cases image with
    | missing e =>
      cases hs
      exact ⟨Moved.refl h, rfl⟩
    | invalid =>
      cases hs
      exact ⟨Moved.refl h, rfl⟩
    | loaded entry stack => exact absurd rfl (he entry stack)

/-- The first task is the current one. -/
theorem Kernel.boot_spec {k : Kernel} {entry stack : Nat} (hb : Kernel.boot entry stack = some k) :
    k.nextRef = 1 ∧ k.sched.current = some 0 ∧ k.sched.currentTask = some 0 ∧ k.sched.held = [0] ∧
      ((k.sched.tasks 0).userEntry, (k.sched.tasks 0).userStack) = (entry, stack) := by
  cases hb
  exact ⟨rfl, rfl, rfl, rfl, rfl⟩

/-- A new task is queued behind the current one. -/
theorem Kernel.step_loaded {k k' : Kernel} {r : Int} {c : TaskRef} {entry stack : Nat} (h : SchedInv k.sched)
    (hlt : ∀ t ∈ k.sched.held, t < k.nextRef) (hc : k.sched.current = some c)
    (hs : k.step (.exec (.loaded entry stack)) = some (r, k')) :
    SchedInv k'.sched ∧ k'.nextRef = k.nextRef + 1 ∧ k'.sched.current = some c ∧
      (∀ t ∈ k'.sched.held, t = k.nextRef ∨ t ∈ k.sched.held) ∧
      ∀ t, ((k'.sched.tasks t).userEntry, (k'.sched.tasks t).userStack) =
        if t = k.nextRef then (entry, stack) else ((k.sched.tasks t).userEntry, (k.sched.tasks t).userStack) := by
  have hfresh : k.nextRef ∉ k.sched.held := fun hm => absurd (hlt _ hm) (Nat.lt_irrefl _)
  simp only [Kernel.step, Kernel.sysExec, Kernel.spawn] at hs
  split at hs
  · cases hs
  · rename_i p k₁ hsp
    split at hsp
    · cases hsp
    · rename_i sched hadd
      cases hsp
      cases hs
      have hset :=
        h.setTask hfresh { Task.new k.nextPid 1 with userEntry := entry, userStack := stack } (Nat.zero_le _)
      have hheld := hset.held_addTask hadd
      obtain ⟨key, -, -, -, rfl⟩ := hset.addTask_some hc hadd
      refine ⟨hset.addTask hfresh hadd, rfl, hc, fun t ht => List.mem_cons.1 (hheld.mem_iff.1 ht), fun t => ?_⟩
      obtain ⟨h1, h2⟩ := Moved.image_setVruntime { k.sched with
        tasks := Function.update k.sched.tasks k.nextRef { Task.new k.nextPid 1 with
          userEntry := entry, userStack := stack } } k.nextRef t key
      refine (congrArg₂ Prod.mk h1 h2).trans ?_
      by_cases ht : t = k.nextRef
      · subst ht
        simp
      · simp [ht]

/-! ### Runs -/

/-- User space starts at the entry point and on the stack of the task. -/
def StartsAt (trampoline : BitVec 64) (image : Nat × Nat) (a : Switch.Machine × Option UserState) : Prop :=
  a.1.rip = trampoline ∧ (a.1.reg .rsp).toNat % 16 = 0 ∧
    a.2 = some ⟨BitVec.ofNat 64 image.1, BitVec.ofNat 64 image.2, 0, 0x3202⟩

/-- The tasks that wait have not run, and the one that runs is the one of the scheduler. -/
structure NodeInv (L : TaskLayout) (trampoline : BitVec 64) (s : Node) : Prop where
  sched : SchedInv s.kernel.sched
  held_lt : ∀ t ∈ s.kernel.sched.held, t < s.kernel.nextRef
  running : ∃ c, s.kernel.sched.current = some c ∧ Run L s.machine (.task c) s.waiting s.frame ∧
    c ∈ s.arrivals.map Prod.fst
  waits : ∀ t ∈ s.kernel.sched.held, s.kernel.sched.current ≠ some t → .task t ∈ s.waiting
  first : ∀ i ∈ s.waiting, ∃ t, i = .task t ∧ t < s.kernel.nextRef ∧ (L.stack i).2 = stackSize ∧
    s.frame i = firstFrame L trampoline t ∧ t ∉ s.arrivals.map Prod.fst
  image : ∀ t < s.kernel.nextRef,
    ((s.kernel.sched.tasks t).userEntry, (s.kernel.sched.tasks t).userStack) = s.image t
  arrived_lt : ∀ t ∈ s.arrivals.map Prod.fst, t < s.kernel.nextRef
  arrived : ∀ p ∈ s.arrivals, StartsAt trampoline (s.image p.1) p.2
  nodup : (s.arrivals.map Prod.fst).Nodup

/-- A stack whose top is a multiple of 16 has room for the word of the first switch. -/
theorem top_spec {L : TaskLayout} {t : TaskRef} (hf : L.Fits (.task t)) (hsize : (L.stack (.task t)).2 = stackSize) :
    8 ≤ TaskLayout.top L t ∧ Extent.Inside (TaskLayout.top L t - 8, 8) (L.stack (.task t)) ∧
      (BitVec.ofNat 64 (TaskLayout.top L t)).toNat % 16 = 0 := by
  have h1 := hf.stack
  have h2 : stackSize = 16384 := rfl
  unfold TaskLayout.top kernelStackTop Extent.Inside
  rw [BitVec.toNat_ofNat, hsize]
  rw [hsize] at h1
  refine ⟨?_, ⟨?_, ?_⟩, ?_⟩ <;> simp only [h2] at * <;> omega

/-- The first switch to a task goes to the trampoline, and that finds the task in `CURRENT_TASK`. -/
theorem startsAt_first {L : TaskLayout} {trampoline : BitVec 64} {k : Kernel} {m : Switch.Machine} {t : TaskRef}
    {image : Nat × Nat} (hcur : k.sched.currentTask = some t)
    (himage : ((k.sched.tasks t).userEntry, (k.sched.tasks t).userStack) = image)
    (hrip : m.rip = trampoline) (hrsp : m.reg .rsp = BitVec.ofNat 64 (TaskLayout.top L t)) (hf : L.Fits (.task t))
    (hsize : (L.stack (.task t)).2 = stackSize) : StartsAt trampoline image (m, arrival trampoline k m) := by
  subst himage
  refine ⟨hrip, ?_, ?_⟩
  · rw [hrsp]
    exact (top_spec hf hsize).2.2
  · rw [arrival, if_pos hrip, returnToUserspaceTrampoline, hcur]
    rfl

namespace NodeInv

variable {L : TaskLayout} {trampoline : BitVec 64} {s : Node} {k : Kernel} {e : Event} {r : Int}

theorem boot {entry stack : Nat} {m m' : Switch.Machine} (hb : Kernel.boot entry stack = some k)
    (hnone : L.Fits .main)
    (hroom : Room L 0 [.main]) (hm : ∀ x, L.Owns (.task 0) x → m'.mem x = (newTask m (L.context (.task 0))
      (TaskLayout.top L 0) trampoline).mem x) (ha : L.AtBlock m' .main (.task 0)) :
    NodeInv L trampoline ⟨k, run m' switchContext, [], fun _ => firstFrame L trampoline 0, fun _ => (entry, stack),
      [(0, run m' switchContext, arrival trampoline k (run m' switchContext))]⟩ := by
  have hlife := LifeInv.boot hb
  obtain ⟨htop, hinside, -⟩ := top_spec hroom.fits hroom.size
  have h₀ : Run L m .main [] (fun _ => firstFrame L trampoline 0) := .start hnone
  have h₁ := @Run.create _ _ _ _ _ (.task 0) _ _ (TaskLayout.top L 0) trampoline h₀ hroom.fits (by simp)
    hroom.separate htop hinside
  have hframe : Function.update (fun _ => firstFrame L trampoline 0) (.task 0)
      ⟨fun _ => 0, BitVec.ofNat 64 (TaskLayout.top L 0), trampoline⟩ =
      fun _ : Thread => firstFrame L trampoline 0 := by
    funext i
    by_cases hi : i = .task 0
    · rw [hi, Function.update_self]
      rfl
    · rw [Function.update_of_ne hi]
  rw [hframe] at h₁
  have h₂ := @Run.compute _ _ _ _ m' _ _ _ h₁ fun i hi x hx => by
    obtain rfl := List.mem_singleton.1 hi
    exact hm x hx
  obtain ⟨-, hrsp, hrip⟩ := h₂.inv.resumes List.mem_cons_self ha
  have h₃ := h₂.leave List.mem_cons_self ha
  rw [List.erase_cons_head] at h₃
  obtain ⟨href, hcur, hct, hheld, himage⟩ := Kernel.boot_spec hb
  refine ⟨hlife.sched, hlife.held_lt, ⟨0, hcur, h₃, by simp⟩, fun t ht hne => ?_, fun i hi => ?_, fun t ht => ?_,
    fun t ht => ?_, fun p hp => ?_, by simp⟩
  · rw [hheld, List.mem_singleton] at ht
    rw [ht] at hne
    exact absurd hcur hne
  · cases hi
  · simp only [href, Nat.lt_one_iff] at ht
    rw [ht]
    exact himage
  · rw [List.mem_singleton.1 ht]
    simp [href]
  · obtain rfl := List.mem_singleton.1 hp
    exact startsAt_first (L := L) hct himage hrip hrsp hroom.fits hroom.size

theorem stay (h : NodeInv L trampoline s) (he : ∀ entry stack, e ≠ .exec (.loaded entry stack))
    (hsw : e.switch s.kernel = none) (hs : s.kernel.step e = some (r, k)) :
    NodeInv L trampoline { s with kernel := k } := by
  obtain ⟨hmoved, href⟩ := Kernel.step_moved h.sched he hs
  have hcur := hmoved.stays hsw
  refine ⟨hmoved.inv, fun t ht => ?_, ?_, fun t ht hne => ?_, ?_, fun t ht => ?_, ?_, h.arrived, h.nodup⟩
  · rw [href]
    exact h.held_lt t (hmoved.held t ht)
  · simp only [hcur]
    exact h.running
  · simp only [hcur] at hne
    exact h.waits t (hmoved.held t ht) hne
  · simp only [href]
    exact h.first
  · simp only [href] at ht
    rw [← h.image t ht]
    exact Prod.ext (hmoved.image t).1 (hmoved.image t).2
  · simp only [href]
    exact h.arrived_lt

theorem switch (h : NodeInv L trampoline s) {c n : TaskRef} (hsw : e.switch s.kernel = some (c, n))
    (hs : s.kernel.step e = some (r, k)) (ha : L.AtBlock s.machine (.task c) (.task n)) :
    NodeInv L trampoline { s with
      kernel := k
      machine := run s.machine switchContext
      waiting := s.waiting.erase (.task n)
      arrivals := (n, run s.machine switchContext, arrival trampoline k (run s.machine switchContext)) ::
        s.arrivals } := by
  have he : ∀ entry stack, e ≠ .exec (.loaded entry stack) := by
    rintro entry stack rfl
    cases hsw
  obtain ⟨hmoved, href⟩ := Kernel.step_moved h.sched he hs
  obtain ⟨hc, hn, hct, hheld, hne, hgone⟩ := hmoved.moves c n hsw
  obtain ⟨c', hc', hrun, -⟩ := h.running
  obtain rfl : c' = c := Option.some.inj (hc'.symm.trans hc)
  have hwait : .task n ∈ s.waiting := h.waits n hheld (by rw [hc]; simpa using hne)
  obtain ⟨t, ht, htlt, hsize, hframe, hnew⟩ := h.first _ hwait
  obtain rfl : n = t := Thread.task.inj ht
  have hfits := hrun.inv.fits (.task n) (List.mem_cons_of_mem _ hwait)
  have hwnodup := (List.nodup_cons.1 hrun.inv.nodup).2
  obtain ⟨-, hrsp, hrip⟩ := hrun.inv.resumes hwait ha
  rw [hframe] at hrsp hrip
  have himage : ∀ t < k.nextRef, ((k.sched.tasks t).userEntry, (k.sched.tasks t).userStack) = s.image t := by
    intro t ht
    rw [href] at ht
    rw [← h.image t ht]
    exact Prod.ext (hmoved.image t).1 (hmoved.image t).2
  refine ⟨hmoved.inv, fun t ht => ?_, ⟨n, hn, hrun.leave hwait ha, by simp⟩, fun t ht hnt => ?_, fun i hi => ?_,
    himage, fun t ht => ?_, fun p hp => ?_, ?_⟩
  · rw [href]
    exact h.held_lt t (hmoved.held t ht)
  · have htn : t ≠ n := by
      rintro rfl
      exact hnt hn
    have htc : t ≠ c' := by
      rintro rfl
      exact hgone ht
    have hw := h.waits t (hmoved.held t ht) (by rw [hc]; simpa using htc.symm)
    exact (List.mem_erase_of_ne (by simpa using htn)).2 hw
  · obtain ⟨t, rfl, h1, h2, h3, h4⟩ := h.first i (List.mem_of_mem_erase hi)
    have htn : t ≠ n := by
      rintro rfl
      exact (List.Nodup.not_mem_erase hwnodup) hi
    refine ⟨t, rfl, by rw [href]; exact h1, h2, h3, fun hm => ?_⟩
    rcases List.mem_cons.1 hm with hm | hm
    · exact htn hm
    · exact h4 hm
  · rw [href]
    rcases List.mem_cons.1 ht with rfl | ht
    · exact htlt
    · exact h.arrived_lt t ht
  · rcases List.mem_cons.1 hp with rfl | hp
    · exact startsAt_first (L := L) hct (himage n (by rw [href]; exact htlt)) hrip hrsp hfits hsize
    · exact h.arrived p hp
  · exact List.nodup_cons.2 ⟨hnew, h.nodup⟩

theorem spawn (h : NodeInv L trampoline s) {entry stack : Nat}
    (hs : s.kernel.step (.exec (.loaded entry stack)) = some (r, k))
    (hroom : Room L s.kernel.nextRef (s.running ++ s.waiting)) :
    NodeInv L trampoline { s with
      kernel := k
      machine := newTask s.machine (L.context (.task s.kernel.nextRef)) (TaskLayout.top L s.kernel.nextRef) trampoline
      waiting := .task s.kernel.nextRef :: s.waiting
      frame := Function.update s.frame (.task s.kernel.nextRef) (firstFrame L trampoline s.kernel.nextRef)
      image := Function.update s.image s.kernel.nextRef (entry, stack) } := by
  obtain ⟨c, hc, hrun, hcarr⟩ := h.running
  obtain ⟨hinv, href, hcur, hheld, himage⟩ := Kernel.step_loaded h.sched h.held_lt hc hs
  obtain ⟨htop, hinside, -⟩ := top_spec hroom.fits hroom.size
  have hwaitlt : .task s.kernel.nextRef ∉ s.waiting := by
    intro hm
    obtain ⟨t, ht, hlt, -⟩ := h.first _ hm
    rw [← Thread.task.inj ht] at hlt
    exact Nat.lt_irrefl _ hlt
  have hclt : c < s.kernel.nextRef := h.arrived_lt c hcarr
  have hfresh : .task s.kernel.nextRef ∉ .task c :: s.waiting := by
    rw [List.mem_cons, not_or]
    exact ⟨fun he => Nat.lt_irrefl _ (Thread.task.inj he ▸ hclt), hwaitlt⟩
  have hsep : ∀ j ∈ .task c :: s.waiting, L.Separate (.task s.kernel.nextRef) j := by
    intro j hj
    refine hroom.separate j ?_
    rw [Node.running, hc]
    exact hj
  refine ⟨hinv, fun t ht => ?_, ⟨c, hcur, hrun.create hroom.fits hfresh hsep htop hinside, hcarr⟩, fun t ht hne => ?_,
    fun i hi => ?_, fun t ht => ?_, fun t ht => ?_, fun p hp => ?_, h.nodup⟩
  · rw [href]
    rcases hheld t ht with rfl | ht
    · exact Nat.lt_succ_self _
    · exact Nat.lt_succ_of_lt (h.held_lt t ht)
  · rcases hheld t ht with rfl | ht
    · exact List.mem_cons_self
    · refine List.mem_cons_of_mem _ (h.waits t ht ?_)
      rw [hc]
      rwa [hcur] at hne
  · simp only [href]
    rcases List.mem_cons.1 hi with rfl | hi
    · refine ⟨_, rfl, Nat.lt_succ_self _, hroom.size, Function.update_self _ _ _, fun hm => ?_⟩
      exact Nat.lt_irrefl _ (h.arrived_lt _ hm)
    · obtain ⟨t, rfl, h1, h2, h3, h4⟩ := h.first i hi
      refine ⟨t, rfl, Nat.lt_succ_of_lt h1, h2, ?_, h4⟩
      rw [Function.update_of_ne (by simpa using h1.ne), h3]
  · show _ = Function.update s.image s.kernel.nextRef (entry, stack) t
    rw [himage t]
    have ht' : t < s.kernel.nextRef + 1 := href ▸ ht
    split
    · rename_i e
      rw [e, Function.update_self]
    · rename_i hne
      rw [Function.update_of_ne hne]
      exact h.image t (Nat.lt_of_le_of_ne (Nat.lt_succ_iff.1 ht') hne)
  · rw [href]
    exact Nat.lt_succ_of_lt (h.arrived_lt t ht)
  · have hlt := h.arrived_lt p.1 (List.mem_map_of_mem hp)
    show StartsAt trampoline (Function.update s.image s.kernel.nextRef (entry, stack) p.1) p.2
    rw [Function.update_of_ne hlt.ne]
    exact h.arrived p hp

end NodeInv

theorem NodeRun.inv {L : TaskLayout} {trampoline : BitVec 64} {s : Node} (h : NodeRun L trampoline s) :
    NodeInv L trampoline s := by
  induction h with
  | boot hb hnone hroom hm ha => exact NodeInv.boot hb hnone hroom hm ha
  | compute _ hm ih =>
    obtain ⟨c, hc, hrun, harr⟩ := ih.running
    exact { ih with running := ⟨c, hc, hrun.compute hm, harr⟩ }
  | stay _ _ he hsw hs ih => exact ih.stay he hsw hs
  | spawn _ _ hs hroom ih => exact ih.spawn hs hroom
  | switch _ _ hsw hs ha ih => exact ih.switch hsw hs ha

end Hammam
