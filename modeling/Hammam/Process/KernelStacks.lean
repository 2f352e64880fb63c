import Hammam.Lib.Extent
import Hammam.Sched.Exit
import Hammam.Process.Lifecycle

/-!
# The kernel stacks

`syscall_entry` switches to the stack of `SC_KERNEL_RSP` and the timer gate to that of IST1.  Both are globals:
`from_elf` moves `SC_KERNEL_RSP` when it creates a process, and no switch between tasks does.  An entry into the
kernel writes its frames downward from the top of its stack, and a switch inside it leaves them there until the task
is resumed.

Interrupts are masked during a system call, so entries do not nest, and an entry with everything that it does is one
step.  The only switches are those of exiting tasks, which do not come back: a later entry may write over their
frames, and no other task ever has suspended frames.
-/

namespace Hammam

open Extent

/-- An entry into the kernel.  `from_elf` sets the kernel stack before it can fail for want of memory, so a failed
`sys_exec` may have moved it; `frame` is the frame that it allocated for the stack. -/
inductive Entry where
  | yield
  | timer
  | exit (code : Int)
  | waitpid (pid flags : Nat)
  | execMissing (e : ExecError)
  | execInvalid (frame : Option Nat)
  | execLoaded (frame entry stack : Nat)
  /-- `sys_write` and the numbers without a call. -/
  | other
  deriving DecidableEq, Repr

/-- The kernel with the tops of its two stacks and the frames of the tasks that were switched out. -/
structure Stacks where
  kernel : Kernel
  scKernelRsp : Nat
  ist1 : Nat
  suspended : TaskRef → Option (Nat × Nat)

namespace Entry

def event : Entry → Option Event
  | .yield => some .yield
  | .timer => some .tick
  | .exit code => some (.exit code)
  | .waitpid pid flags => some (.waitpid pid flags)
  | .execMissing e => some (.exec (.missing e))
  | .execInvalid _ => some (.exec .invalid)
  | .execLoaded _ entry stack => some (.exec (.loaded entry stack))
  | .other => none

/-- The frame of the kernel stack that `from_elf` sets. -/
def stackFrame : Entry → Option Nat
  | .execInvalid frame => frame
  | .execLoaded frame _ _ => some frame
  | _ => none

/-- The tasks of the call of `switch_context`, if there is one. -/
def switch (k : Kernel) : Entry → Option (TaskRef × TaskRef)
  | .yield => k.sched.schedule.bind Prod.fst
  | .timer => k.sched.tickNow.bind Prod.fst
  | .exit _ => k.sched.exitCurrent.bind Prod.fst
  | _ => none

/-- The task that exits. -/
def exits (k : Kernel) : Entry → List TaskRef
  | .exit _ => k.sched.current.toList
  | _ => []

/-- The task that the entry creates. -/
def creates (k : Kernel) : Entry → List TaskRef
  | .execLoaded _ _ _ => [k.nextRef]
  | _ => []

end Entry

namespace Stacks

def top (s : Stacks) : Entry → Nat
  | .timer => s.ist1
  | _ => s.scKernelRsp

/-- The bytes that the entry writes when its frames are `depth` bytes deep. -/
def writes (s : Stacks) (e : Entry) (depth : Nat) : Nat × Nat := (s.top e - depth, depth)

/-- The kernel after the entry. -/
def kernelAfter (s : Stacks) (e : Entry) : Option Kernel :=
  match e.event with
  | none => some s.kernel
  | some ev => (s.kernel.step ev).map Prod.snd

/-- The outgoing task leaves its frames, the incoming one has its own back. -/
def suspendedAfter (s : Stacks) (e : Entry) (depth : Nat) : TaskRef → Option (Nat × Nat) :=
  match e.switch s.kernel with
  | none => s.suspended
  | some (c, n) => Function.update (Function.update s.suspended c (some (s.writes e depth))) n none

def step (s : Stacks) (e : Entry) (depth : Nat) : Option Stacks :=
  match s.kernelAfter e with
  | none => none
  | some k =>
    some ⟨k, (e.stackFrame.map (· + 0x1000)).getD s.scKernelRsp, s.ist1, s.suspendedAfter e depth⟩

end Stacks

theorem Stacks.suspendedAfter_none {s : Stacks} {e : Entry} {depth : Nat} (h : e.switch s.kernel = none) :
    s.suspendedAfter e depth = s.suspended := by
  rw [Stacks.suspendedAfter, h]

theorem Stacks.suspendedAfter_some {s : Stacks} {e : Entry} {depth : Nat} {c n : TaskRef}
    (h : e.switch s.kernel = some (c, n)) :
    s.suspendedAfter e depth = Function.update (Function.update s.suspended c (some (s.writes e depth))) n none := by
  rw [Stacks.suspendedAfter, h]

/-- The runs from boot on, with the tasks created and the tasks that have exited. -/
inductive StackRun : Stacks → List TaskRef → List TaskRef → Prop
  | boot {k : Kernel} {entry stack frame ist1 : Nat} : Kernel.boot entry stack = some k →
    StackRun ⟨k, frame + 0x1000, ist1, fun _ => none⟩ [0] []
  | step {s s' : Stacks} {created exited : List TaskRef} {e : Entry} {depth : Nat} : StackRun s created exited →
    s.kernel.halted = false → depth ≤ s.top e → s.step e depth = some s' →
    StackRun s' (e.creates s.kernel ++ created) (e.exits s.kernel ++ exited)

/-! ### The invariant -/

/-- Only tasks that have exited have left frames behind. -/
structure FrameInv (s : Stacks) (created exited : List TaskRef) : Prop where
  sched : ExitInv s.kernel.sched created exited
  created_lt : ∀ t ∈ created, t < s.kernel.nextRef
  live : s.kernel.halted = false → ∃ c, s.kernel.sched.current = some c ∧ (s.kernel.sched.tasks c).state ≠ .dead
  frames : ∀ t, t ∉ exited → s.suspended t = none

/-- A task that is neither held nor among those that have exited may be replaced. -/
theorem ExitInv.setTask {s : Scheduler} {added exited : List TaskRef} (h : ExitInv s added exited) {t : TaskRef}
    (ht : t ∉ added) {task : Task} (hv : task.vruntime ≤ u64Max) :
    ExitInv { s with tasks := Function.update s.tasks t task } added exited where
  inv := h.inv.setTask (fun hm => ht (h.held_added t hm)) task hv
  held_added := h.held_added
  exited_added := h.exited_added
  not_queued := h.not_queued
  marked := by
    intro u hu hc
    have hne : u ≠ t := by
      intro he
      subst he
      exact ht (h.exited_added u hu)
    simpa [Function.update_of_ne hne] using h.marked u hu hc

/-- `sys_waitpid` does not touch the tasks. -/
theorem sysWaitpid_frame (k : Kernel) (pid flags : Nat) :
    (k.sysWaitpid pid flags).2.sched = k.sched ∧ (k.sysWaitpid pid flags).2.nextRef = k.nextRef := by
  unfold Kernel.sysWaitpid
  simp only
  split
  · exact ⟨rfl, rfl⟩
  · split
    · exact ⟨rfl, rfl⟩
    · split
      · exact ⟨rfl, rfl⟩
      · exact ⟨rfl, rfl⟩

section Live

variable {s s' : Scheduler} {c : TaskRef} {r : Option (TaskRef × TaskRef)}

/-- A task that is alive is not switched out. -/
theorem SchedInv.scheduleLocked_stays (h : SchedInv s) (hc : s.current = some c) (hl : (s.tasks c).state ≠ .dead)
    (hs : s.scheduleLocked = some (r, s')) :
    r = none ∧ s'.current = some c ∧ (s'.tasks c).state = (s.tasks c).state := by
  rcases h.scheduleLocked_cases hs with ⟨hr, -, hcur, -, -, hst⟩ | ⟨d, k, n, hd, hdead, -⟩
  · exact ⟨hr, hcur.trans hc, hst c⟩
  · cases hd.symm.trans hc
    exact absurd hdead hl

theorem SchedInv.tick_stays (h : SchedInv s) (hc : s.current = some c) (hl : (s.tasks c).state ≠ .dead)
    (hs : s.tick = some (r, s')) : r = none ∧ s'.current = some c ∧ (s'.tasks c).state = (s.tasks c).state := by
  have hstate : ((s.charge c).tasks c).state = (s.tasks c).state := Scheduler.state_setVruntime s c c _
  rcases SchedOp.tick_cases hs with ⟨hn, -⟩ | ⟨d, hd, ⟨-, hsl⟩ | ⟨-, hr, rfl⟩⟩
  · rw [hc] at hn
    cases hn
  · cases hd.symm.trans hc
    obtain ⟨h1, h2, h3⟩ := ((h.charge hc).ticks 0).scheduleLocked_stays hc (by rwa [hstate]) hsl
    exact ⟨h1, h2, h3.trans hstate⟩
  · cases hd.symm.trans hc
    exact ⟨hr, hc, hstate⟩

end Live

namespace FrameInv

variable {s s' : Stacks} {created exited : List TaskRef} {depth : Nat}

theorem boot {k : Kernel} {entry stack rsp ist1 : Nat} (hb : Kernel.boot entry stack = some k) :
    FrameInv ⟨k, rsp, ist1, fun _ => none⟩ [0] [] := by
  have hlife := LifeInv.boot hb
  cases hb
  refine ⟨⟨hlife.sched, fun t ht => ?_, ?_, ?_, ?_⟩, ?_, fun _ => ⟨0, rfl, fun hd => ?_⟩, fun _ _ => rfl⟩
  · have hlt : t < 1 := hlife.held_lt t ht
    rw [Nat.lt_one_iff.1 hlt]
    exact List.mem_singleton_self 0
  · intro t ht
    cases ht
  · intro t ht
    cases ht
  · intro t ht
    cases ht
  · intro t ht
    rw [List.mem_singleton.1 ht]
    exact Nat.zero_lt_one
  · cases (show TaskState.ready = .dead from hd)

/-- An entry that leaves the current task, and the frames, where they are. -/
private theorem stay (h : FrameInv s created exited) {k : Kernel} {rsp : Nat} (hi : ExitInv k.sched created exited)
    (hn : k.nextRef = s.kernel.nextRef) (hlive : ∃ c, k.sched.current = some c ∧ (k.sched.tasks c).state ≠ .dead) :
    FrameInv ⟨k, rsp, s.ist1, s.suspended⟩ created exited :=
  ⟨hi, fun t ht => hn ▸ h.created_lt t ht, fun _ => hlive, h.frames⟩

private theorem exec (h : FrameInv s created exited) (hh : s.kernel.halted = false) {k : Kernel} {r : Int}
    {rsp entry stack : Nat} (hs : s.kernel.sysExec (.loaded entry stack) = some (r, k)) :
    FrameInv ⟨k, rsp, s.ist1, s.suspended⟩ (s.kernel.nextRef :: created) exited := by
  have hfresh : s.kernel.nextRef ∉ created := fun hm => absurd (h.created_lt _ hm) (Nat.lt_irrefl _)
  obtain ⟨c, hc, hl⟩ := h.live hh
  have hcreated : c ∈ created :=
    h.sched.held_added c (List.mem_append_left _ (by rw [hc]; exact List.mem_singleton_self c))
  have hne : c ≠ s.kernel.nextRef := fun he => hfresh (he ▸ hcreated)
  simp only [Kernel.sysExec, Kernel.spawn] at hs
  split at hs
  · cases hs
  · rename_i p k₁ hsp
    split at hsp
    · cases hsp
    · rename_i sched hadd
      cases hsp
      cases hs
      have hset := h.sched.setTask hfresh
        (show { Task.new s.kernel.nextPid 1 with userEntry := entry, userStack := stack }.vruntime ≤ u64Max from
          Nat.zero_le _)
      obtain ⟨hst, -, -⟩ := ExitInv.addTask_frame hset.inv hadd
      have hcur : sched.current = some c := by
        obtain ⟨key, -, -, -, rfl⟩ := hset.inv.addTask_some hc hadd
        exact hc
      refine ⟨hset.addTask hfresh hadd, fun t ht => ?_, fun _ => ⟨c, hcur, ?_⟩, h.frames⟩
      · rcases List.mem_cons.1 ht with rfl | ht
        · exact Nat.lt_succ_self _
        · exact Nat.lt_succ_of_lt (h.created_lt t ht)
      · have hstate := hst c
        simp only [Function.update_of_ne hne] at hstate
        rwa [show (sched.tasks c).state = (s.kernel.sched.tasks c).state from hstate]

/-- The frames that an exiting task leaves are those of a task that has exited. -/
private theorem exit (h : FrameInv s created exited) (hh : s.kernel.halted = false) {k : Kernel} {code r : Int}
    (hs : s.kernel.sysExit code = some (r, k)) :
    FrameInv ⟨k, s.scKernelRsp, s.ist1, s.suspendedAfter (.exit code) depth⟩ created
      (s.kernel.sched.current.toList ++ exited) := by
  obtain ⟨c, hc, -⟩ := h.live hh
  unfold Kernel.sysExit at hs
  split at hs
  · cases hs
  · rename_i pair sched he
    cases hs
    have hswitch : Entry.switch s.kernel (.exit code) = pair := by
      rw [Entry.switch, he, Option.bind_some]
    have hkill : s.kernel.sched.killCurrent.current = some c := by
      rw [Scheduler.killCurrent, hc]
      exact hc
    refine ⟨h.sched.killCurrent.scheduleLocked he, h.created_lt, ?_, ?_⟩
    · intro hnot
      rcases h.sched.killCurrent.inv.scheduleLocked_cases he with ⟨rfl, -⟩ | ⟨d, q, n, -, -, -, hne, rfl, rfl⟩
      · cases hnot
      · refine ⟨n, rfl, ?_⟩
        rw [Scheduler.state_switched _ hne, if_neg hne.symm, if_pos rfl]
        simp
    · intro t ht
      rw [hc] at ht
      simp only [Option.toList_some, List.singleton_append, List.mem_cons, not_or] at ht
      rcases h.sched.killCurrent.inv.scheduleLocked_cases he with ⟨rfl, -⟩ | ⟨d, q, n, hd, -, -, -, rfl, -⟩
      · simp only [Stacks.suspendedAfter_none hswitch]
        exact h.frames t ht.2
      · cases hd.symm.trans hkill
        simp only [Stacks.suspendedAfter_some hswitch]
        by_cases htn : t = n
        · simp [htn]
        · simp [htn, ht.1, h.frames t ht.2]

/-- One entry into the kernel. -/
theorem step (h : FrameInv s created exited) (hh : s.kernel.halted = false) {e : Entry}
    (hs : s.step e depth = some s') : FrameInv s' (e.creates s.kernel ++ created) (e.exits s.kernel ++ exited) := by
  obtain ⟨c, hc, hl⟩ := h.live hh
  unfold Stacks.step at hs
  split at hs
  · cases hs
  · rename_i k hk
    cases hs
    cases e with
    | yield =>
      simp only [Stacks.kernelAfter, Entry.event, Kernel.step, Kernel.sysYield, Option.map_eq_some_iff] at hk
      obtain ⟨rk, hk, rfl⟩ := hk
      split at hk
      · cases hk
      · rename_i pair sched hsch
        cases hk
        obtain ⟨hr, hcur, hst⟩ := h.sched.inv.scheduleLocked_stays hc hl hsch
        have hswitch : Entry.switch s.kernel .yield = none := by rw [Entry.switch, hsch, Option.bind_some, hr]
        rw [Stacks.suspendedAfter_none hswitch]
        exact h.stay (h.sched.scheduleLocked hsch) rfl ⟨c, hcur, by rwa [hst]⟩
    | timer =>
      simp only [Stacks.kernelAfter, Entry.event, Kernel.step, Kernel.timer, Option.map_eq_some_iff] at hk
      obtain ⟨rk, hk, rfl⟩ := hk
      have htick : s.kernel.sched.tickNow = s.kernel.sched.tick := by
        rw [Scheduler.tickNow, Scheduler.tick, hc]
      split at hk
      · cases hk
      · rename_i pair sched hsch
        cases hk
        have hswitch : Entry.switch s.kernel .timer = pair := by rw [Entry.switch, hsch, Option.bind_some]
        rw [htick] at hsch
        obtain ⟨rfl, hcur, hst⟩ := h.sched.inv.tick_stays hc hl hsch
        have hop : SchedOp.apply s.kernel.sched .tick = some (none, sched) := hsch
        rw [Stacks.suspendedAfter_none hswitch]
        exact h.stay (SchedOp.exitInv h.sched (by simp [SchedOp.adds]) hop) rfl ⟨c, hcur, by rwa [hst]⟩
    | exit code =>
      simp only [Stacks.kernelAfter, Entry.event, Kernel.step, Option.map_eq_some_iff] at hk
      obtain ⟨⟨r, k'⟩, hk, rfl⟩ := hk
      exact h.exit hh hk
    | waitpid pid flags =>
      simp only [Stacks.kernelAfter, Entry.event, Kernel.step, Option.map_some, Option.some.injEq] at hk
      subst hk
      have hsched := sysWaitpid_frame s.kernel pid flags
      exact h.stay (hsched.1 ▸ h.sched) hsched.2 ⟨c, by rw [hsched.1]; exact hc, by rw [hsched.1]; exact hl⟩
    | execMissing e =>
      cases hk
      exact h.stay h.sched rfl ⟨c, hc, hl⟩
    | execInvalid frame =>
      cases hk
      exact h.stay h.sched rfl ⟨c, hc, hl⟩
    | execLoaded frame entry stack =>
      simp only [Stacks.kernelAfter, Entry.event, Kernel.step, Option.map_eq_some_iff] at hk
      obtain ⟨⟨r, k'⟩, hk, rfl⟩ := hk
      exact h.exec hh hk
    | other =>
      cases hk
      exact h.stay h.sched rfl ⟨c, hc, hl⟩

end FrameInv

theorem StackRun.frameInv {s : Stacks} {created exited : List TaskRef} (h : StackRun s created exited) :
    FrameInv s created exited := by
  induction h with
  | boot hb => exact FrameInv.boot hb
  | step _ hh _ hs ih => exact ih.step hh hs

/-- Only an exiting task is switched out. -/
theorem FrameInv.switch_exits {s : Stacks} {created exited : List TaskRef} (h : FrameInv s created exited)
    (hh : s.kernel.halted = false) {e : Entry} {c n : TaskRef} (hsw : e.switch s.kernel = some (c, n)) :
    c ∈ e.exits s.kernel := by
  obtain ⟨d, hd, hl⟩ := h.live hh
  cases e with
  | yield =>
    obtain ⟨⟨pair, sched⟩, hsch, rfl⟩ := Option.bind_eq_some_iff.1 hsw
    cases (h.sched.inv.scheduleLocked_stays hd hl hsch).1
  | timer =>
    obtain ⟨⟨pair, sched⟩, hsch, rfl⟩ := Option.bind_eq_some_iff.1 hsw
    have htick : s.kernel.sched.tick = some (some (c, n), sched) := by
      rw [Scheduler.tickNow, hd] at hsch
      rw [Scheduler.tick, hd]
      exact hsch
    cases (h.sched.inv.tick_stays hd hl htick).1
  | exit code =>
    obtain ⟨⟨pair, sched⟩, hsch, rfl⟩ := Option.bind_eq_some_iff.1 hsw
    have hkill : s.kernel.sched.killCurrent.current = s.kernel.sched.current := by
      rw [Scheduler.killCurrent, hd]
      exact hd
    rcases h.sched.killCurrent.inv.scheduleLocked_cases hsch with ⟨hr, -⟩ | ⟨d', k, n', hd', -, -, -, hr, -⟩
    · cases hr
    · cases hr
      rw [Entry.exits, ← hkill, hd']
      exact List.mem_singleton_self c
  | _ => cases hsw

/-- A task that has exited is not resumed. -/
theorem FrameInv.switch_continues {s : Stacks} {created exited : List TaskRef} (h : FrameInv s created exited)
    (hh : s.kernel.halted = false) {e : Entry} {c n : TaskRef} (hsw : e.switch s.kernel = some (c, n)) :
    n ∉ exited := by
  obtain ⟨d, hd, -⟩ := h.live hh
  cases e with
  | yield =>
    obtain ⟨⟨pair, sched⟩, hsch, rfl⟩ := Option.bind_eq_some_iff.1 hsw
    exact h.sched.target hsch
  | timer =>
    obtain ⟨⟨pair, sched⟩, hsch, rfl⟩ := Option.bind_eq_some_iff.1 hsw
    have hop : SchedOp.apply s.kernel.sched .tick = some (some (c, n), sched) := by
      rw [Scheduler.tickNow, hd] at hsch
      rw [SchedOp.apply, Scheduler.tick, hd]
      exact hsch
    exact SchedOp.target_not_exited h.sched hop
  | exit code =>
    obtain ⟨⟨pair, sched⟩, hsch, rfl⟩ := Option.bind_eq_some_iff.1 hsw
    have hop : SchedOp.apply s.kernel.sched .exit = some (some (c, n), sched) := hsch
    exact SchedOp.target_not_exited h.sched hop
  | _ => cases hsw

/-- In every state of every run no task that has not exited has suspended frames: the only task that an entry switches
out is the one that exits in it.  And a task that has exited is not resumed. -/
theorem suspended_frames_exited {s : Stacks} {created exited : List TaskRef} (h : StackRun s created exited) :
    (∀ t, t ∉ exited → s.suspended t = none) ∧
      (s.kernel.halted = false → ∀ e c n, Entry.switch s.kernel e = some (c, n) →
        c ∈ e.exits s.kernel ∧ n ∉ exited) := by
  have hi := h.frameInv
  exact ⟨hi.frames, fun hh e c n hsw => ⟨hi.switch_exits hh hsw, hi.switch_continues hh hsw⟩⟩

/-- The first process starts another one and exits. -/
private theorem exit_run : ∃ s s', StackRun s [1, 0] [] ∧ s.kernel.halted = false ∧
    Entry.switch s.kernel (.exit 0) = some (0, 1) ∧ s.step (.exit 0) 0x200 = some s' ∧ StackRun s' [1, 0] [0] ∧
    s'.kernel.halted = false ∧ s'.kernel.sched.current = some 1 ∧ s'.suspended 0 = some (0x5e00, 0x200) ∧
    s'.scKernelRsp = 0x6000 := by
  have h₀ : StackRun ⟨_, 0x9000 + 0x1000, 0x22000, _⟩ [0] [] := .boot
    (show Kernel.boot 0x400000 0x8010000 = some _ from rfl)
  have h₁ : StackRun _ [1, 0] [] := .step (e := .execLoaded 0x5000 0x400000 0x8010000) h₀ rfl
    (show 0x200 ≤ _ by decide) rfl
  have h₂ : StackRun _ [1, 0] [0] := .step (e := .exit 0) h₁ rfl (show 0x200 ≤ _ by decide) rfl
  exact ⟨_, _, h₁, rfl, rfl, rfl, h₂, rfl, rfl, rfl, rfl⟩

/-- The theorem at that run, before and after the exit. -/
theorem suspended_frames_exited_exit : ∃ s s', StackRun s [1, 0] [] ∧
    Entry.switch s.kernel (.exit 0) = some (0, 1) ∧ 0 ∈ Entry.exits s.kernel (.exit 0) ∧ 1 ∉ ([] : List TaskRef) ∧
    s.step (.exit 0) 0x200 = some s' ∧ s'.suspended 0 = some (0x5e00, 0x200) ∧ s'.suspended 1 = none := by
  obtain ⟨s, s', hrun, hh, hsw, hstep, hrun', -, -, hsusp, -⟩ := exit_run
  obtain ⟨hout, hin⟩ := (suspended_frames_exited hrun).2 hh _ 0 1 hsw
  exact ⟨s, s', hrun, hsw, hout, hin, hstep, hsusp, (suspended_frames_exited hrun').1 1 (by decide)⟩

/-- The first system call of the second process overwrites the frames in which the first one called `exit_current`. -/
theorem exited_frames_overwritten : ∃ s t r, StackRun s [1, 0] [0] ∧ s.kernel.halted = false ∧
    s.kernel.sched.current ≠ some t ∧ s.suspended t = some r ∧ ¬ Apart (s.writes .yield 0x100) r := by
  obtain ⟨-, s, -, -, -, -, hrun, hh, hcur, hsusp, hrsp⟩ := exit_run
  have htop : s.top .yield = 0x6000 := hrsp
  refine ⟨s, 0, _, hrun, hh, by simp [hcur], hsusp, ?_⟩
  rw [Stacks.writes, htop]
  decide

end Hammam
