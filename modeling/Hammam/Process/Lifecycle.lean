import Hammam.Sched.Conservation

/-!
# The life of a process (`process/mod.rs`, `arch/x86_64/syscall.rs`)

The kernel as the process calls see it: the scheduler, `PROCESS_TABLE`, `CURRENT_PROCESS` and `NEXT_PID`.  A call is
made by the process that owns the current task of the scheduler, but `sys_exit` asks `CURRENT_PROCESS` who that is,
and `CURRENT_PROCESS` is set at boot and never again.  The lifecycle is therefore the intended one only in runs in
which no process but the first one exits (`Orderly`).
-/

namespace Hammam

/-- The fields of `Process` that the calls read.  The exit status is shared through the table: `CURRENT_PROCESS` is
only asked for the fields that do not change. -/
structure Process where
  pid : Nat
  mainTask : TaskRef
  entryPoint : Nat
  userStackTop : Nat
  exitCode : Int
  isZombie : Bool
  deriving DecidableEq, Repr

structure Kernel where
  sched : Scheduler
  table : SortedMap Nat Process
  currentProcess : Option Process
  nextPid : Nat
  /-- The next unused reference. -/
  nextRef : TaskRef
  /-- The processor has stopped in `exit_current`. -/
  halted : Bool

/-- Why `sys_exec` gives up before it takes a pid. -/
inductive ExecError where
  | badAddress
  | badUtf8
  | notFound
  | badFile
  deriving DecidableEq, Repr

def ExecError.errno : ExecError → Int
  | .badAddress => -14
  | .badUtf8 => -22
  | .notFound => -2
  | .badFile => -5

/-- What `sys_exec` finds: no file, a file that `from_elf` rejects, or an image with its entry point and stack. -/
inductive Image where
  | missing (e : ExecError)
  | invalid
  | loaded (entry stack : Nat)
  deriving DecidableEq, Repr

inductive Event where
  | yield
  | tick
  | exec (image : Image)
  | exit (code : Int)
  | waitpid (pid flags : Nat)
  deriving DecidableEq, Repr

namespace Kernel

/-- `next_pid` wraps around like any `AtomicU32`. -/
def nextPidAfter (s : Kernel) : Nat := (s.nextPid + 1) % 2 ^ 32

/-- The end of `Process::from_elf` and the setup of the task for its first switch. -/
def spawn (s : Kernel) (pid entry stack : Nat) : Option (Process × Kernel) :=
  let task := { Task.new pid 1 with userEntry := entry, userStack := stack }
  let sched := { s.sched with tasks := Function.update s.sched.tasks s.nextRef task }
  match sched.addTask s.nextRef with
  | none => none
  | some sched =>
    let p : Process := ⟨pid, s.nextRef, entry, stack, 0, false⟩
    some (p, { s with sched := sched, table := s.table.insert pid p, nextRef := s.nextRef + 1 })

def sysExec (s : Kernel) : Image → Option (Int × Kernel)
  | .missing e => some (e.errno, s)
  | .invalid => some (-12, { s with nextPid := s.nextPidAfter })
  | .loaded entry stack =>
    match { s with nextPid := s.nextPidAfter }.spawn s.nextPid entry stack with
    | none => none
    | some (p, s') => some (p.pid, s')

def sysYield (s : Kernel) : Option (Int × Kernel) :=
  match s.sched.schedule with
  | none => none
  | some (_, sched) => some (0, { s with sched := sched })

/-- The timer interrupt. -/
def timer (s : Kernel) : Option (Int × Kernel) :=
  match s.sched.tickNow with
  | none => none
  | some (_, sched) => some (0, { s with sched := sched })

/-- The exit status goes to the process of `CURRENT_PROCESS`, if that is still in the table. -/
def storeExit (s : Kernel) (code : Int) : SortedMap Nat Process :=
  match s.currentProcess with
  | none => s.table
  | some proc =>
    match s.table.get? proc.pid with
    | none => s.table
    | some p => s.table.insert proc.pid { p with exitCode := code, isZombie := true }

/-- The call does not return; without a task to switch to the processor stops. -/
def sysExit (s : Kernel) (code : Int) : Option (Int × Kernel) :=
  match s.sched.exitCurrent with
  | none => none
  | some (pair, sched) => some (0, { s with table := s.storeExit code, sched := sched, halted := pair.isNone })

def sysWaitpid (s : Kernel) (pid flags : Nat) : Int × Kernel :=
  let wnohang := flags % 2 = 1
  let pid := pid % 2 ^ 32
  match s.table.get? pid with
  | none => (-10, s)
  | some p =>
    if p.isZombie then (p.exitCode, { s with table := s.table.erase pid })
    else if wnohang then (0, s)
    else (-11, s)

/-- An event in a running kernel: the value that the call returns and the state after it. -/
def step (s : Kernel) : Event → Option (Int × Kernel)
  | .yield => s.sysYield
  | .tick => s.timer
  | .exec image => s.sysExec image
  | .exit code => s.sysExit code
  | .waitpid pid flags => some (s.sysWaitpid pid flags)

/-- The kernel before the first process. -/
def empty : Kernel := ⟨Scheduler.new fun _ => Task.new 0 1, .empty, none, 2, 0, false⟩

/-- The end of `_start_multiboot2`: the first process gets pid 1, and `start_scheduler` switches to it. -/
def boot (entry stack : Nat) : Option Kernel :=
  match empty.spawn 1 entry stack with
  | none => none
  | some (p, s) => some { s with currentProcess := some p, sched := { s.sched with currentTask := s.sched.current } }

/-- The task that calls `sys_exit`, with its code. -/
def exitsBy (s : Kernel) : Event → List (TaskRef × Int)
  | .exit code => s.sched.current.toList.map (·, code)
  | _ => []

/-- The pid whose exit code `sys_waitpid` hands out. -/
def reapsBy (s : Kernel) : Event → List Nat
  | .waitpid pid _ =>
    match s.table.get? (pid % 2 ^ 32) with
    | none => []
    | some p => if p.isZombie then [pid % 2 ^ 32] else []
  | _ => []

end Kernel

/-- The runs of the kernel, with the exits and the pids reaped so far; every event meets `P` in the state in which it
happens. -/
inductive KernelRun (P : Event → Kernel → Prop) : Kernel → List (TaskRef × Int) → List Nat → Prop
  | boot {s : Kernel} {entry stack : Nat} : Kernel.boot entry stack = some s → KernelRun P s [] []
  | step {s s' : Kernel} {exits : List (TaskRef × Int)} {reaped : List Nat} {e : Event} {r : Int} :
    KernelRun P s exits reaped → s.halted = false → P e s → s.step e = some (r, s') →
    KernelRun P s' (s.exitsBy e ++ exits) (s.reapsBy e ++ reaped)

/-- The process that exits is the one of `CURRENT_PROCESS`, and `NEXT_PID` has not wrapped around. -/
def Orderly : Event → Kernel → Prop
  | .exit _, s => ∃ p, s.currentProcess = some p ∧ s.sched.current = some p.mainTask
  | .exec _, s => 2 ≤ s.nextPid
  | _, _ => True

/-- The exit status of `p` is what its main task passed to `sys_exit`. -/
def StatusOf (p : Process) (exits : List (TaskRef × Int)) : Prop :=
  (p.isZombie = true ↔ ∃ code, (p.mainTask, code) ∈ exits) ∧ ∀ code, (p.mainTask, code) ∈ exits → p.exitCode = code

/-- The invariant of orderly runs: only the first process can have exited, and its task does not run again. -/
structure LifeInv (s : Kernel) (exits : List (TaskRef × Int)) (reaped : List Nat) : Prop where
  sched : SchedInv s.sched
  held_lt : ∀ t ∈ s.sched.held, t < s.nextRef
  ref_pos : 0 < s.nextRef
  current : ∃ p, s.currentProcess = some p ∧ p.pid = 1 ∧ p.mainTask = 0
  first : ∀ {pid p}, s.table.get? pid = some p → (p.mainTask = 0 ↔ pid = 1)
  pid_lt : s.nextPid < 2 ^ 32
  used : 2 ≤ s.nextPid → (∀ {pid p}, s.table.get? pid = some p → pid < s.nextPid) ∧ ∀ pid ∈ reaped, pid < s.nextPid
  gone : ∀ pid ∈ reaped, s.table.get? pid = none
  nodup : reaped.Nodup
  exited : exits = [] ∨ ∃ code, exits = [(0, code)] ∧ (s.halted = true ∨ 0 ∉ s.sched.held)
  status : ∀ {pid p}, s.table.get? pid = some p → StatusOf p exits

namespace LifeInv

variable {s s' : Kernel} {exits : List (TaskRef × Int)} {reaped : List Nat}

/-- Only the tasks of the scheduler change, and no task comes in. -/
theorem reschedule (h : LifeInv s exits reaped) {sched : Scheduler} (hi : SchedInv sched)
    (hsub : ∀ t ∈ sched.held, t ∈ s.sched.held) : LifeInv { s with sched := sched } exits reaped :=
  { h with
    sched := hi
    held_lt := fun t ht => h.held_lt t (hsub t ht)
    exited := by
      rcases h.exited with h1 | ⟨code, h1, h2⟩
      · exact Or.inl h1
      · exact Or.inr ⟨code, h1, h2.imp_right fun h0 hm => h0 (hsub 0 hm)⟩ }

theorem takePid (h : LifeInv s exits reaped) (hp : 2 ≤ s.nextPid) :
    LifeInv { s with nextPid := s.nextPidAfter } exits reaped :=
  { h with
    pid_lt := Nat.mod_lt _ (by decide)
    used := by
      intro h2
      obtain ⟨h3, h4⟩ := h.used hp
      have hlt := h.pid_lt
      have e : s.nextPidAfter = s.nextPid + 1 := by
        simp only [Kernel.nextPidAfter] at h2 ⊢
        omega
      simp only [e]
      exact ⟨fun hk => Nat.lt_succ_of_lt (h3 hk), fun pid hk => Nat.lt_succ_of_lt (h4 pid hk)⟩ }

/-- A new process under a pid that was not used before. -/
theorem spawn (h : LifeInv s exits reaped) {pid entry stack : Nat} {p : Process} (hpid : pid ≠ 1)
    (hused : 2 ≤ s.nextPid → pid < s.nextPid) (hgone : pid ∉ reaped) (hs : s.spawn pid entry stack = some (p, s')) :
    LifeInv s' exits reaped := by
  have hfresh : s.nextRef ∉ s.sched.held := fun hm => absurd (h.held_lt _ hm) (Nat.lt_irrefl _)
  have hne : s.nextRef ≠ 0 := h.ref_pos.ne'
  simp only [Kernel.spawn] at hs
  split at hs
  · cases hs
  · rename_i sched hadd
    cases hs
    have hi := h.sched.setTask hfresh { Task.new pid 1 with userEntry := entry, userStack := stack } (Nat.zero_le _)
    have hheld : ∀ t ∈ sched.held, t = s.nextRef ∨ t ∈ s.sched.held := fun t ht =>
      List.mem_cons.1 ((hi.held_addTask hadd).mem_iff.1 ht)
    have hnew : ∀ code, (s.nextRef, code) ∉ exits := by
      intro code hm
      rcases h.exited with h1 | ⟨code', h1, -⟩
      · rw [h1] at hm
        cases hm
      · rw [h1, List.mem_singleton] at hm
        exact hne (congrArg Prod.fst hm)
    refine ⟨hi.addTask hfresh hadd, ?_, Nat.succ_pos _, h.current, ?_, h.pid_lt, ?_, ?_, h.nodup, ?_, ?_⟩
    · intro t ht
      rcases hheld t ht with rfl | hm
      · exact Nat.lt_succ_self _
      · exact Nat.lt_succ_of_lt (h.held_lt t hm)
    · intro pid' q hk
      rcases SortedMap.get?_of_insert hk with ⟨rfl, rfl⟩ | hk
      · exact iff_of_false hne hpid
      · exact h.first hk
    · intro h2
      refine ⟨fun hk => ?_, (h.used h2).2⟩
      rcases SortedMap.get?_of_insert hk with ⟨rfl, -⟩ | hk
      · exact hused h2
      · exact (h.used h2).1 hk
    · intro pid' hm
      have hne' : pid' ≠ pid := by
        intro he
        subst he
        exact hgone hm
      show (s.table.insert _ _).get? pid' = none
      rw [SortedMap.get?_insert, if_neg hne']
      exact h.gone pid' hm
    · rcases h.exited with h1 | ⟨code, h1, h2⟩
      · exact Or.inl h1
      · refine Or.inr ⟨code, h1, h2.imp_right fun h0 hm => ?_⟩
        rcases hheld 0 hm with e | hm
        · exact hne e.symm
        · exact h0 hm
    · intro pid' q hk
      rcases SortedMap.get?_of_insert hk with ⟨-, rfl⟩ | hk
      · exact ⟨iff_of_false (by simp) fun ⟨code, hm⟩ => hnew code hm, fun code hm => absurd hm (hnew code)⟩
      · exact h.status hk

/-- The first process is in the table with its exit status, and no other process changes. -/
theorem get?_storeExit (h : LifeInv s exits reaped) {code : Int} {pid : Nat} {q : Process}
    (hq : (s.storeExit code).get? pid = some q) :
    (q.mainTask = 0 ∧ q.isZombie = true ∧ q.exitCode = code ∧ ∃ p, s.table.get? pid = some p ∧ p.mainTask = 0) ∨
      (q.mainTask ≠ 0 ∧ s.table.get? pid = some q) := by
  obtain ⟨proc, hcur, hpid, -⟩ := h.current
  simp only [Kernel.storeExit, hcur, hpid] at hq
  split at hq
  · rename_i hnone
    refine Or.inr ⟨fun h0 => ?_, hq⟩
    rw [(h.first hq).1 h0, hnone] at hq
    cases hq
  · rename_i p hp
    rw [SortedMap.get?_insert] at hq
    split at hq
    · rename_i e
      cases hq
      have h0 : p.mainTask = 0 := (h.first hp).2 rfl
      exact Or.inl ⟨h0, rfl, rfl, p, e ▸ hp, h0⟩
    · rename_i e
      exact Or.inr ⟨fun h0 => e ((h.first hq).1 h0), hq⟩

theorem exit (h : LifeInv s exits reaped) (hh : s.halted = false) {code r : Int} (ho : Orderly (.exit code) s)
    (hs : s.sysExit code = some (r, s')) : LifeInv s' (s.exitsBy (.exit code) ++ exits) reaped := by
  obtain ⟨proc, hcur, hrun⟩ := ho
  obtain ⟨proc', hcur', -, hmain⟩ := h.current
  have e : proc' = proc := Option.some.inj (hcur'.symm.trans hcur)
  subst e
  rw [hmain] at hrun
  have hnone : exits = [] := by
    rcases h.exited with h1 | ⟨_, -, h2⟩
    · exact h1
    · rw [hh] at h2
      exact absurd (List.mem_append_left _ (by simp [hrun])) (h2.resolve_left (by simp))
  have hexits : s.exitsBy (.exit code) ++ exits = [(0, code)] := by
    simp [Kernel.exitsBy, hrun, hnone]
  rw [hexits]
  unfold Kernel.sysExit at hs
  split at hs
  · cases hs
  · rename_i pair sched he
    cases hs
    obtain ⟨hi, hsub, hdrop⟩ := h.sched.exitCurrent hrun he
    have hold : ∀ {pid q}, (s.storeExit code).get? pid = some q → ∃ p, s.table.get? pid = some p := by
      intro pid q hq
      rcases h.get?_storeExit hq with ⟨-, -, -, p, hp, -⟩ | ⟨-, hp⟩
      · exact ⟨p, hp⟩
      · exact ⟨q, hp⟩
    refine ⟨hi, fun t ht => h.held_lt t (hsub t ht), h.ref_pos, h.current, ?_, h.pid_lt, ?_, ?_, h.nodup, ?_, ?_⟩
    · intro pid q hq
      rcases h.get?_storeExit hq with ⟨h0, -, -, p, hp, hp0⟩ | ⟨-, hp⟩
      · exact iff_of_true h0 ((h.first hp).1 hp0)
      · exact h.first hp
    · intro h2
      refine ⟨fun hq => ?_, (h.used h2).2⟩
      obtain ⟨p, hp⟩ := hold hq
      exact (h.used h2).1 hp
    · intro pid hm
      refine Option.eq_none_iff_forall_ne_some.2 fun q hq => ?_
      obtain ⟨p, hp⟩ := hold hq
      rw [h.gone pid hm] at hp
      cases hp
    · exact Or.inr ⟨code, rfl, hdrop.imp_left fun hp => by rw [hp]; rfl⟩
    · intro pid q hq
      rcases h.get?_storeExit hq with ⟨h0, hz, hc, -⟩ | ⟨h0, hp⟩
      · refine ⟨iff_of_true hz ⟨code, by simp [h0]⟩, fun code' hm => ?_⟩
        simp only [h0, List.mem_singleton, Prod.mk.injEq, true_and] at hm
        rw [hc, hm]
      · have hst := h.status hp
        rw [hnone] at hst
        refine ⟨iff_of_false (fun hz => ?_) fun ⟨code', hm⟩ => ?_, fun code' hm => ?_⟩
        · obtain ⟨_, hm⟩ := hst.1.1 hz
          cases hm
        · exact h0 (congrArg Prod.fst (List.mem_singleton.1 hm))
        · exact absurd (congrArg Prod.fst (List.mem_singleton.1 hm)) h0

theorem waitpid (h : LifeInv s exits reaped) (pid flags : Nat) :
    LifeInv (s.sysWaitpid pid flags).2 exits (s.reapsBy (.waitpid pid flags) ++ reaped) := by
  simp only [Kernel.sysWaitpid, Kernel.reapsBy]
  cases hp : s.table.get? (pid % 2 ^ 32) with
  | none => exact h
  | some p =>
    by_cases hz : p.isZombie = true
    · simp only [hz, if_true, List.singleton_append]
      have hget : ∀ {pid' q}, (s.table.erase (pid % 2 ^ 32)).get? pid' = some q → s.table.get? pid' = some q :=
        fun hq => (SortedMap.get?_of_erase hq).2
      refine ⟨h.sched, h.held_lt, h.ref_pos, h.current, fun hq => h.first (hget hq), h.pid_lt, fun h2 => ?_, ?_, ?_,
        h.exited, fun hq => h.status (hget hq)⟩
      · refine ⟨fun hq => (h.used h2).1 (hget hq), fun pid' hm => ?_⟩
        rcases List.mem_cons.1 hm with rfl | hm
        · exact (h.used h2).1 hp
        · exact (h.used h2).2 pid' hm
      · intro pid' hm
        show (s.table.erase _).get? pid' = none
        rw [SortedMap.get?_erase]
        split
        · rfl
        · rename_i hne
          exact h.gone pid' ((List.mem_cons.1 hm).resolve_left hne)
      · refine List.nodup_cons.2 ⟨fun hm => ?_, h.nodup⟩
        rw [h.gone _ hm] at hp
        cases hp
    · simp only [hz, Bool.false_eq_true, if_false, List.nil_append]
      split <;> exact h

theorem boot {entry stack : Nat} (hb : Kernel.boot entry stack = some s) : LifeInv s [] [] := by
  cases hb
  have hget :
    ∀ {pid q}, ((SortedMap.empty : SortedMap Nat Process).insert 1 ⟨1, 0, entry, stack, 0, false⟩).get? pid =
      some q → pid = 1 ∧ q = ⟨1, 0, entry, stack, 0, false⟩ := by
    intro pid q hq
    exact (SortedMap.get?_of_insert hq).resolve_right (by simp)
  have hempty : SchedInv Kernel.empty.sched := SchedInv.new fun t => Nat.zero_le _
  have hset := hempty.setTask (t := 0) List.not_mem_nil
    { Task.new 1 1 with userEntry := entry, userStack := stack } (Nat.zero_le _)
  have hi : SchedInv _ := hset.addTask (t := 0) List.not_mem_nil rfl
  refine ⟨hi.congr rfl rfl rfl fun _ => rfl, ?_, Nat.zero_lt_one, ⟨_, rfl, rfl, rfl⟩, fun hq => ?_, ?_, fun _ => ?_,
    fun _ hm => ?_, List.nodup_nil, Or.inl rfl, fun hq => ?_⟩
  · intro t ht
    rw [show t = 0 from List.mem_singleton.1 ht]
    exact Nat.zero_lt_one
  · obtain ⟨rfl, rfl⟩ := hget hq
    exact iff_of_true rfl rfl
  · exact (by decide : 2 < 2 ^ 32)
  · refine ⟨fun {pid _} hq => ?_, fun _ hm => by cases hm⟩
    have := (hget hq).1
    show pid < 2
    omega
  · cases hm
  · obtain ⟨rfl, rfl⟩ := hget hq
    refine ⟨iff_of_false (by simp) ?_, fun _ hm => by cases hm⟩
    intro h
    obtain ⟨_, hm⟩ := h
    cases hm

theorem step (h : LifeInv s exits reaped) (hh : s.halted = false) {e : Event} {r : Int} (ho : Orderly e s)
    (hs : s.step e = some (r, s')) : LifeInv s' (s.exitsBy e ++ exits) (s.reapsBy e ++ reaped) := by
  cases e with
  | yield =>
    simp only [Kernel.step, Kernel.sysYield] at hs
    split at hs
    · cases hs
    · rename_i pair sched hsch
      cases hs
      refine h.reschedule (h.sched.scheduleLocked hsch) fun t ht => ?_
      exact (h.sched.held_scheduleLocked hsch).mem_iff.2 (List.mem_append_left _ ht)
  | tick =>
    simp only [Kernel.step, Kernel.timer] at hs
    split at hs
    · cases hs
    · rename_i pair sched hsch
      cases hs
      obtain ⟨hi, hperm⟩ := h.sched.tickNow hsch
      exact h.reschedule hi fun t ht => hperm.mem_iff.2 (List.mem_append_left _ ht)
  | exec image =>
    have h2 : 2 ≤ s.nextPid := ho
    cases image with
    | missing err =>
      cases hs
      exact h
    | invalid =>
      cases hs
      exact h.takePid h2
    | loaded entry stack =>
      simp only [Kernel.step, Kernel.sysExec] at hs
      split at hs
      · cases hs
      · rename_i p s₁ hsp
        cases hs
        refine (h.takePid h2).spawn (by omega) (fun h3 => ?_) (fun hm => ?_) hsp
        · have hlt := h.pid_lt
          simp only [Kernel.nextPidAfter] at h3 ⊢
          omega
        · exact absurd ((h.used h2).2 _ hm) (Nat.lt_irrefl _)
  | exit code => exact h.exit hh ho hs
  | waitpid pid flags =>
    have e : s' = (s.sysWaitpid pid flags).2 := (congrArg Prod.snd (Option.some.inj hs)).symm
    rw [e]
    exact h.waitpid pid flags

end LifeInv

theorem KernelRun.lifeInv {s : Kernel} {exits : List (TaskRef × Int)} {reaped : List Nat}
    (h : KernelRun Orderly s exits reaped) : LifeInv s exits reaped := by
  induction h with
  | boot hb => exact LifeInv.boot hb
  | step _ hh ho hs ih => exact ih.step hh ho hs

/-- The lifecycle in orderly runs: a process is a zombie exactly when its main task has exited, with the code of that
exit; an exit changes no other process; a zombie's code is handed out once, and from then on its pid is unknown. -/
theorem lifecycle_orderly {s : Kernel} {exits : List (TaskRef × Int)} {reaped : List Nat}
    (h : KernelRun Orderly s exits reaped) :
    (∀ pid p, s.table.get? pid = some p → StatusOf p exits) ∧
      (s.halted = false → ∀ code r s', Orderly (.exit code) s → s.step (.exit code) = some (r, s') →
        ∀ pid p, s.table.get? pid = some p → s.sched.current ≠ some p.mainTask → s'.table.get? pid = some p) ∧
      (∀ pid flags p, s.table.get? (pid % 2 ^ 32) = some p → p.isZombie = true →
        s.step (.waitpid pid flags) = some (p.exitCode, { s with table := s.table.erase (pid % 2 ^ 32) })) ∧
      reaped.Nodup ∧
      ∀ pid flags, pid % 2 ^ 32 ∈ reaped → s.step (.waitpid pid flags) = some (-10, s) := by
  have hi := h.lifeInv
  refine ⟨fun pid p hp => hi.status hp, ?_, ?_, hi.nodup, ?_⟩
  · rintro hh code r s' ⟨proc, hcur, hrun⟩ hs pid p hp hother
    obtain ⟨proc', hcur', hpid, hmain⟩ := hi.current
    have e : proc' = proc := Option.some.inj (hcur'.symm.trans hcur)
    subst e
    have h1 : pid ≠ 1 := fun h1 => hother (by rw [hrun, hmain, (hi.first hp).2 h1])
    simp only [Kernel.step, Kernel.sysExit] at hs
    split at hs
    · cases hs
    · cases hs
      simp only [Kernel.storeExit, hcur, hpid]
      split
      · exact hp
      · rw [SortedMap.get?_insert, if_neg h1, hp]
  · intro pid flags p hp hz
    simp only [Kernel.step, Kernel.sysWaitpid, hp, hz, if_true]
  · intro pid flags hm
    simp only [Kernel.step, Kernel.sysWaitpid, hi.gone _ hm]

/-- The theorem at a run in which the first process starts another one and exits, and that one reaps it. -/
theorem lifecycle_orderly_reap :
    ∃ s, KernelRun Orderly s [(0, 3)] [1] ∧ s.sched.current = some 1 ∧ s.step (.waitpid 1 0) = some (-10, s) := by
  have r₀ : KernelRun Orderly _ [] [] := .boot (show Kernel.boot 0x400000 0x8010000 = some _ from rfl)
  have r₁ : KernelRun Orderly _ [] [] := .step (e := .exec (.loaded 0x400000 0x8010000)) r₀ rfl (Nat.le_refl 2) rfl
  have r₂ : KernelRun Orderly _ [(0, 3)] [] := .step (e := .exit 3) r₁ rfl ⟨_, rfl, rfl⟩ rfl
  have r₃ : KernelRun Orderly _ [(0, 3)] [1] := .step (e := .waitpid 1 0) r₂ rfl trivial rfl
  exact ⟨_, r₃, rfl, (lifecycle_orderly r₃).2.2.2.2 1 0 (by decide)⟩

/-- The first process exits with code 0, then its child with code 7: the child's code goes to pid 1, and the child
does not become a zombie. -/
theorem child_exit_misattributed :
    ∃ s exits reaped p₁ p₂, KernelRun (fun _ _ => True) s exits reaped ∧ s.table.get? 1 = some p₁ ∧
      s.table.get? 2 = some p₂ ∧ (p₁.mainTask, 0) ∈ exits ∧ (p₁.mainTask, 7) ∉ exits ∧ p₁.exitCode = 7 ∧
      (p₂.mainTask, 7) ∈ exits ∧ p₂.isZombie = false ∧ ¬ StatusOf p₁ exits ∧ ¬ StatusOf p₂ exits := by
  have r₀ : KernelRun (fun _ _ => True) _ [] [] := .boot (show Kernel.boot 0x400000 0x8010000 = some _ from rfl)
  have r₁ : KernelRun (fun _ _ => True) _ [] [] :=
    .step (e := .exec (.loaded 0x400000 0x8010000)) r₀ rfl trivial rfl
  have r₂ : KernelRun (fun _ _ => True) _ [(0, 0)] [] := .step (e := .exit 0) r₁ rfl trivial rfl
  have r₃ : KernelRun (fun _ _ => True) _ [(1, 7), (0, 0)] [] := .step (e := .exit 7) r₂ rfl trivial rfl
  refine ⟨_, _, _, _, _, r₃, rfl, rfl, by decide, by decide, by decide, by decide, by decide, fun h => ?_,
    fun h => ?_⟩
  · exact absurd (h.2 0 (by decide)) (by decide)
  · exact absurd (h.1.2 ⟨7, by decide⟩) (by decide)

end Hammam
