import Hammam.Mm.TwoWalks
import Hammam.Process.Entering
import Hammam.Process.Programs
import Hammam.Sched.Vruntime

/-!
# No system call brings the kernel down

A system call does not get through if it faults on a user pointer, panics in the loader, or searches the run queue
for ever.  None of this happens, whatever the arguments are: validated pointers are mapped, files that are fit to be
loaded do not panic, and the virtual run times are far from `u64::MAX` for as long as the system has made fewer than
`2 ^ 31` steps.  What is assumed is that the kernel heap serves the call, and that the programs write to their own
memory only.  For the kernel as the process calls see it, every system call is one of its events or nothing.
-/

namespace Hammam

open Fallible Initramfs SlashPath

/-! ### How fast run times grow -/

/-- No virtual run time is above `b`. -/
def Scheduler.Below (s : Scheduler) (b : Nat) : Prop := ∀ t, (s.tasks t).vruntime ≤ b

namespace Scheduler.Below

variable {s s' : Scheduler} {b : Nat} {r : Option (TaskRef × TaskRef)}

theorem mono {b' : Nat} (h : s.Below b) (hb : b ≤ b') : s.Below b' := fun t => (h t).trans hb

theorem setVruntime (h : s.Below b) (t : TaskRef) {v : Nat} (hv : v ≤ b) : (s.setVruntime t v).Below b := by
  intro u
  rw [vruntime_setVruntime]
  split
  · exact hv
  · exact h u

/-- `pick_next` gives the task that it puts back the smallest run time. -/
theorem schedule (h : s.Below b) (hi : SchedInv s) (hs : s.schedule = some (r, s')) : s'.Below b := by
  rcases SchedInv.scheduleLocked_pick hs with ⟨-, rfl⟩ | ⟨n, s₁, hp, -, -, -, hv⟩
  · exact h
  · intro t
    rw [hv]
    rcases hi.pickNext_cases hp with ⟨-, -, rfl⟩ | ⟨c, hc, -, -, -, rfl⟩ | ⟨c, k, n, -, -, -, -, rfl⟩
    · exact h t
    · exact h.setVruntime c ((hi.min_le hc).trans (h c)) t
    · exact h t

theorem charge (h : s.Below b) (c : TaskRef) : (s.charge c).Below (b + 1000000) := by
  refine (h.mono (Nat.le_add_right _ _)).setVruntime c ((Nat.min_le_left _ _).trans ?_)
  exact Nat.add_le_add (h c) (Nat.div_le_self _ _)

theorem countTick (h : s.Below b) (hi : SchedInv s) (hs : s.countTick = some (r, s')) : s'.Below b := by
  unfold Scheduler.countTick at hs
  simp only at hs
  split at hs
  · exact schedule (s := { s with currentTicks := 0 }) h (hi.ticks 0) hs
  · cases hs
    exact h

theorem tickNow (h : s.Below b) (hi : SchedInv s) (hs : s.tickNow = some (r, s')) : s'.Below (b + 1000000) := by
  unfold Scheduler.tickNow at hs
  split at hs
  · exact (h.countTick hi hs).mono (Nat.le_add_right _ _)
  · rename_i c hc
    exact (h.charge c).countTick (hi.charge hc) hs

theorem exitCurrent (h : s.Below b) (hi : SchedInv s) (hs : s.exitCurrent = some (r, s')) : s'.Below b := by
  refine schedule (fun t => ?_) hi.killCurrent hs
  rw [vruntime_killCurrent]
  exact h t

/-- The search goes on for at most as many steps as there are keys. -/
private theorem probe_le {q : SortedMap Nat TaskRef} {fuel key k : Nat} (h : probe q fuel key = some k) :
    k ≤ key + fuel := by
  induction fuel generalizing key with
  | zero => cases h
  | succ fuel ih =>
    unfold probe at h
    split at h
    · have := ih h
      have hnext : satAdd key 1 ≤ key + 1 := Nat.min_le_left _ _
      omega
    · cases h
      omega

theorem addTask (h : s.Below b) (hi : SchedInv s) {t c : TaskRef} (hc : s.current = some c)
    (hs : s.addTask t = some s') : s'.Below (b + s.held.length + 1) := by
  rw [Scheduler.addTask, hc] at hs
  simp only [insertTaskIntoQueue_eq] at hs
  obtain ⟨key, hk, rfl⟩ := Option.map_eq_some_iff.1 hs
  have hle : key ≤ s.startKey + (s.runQueue.size + 1) := probe_le hk
  have hstart : s.startKey ≤ b + 1 := by
    rw [hi.startKey_eq hc]
    exact (Nat.min_le_left _ _).trans (Nat.add_le_add_right (h c) 1)
  have hsize := SchedInv.size_lt hc
  have hkey : key ≤ b + s.held.length + 1 := by omega
  exact (h.mono (by omega)).setVruntime t hkey

end Scheduler.Below

/-- An event that creates no process calls at most one function of the scheduler. -/
theorem Kernel.step_sched {s s' : Kernel} {e : Event} {r : Int} (he : ∀ entry stack, e ≠ .exec (.loaded entry stack))
    (hs : s.step e = some (r, s')) : s'.sched = s.sched ∨ ∃ q, s.sched.schedule = some (q, s'.sched) ∨
      s.sched.tickNow = some (q, s'.sched) ∨ s.sched.exitCurrent = some (q, s'.sched) := by
  cases e with
  | yield =>
    simp only [Kernel.step, Kernel.sysYield] at hs
    split at hs
    · cases hs
    · rename_i q sched hsch
      cases hs
      exact Or.inr ⟨q, Or.inl hsch⟩
  | tick =>
    simp only [Kernel.step, Kernel.timer] at hs
    split at hs
    · cases hs
    · rename_i q sched hsch
      cases hs
      exact Or.inr ⟨q, Or.inr (Or.inl hsch)⟩
  | exit code =>
    simp only [Kernel.step, Kernel.sysExit] at hs
    split at hs
    · cases hs
    · rename_i q sched hsch
      cases hs
      exact Or.inr ⟨q, Or.inr (Or.inr hsch)⟩
  | waitpid pid flags =>
    left
    simp only [Kernel.step, Option.some.injEq, Kernel.sysWaitpid] at hs
    split at hs
    · cases hs
      rfl
    · split at hs
      · cases hs
        rfl
      · split at hs
        · cases hs
          rfl
        · cases hs
          rfl
  | exec image =>
    cases image with
    | missing e =>
      cases hs
      exact Or.inl rfl
    | invalid =>
      cases hs
      exact Or.inl rfl
    | loaded entry stack => exact absurd rfl (he entry stack)

/-- The kernel after at most `n` steps: how many tasks there are, and how large their run times. -/
structure Kernel.Paced (s : Kernel) (n : Nat) : Prop where
  sched : SchedInv s.sched
  held_lt : ∀ t ∈ s.sched.held, t < s.nextRef
  current : ∃ c, s.sched.current = some c
  below : s.sched.Below (2 ^ 32 * n)
  size : s.sched.held.length ≤ n + 1

namespace Kernel.Paced

variable {s s' : Kernel} {n : Nat} {e : Event} {r : Int}

/-- There is room for one more task. -/
theorem bounded (h : s.Paced n) (hn : n < 2 ^ 31) : Bounded s.sched := by
  intro t _
  have h1 := h.below t
  have h2 := h.size
  rw [u64Max]
  omega

theorem boot {entry stack : Nat} (hb : Kernel.boot entry stack = some s) : s.Paced 0 := by
  have hlife : LifeInv s [] [] := LifeInv.boot hb
  obtain ⟨-, hcur, -, hheld, -⟩ := Kernel.boot_spec hb
  refine ⟨hlife.sched, hlife.held_lt, ⟨0, hcur⟩, fun t => ?_, by rw [hheld]; exact Nat.le_refl 1⟩
  cases hb
  by_cases ht : t = 0
  · subst ht
    exact Nat.le_refl 0
  · simp [ht, Kernel.empty, Scheduler.new, Task.new]

theorem mono (h : s.Paced n) : s.Paced (n + 1) :=
  ⟨h.sched, h.held_lt, h.current, h.below.mono (by omega), by have := h.size; omega⟩

/-- An event that creates no process. -/
theorem moved (h : s.Paced n) (he : ∀ entry stack, e ≠ .exec (.loaded entry stack)) (hs : s.step e = some (r, s')) :
    s'.Paced (n + 1) := by
  obtain ⟨hmoved, href⟩ := Kernel.step_moved h.sched he hs
  obtain ⟨c, hc⟩ := h.current
  refine ⟨hmoved.inv, fun t ht => ?_, ?_, ?_, ?_⟩
  · rw [href]
    exact h.held_lt t (hmoved.held t ht)
  · cases hsw : e.switch s with
    | none => exact ⟨c, (hmoved.stays hsw).trans hc⟩
    | some p => exact ⟨p.2, (hmoved.moves p.1 p.2 hsw).2.1⟩
  · have hcalm : s'.sched.Below (2 ^ 32 * n + 1000000) := by
      have hb := h.below.mono (Nat.le_add_right _ 1000000)
      rcases Kernel.step_sched he hs with hk | ⟨q, hq | hq | hq⟩
      · rw [hk]
        exact hb
      · exact hb.schedule h.sched hq
      · exact h.below.tickNow h.sched hq
      · exact hb.exitCurrent h.sched hq
    exact hcalm.mono (by omega)
  · have hle := hmoved.inv.nodup.length_le_of_subset (fun t ht => hmoved.held t ht)
    have := h.size
    omega

/-- A new process. -/
theorem loaded (h : s.Paced n) (hn : n < 2 ^ 31) {entry stack : Nat}
    (hs : s.step (.exec (.loaded entry stack)) = some (r, s')) : s'.Paced (n + 1) := by
  obtain ⟨c, hc⟩ := h.current
  obtain ⟨hinv, href, hc', hheld, -⟩ := Kernel.step_loaded h.sched h.held_lt hc hs
  have hfresh : s.nextRef ∉ s.sched.held := fun hm => absurd (h.held_lt _ hm) (Nat.lt_irrefl _)
  simp only [Kernel.step, Kernel.sysExec, Kernel.spawn] at hs
  split at hs
  · cases hs
  · rename_i p k hsp
    split at hsp
    · cases hsp
    · rename_i sched hadd
      cases hsp
      cases hs
      have hset := h.sched.setTask hfresh { Task.new s.nextPid 1 with userEntry := entry, userStack := stack }
        (Nat.zero_le _)
      have hperm := hset.held_addTask hadd
      refine ⟨hinv, fun t ht => ?_, ⟨c, hc'⟩, ?_, ?_⟩
      · rcases hheld t ht with rfl | ht
        · exact Nat.lt_succ_self _
        · exact Nat.lt_succ_of_lt (h.held_lt t ht)
      · have hbelow : Scheduler.Below { s.sched with
            tasks := Function.update s.sched.tasks s.nextRef
              { Task.new s.nextPid 1 with userEntry := entry, userStack := stack } } (2 ^ 32 * n) := by
          intro t
          by_cases ht : t = s.nextRef
          · subst ht
            simp [Task.new]
          · simp only [Function.update_of_ne ht]
            exact h.below t
        have hsize : s.sched.held.length ≤ n + 1 := h.size
        exact (hbelow.addTask hset hc hadd).mono (by
          show 2 ^ 32 * n + s.sched.held.length + 1 ≤ 2 ^ 32 * (n + 1)
          omega)
      · have hlen := hperm.length_eq
        have hsize : s.sched.held.length ≤ n + 1 := h.size
        show sched.held.length ≤ n + 1 + 1
        rw [hlen, List.length_cons]
        exact Nat.succ_le_succ hsize

/-- What one event preserves. -/
theorem step (h : s.Paced n) (hn : n < 2 ^ 31) (hs : s.step e = some (r, s')) : s'.Paced (n + 1) := by
  by_cases he : ∃ entry stack, e = .exec (.loaded entry stack)
  · obtain ⟨entry, stack, rfl⟩ := he
    exact h.loaded hn hs
  · exact h.moved (fun entry stack hc => he ⟨entry, stack, hc⟩) hs

end Kernel.Paced

/-! ### Every call gets through -/

namespace Pindos

section Calls

variable {checks : Bool} {parse : List UInt8 → Option ElfFile} {s : Pindos} {n : Nat}

end Calls

/-- What holds in every state of a run of `n` steps. -/
structure Safe (P : Nat → Prop) (k : KernelImage) (m : Machine) (s : Pindos) (n : Nat) : Prop where
  grounded : Grounded P k m s.memory.machine
  paced : s.kernel.Paced n
  run : ∃ exits reaped, KernelRun (fun _ _ => True) s.kernel exits reaped

section Runs

variable {checks heap : Bool} {parse : List UInt8 → Option ElfFile} {k : KernelImage} {m : Machine}
  {files : List (List Str × List UInt8)} {s₀ s s' : Pindos} {n apicMsr : Nat} {memory : KernelState} {env : BootEnv}

theorem Safe.boot (h : Archivable files) (hf : Shipped parse k memory.machine env.apicMsr files)
    (hi : TableInv memory.machine) (hb : Pindos.boot checks parse env (archiveOf files) memory = some s₀) :
    Safe (ProgramPage parse files) k memory.machine s₀ 0 := by
  obtain ⟨-, -, -, process, -, -, -, -, -, -, hkernel, -⟩ := boot_cases hb
  exact ⟨(grounded_boot h hf hi hb).1, .boot hkernel, _, _, .boot hkernel⟩

/-- What a system call preserves, apart from the memory. -/
theorem Safe.call (h : Safe (ProgramPage parse files) k m s n) (hn : n < 2 ^ 31) (hh : s.kernel.halted = false)
    (hground : Grounded (ProgramPage parse files) k m s'.memory.machine) {nr a0 a1 a2 : Nat} {r : Int}
    {out : List UInt8} (hs : s.dispatch checks parse heap nr a0 a1 a2 = some (r, out, s')) :
    Safe (ProgramPage parse files) k m s' (n + 1) := by
  obtain ⟨exits, reaped, hrun⟩ := h.run
  rcases (dispatch_event hs).1 with hk | ⟨e, hk⟩
  · refine ⟨hground, ?_, exits, reaped, ?_⟩
    · rw [hk]
      exact h.paced.mono
    · rw [hk]
      exact hrun
  · exact ⟨hground, h.paced.step hn hk, _, _, .step hrun hh trivial hk⟩

theorem Run.safe (hf : Shipped parse k m apicMsr files)
    (hread : ∀ path, s₀.vfs.readFile path = fileAt files (parts '/' path))
    (h : Safe (ProgramPage parse files) k m s₀ 0) (hr : Run checks parse k s₀ s n) (hn : n < 2 ^ 31) :
    Safe (ProgramPage parse files) k m s n := by
  induction hr with
  | start => exact h
  | call heap nr a0 a1 a2 hr hh hs ih =>
    exact (ih (by omega)).call (by omega) hh ((hr.call heap nr a0 a1 a2 hh hs).grounded hf h.grounded hread) hs
  | tick heap hr hh hs ih =>
    obtain ⟨-, ⟨r, hk⟩, he, -⟩ := timer_eq_some.1 hs
    have hsafe := ih (by omega)
    obtain ⟨exits, reaped, hrun⟩ := hsafe.run
    refine ⟨?_, hsafe.paced.step (by omega) hk, _, _, .step hrun hh trivial hk⟩
    rw [he]
    exact hsafe.grounded
  | write mem hr hmem ih =>
    have hsafe := ih hn
    exact ⟨(hr.write mem hmem).grounded hf h.grounded hread, hsafe.paced, hsafe.run⟩

/-- The page of the local APIC stays mapped. -/
theorem Run.apic (h : Archivable files) (hf : Shipped parse k memory.machine env.apicMsr files)
    (hi : TableInv memory.machine) (hb : Pindos.boot checks parse env (archiveOf files) memory = some s₀)
    (hr : Run checks parse k s₀ s n) (hbase : s.localApicBase ≠ 0) :
    ∃ x, s.memory.machine.translate (s.localApicBase + 0xB0) = some x := by
  obtain ⟨hground, hapic⟩ := grounded_boot h hf hi hb
  have he : s.localApicBase = s₀.localApicBase := congrArg Prod.snd hr.statics
  rw [he] at hbase ⊢
  obtain ⟨hmsr, hsome⟩ := hapic.resolve_left hbase
  obtain ⟨x, hx⟩ := Option.isSome_iff_exists.1 hsome
  -- no program maps this page, so it is translated as after the boot
  have hrun : Grounded (ProgramPage parse files) k s₀.memory.machine s.memory.machine :=
    hr.grounded (hf.mono hground) (.refl hground.tables) (readFile_boot h hb)
  have hstay := hrun.kept (hmsr ▸ hf.apic) hx
  have haligned := apicBase_eq env.apicMsr
  rw [← hmsr] at haligned
  exact ⟨_, hrun.tables.translate_page hstay (by unfold pageNo; omega)⟩

end Runs

end Pindos

end Hammam
