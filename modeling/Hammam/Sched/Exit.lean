import Hammam.Sched.Conservation

/-!
# Tasks that have exited

`exit_current` marks the current task dead and calls `schedule`.  When another task is waiting, `schedule_locked`
switches to it and marks the outgoing task ready, whatever its state was.  The mark survives exactly as long as no
step switches away from a task that has exited.  In every run such a task stays out of the run queue: `pick_next`
reads the mark before `schedule_locked` overwrites it.
-/

namespace Hammam

/-! ### Runs with exits -/

/-- A call on the scheduler. -/
inductive SchedOp
  | add (t : TaskRef)
  | schedule
  | tick
  | exit
  deriving DecidableEq, Repr

namespace SchedOp

/-- The pair of tasks to switch between, and the new state. -/
def apply (s : Scheduler) : SchedOp → Option (Option (TaskRef × TaskRef) × Scheduler)
  | .add t => (s.addTask t).map fun s' => (none, s')
  | .schedule => s.schedule
  | .tick => s.tick
  | .exit => s.exitCurrent

/-- The task that the call adds. -/
def adds : SchedOp → List TaskRef
  | .add t => [t]
  | _ => []

/-- The task that the call marks dead. -/
def exits (s : Scheduler) : SchedOp → List TaskRef
  | .exit => s.current.toList
  | _ => []

/-- The call does not switch away from a task that exits or has exited. -/
def KeepsDead (s : Scheduler) (exited : List TaskRef) : SchedOp → Prop
  | .add _ => True
  | .schedule => ∀ c ∈ exited, s.current = some c → s.runQueue.entries = []
  | .tick => ∀ c ∈ exited, s.current = some c → quantumTicks ≤ s.currentTicks + 1 → s.runQueue.entries = []
  | .exit => s.current ≠ none → s.runQueue.entries = []

end SchedOp

/-- The runs of a scheduler, with the tasks added and the tasks that have exited so far; `P` holds of every call, the
state and the exited tasks before it.  A task is added at most once. -/
inductive ExitRun (P : Scheduler → List TaskRef → SchedOp → Prop) : Scheduler → List TaskRef → List TaskRef → Prop
  | new (tasks : TaskRef → Task) : (∀ t, (tasks t).vruntime ≤ u64Max) → ExitRun P (Scheduler.new tasks) [] []
  | step {s s' : Scheduler} {added exited : List TaskRef} {r : Option (TaskRef × TaskRef)} (op : SchedOp) :
    ExitRun P s added exited → P s exited op → (∀ t ∈ op.adds, t ∉ added) → op.apply s = some (r, s') →
    ExitRun P s' (op.adds ++ added) (op.exits s ++ exited)

/-! ### The invariant -/

/-- What holds in every run: the tasks that have exited are not queued, and one that is still current bears the
mark. -/
structure ExitInv (s : Scheduler) (added exited : List TaskRef) : Prop where
  inv : SchedInv s
  held_added : ∀ t ∈ s.held, t ∈ added
  exited_added : ∀ t ∈ exited, t ∈ added
  not_queued : ∀ t ∈ exited, t ∉ s.runQueue.values
  marked : ∀ t ∈ exited, s.current = some t → (s.tasks t).state = .dead

namespace ExitInv

variable {s s' : Scheduler} {added exited : List TaskRef} {r : Option (TaskRef × TaskRef)}

theorem congr (h : ExitInv s added exited) (hi : SchedInv s') (hq : s'.runQueue = s.runQueue)
    (hc : s'.current = s.current) (hst : ∀ t, (s'.tasks t).state = (s.tasks t).state) : ExitInv s' added exited where
  inv := hi
  held_added := by
    rw [Scheduler.held, hq, hc]
    exact h.held_added
  exited_added := h.exited_added
  not_queued := by
    rw [hq]
    exact h.not_queued
  marked := by
    simp only [hc, hst]
    exact h.marked

theorem charge (h : ExitInv s added exited) {c : TaskRef} (hc : s.current = some c) (n : Nat) :
    ExitInv { s.charge c with currentTicks := n } added exited :=
  h.congr ((h.inv.charge hc).ticks n) rfl rfl fun t => Scheduler.state_setVruntime s c t _

/-- What `add_task` changes: only the new task enters. -/
theorem addTask_frame (h : SchedInv s) {t : TaskRef} (ha : s.addTask t = some s') :
    (∀ u, (s'.tasks u).state = (s.tasks u).state) ∧ (∀ u ∈ s'.runQueue.values, u = t ∨ u ∈ s.runQueue.values) ∧
      ∀ u, s'.current = some u → u = t ∨ s.current = some u := by
  cases hcur : s.current with
  | none =>
    rw [Scheduler.addTask, hcur] at ha
    cases ha
    exact ⟨fun _ => rfl, fun u hu => Or.inr hu, fun u hu => Or.inl (Option.some.inj hu).symm⟩
  | some c =>
    obtain ⟨key, -, -, -, rfl⟩ := h.addTask_some hcur ha
    exact ⟨fun u => Scheduler.state_setVruntime s t u key, fun u hu => SortedMap.mem_values_of_insert hu,
      fun u hu => Or.inr (hcur.symm.trans hu)⟩

theorem addTask (h : ExitInv s added exited) {t : TaskRef} (ht : t ∉ added) (ha : s.addTask t = some s') :
    ExitInv s' (t :: added) exited := by
  have hheld := h.inv.held_addTask ha
  have hne : ∀ u ∈ exited, u ≠ t := fun u hu e => ht (e ▸ h.exited_added u hu)
  obtain ⟨hst, hq, hc⟩ := addTask_frame h.inv ha
  refine ⟨h.inv.addTask (fun hm => ht (h.held_added t hm)) ha, fun u hu => ?_,
    fun u hu => List.mem_cons_of_mem t (h.exited_added u hu), fun u hu hmem => ?_, fun u hu hcur => ?_⟩
  · rcases List.mem_cons.1 (hheld.mem_iff.1 hu) with rfl | hm
    · exact List.mem_cons_self
    · exact List.mem_cons_of_mem t (h.held_added u hm)
  · exact h.not_queued u hu ((hq u hmem).resolve_left (hne u hu))
  · rw [hst]
    exact h.marked u hu ((hc u hcur).resolve_left (hne u hu))

private theorem first_not_exited (h : ExitInv s added exited) {k : Nat} {n : TaskRef}
    (hf : s.runQueue.first? = some (k, n)) : n ∉ exited := by
  intro hn
  exact h.not_queued n hn (SortedMap.mem_values.2 ⟨k, (SortedMap.first?_eq_some.1 hf).1⟩)

theorem scheduleLocked (h : ExitInv s added exited) (hs : s.scheduleLocked = some (r, s')) :
    ExitInv s' added exited := by
  have hinv := h.inv.scheduleLocked hs
  have hheld := h.inv.held_scheduleLocked hs
  rcases h.inv.scheduleLocked_cases hs with ⟨-, hq, hc, -, -, hst⟩ | ⟨c, k, n, hc, hd, hf, hne, -, rfl⟩
  · exact h.congr hinv hq hc hst
  · refine ⟨hinv, fun t ht => ?_, h.exited_added, fun t ht hmem => ?_, fun t ht hcur => ?_⟩
    · exact h.held_added t (hheld.mem_iff.2 (List.mem_append_left _ ht))
    · exact h.not_queued t ht (SortedMap.mem_values_of_erase hmem)
    · obtain rfl : n = t := Option.some.inj hcur
      exact absurd ht (h.first_not_exited hf)

theorem killCurrent (h : ExitInv s added exited) :
    ExitInv s.killCurrent added (s.current.toList ++ exited) := by
  cases hc : s.current with
  | none =>
    rw [Scheduler.killCurrent, hc]
    exact h
  | some c =>
    have hkill : s.killCurrent = s.setState c .dead := by
      rw [Scheduler.killCurrent, hc]
    have hcheld : c ∈ s.held := List.mem_append_left _ (by rw [hc]; exact List.mem_singleton_self c)
    rw [hkill, Option.toList_some, List.singleton_append]
    refine ⟨h.inv.setState c .dead, h.held_added, fun t ht => ?_, fun t ht hmem => ?_, fun t ht hcur => ?_⟩
    · rcases List.mem_cons.1 ht with rfl | ht
      · exact h.held_added t hcheld
      · exact h.exited_added t ht
    · rcases List.mem_cons.1 ht with rfl | ht
      · obtain ⟨k, hk⟩ := SortedMap.mem_values.1 hmem
        exact h.inv.not_queued hc hk
      · exact h.not_queued t ht hmem
    · obtain rfl : c = t := Option.some.inj (hc.symm.trans hcur)
      rw [Scheduler.state_setState, if_pos rfl]

/-- The first part of `pick_next` does not put a task that has exited back. -/
theorem requeueCurrent (h : ExitInv s added exited) {t : TaskRef} (ht : t ∈ exited)
    (hs : s.requeueCurrent = some s') : t ∉ s'.runQueue.values := by
  unfold Scheduler.requeueCurrent at hs
  intro hmem
  cases hc : s.current with
  | none =>
    simp only [hc, Option.some.injEq] at hs
    subst hs
    exact h.not_queued t ht hmem
  | some c =>
    simp only [hc] at hs
    split at hs
    · next hl =>
      obtain ⟨key, -, -, rfl⟩ := Scheduler.insertTaskIntoQueue_some hs
      rcases SortedMap.mem_values_of_insert hmem with rfl | hq
      · exact hl (h.marked t ht hc)
      · exact h.not_queued t ht hq
    · cases hs
      exact h.not_queued t ht hmem

/-- No call makes a task that has exited the target of a switch. -/
theorem target (h : ExitInv s added exited) {c n : TaskRef} (hs : s.scheduleLocked = some (some (c, n), s')) :
    n ∉ exited := by
  rcases h.inv.scheduleLocked_cases hs with ⟨hr, -⟩ | ⟨d, k, m, -, -, hf, -, hr, -⟩
  · cases hr
  · cases hr
    exact h.first_not_exited hf

/-- The marks survive a call that does not switch away from a task that has exited. -/
theorem scheduleLocked_dead (h : ExitInv s added exited)
    (hk : ∀ c ∈ exited, s.current = some c → s.runQueue.entries = [])
    (hd : ∀ t ∈ exited, (s.tasks t).state = .dead) (hs : s.scheduleLocked = some (r, s')) :
    ∀ t ∈ exited, (s'.tasks t).state = .dead := by
  intro t ht
  rcases h.inv.scheduleLocked_cases hs with ⟨-, -, -, -, -, hst⟩ | ⟨c, k, n, hc, -, hf, hne, -, rfl⟩
  · rw [hst]
    exact hd t ht
  · have htc : t ≠ c := by
      intro he
      subst he
      rw [SortedMap.first?, hk t ht hc] at hf
      cases hf
    have htn : t ≠ n := by
      intro he
      subst he
      exact h.first_not_exited hf ht
    rw [Scheduler.state_switched s hne, if_neg htc, if_neg htn]
    exact hd t ht

/-- A switch away from a task that has exited overwrites its mark. -/
theorem scheduleLocked_revived (h : ExitInv s added exited) {c : TaskRef} (hc : c ∈ exited)
    (hcur : s.current = some c) (hq : s.runQueue.entries ≠ []) (hs : s.scheduleLocked = some (r, s')) :
    (s'.tasks c).state = .ready := by
  obtain ⟨k, n, hf⟩ := SchedInv.first?_isSome hq
  have hpick := SchedInv.pickNext_dead hcur (h.marked c hc hcur) hf
  have hne : c ≠ n := by
    intro he
    subst he
    exact h.first_not_exited hf hc
  simp only [Scheduler.scheduleLocked, hcur, hpick, if_neg hne, Option.some.injEq, Prod.mk.injEq] at hs
  obtain ⟨-, rfl⟩ := hs
  exact (Scheduler.state_switched s hne k c).trans (if_pos rfl)

end ExitInv

/-! ### Every call -/

namespace SchedOp

variable {s s' : Scheduler} {added exited : List TaskRef} {r : Option (TaskRef × TaskRef)} {op : SchedOp}

private theorem current_killCurrent (s : Scheduler) : s.killCurrent.current = s.current := by
  unfold Scheduler.killCurrent
  split <;> rfl

private theorem runQueue_killCurrent (s : Scheduler) : s.killCurrent.runQueue = s.runQueue := by
  unfold Scheduler.killCurrent
  split <;> rfl

private theorem state_killCurrent (s : Scheduler) (t : TaskRef) :
    (s.killCurrent.tasks t).state = if s.current = some t then .dead else (s.tasks t).state := by
  unfold Scheduler.killCurrent
  cases s.current with
  | none => simp
  | some c => simp [Scheduler.state_setState, eq_comm]

/-- What a tick does: at the end of a quantum it is a call of `schedule_locked`. -/
theorem tick_cases (hs : s.tick = some (r, s')) :
    (s.current = none ∧ r = none ∧ s' = s) ∨
      ∃ c, s.current = some c ∧
        ((quantumTicks ≤ s.currentTicks + 1 ∧ { s.charge c with currentTicks := 0 }.scheduleLocked = some (r, s')) ∨
          (s.currentTicks + 1 < quantumTicks ∧ r = none ∧
            s' = { s.charge c with currentTicks := min (s.currentTicks + 1) 255 })) := by
  unfold Scheduler.tick at hs
  cases hc : s.current with
  | none =>
    simp only [hc, Option.some.injEq, Prod.mk.injEq] at hs
    exact Or.inl ⟨rfl, hs.1.symm, hs.2.symm⟩
  | some c =>
    right
    refine ⟨c, rfl, ?_⟩
    have hticks : (s.charge c).currentTicks = s.currentTicks := rfl
    simp only [hc, Scheduler.countTick, hticks] at hs
    split at hs
    · next hq =>
      have : quantumTicks ≤ s.currentTicks + 1 := hq.trans (Nat.min_le_left _ _)
      exact Or.inl ⟨this, hs⟩
    · next hq =>
      simp only [Option.some.injEq, Prod.mk.injEq] at hs
      refine Or.inr ⟨?_, hs.1.symm, hs.2.symm⟩
      unfold quantumTicks at hq ⊢
      omega

theorem exitInv (h : ExitInv s added exited) (hnew : ∀ t ∈ op.adds, t ∉ added)
    (hop : op.apply s = some (r, s')) : ExitInv s' (op.adds ++ added) (op.exits s ++ exited) := by
  cases op with
  | add t =>
    simp only [apply, Option.map_eq_some_iff, Prod.mk.injEq] at hop
    obtain ⟨s₁, ha, -, rfl⟩ := hop
    exact h.addTask (hnew t (List.mem_singleton_self t)) ha
  | schedule => exact h.scheduleLocked hop
  | tick =>
    rcases tick_cases hop with ⟨-, -, rfl⟩ | ⟨c, hc, ⟨-, hs⟩ | ⟨-, -, rfl⟩⟩
    · exact h
    · exact (h.charge hc 0).scheduleLocked hs
    · exact h.charge hc _
  | exit => exact h.killCurrent.scheduleLocked hop

theorem target_not_exited (h : ExitInv s added exited) {c n : TaskRef} (hop : op.apply s = some (some (c, n), s')) :
    n ∉ exited := by
  cases op with
  | add t => simp [apply] at hop
  | schedule => exact h.target hop
  | tick =>
    rcases tick_cases hop with ⟨-, hr, -⟩ | ⟨d, hd, ⟨-, hs⟩ | ⟨-, hr, -⟩⟩
    · cases hr
    · exact (h.charge hd 0).target hs
    · cases hr
  | exit =>
    intro hn
    exact h.killCurrent.target hop (List.mem_append_right _ hn)

theorem keeps_dead (h : ExitInv s added exited) (hk : op.KeepsDead s exited)
    (hd : ∀ t ∈ exited, (s.tasks t).state = .dead) (hop : op.apply s = some (r, s')) :
    ∀ t ∈ op.exits s ++ exited, (s'.tasks t).state = .dead := by
  cases op with
  | add t =>
    simp only [apply, Option.map_eq_some_iff, Prod.mk.injEq] at hop
    obtain ⟨s₁, ha, -, rfl⟩ := hop
    intro u hu
    rw [(ExitInv.addTask_frame h.inv ha).1]
    exact hd u hu
  | schedule => exact h.scheduleLocked_dead hk hd hop
  | tick =>
    have hcharge :
      ∀ c n, ∀ t ∈ exited, (({ s.charge c with currentTicks := n } : Scheduler).tasks t).state = .dead := by
      intro c n t ht
      exact (Scheduler.state_setVruntime s c t _).trans (hd t ht)
    rcases tick_cases hop with ⟨-, -, rfl⟩ | ⟨c, hc, ⟨hq, hs⟩ | ⟨-, -, rfl⟩⟩
    · exact hd
    · exact (h.charge hc 0).scheduleLocked_dead (fun d hde hcur => hk d hde hcur hq) (hcharge c 0) hs
    · exact hcharge c _
  | exit =>
    refine h.killCurrent.scheduleLocked_dead (fun c hc hcur => ?_) (fun t ht => ?_) hop
    · rw [runQueue_killCurrent]
      rw [current_killCurrent] at hcur
      exact hk (by rw [hcur]; exact Option.some_ne_none c)
    · rw [state_killCurrent]
      rcases List.mem_append.1 ht with ht | ht
      · exact if_pos (Option.mem_toList.1 ht)
      · rw [hd t ht, ite_self]

/-- A call that switches away from a task that exits or has exited leaves it without its mark. -/
theorem revived (h : ExitInv s added exited) (hk : ¬ op.KeepsDead s exited) (hop : op.apply s = some (r, s')) :
    ∃ t ∈ op.exits s ++ exited, (s'.tasks t).state = .ready := by
  cases op with
  | add t => exact absurd trivial hk
  | schedule =>
    simp only [KeepsDead, not_forall] at hk
    obtain ⟨c, hc, hcur, hq⟩ := hk
    exact ⟨c, hc, h.scheduleLocked_revived hc hcur hq hop⟩
  | tick =>
    simp only [KeepsDead, not_forall] at hk
    obtain ⟨c, hc, hcur, hfull, hq⟩ := hk
    rcases tick_cases hop with ⟨hnone, -⟩ | ⟨d, hd, ⟨-, hs⟩ | ⟨hlt, -⟩⟩
    · rw [hnone] at hcur
      cases hcur
    · exact ⟨c, hc, (h.charge hd 0).scheduleLocked_revived hc hcur hq hs⟩
    · omega
  | exit =>
    simp only [KeepsDead, not_forall] at hk
    obtain ⟨hcur, hq⟩ := hk
    obtain ⟨c, hc⟩ := Option.ne_none_iff_exists'.1 hcur
    have hmem : c ∈ s.current.toList ++ exited := List.mem_append_left _ (Option.mem_toList.2 hc)
    refine ⟨c, hmem, h.killCurrent.scheduleLocked_revived hmem ?_ ?_ hop⟩
    · rw [current_killCurrent, hc]
    · rwa [runQueue_killCurrent]

end SchedOp

/-! ### Every run -/

section run

variable {P : Scheduler → List TaskRef → SchedOp → Prop} {s : Scheduler} {added exited : List TaskRef}

theorem ExitRun.inv (h : ExitRun P s added exited) : ExitInv s added exited := by
  induction h with
  | new tasks hv =>
    exact ⟨SchedInv.new hv, by simp [Scheduler.held, Scheduler.new, SortedMap.values, SortedMap.empty],
      by simp, by simp, by simp⟩
  | step op _ _ hnew hop ih => exact op.exitInv ih hnew hop

theorem ExitRun.all_dead (h : ExitRun (fun s exited op => op.KeepsDead s exited) s added exited) :
    ∀ t ∈ exited, (s.tasks t).state = .dead := by
  induction h with
  | new tasks hv => simp
  | step op hr hk hnew hop ih => exact op.keeps_dead hr.inv hk ih hop

/-- In every run, `pick_next` neither queues nor returns a task that has exited, and no call switches to it. -/
theorem ExitRun.not_scheduled (h : ExitRun P s added exited) {t : TaskRef} (ht : t ∈ exited) :
    t ∉ s.runQueue.values ∧ (∀ s₁, s.requeueCurrent = some s₁ → t ∉ s₁.runQueue.values) ∧
      (∀ r s', s.pickNext = some (r, s') → r ≠ some t) ∧
      ∀ (op : SchedOp) c n s', op.apply s = some (some (c, n), s') → n ≠ t := by
  have hi := h.inv
  refine ⟨hi.not_queued t ht, fun s₁ hs => hi.requeueCurrent ht hs, fun r s' hp hr => ?_, fun op c n s' hop hn => ?_⟩
  · subst hr
    rcases hi.inv.pickNext_cases hp with ⟨-, hr, -⟩ | ⟨c, hc, hl, -, hr, -⟩ | ⟨c, k, n, -, -, hf, hr, -⟩
    · cases hr
    · cases hr
      exact hl (hi.marked t ht hc)
    · cases hr
      exact hi.first_not_exited hf ht
  · subst hn
    exact op.target_not_exited hi hop ht

/-- In a run without switches away from tasks that exit or have exited, a task that has exited is dead in every later
state; `pick_next` neither queues nor returns it, and no call switches to it. -/
theorem dead_stays_dead (h : ExitRun (fun s exited op => op.KeepsDead s exited) s added exited) {t : TaskRef}
    (ht : t ∈ exited) :
    (s.tasks t).state = .dead ∧ t ∉ s.runQueue.values ∧
      (∀ s₁, s.requeueCurrent = some s₁ → t ∉ s₁.runQueue.values) ∧
      (∀ r s', s.pickNext = some (r, s') → r ≠ some t) ∧
      ∀ (op : SchedOp) c n s', op.apply s = some (some (c, n), s') → n ≠ t :=
  ⟨h.all_dead t ht, h.not_scheduled ht⟩

/-- The theorem at a run in which the only task exits. -/
theorem dead_stays_dead_single :
    ∃ s, ExitRun (fun s exited op => op.KeepsDead s exited) s [0] [0] ∧ (s.tasks 0).state = .dead := by
  have h0 : ExitRun (fun s exited op => op.KeepsDead s exited) (Scheduler.new fun t => Task.new t 1) [] [] :=
    .new _ (fun _ => Nat.zero_le _)
  have h1 := h0.step (.add 0) trivial (by simp [SchedOp.adds]) rfl
  have h2 := h1.step .exit (fun _ => rfl) (by simp [SchedOp.adds]) rfl
  exact ⟨_, h2, (dead_stays_dead h2 (List.mem_singleton_self 0)).1⟩

/-- Of two tasks the first one exits: the switch to the second one marks it ready. -/
theorem exited_task_ready :
    ¬ ∀ s added exited, ExitRun (fun _ _ _ => True) s added exited → ∀ t ∈ exited, (s.tasks t).state = .dead := by
  intro hall
  have h0 : ExitRun (fun _ _ _ => True) (Scheduler.new fun t => Task.new t 1) [] [] := .new _ (fun _ => Nat.zero_le _)
  have h1 := h0.step (.add 0) trivial (by simp [SchedOp.adds]) rfl
  have h2 := h1.step (.add 1) trivial (by simp [SchedOp.adds]) rfl
  have h3 := h2.step .exit trivial (by simp [SchedOp.adds]) rfl
  have hdead := hall _ _ _ h3 0 (by decide)
  revert hdead
  decide

end run

end Hammam
