import Mathlib.Data.List.Induction
import Hammam.Drivers.SpinMutex
import Hammam.Sched.Exit

/-!
# The scheduler behind its lock (`sched/mod.rs`, `SCHEDULER`)

Every call on the scheduler is one critical section: the guard is dropped at the end of the block that computes the
pair of contexts, before `switch_context`.  Threads that call the scheduler in any order therefore leave it in a
state that the calls also reach one after the other, and no task is lost or queued twice.
-/

namespace Hammam

/-- The functions that lock `SCHEDULER` to change it. -/
inductive LockedCall
  | scheduleNow
  | tickNow
  | exitCurrent
  | addTask (t : TaskRef)
  deriving DecidableEq, Repr

/-- The first statement of `tick_now`. -/
def Scheduler.chargeCurrent (s : Scheduler) : Scheduler :=
  match s.current with
  | none => s
  | some c => s.charge c

namespace LockedCall

open Critical

/-- What is done with the guard, statement by statement. -/
def body : LockedCall → Critical Scheduler (Option (TaskRef × TaskRef))
  | scheduleNow => ofOp Scheduler.schedule
  | tickNow =>
    access Scheduler.chargeCurrent fun _ =>
      access (fun s => { s with currentTicks := min (s.currentTicks + 1) 255 }) fun _ =>
        access id fun s =>
          if quantumTicks ≤ s.currentTicks then
            access (fun s => { s with currentTicks := 0 }) fun _ => ofOp Scheduler.schedule
          else done none
  | exitCurrent => access Scheduler.killCurrent fun _ => ofOp Scheduler.schedule
  | addTask t => ofOp fun s => (s.addTask t).map fun s' => (none, s')

def adds : LockedCall → List TaskRef
  | addTask t => [t]
  | _ => []

/-- The section as an operation of the scheduler. -/
def apply (s : Scheduler) : LockedCall → Option (Option (TaskRef × TaskRef) × Scheduler)
  | scheduleNow => s.schedule
  | tickNow => s.tickNow
  | exitCurrent => s.exitCurrent
  | addTask t => (s.addTask t).map fun s' => (none, s')

theorem run_body (call : LockedCall) (s : Scheduler) : call.body.run s = (call.apply s).map fun p => (p.2, p.1) := by
  cases call with
  | scheduleNow => exact run_ofOp _ _
  | exitCurrent => exact run_ofOp _ _
  | addTask t => exact run_ofOp _ _
  | tickNow =>
    have hcount : ∀ s : Scheduler, (access (fun s => { s with currentTicks := min (s.currentTicks + 1) 255 }) fun _ =>
        access id fun s =>
          if quantumTicks ≤ s.currentTicks then
            access (fun s => { s with currentTicks := 0 }) fun _ => ofOp Scheduler.schedule
          else done none).run s = s.countTick.map fun p => (p.2, p.1) := by
      intro s
      simp only [run_access, id_eq, Scheduler.countTick]
      split
      · exact run_ofOp _ _
      · rfl
    rw [body, run_access, hcount, apply, Scheduler.tickNow, Scheduler.chargeCurrent]
    cases s.current <;> rfl

theorem run_body_eq_some {call : LockedCall} {s s' : Scheduler} {r : Option (TaskRef × TaskRef)} :
    call.body.run s = some (s', r) ↔ call.apply s = some (r, s') := by
  rw [run_body, Option.map_eq_some_iff]
  constructor
  · rintro ⟨p, hp, he⟩
    cases he
    exact hp
  · exact fun h => ⟨_, h, rfl⟩

end LockedCall

section Contended

variable {ι : Type}

/-- A history of calls as the sections that it enters. -/
def sections (calls : List (ι × LockedCall)) : List (ι × Critical Scheduler (Option (TaskRef × TaskRef))) :=
  calls.map fun p => (p.1, p.2.body)

def addedBy (calls : List (ι × LockedCall)) : List TaskRef := calls.flatMap fun p => p.2.adds

/-- One of the calls is `exit_current`, at a moment at which `t` is the current task. -/
def ExitedIn (s : Scheduler) (calls : List (ι × LockedCall)) (t : TaskRef) : Prop :=
  ∃ (before : List (ι × LockedCall)) (i : ι) (b : Scheduler) (rs : List (ι × Option (TaskRef × TaskRef))),
    before ++ [(i, .exitCurrent)] <+: calls ∧ Critical.replay s (sections before) = some (b, rs) ∧ b.current = some t

theorem exitedIn_concat {s b : Scheduler} {calls : List (ι × LockedCall)} {rs : List (ι × Option (TaskRef × TaskRef))}
    (hb : Critical.replay s (sections calls) = some (b, rs)) (i : ι) (call : LockedCall) (t : TaskRef) :
    ExitedIn s (calls ++ [(i, call)]) t ↔ (call = .exitCurrent ∧ b.current = some t) ∨ ExitedIn s calls t := by
  constructor
  · rintro ⟨before, j, b', rs', hpre, hb', hcur⟩
    rcases List.prefix_concat_iff.1 hpre with he | hpre
    · obtain ⟨rfl, hp⟩ := List.append_inj' he rfl
      rw [hb] at hb'
      cases hb'
      cases hp
      exact Or.inl ⟨rfl, hcur⟩
    · exact Or.inr ⟨before, j, b', rs', hpre, hb', hcur⟩
  · rintro (⟨rfl, hcur⟩ | ⟨before, j, b', rs', hpre, hb'⟩)
    · exact ⟨calls, i, b, rs, List.prefix_refl _, hb, hcur⟩
    · exact ⟨before, j, b', rs', hpre.trans (List.prefix_append _ _), hb'⟩

theorem sections_concat (calls : List (ι × LockedCall)) (i : ι) (call : LockedCall) :
    sections (calls ++ [(i, call)]) = sections calls ++ [(i, call.body)] := by
  rw [sections, List.map_append]
  rfl

end Contended

/-! ### What one call keeps -/

/-- Every task that was added is held or has exited, and only tasks that have exited bear the mark. -/
structure Accounted (s : Scheduler) (added gone : List TaskRef) : Prop where
  inv : ExitInv s added gone
  dead : ∀ t, (s.tasks t).state = .dead → t ∈ gone
  kept : ∀ t ∈ added, t ∈ s.held ∨ t ∈ gone

namespace Accounted

variable {s s' : Scheduler} {added gone : List TaskRef} {r : Option (TaskRef × TaskRef)}

theorem calm (h : Accounted s added gone) (hi : SchedInv s') (hq : s'.runQueue = s.runQueue)
    (hc : s'.current = s.current) (hst : ∀ t, (s'.tasks t).state = (s.tasks t).state) : Accounted s' added gone := by
  refine ⟨h.inv.congr hi hq hc hst, fun t ht => h.dead t (by rw [← hst]; exact ht), ?_⟩
  rw [Scheduler.held, hq, hc]
  exact h.kept

theorem schedule (h : Accounted s added gone) (hs : s.schedule = some (r, s')) : Accounted s' added gone := by
  refine ⟨h.inv.scheduleLocked hs, fun t ht => ?_, fun t ht => ?_⟩
  · rcases h.inv.inv.scheduleLocked_cases hs with ⟨-, -, -, -, -, hst⟩ | ⟨c, k, n, -, -, -, hne, -, rfl⟩
    · exact h.dead t (by rw [← hst]; exact ht)
    · rw [Scheduler.state_switched s hne] at ht
      split at ht
      · cases ht
      · split at ht
        · cases ht
        · exact h.dead t ht
  · rcases h.kept t ht with hheld | hgone
    · rcases List.mem_append.1 ((h.inv.inv.held_scheduleLocked hs).mem_iff.1 hheld) with hheld | hdrop
      · exact Or.inl hheld
      · refine Or.inr (h.dead t ?_)
        unfold Scheduler.drops at hdrop
        split at hdrop
        · cases hdrop
        · split at hdrop
          · rename_i hd
            rw [List.mem_singleton.1 hdrop]
            exact hd.1
          · cases hdrop
    · exact Or.inr hgone

theorem killCurrent (h : Accounted s added gone) :
    Accounted s.killCurrent added (s.current.toList ++ gone) := by
  refine ⟨h.inv.killCurrent, fun t ht => ?_, fun t ht => ?_⟩
  · unfold Scheduler.killCurrent at ht
    cases hc : s.current with
    | none =>
      simp only [hc] at ht
      exact List.mem_append_right _ (h.dead t ht)
    | some c =>
      simp only [hc, Scheduler.state_setState] at ht
      split at ht
      · rename_i e
        simp [e]
      · exact List.mem_append_right _ (h.dead t ht)
  · rw [SchedInv.held_killCurrent]
    exact (h.kept t ht).imp_right (List.mem_append_right _)

theorem addTask (h : Accounted s added gone) {t : TaskRef} (ht : t ∉ added) (ha : s.addTask t = some s') :
    Accounted s' (t :: added) gone := by
  have hheld := h.inv.inv.held_addTask ha
  refine ⟨h.inv.addTask ht ha, fun u hu => ?_, fun u hu => ?_⟩
  · rw [(ExitInv.addTask_frame h.inv.inv ha).1 u] at hu
    exact h.dead u hu
  · rcases List.mem_cons.1 hu with rfl | hu
    · exact Or.inl (hheld.mem_iff.2 List.mem_cons_self)
    · exact (h.kept u hu).imp_left fun hm => hheld.mem_iff.2 (List.mem_cons_of_mem _ hm)

theorem countTick (h : Accounted s added gone) (hs : s.countTick = some (r, s')) : Accounted s' added gone := by
  have hticks : ∀ n, Accounted { s with currentTicks := n } added gone := fun n =>
    h.calm (h.inv.inv.ticks n) rfl rfl fun _ => rfl
  unfold Scheduler.countTick at hs
  simp only at hs
  split at hs
  · exact (hticks 0).schedule hs
  · cases hs
    exact hticks _

theorem call (h : Accounted s added gone) {call : LockedCall} (hnew : ∀ t ∈ call.adds, t ∉ added)
    (hs : call.apply s = some (r, s')) :
    Accounted s' (call.adds ++ added) (if call = .exitCurrent then s.current.toList ++ gone else gone) := by
  cases call with
  | scheduleNow => exact h.schedule hs
  | exitCurrent => exact h.killCurrent.schedule hs
  | addTask t =>
    simp only [LockedCall.apply, Option.map_eq_some_iff, Prod.mk.injEq] at hs
    obtain ⟨s₁, ha, -, rfl⟩ := hs
    exact h.addTask (hnew t (List.mem_singleton_self t)) ha
  | tickNow =>
    rw [LockedCall.apply, Scheduler.tickNow] at hs
    cases hc : s.current with
    | none =>
      simp only [hc] at hs
      exact h.countTick hs
    | some c =>
      simp only [hc] at hs
      exact (h.calm (h.inv.inv.charge hc) rfl rfl fun t => Scheduler.state_setVruntime s c t _).countTick hs

end Accounted

/-! ### What a history keeps -/

section Contended

variable {ι : Type}

/-- The calls one after the other, from a new scheduler. -/
theorem accounted_of_replay {tasks : TaskRef → Task}
    (htasks : ∀ t, (tasks t).vruntime ≤ u64Max ∧ (tasks t).state ≠ .dead)
    {calls : List (ι × LockedCall)} (hnew : (addedBy calls).Nodup) {s : Scheduler}
    {rs : List (ι × Option (TaskRef × TaskRef))}
    (h : Critical.replay (Scheduler.new tasks) (sections calls) = some (s, rs)) :
    ∃ added gone, Accounted s added gone ∧ (∀ t, t ∈ added ↔ t ∈ addedBy calls) ∧
      ∀ t, t ∈ gone ↔ ExitedIn (Scheduler.new tasks) calls t := by
  induction calls using List.reverseRecOn generalizing s rs with
  | nil =>
    cases h
    refine ⟨[], [], ⟨⟨SchedInv.new fun t => (htasks t).1, ?_, ?_, ?_, ?_⟩, ?_, ?_⟩, ?_, ?_⟩
    · exact fun t ht => by cases ht
    · exact fun t ht => by cases ht
    · exact fun t ht => by cases ht
    · exact fun t ht => by cases ht
    · exact fun t ht => absurd ht (htasks t).2
    · exact fun t ht => by cases ht
    · exact fun t => by simp [addedBy]
    · intro t
      refine iff_of_false List.not_mem_nil ?_
      rintro ⟨before, i, b, rs, hpre, -⟩
      simp at hpre
  | append_singleton calls p ih =>
    obtain ⟨i, call⟩ := p
    rw [sections_concat] at h
    obtain ⟨b, r, rs', hb, hc, -⟩ := Critical.replay_concat_eq_some.1 h
    have hsplit : addedBy (calls ++ [(i, call)]) = addedBy calls ++ call.adds := by simp [addedBy]
    rw [hsplit] at hnew
    obtain ⟨hn1, -, hn2⟩ := List.nodup_append.1 hnew
    obtain ⟨added, gone, hacc, hadded, hgone⟩ := ih hn1 hb
    have hfresh : ∀ t ∈ call.adds, t ∉ added := fun t ht hm => hn2 t ((hadded t).1 hm) t ht rfl
    refine ⟨_, _, hacc.call hfresh (LockedCall.run_body_eq_some.1 hc), fun t => ?_, fun t => ?_⟩
    · rw [hsplit, List.mem_append, List.mem_append, hadded, or_comm]
    · rw [exitedIn_concat hb, ← hgone]
      split
      · rename_i e
        simp [e]
      · rename_i e
        simp [e]

open Threads in
/-- However the threads that call the scheduler take turns, whenever the lock is free the scheduler is in a
consistent state, it holds only tasks that were added, each of them once, and every task that was added is still
held unless it was the current task of some `exit_current`; such a task is not queued. -/
theorem scheduler_contended [DecidableEq ι] {weak : Bool} {tasks : TaskRef → Task}
    (htasks : ∀ t, (tasks t).vruntime ≤ u64Max ∧ (tasks t).state ≠ .dead)
    {s : Threads ι Scheduler (Option (TaskRef × TaskRef))} (h : Reached weak (Scheduler.new tasks) s)
    {calls : List (ι × LockedCall)} (hcalls : s.entered = sections calls) (hnew : (addedBy calls).Nodup)
    (hfree : s.mutex.locked = false) :
    SchedInv s.mutex.data ∧ s.mutex.data.held.Nodup ∧ (∀ t ∈ s.mutex.data.held, t ∈ addedBy calls) ∧
      (∀ t ∈ addedBy calls, t ∈ s.mutex.data.held ∨ ExitedIn (Scheduler.new tasks) calls t) ∧
      ∀ t, ExitedIn (Scheduler.new tasks) calls t → t ∉ s.mutex.data.runQueue.values := by
  have hser := h.serial
  cases hser with
  | held hl _ _ _ => rw [hfree] at hl; cases hl
  | free _ _ hr =>
    rw [hcalls] at hr
    obtain ⟨added, gone, hacc, hadded, hgone⟩ := accounted_of_replay htasks hnew hr
    refine ⟨hacc.inv.inv, hacc.inv.inv.nodup, fun t ht => (hadded t).1 (hacc.inv.held_added t ht), fun t ht => ?_,
      fun t ht => hacc.inv.not_queued t ((hgone t).2 ht)⟩
    exact (hacc.kept t ((hadded t).2 ht)).imp_right (hgone t).1

/-- One thread adds a task while another one waits for the lock. -/
theorem scheduler_contended_two : ∃ s : Threads Bool Scheduler (Option (TaskRef × TaskRef)),
    s.phase true = .spinning LockedCall.scheduleNow.body ∧ s.mutex.data.current = some 0 ∧ SchedInv s.mutex.data := by
  have h₀ : Threads.Reached false (Scheduler.new fun t => Task.new t 1)
    (Threads.start (Scheduler.new fun t => Task.new t 1) :
      Threads Bool Scheduler (Option (TaskRef × TaskRef))) := .refl
  have h₁ := h₀.tail ⟨false, .call (LockedCall.addTask 0).body rfl⟩
  have h₂ := h₁.tail ⟨true, .call LockedCall.scheduleNow.body rfl⟩
  have h₃ := h₂.tail ⟨false, .enter (c := (LockedCall.addTask 0).body) rfl rfl⟩
  have h₄ := h₃.tail ⟨true, .spin (c := LockedCall.scheduleNow.body) rfl (Or.inr rfl)⟩
  have h₅ := h₄.tail ⟨false, .access rfl⟩
  have h₆ := h₅.tail ⟨false, .access rfl⟩
  have h₇ := h₆.tail ⟨false, .leave rfl⟩
  refine ⟨_, ?_, ?_, (@scheduler_contended _ _ _ _ ?_ _ h₇ [(false, .addTask 0)] rfl ?_ rfl).1⟩
  · rfl
  · rfl
  · intro t
    simp [Task.new]
  · simp [addedBy, LockedCall.adds]

end Contended

end Hammam
