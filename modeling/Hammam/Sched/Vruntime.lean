import Hammam.Sched.Conservation

/-!
# Virtual run times

`tick` charges run time to the current task, and `pick_next` is meant to choose the task that has been charged least.
But `pick_next` takes `current` out before it queues the outgoing task again, so a live task goes back at
`min_vruntime`: what has been charged to it since it was picked is lost, and it is picked once more.  The choice is by
run time, and no run time is lost, exactly in the states in which there is nothing to lose (`Settled`) and `pick_next`
returns at all (`Room`).
-/

namespace Hammam

namespace Scheduler

/-- The tasks that `pick_next` chooses from: the outgoing one, unless it is dead, and those in the queue. -/
def contenders (s : Scheduler) : List TaskRef :=
  (s.current.toList.filter fun c => (s.tasks c).state ≠ .dead) ++ s.runQueue.values

/-- A live current task has not been charged since it was picked, or no other task is waiting. -/
def Settled (s : Scheduler) : Prop :=
  ∀ c, s.current = some c → s.runQueue.entries = [] ∨ (s.tasks c).state = .dead ∨ (s.tasks c).vruntime = s.minVruntime

/-- What a tick charges to `c`. -/
def increment (s : Scheduler) (c : TaskRef) : Nat := 1000000 / weight (s.tasks c).priority

/-- No run time is lower in `s'` than in `s`. -/
def NotLowered (s s' : Scheduler) : Prop := ∀ t, (s.tasks t).vruntime ≤ (s'.tasks t).vruntime

/-- The current task of `s'` is a contender of `s` whose run time in `s` is the smallest. -/
def PickedLeast (s s' : Scheduler) : Prop :=
  ∃ n ∈ s.contenders, s'.current = some n ∧ ∀ t ∈ s.contenders, (s.tasks n).vruntime ≤ (s.tasks t).vruntime

end Scheduler

open Scheduler

/-- A call on the scheduler. -/
inductive SchedCall
  | add (t : TaskRef)
  | pick
  | schedule
  | tick
  | tickNow
  | exit
  deriving DecidableEq, Repr

namespace SchedCall

def apply (s : Scheduler) : SchedCall → Option Scheduler
  | .add t => s.addTask t
  | .pick => s.pickNext.map Prod.snd
  | .schedule => s.schedule.map Prod.snd
  | .tick => s.tick.map Prod.snd
  | .tickNow => s.tickNow.map Prod.snd
  | .exit => s.exitCurrent.map Prod.snd

/-- The tasks that the call adds. -/
def adds : SchedCall → List TaskRef
  | .add t => [t]
  | _ => []

/-- What the call charges to `t`. -/
def charges (s : Scheduler) (t : TaskRef) : SchedCall → Nat
  | .tick | .tickNow => if s.current = some t then s.increment t else 0
  | _ => 0

/-- A tick charges in full, and if it ends the quantum there is nothing to lose. -/
def FairTick (s : Scheduler) : Prop :=
  ∀ c, s.current = some c → (s.tasks c).vruntime + s.increment c ≤ u64Max ∧
    (quantumTicks ≤ s.currentTicks + 1 → s.runQueue.entries = [] ∨ (s.tasks c).state = .dead)

/-- The call loses no run time: a task that is queued gets the first free key, and this is not below its run time; a
tick charges in full; and a task is picked when there is nothing to lose and a key for the outgoing one. -/
def Fair (s : Scheduler) : SchedCall → Prop
  | .add t => s.current ≠ none → (∃ k, s.startKey ≤ k ∧ k ≤ u64Max ∧ s.runQueue.contains k = false) ∧
      ∀ k, s.startKey ≤ k → k < (s.tasks t).vruntime → s.runQueue.contains k = true
  | .pick | .schedule => s.Settled ∧ s.Room
  | .tick | .tickNow => FairTick s
  | .exit => True

end SchedCall

/-- The runs of a scheduler, with what has been charged to each task so far; `P` holds of every call and the state
before it.  A task is added only while it is not held. -/
inductive ChargeRun (P : Scheduler → SchedCall → Prop) : Scheduler → (TaskRef → Nat) → Prop
  | new (tasks : TaskRef → Task) : (∀ t, (tasks t).vruntime ≤ u64Max) → ChargeRun P (Scheduler.new tasks) fun _ => 0
  | step {s s' : Scheduler} {charged : TaskRef → Nat} (call : SchedCall) :
    ChargeRun P s charged → P s call → (∀ t ∈ call.adds, t ∉ s.held) → call.apply s = some s' →
    ChargeRun P s' fun t => charged t + call.charges s t

/-! ### The invariant of the scheduler -/

section Invariant

variable {s s' : Scheduler}

theorem SchedCall.inv (h : SchedInv s) {call : SchedCall} (hnew : ∀ t ∈ call.adds, t ∉ s.held)
    (ha : call.apply s = some s') : SchedInv s' := by
  cases call with
  | add t => exact h.addTask (hnew t (List.mem_singleton_self t)) ha
  | pick =>
    obtain ⟨⟨r, s₁⟩, hp, rfl⟩ := Option.map_eq_some_iff.1 ha
    exact h.pickNext hp
  | schedule =>
    obtain ⟨⟨r, s₁⟩, hp, rfl⟩ := Option.map_eq_some_iff.1 ha
    exact h.scheduleLocked hp
  | tick =>
    obtain ⟨⟨r, s₁⟩, hp, rfl⟩ := Option.map_eq_some_iff.1 ha
    exact (h.tick hp).1
  | tickNow =>
    obtain ⟨⟨r, s₁⟩, hp, rfl⟩ := Option.map_eq_some_iff.1 ha
    exact (h.tickNow hp).1
  | exit =>
    obtain ⟨⟨r, s₁⟩, hp, rfl⟩ := Option.map_eq_some_iff.1 ha
    exact h.killCurrent.scheduleLocked hp

theorem ChargeRun.inv {P : Scheduler → SchedCall → Prop} {charged : TaskRef → Nat} (h : ChargeRun P s charged) :
    SchedInv s := by
  induction h with
  | new tasks ht => exact SchedInv.new ht
  | step call _ _ hnew ha ih => exact call.inv ih hnew ha

end Invariant

/-! ### What a call does to the run times -/

section Calls

variable {s s' : Scheduler} {c : TaskRef}

theorem vruntime_setVruntime (s : Scheduler) (t u : TaskRef) (v : Nat) :
    ((s.setVruntime t v).tasks u).vruntime = if u = t then v else (s.tasks u).vruntime := by
  by_cases e : u = t
  · subst e
    simp [setVruntime]
  · simp [setVruntime, e]

theorem pickNext_vruntime (h : SchedInv s) (hs : s.Settled) {r : Option TaskRef} (hp : s.pickNext = some (r, s'))
    (t : TaskRef) : (s'.tasks t).vruntime = (s.tasks t).vruntime := by
  rcases h.pickNext_cases hp with ⟨-, -, rfl⟩ | ⟨c, hc, hl, hq, -, rfl⟩ | ⟨c, k, n, -, -, -, -, rfl⟩
  · rfl
  · rw [vruntime_setVruntime]
    split
    · rename_i e
      subst e
      exact (((hs t hc).resolve_left hq).resolve_left hl).symm
    · rfl
  · rfl

theorem scheduleLocked_vruntime (h : SchedInv s) (hs : s.Settled) {r : Option (TaskRef × TaskRef)}
    (hp : s.scheduleLocked = some (r, s')) (t : TaskRef) : (s'.tasks t).vruntime = (s.tasks t).vruntime := by
  rcases SchedInv.scheduleLocked_pick hp with ⟨-, rfl⟩ | ⟨n, s₁, hpick, -, -, -, hv⟩
  · rfl
  · rw [hv, pickNext_vruntime h hs hpick]

theorem countTick_vruntime (h : SchedInv s) (hs : quantumTicks ≤ s.currentTicks + 1 → s.Settled)
    {r : Option (TaskRef × TaskRef)} (hp : s.countTick = some (r, s')) (t : TaskRef) :
    (s'.tasks t).vruntime = (s.tasks t).vruntime := by
  unfold Scheduler.countTick at hp
  simp only at hp
  split at hp
  · rename_i hq
    exact scheduleLocked_vruntime (h.ticks 0) (hs (hq.trans (Nat.min_le_left _ _))) hp t
  · cases hp
    rfl

/-- A fair tick of a current task charges it in full and changes no other run time. -/
theorem charge_vruntime (h : SchedInv s) (hc : s.current = some c) (hf : SchedCall.FairTick s)
    {r : Option (TaskRef × TaskRef)} (hp : (s.charge c).countTick = some (r, s')) (t : TaskRef) :
    (s'.tasks t).vruntime = (s.tasks t).vruntime + if s.current = some t then s.increment t else 0 := by
  obtain ⟨hfit, hend⟩ := hf c hc
  have hsettled : quantumTicks ≤ s.currentTicks + 1 → (s.charge c).Settled := by
    intro hq d hd
    obtain rfl : c = d := Option.some.inj (hc.symm.trans hd)
    have hst : ((s.charge c).tasks c).state = (s.tasks c).state := state_setVruntime _ _ _ _
    rw [hst]
    exact (hend hq).imp_right Or.inl
  rw [countTick_vruntime (h.charge hc) hsettled hp, Scheduler.charge, vruntime_setVruntime]
  by_cases e : t = c
  · subst e
    rw [if_pos rfl, if_pos hc, satAdd]
    exact Nat.min_eq_left hfit
  · have hne : s.current ≠ some t := by
      rw [hc]
      exact fun he => e (Option.some.inj he).symm
    rw [if_neg e, if_neg hne, Nat.add_zero]

theorem tick_vruntime (h : SchedInv s) (hf : SchedCall.FairTick s) {r : Option (TaskRef × TaskRef)}
    (hp : s.tick = some (r, s')) (t : TaskRef) :
    (s'.tasks t).vruntime = (s.tasks t).vruntime + if s.current = some t then s.increment t else 0 := by
  unfold Scheduler.tick at hp
  cases hc : s.current with
  | none =>
    rw [hc] at hp
    cases hp
    simp
  | some c =>
    rw [hc] at hp
    rw [← hc]
    exact charge_vruntime h hc hf hp t

theorem tickNow_vruntime (h : SchedInv s) (hf : SchedCall.FairTick s) {r : Option (TaskRef × TaskRef)}
    (hp : s.tickNow = some (r, s')) (t : TaskRef) :
    (s'.tasks t).vruntime = (s.tasks t).vruntime + if s.current = some t then s.increment t else 0 := by
  unfold Scheduler.tickNow at hp
  cases hc : s.current with
  | none =>
    rw [hc] at hp
    rw [countTick_vruntime h (fun _ d hd => absurd (hc.symm.trans hd) (by simp)) hp]
    simp
  | some c =>
    rw [hc] at hp
    rw [← hc]
    exact charge_vruntime h hc hf hp t

theorem addTask_vruntime (h : SchedInv s) {t : TaskRef} (hf : (SchedCall.add t).Fair s) (ha : s.addTask t = some s') :
    s.NotLowered s' := by
  intro u
  cases hc : s.current with
  | none =>
    rw [Scheduler.addTask, hc] at ha
    cases ha
    exact Nat.le_refl _
  | some c =>
    obtain ⟨key, hfree, hstart, -, rfl⟩ := h.addTask_some hc ha
    show (s.tasks u).vruntime ≤ ((s.setVruntime t key).tasks u).vruntime
    rw [vruntime_setVruntime]
    split
    · rename_i e
      subst e
      -- a key below the run time would be taken
      by_contra hlt
      have := (hf (by rw [hc]; simp)).2 key hstart (by omega)
      rw [hfree] at this
      cases this
    · exact Nat.le_refl _

theorem settled_killCurrent (s : Scheduler) : s.killCurrent.Settled :=
  fun _ hc => Or.inr (Or.inl (SchedInv.killCurrent_dead hc))

theorem vruntime_killCurrent (s : Scheduler) (t : TaskRef) :
    (s.killCurrent.tasks t).vruntime = (s.tasks t).vruntime := by
  unfold killCurrent
  split
  · rfl
  · exact SchedInv.vruntime_setState _ _ _ _

/-- A fair call adds to every run time at least what it charges. -/
theorem SchedCall.vruntime (h : SchedInv s) {call : SchedCall} (hf : call.Fair s) (ha : call.apply s = some s')
    (t : TaskRef) : (s.tasks t).vruntime + call.charges s t ≤ (s'.tasks t).vruntime := by
  cases call with
  | add u => exact addTask_vruntime h hf ha t
  | pick =>
    obtain ⟨⟨r, s₁⟩, hp, rfl⟩ := Option.map_eq_some_iff.1 ha
    exact (pickNext_vruntime h hf.1 hp t).ge
  | schedule =>
    obtain ⟨⟨r, s₁⟩, hp, rfl⟩ := Option.map_eq_some_iff.1 ha
    exact (scheduleLocked_vruntime h hf.1 hp t).ge
  | tick =>
    obtain ⟨⟨r, s₁⟩, hp, rfl⟩ := Option.map_eq_some_iff.1 ha
    exact (tick_vruntime h hf hp t).ge
  | tickNow =>
    obtain ⟨⟨r, s₁⟩, hp, rfl⟩ := Option.map_eq_some_iff.1 ha
    exact (tickNow_vruntime h hf hp t).ge
  | exit =>
    obtain ⟨⟨r, s₁⟩, hp, rfl⟩ := Option.map_eq_some_iff.1 ha
    have := scheduleLocked_vruntime h.killCurrent (settled_killCurrent s) hp t
    rw [vruntime_killCurrent] at this
    exact this.ge

theorem fairTick_room (hf : SchedCall.FairTick s) : quantumTicks ≤ s.currentTicks + 1 → s.Room :=
  fun hq c hc => ((hf c hc).2 hq).imp_right Or.inl

/-- A fair call returns. -/
theorem SchedCall.apply_isSome (h : SchedInv s) {call : SchedCall} (hf : call.Fair s) :
    ∃ s', call.apply s = some s' := by
  cases call with
  | add t =>
    show ∃ s', s.addTask t = some s'
    unfold Scheduler.addTask
    cases hc : s.current with
    | none => exact ⟨_, rfl⟩
    | some c =>
      obtain ⟨⟨k, h1, h2, hfree⟩, -⟩ := hf (by rw [hc]; simp)
      obtain ⟨key, hk⟩ : ∃ key, searchKey s.runQueue s.startKey = some key := by
        refine Option.isSome_iff_exists.1 (Option.isSome_iff_ne_none.2 fun hnone => ?_)
        rw [searchKey_full hnone h1 h2] at hfree
        cases hfree
      exact ⟨_, by rw [insertTaskIntoQueue_eq, hk]; rfl⟩
  | pick =>
    obtain ⟨r, hr⟩ := h.pickNext_isSome_iff.2 hf.2
    exact ⟨_, Option.map_eq_some_iff.2 ⟨r, hr, rfl⟩⟩
  | schedule =>
    obtain ⟨r, hr⟩ := h.scheduleLocked_isSome hf.2
    exact ⟨_, Option.map_eq_some_iff.2 ⟨r, hr, rfl⟩⟩
  | tick =>
    obtain ⟨r, hr⟩ := h.tick_isSome (fairTick_room hf)
    exact ⟨_, Option.map_eq_some_iff.2 ⟨r, hr, rfl⟩⟩
  | tickNow =>
    obtain ⟨r, hr⟩ := h.tickNow_isSome (fairTick_room hf)
    exact ⟨_, Option.map_eq_some_iff.2 ⟨r, hr, rfl⟩⟩
  | exit =>
    obtain ⟨r, hr⟩ := h.killCurrent.scheduleLocked_isSome
      fun _ hc => Or.inr (Or.inl (SchedInv.killCurrent_dead hc))
    exact ⟨_, Option.map_eq_some_iff.2 ⟨r, hr, rfl⟩⟩

end Calls

/-! ### The choice -/

section Choice

variable {s s' : Scheduler}

theorem mem_contenders {t : TaskRef} :
    t ∈ s.contenders ↔ (s.current = some t ∧ (s.tasks t).state ≠ .dead) ∨ ∃ k, s.runQueue.get? k = some t := by
  simp only [contenders, List.mem_append, List.mem_filter, Option.mem_toList, SortedMap.mem_values, decide_eq_true_eq]

/-- A call of `pick_next` with other tasks waiting that returns chooses by run time and loses none exactly in settled
states. -/
theorem pickNext_fair_iff (h : SchedInv s) {r : Option TaskRef} (hp : s.pickNext = some (r, s'))
    (hq : s.runQueue.entries ≠ []) : s.PickedLeast s' ∧ s.NotLowered s' ↔ s.Settled := by
  constructor
  · intro hfair c hc
    rcases h.pickNext_cases hp with ⟨he, -⟩ | ⟨d, hd, -, -, -, rfl⟩ | ⟨d, k, n, hd, hdead, -⟩
    · exact Or.inl he
    · -- the outgoing task has lost what lies above `min_vruntime`
      obtain rfl : c = d := Option.some.inj (hc.symm.trans hd)
      have hle := hfair.2 c
      rw [vruntime_setVruntime, if_pos rfl] at hle
      exact Or.inr (Or.inr (Nat.le_antisymm hle (h.min_le hc)))
    · obtain rfl : c = d := Option.some.inj (hc.symm.trans hd)
      exact Or.inr (Or.inl hdead)
  · intro hs
    refine ⟨?_, fun t => (pickNext_vruntime h hs hp t).ge⟩
    rcases h.pickNext_cases hp with ⟨he, -⟩ | ⟨c, hc, hl, -, -, rfl⟩ | ⟨c, k, n, hc, hdead, hf, -, rfl⟩
    · exact absurd he hq
    · have hmin := ((hs c hc).resolve_left hq).resolve_left hl
      refine ⟨c, mem_contenders.2 (Or.inl ⟨hc, hl⟩), hc, fun t ht => ?_⟩
      rw [hmin]
      obtain ⟨ht, -⟩ | ⟨k, hk⟩ := mem_contenders.1 ht
      · exact h.min_le ht
      · rw [h.key hk]
        have := h.min_lt hk
        omega
    · obtain ⟨hget, hleast⟩ := SortedMap.first?_eq_some.1 hf
      refine ⟨n, mem_contenders.2 (Or.inr ⟨k, hget⟩), rfl, fun t ht => ?_⟩
      rw [h.key hget]
      obtain ⟨ht, hl⟩ | ⟨k', hk'⟩ := mem_contenders.1 ht
      · obtain rfl : c = t := Option.some.inj (hc.symm.trans ht)
        exact absurd hdead hl
      · rw [h.key hk']
        exact hleast k' t hk'

end Choice

/-- In every state of every run with other tasks waiting `pick_next` returns, chooses by run time and lowers none
exactly if the state is settled and there is a key for the outgoing task; and in every run of fair calls a task's run
time is at least what has been charged to it, every fair call returns, and none of them lowers a run time. -/
theorem vruntime_fair {P : Scheduler → SchedCall → Prop} {s : Scheduler} {charged : TaskRef → Nat}
    (h : ChargeRun P s charged) :
    (s.runQueue.entries ≠ [] →
      ((∃ r s', s.pickNext = some (r, s') ∧ s.PickedLeast s' ∧ s.NotLowered s') ↔ s.Settled ∧ s.Room)) ∧
    ((∀ s call, P s call → call.Fair s) → (∀ t, charged t ≤ (s.tasks t).vruntime) ∧
      ∀ call, P s call → ∃ s', call.apply s = some s' ∧ s.NotLowered s') := by
  refine ⟨fun hq => ⟨?_, ?_⟩, fun hfair => ⟨?_, fun call hP => ?_⟩⟩
  · intro ⟨r, s', hp, hleast⟩
    exact ⟨(pickNext_fair_iff h.inv hp hq).1 hleast, h.inv.pickNext_isSome_iff.1 ⟨_, hp⟩⟩
  · intro ⟨hs, hroom⟩
    obtain ⟨⟨r, s'⟩, hp⟩ := h.inv.pickNext_isSome_iff.2 hroom
    exact ⟨r, s', hp, (pickNext_fair_iff h.inv hp hq).2 hs⟩
  · induction h with
    | new tasks ht => exact fun t => Nat.zero_le _
    | step call hr hP _ ha ih =>
      intro t
      exact (Nat.add_le_add_right (ih t) _).trans (call.vruntime hr.inv (hfair _ _ hP) ha t)
  · obtain ⟨s', ha⟩ := SchedCall.apply_isSome h.inv (hfair _ _ hP)
    exact ⟨s', ha, fun t => (Nat.le_add_right _ _).trans (call.vruntime h.inv (hfair _ _ hP) ha t)⟩

/-- The theorem at two fresh tasks: the first one is picked again while it has been charged nothing, and is then
charged one tick. -/
theorem vruntime_fair_two : ∃ s s' charged charged',
    ChargeRun (fun s call => call.Fair s) s charged ∧ s.held = [0, 1] ∧
    (∃ r s₁, s.pickNext = some (r, s₁) ∧ s.PickedLeast s₁ ∧ s.NotLowered s₁) ∧
    SchedCall.tick.apply s = some s' ∧ ChargeRun (fun s call => call.Fair s) s' charged' ∧
    charged' 0 = 976 ∧ charged' 0 ≤ (s'.tasks 0).vruntime := by
  have r₀ : ChargeRun (fun s call => call.Fair s) (Scheduler.new fun t => Task.new t 1) _ :=
    .new _ fun t => by simp [Task.new]
  have r₁ : ChargeRun (fun s call => call.Fair s) _ _ := .step (.add 0) r₀ (fun hc => absurd rfl hc) (by decide) rfl
  have r₂ : ChargeRun (fun s call => call.Fair s) _ _ := .step (.add 1) r₁
    (fun _ => ⟨⟨1, by decide, by decide, by decide⟩, fun k _ hk => absurd hk (Nat.not_lt_zero k)⟩) (by decide) rfl
  have r₃ : ChargeRun (fun s call => call.Fair s) _ _ := .step .tick r₂
    (fun c hc => by
      obtain rfl : 0 = c := Option.some.inj hc
      exact ⟨by decide, fun hq => absurd hq (by decide)⟩) (by simp [SchedCall.adds]) rfl
  refine ⟨_, _, _, _, r₂, by decide, ((vruntime_fair r₂).1 (by decide)).2 ⟨?_, ?_⟩, rfl, r₃, by decide,
    ((vruntime_fair r₃).2 fun _ _ hf => hf).1 0⟩
  · intro c hc
    obtain rfl : 0 = c := Option.some.inj hc
    exact Or.inr (Or.inr rfl)
  · intro c hc
    exact Or.inr (Or.inr (by decide))

/-- Two fresh tasks: the first one has been charged one tick and is picked again, although the second one has the
smaller run time, and loses what it was charged. -/
theorem charged_task_picked_again : ∃ s s' charged, ChargeRun (fun _ _ => True) s charged ∧
    s.pickNext = some (some 0, s') ∧ s.contenders = [0, 1] ∧ (s.tasks 0).vruntime = 976 ∧ (s.tasks 1).vruntime = 1 ∧
    (s'.tasks 0).vruntime = 0 ∧ charged 0 = 976 ∧ ¬ s.PickedLeast s' ∧ ¬ s.NotLowered s' := by
  have r₀ : ChargeRun (fun _ _ => True) (Scheduler.new fun t => Task.new t 1) _ := .new _ fun t => by simp [Task.new]
  have r₁ : ChargeRun (fun _ _ => True) _ _ := .step (.add 0) r₀ trivial (by decide) rfl
  have r₂ : ChargeRun (fun _ _ => True) _ _ := .step (.add 1) r₁ trivial (by decide) rfl
  have r₃ : ChargeRun (fun _ _ => True) _ _ := .step .tick r₂ trivial (by simp [SchedCall.adds]) rfl
  refine ⟨_, _, _, r₃, rfl, by decide, by decide, by decide, by decide, by decide, fun h => ?_, fun h => ?_⟩
  · obtain ⟨n, -, hn, hle⟩ := h
    obtain rfl : 0 = n := Option.some.inj hn
    exact absurd (hle 1 (by decide)) (by decide)
  · exact absurd (h 0) (by decide)

end Hammam
