import Hammam.Sched.Conservation

/-!
# A live task is never preempted

The test `round_robin_kernel_threads` expects the tasks to take turns.  They do not: `pick_next` clears `current`
before it puts the outgoing task back, so that task is keyed at `min_vruntime` and not above its own run time, and it
is the first one again (`SchedInv.pickNext_live`).  From any reachable state on, at most one live task is ever made
current by `tick` and `schedule`.
-/

namespace Hammam

namespace Scheduler

/-- The tasks that are held and not dead. -/
def live (s : Scheduler) : List TaskRef := s.held.filter fun t => (s.tasks t).state ≠ .dead

/-- `k` calls of `tick`, with the tasks that are current after each of them. -/
def tickTimes : Nat → Scheduler → Option (List TaskRef × Scheduler)
  | 0, s => some ([], s)
  | k + 1, s => do
    let (_, s₁) ← s.tick
    let (l, s₂) ← tickTimes k s₁
    some (s₁.current.toList ++ l, s₂)

/-- A call of `schedule` for each number in the list, after that many calls of `tick`, with all the tasks that are
current on the way. -/
def rounds : List Nat → Scheduler → Option (List TaskRef × Scheduler)
  | [], s => some ([], s)
  | k :: ks, s => do
    let (l₁, s₁) ← tickTimes k s
    let (_, s₂) ← s₁.schedule
    let (l₂, s₃) ← rounds ks s₂
    some (l₁ ++ s₂.current.toList ++ l₂, s₃)

/-- Every live task is current at some point of the rounds `ks`. -/
def AllServed (s : Scheduler) (ks : List Nat) : Prop :=
  ∃ l s', s.rounds ks = some (l, s') ∧ ∀ t ∈ s.live, t ∈ l

/-- A yield returns a switch to another task. -/
def YieldSwitches (s : Scheduler) : Prop :=
  ∃ c n s', s.schedule = some (some (c, n), s') ∧ c ≠ n

end Scheduler

/-- Only `n` can be made current: it is current and live, or it will follow the dead task `c`. -/
structure Confined (c n : TaskRef) (s : Scheduler) : Prop where
  inv : SchedInv s
  next : (s.current = some n ∧ (s.tasks n).state ≠ .dead) ∨
    (s.current = some c ∧ (s.tasks c).state = .dead ∧ ∃ k, s.runQueue.first? = some (k, n))

namespace Confined

variable {s s' : Scheduler} {c n : TaskRef} {r : Option (TaskRef × TaskRef)}

theorem mem_current (h : Confined c n s) {t : TaskRef} (ht : t ∈ s.current.toList) : t = c ∨ t = n := by
  rcases h.next with ⟨hc, -⟩ | ⟨hc, -⟩ <;> rw [hc] at ht <;> simp at ht
  · exact Or.inr ht
  · exact Or.inl ht

/-- A live current task stays current. -/
theorem scheduleLocked_live (h : SchedInv s) (hc : s.current = some n) (hl : (s.tasks n).state ≠ .dead)
    (hs : s.scheduleLocked = some (r, s')) : r = none ∧ s'.current = some n ∧ (s'.tasks n).state ≠ .dead := by
  rcases h.scheduleLocked_cases hs with ⟨hr, -, hcur, -, -, hst⟩ | ⟨d, k, m, hd, hdead, -, -, -, -⟩
  · exact ⟨hr, hcur.trans hc, by rwa [hst]⟩
  · obtain rfl : d = n := Option.some.inj (hd.symm.trans hc)
    exact absurd hdead hl

theorem scheduleLocked (h : Confined c n s) (hs : s.scheduleLocked = some (r, s')) : Confined c n s' := by
  refine ⟨h.inv.scheduleLocked hs, Or.inl ?_⟩
  rcases h.next with ⟨hc, hl⟩ | ⟨hc, hd, k, hf⟩
  · exact (scheduleLocked_live h.inv hc hl hs).2
  · have hne : c ≠ n := by
      intro he
      subst he
      exact h.inv.not_queued hc (SortedMap.first?_eq_some.1 hf).1
    unfold Scheduler.scheduleLocked at hs
    simp only [hc, SchedInv.pickNext_dead hc hd hf, if_neg hne, Option.some.injEq, Prod.mk.injEq] at hs
    obtain ⟨-, rfl⟩ := hs
    simp [Scheduler.setState]

theorem ticks (h : Confined c n s) (k : Nat) : Confined c n { s with currentTicks := k } := ⟨h.inv.ticks k, h.next⟩

theorem state_charge (s : Scheduler) (t u : TaskRef) : ((s.charge t).tasks u).state = (s.tasks u).state :=
  Scheduler.state_setVruntime s t u _

theorem charge (h : Confined c n s) {d : TaskRef} (hd : s.current = some d) : Confined c n (s.charge d) := by
  refine ⟨h.inv.charge hd, ?_⟩
  rw [state_charge, state_charge]
  exact h.next

theorem tick (h : Confined c n s) (hs : s.tick = some (r, s')) : Confined c n s' := by
  unfold Scheduler.tick at hs
  cases hd : s.current with
  | none =>
    rw [hd] at hs
    cases hs
    exact h
  | some d =>
    simp only [hd, Scheduler.countTick] at hs
    split at hs
    · exact ((h.charge hd).ticks 0).scheduleLocked hs
    · cases hs
      exact (h.charge hd).ticks _

theorem tickTimes {k : Nat} {l : List TaskRef} (h : Confined c n s) (hs : s.tickTimes k = some (l, s')) :
    Confined c n s' ∧ ∀ t ∈ l, t = c ∨ t = n := by
  induction k generalizing s l with
  | zero =>
    cases hs
    exact ⟨h, by simp⟩
  | succ k ih =>
    simp only [Scheduler.tickTimes, Option.bind_eq_bind, Option.bind_eq_some_iff, Option.some.injEq,
      Prod.mk.injEq, Prod.exists] at hs
    obtain ⟨r, s₁, h₁, l₁, s₂, h₂, rfl, rfl⟩ := hs
    obtain ⟨hc, hl⟩ := ih (h.tick h₁) h₂
    refine ⟨hc, fun t ht => ?_⟩
    rcases List.mem_append.1 ht with ht | ht
    · exact (h.tick h₁).mem_current ht
    · exact hl t ht

theorem rounds {ks : List Nat} {l : List TaskRef} (h : Confined c n s) (hs : s.rounds ks = some (l, s')) :
    ∀ t ∈ l, t = c ∨ t = n := by
  induction ks generalizing s l with
  | nil =>
    cases hs
    simp
  | cons k ks ih =>
    simp only [Scheduler.rounds, Option.bind_eq_bind, Option.bind_eq_some_iff, Option.some.injEq,
      Prod.mk.injEq, Prod.exists] at hs
    obtain ⟨l₁, s₁, h₁, r, s₂, h₂, l₂, s₃, h₃, rfl, rfl⟩ := hs
    obtain ⟨hc₁, hl₁⟩ := h.tickTimes h₁
    have hc₂ : Confined c n s₂ := hc₁.scheduleLocked h₂
    intro t ht
    rcases List.mem_append.1 ht with ht | ht
    · rcases List.mem_append.1 ht with ht | ht
      · exact hl₁ t ht
      · exact hc₂.mem_current ht
    · exact ih hc₂ h₃ t ht

end Confined

/-- A scheduler that holds a live task is confined to one live task. -/
theorem SchedInv.confined {s : Scheduler} (h : SchedInv s) (hl : s.live ≠ []) :
    ∃ c n, Confined c n s ∧ (c = n ∨ (s.tasks c).state = .dead) := by
  cases hc : s.current with
  | none =>
    have hheld : s.held = [] := by
      simp [Scheduler.held, hc, SortedMap.values, (h.idle hc).1]
    exact absurd (by simp [Scheduler.live, hheld]) hl
  | some c =>
    by_cases hd : (s.tasks c).state = .dead
    · have hq : s.runQueue.entries ≠ [] := by
        intro hq
        exact hl (by simp [Scheduler.live, Scheduler.held, hc, hd, SortedMap.values, hq])
      obtain ⟨k, n, hf⟩ := SchedInv.first?_isSome hq
      exact ⟨c, n, ⟨h, Or.inr ⟨hc, hd, k, hf⟩⟩, Or.inr hd⟩
    · exact ⟨c, c, ⟨h, Or.inl ⟨hc, hd⟩⟩, Or.inl rfl⟩

/-- The tasks do not take turns: in no reachable state with two live tasks do any rounds of `tick` and `schedule`
serve all of them, and in none does a yield of a live current task return a switch. -/
theorem no_round_robin {s : Scheduler} {added dropped : List TaskRef}
    (h : SchedRun (fun _ => True) s added dropped) :
    (2 ≤ s.live.length → ∀ ks : List Nat, ¬ s.AllServed ks) ∧
      ∀ c, s.current = some c → (s.tasks c).state ≠ .dead → ¬ s.YieldSwitches := by
  have hi := h.inv.1
  constructor
  · intro h2 ks hfair
    obtain ⟨l, s', hr, hall⟩ := hfair
    obtain ⟨c, n, hc, hcn⟩ := hi.confined (by rintro e; simp [e] at h2)
    have hsub : s.live ⊆ [n] := by
      intro t ht
      have hlive : (s.tasks t).state ≠ .dead := by simpa using (List.mem_filter.1 ht).2
      rcases hc.rounds hr t (hall t ht) with rfl | rfl
      · rcases hcn with rfl | hd
        · simp
        · exact absurd hd hlive
      · simp
    have hle := (hi.nodup.filter _ : s.live.Nodup).length_le_of_subset hsub
    exact absurd (h2.trans hle) (by simp)
  · intro c hc hl hswitch
    obtain ⟨d, n, s', hs, -⟩ := hswitch
    have := (Confined.scheduleLocked_live hi hc hl hs).1
    cases this

/-- Two fresh tasks of equal priority. -/
def twoFresh : Option Scheduler := ((Scheduler.new fun t => Task.new t 1).addTask 0).bind (·.addTask 1)

/-- The theorem at two fresh tasks. -/
theorem no_round_robin_two :
    ∃ s, twoFresh = some s ∧ s.live = [0, 1] ∧ ¬ s.AllServed [0, 0] ∧ ¬ s.AllServed [10, 10] ∧ ¬ s.YieldSwitches := by
  have r₀ : SchedRun (fun _ => True) (Scheduler.new fun t => Task.new t 1) [] [] := .new _ fun t => by simp [Task.new]
  have r₁ : SchedRun (fun _ => True) _ [0] [] := .add r₀ trivial (by decide) rfl
  have r₂ : SchedRun (fun _ => True) _ [1, 0] [] := .add r₁ trivial (by decide) rfl
  refine ⟨_, rfl, by decide, ?_, ?_, ?_⟩
  · exact (no_round_robin r₂).1 (by decide) _
  · exact (no_round_robin r₂).1 (by decide) _
  · exact (no_round_robin r₂).2 0 rfl (by decide)

/-- Two fresh tasks, evaluated: the first one is current after every call, and the second one is never served. -/
theorem two_fresh_unfair :
    ∃ s, twoFresh = some s ∧ s.live = [0, 1] ∧ (∀ t ∈ s.live, (s.tasks t).priority = 1) ∧
      (∃ s', s.rounds [0, 0] = some ([0, 0], s')) ∧ ¬ s.AllServed [0, 0] ∧
      (∃ s', s.schedule = some (none, s')) ∧ ¬ s.YieldSwitches := by
  refine ⟨_, rfl, by decide, by decide, ⟨_, rfl⟩, ?_, ⟨_, rfl⟩, ?_⟩
  · intro h
    obtain ⟨l, s', hr, hall⟩ := h
    have hl : [0, 0] = l := congrArg Prod.fst (Option.some.inj hr)
    subst hl
    exact absurd (hall 1 (by decide)) (by decide)
  · intro h
    obtain ⟨c, n, s', hs, -⟩ := h
    have : none = some (c, n) := congrArg Prod.fst (Option.some.inj hs)
    cases this

end Hammam
