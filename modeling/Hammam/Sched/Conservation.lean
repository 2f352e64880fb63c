import Mathlib.Data.List.Nodup
import Hammam.Sched.Scheduler

/-!
# No task is lost or duplicated

`pick_next` re-keys the outgoing task at `min_vruntime`.  Every queued key is larger than `min_vruntime` (the key at
which the current task was picked), so that key is free and again the smallest: a live current task is picked again
(`pickNext_live`), and only a dead current task makes room for another one (`pickNext_dead`).  These two facts and the
search for a free key determine every operation of the scheduler; the invariant `SchedInv` follows from them for all
runs.
-/

namespace Hammam

/-! ### The search for a free key -/

private theorem probe_free {q : SortedMap Nat TaskRef} {fuel key k : Nat} (h : probe q fuel key = some k) :
    q.contains k = false ∧ (key ≤ u64Max → key ≤ k ∧ k ≤ u64Max) := by
  induction fuel generalizing key with
  | zero => cases h
  | succ fuel ih =>
    unfold probe at h
    split at h
    · obtain ⟨h1, h2⟩ := ih h
      refine ⟨h1, fun hk => ?_⟩
      have := h2 (Nat.min_le_right _ _)
      unfold satAdd at this
      omega
    · rename_i hc
      cases h
      exact ⟨by simpa using hc, fun hk => ⟨Nat.le_refl _, hk⟩⟩

private theorem probe_none {q : SortedMap Nat TaskRef} {fuel key : Nat} (h : probe q fuel key = none) :
    ∀ i < fuel, q.contains (min (key + i) u64Max) = true ∨ u64Max < key := by
  induction fuel generalizing key with
  | zero => exact fun i hi => absurd hi (Nat.not_lt_zero i)
  | succ fuel ih =>
    unfold probe at h
    split at h
    · rename_i hc
      intro i hi
      by_cases hk : u64Max < key
      · exact Or.inr hk
      · cases i with
        | zero => exact Or.inl (by rw [Nat.add_zero, Nat.min_eq_left (Nat.le_of_not_lt hk)]; exact hc)
        | succ i =>
          rcases ih h i (by omega) with h' | h'
          · left
            have e : min (satAdd key 1 + i) u64Max = min (key + (i + 1)) u64Max := by
              unfold satAdd
              omega
            rwa [e] at h'
          · exact absurd h' (Nat.not_lt.2 (Nat.min_le_right _ _))
    · cases h

/-- A map holds at most as many keys as it has entries. -/
private theorem le_size {q : SortedMap Nat TaskRef} {key n : Nat} (h : ∀ i < n, q.contains (key + i) = true) :
    n ≤ q.size := by
  have hsub : (List.range n).map (key + ·) ⊆ q.keys := by
    intro k hk
    obtain ⟨i, hi, rfl⟩ := List.mem_map.1 hk
    exact SortedMap.mem_keys.2 (SortedMap.contains_iff.1 (h i (List.mem_range.1 hi)))
  have hnd : ((List.range n).map (key + ·)).Nodup :=
    List.Nodup.map (fun a b (hab : key + a = key + b) => Nat.add_left_cancel hab) List.nodup_range
  have := hnd.length_le_of_subset hsub
  simpa [SortedMap.keys, SortedMap.size] using this

/-- The search returns when there is room for one more key. -/
theorem searchKey_isSome {q : SortedMap Nat TaskRef} {key : Nat} (h : key + q.size ≤ u64Max) :
    ∃ k, searchKey q key = some k := by
  cases hs : searchKey q key with
  | some k => exact ⟨k, rfl⟩
  | none =>
    have hall : ∀ i < q.size + 1, q.contains (key + i) = true := by
      intro i hi
      have := probe_none hs i hi
      rw [Nat.min_eq_left (by omega)] at this
      exact this.resolve_right (by omega)
    exact absurd (le_size hall) (by omega)

/-- The search fails only when every key that it can reach is taken. -/
theorem searchKey_full {q : SortedMap Nat TaskRef} {key : Nat} (h : searchKey q key = none) {k : Nat} (h1 : key ≤ k)
    (h2 : k ≤ u64Max) : q.contains k = true := by
  have hbig : u64Max < key + q.size := by
    by_contra hle
    obtain ⟨k, hs⟩ : ∃ k, searchKey q key = some k := searchKey_isSome (by omega)
    rw [h] at hs
    cases hs
  have := (probe_none h (k - key) (by omega)).resolve_right (by omega)
  rwa [show min (key + (k - key)) u64Max = k by omega] at this

/-- The search fails exactly if it runs forever. -/
theorem searchKey_none_iff {q : SortedMap Nat TaskRef} {key : Nat} (hk : key ≤ u64Max) :
    searchKey q key = none ↔ ∀ fuel, probe q fuel key = none := by
  refine ⟨fun h fuel => ?_, fun h => h _⟩
  suffices hgen : ∀ k, key ≤ k → k ≤ u64Max → probe q fuel k = none from hgen key (Nat.le_refl _) hk
  induction fuel with
  | zero => exact fun _ _ _ => rfl
  | succ fuel ih =>
    intro k h1 h2
    unfold probe
    rw [if_pos (searchKey_full h h1 h2)]
    exact ih _ (by unfold satAdd; omega) (Nat.min_le_right _ _)

/-! ### What the operations do -/

namespace Scheduler

variable {s s' : Scheduler} {t c : TaskRef}

/-- The state with `t` queued under `key`. -/
def enqueue (s : Scheduler) (t : TaskRef) (key : Nat) : Scheduler :=
  { s.setVruntime t key with runQueue := s.runQueue.insert key t }

theorem insertTaskIntoQueue_eq (s : Scheduler) (t : TaskRef) :
    s.insertTaskIntoQueue t = (searchKey s.runQueue s.startKey).map (s.enqueue t) := by
  unfold insertTaskIntoQueue
  cases searchKey s.runQueue s.startKey with
  | none => rfl
  | some key =>
    simp only [Option.map_some, Option.some.injEq]
    split
    · rfl
    · rename_i h
      have e : s.setVruntime t key = s := by
        rw [not_not.1 h, setVruntime, Function.update_eq_self]
      rw [enqueue, e]

theorem insertTaskIntoQueue_some (h : s.insertTaskIntoQueue t = some s') :
    ∃ key, s.runQueue.contains key = false ∧ (s.startKey ≤ u64Max → s.startKey ≤ key ∧ key ≤ u64Max) ∧
      s' = s.enqueue t key := by
  rw [insertTaskIntoQueue_eq, Option.map_eq_some_iff] at h
  obtain ⟨key, hk, rfl⟩ := h
  exact ⟨key, (probe_free hk).1, (probe_free hk).2, rfl⟩

/-- The state after a switch from `c` to `n`, the task at the first key `k` of the queue. -/
def switched (s : Scheduler) (c n : TaskRef) (k : Nat) : Scheduler :=
  let s₁ := { s with runQueue := s.runQueue.erase k, minVruntime := k, current := some n }
  { (s₁.setState c .ready).setState n .running with currentTask := some n }

theorem state_setState (s : Scheduler) (t u : TaskRef) (st : TaskState) :
    ((s.setState t st).tasks u).state = if u = t then st else (s.tasks u).state := by
  by_cases e : u = t
  · subst e
    simp [setState]
  · simp [setState, e]

theorem state_setVruntime (s : Scheduler) (t u : TaskRef) (v : Nat) :
    ((s.setVruntime t v).tasks u).state = (s.tasks u).state := by
  by_cases e : u = t
  · subst e
    simp [setVruntime]
  · simp [setVruntime, e]

theorem state_switched (s : Scheduler) {c n : TaskRef} (hne : c ≠ n) (k : Nat) (u : TaskRef) :
    ((s.switched c n k).tasks u).state =
      if u = c then .ready else if u = n then .running else (s.tasks u).state := by
  simp only [switched, state_setState]
  by_cases e : u = n
  · subst e
    simp [Ne.symm hne]
  · simp [e]

end Scheduler

/-- The invariant of the scheduler. -/
structure SchedInv (s : Scheduler) : Prop where
  nodup : s.held.Nodup
  idle : s.current = none → s.runQueue.entries = [] ∧ s.minVruntime = 0
  key : ∀ {k t}, s.runQueue.get? k = some t → (s.tasks t).vruntime = k
  fits : ∀ t, (s.tasks t).vruntime ≤ u64Max
  min_le : ∀ {c}, s.current = some c → s.minVruntime ≤ (s.tasks c).vruntime
  min_lt : ∀ {k t}, s.runQueue.get? k = some t → s.minVruntime < k ∨ (s.minVruntime = u64Max ∧ k = u64Max)

namespace SchedInv

variable {s s' : Scheduler} {t c : TaskRef}

theorem not_queued (h : SchedInv s) (hc : s.current = some c) {k : Nat} : s.runQueue.get? k ≠ some c := by
  intro hk
  have hn := h.nodup
  rw [Scheduler.held, hc, Option.toList_some, List.singleton_append, List.nodup_cons] at hn
  exact hn.1 (SortedMap.mem_values.2 ⟨k, hk⟩)

theorem min_le_max (h : SchedInv s) (hc : s.current = some c) : s.minVruntime ≤ u64Max :=
  (h.min_le hc).trans (h.fits c)

theorem startKey_eq (h : SchedInv s) (hc : s.current = some c) : s.startKey = satAdd (s.tasks c).vruntime 1 := by
  have h1 := h.min_le hc
  have h2 := h.fits c
  rw [Scheduler.startKey, hc]
  simp only [satAdd]
  omega

theorem first?_isSome (hq : s.runQueue.entries ≠ []) : ∃ k n, s.runQueue.first? = some (k, n) := by
  cases hf : s.runQueue.first? with
  | none => exact absurd (List.head?_eq_none_iff.1 hf) hq
  | some p => exact ⟨p.1, p.2, rfl⟩

/-- A live current task is put back at `min_vruntime` and picked again. -/
theorem pickNext_live (h : SchedInv s) (hc : s.current = some c) (hl : (s.tasks c).state ≠ .dead)
    (hq : s.runQueue.entries ≠ []) (hm : s.minVruntime ≠ u64Max) :
    s.pickNext = some (some c, s.setVruntime c s.minVruntime) := by
  -- with `current` taken, the search starts at `min_vruntime`, which is free and below all queued keys
  have hfree : ∀ t, s.runQueue.get? s.minVruntime ≠ some t := by
    intro t ht
    have := h.min_lt ht
    omega
  have hcont : s.runQueue.contains s.minVruntime = false := by
    rw [← Bool.not_eq_true, SortedMap.contains_iff]
    exact fun ⟨t, ht⟩ => hfree t ht
  have hsearch : searchKey s.runQueue s.minVruntime = some s.minVruntime := by
    unfold searchKey probe
    rw [hcont]
    rfl
  -- so the task comes out of the queue again at once
  have hfirst : (s.runQueue.insert s.minVruntime c).first? = some (s.minVruntime, c) := by
    refine SortedMap.first?_eq_some.2 ⟨by simp [SortedMap.get?_insert], fun k t hk => ?_⟩
    rcases SortedMap.get?_of_insert hk with ⟨e, -⟩ | hk
    · exact e.ge
    · have := h.min_lt hk
      omega
  have herase : (s.runQueue.insert s.minVruntime c).erase s.minVruntime = s.runQueue :=
    SortedMap.erase_insert (Option.eq_none_iff_forall_ne_some.2 hfree) c
  have hreq : s.requeueCurrent = some ({ s with current := none }.enqueue c s.minVruntime) := by
    unfold Scheduler.requeueCurrent
    rw [hc]
    simp only [hl, ne_eq, not_false_eq_true, if_true, Scheduler.insertTaskIntoQueue_eq, Scheduler.startKey, hsearch,
      Option.map_some]
  unfold Scheduler.pickNext
  rw [if_neg (by simpa using hq), hreq]
  simp only [Option.map_some, Scheduler.takeFirst, Scheduler.enqueue, hfirst, herase, Option.some.injEq,
    Prod.mk.injEq, true_and]
  rw [Scheduler.setVruntime, Scheduler.setVruntime, hc]

/-- At `min_vruntime = u64::MAX` the search for a key of a live current task runs forever. -/
theorem pickNext_stuck (h : SchedInv s) (hc : s.current = some c) (hl : (s.tasks c).state ≠ .dead)
    (hq : s.runQueue.entries ≠ []) (hm : s.minVruntime = u64Max) : s.pickNext = none := by
  obtain ⟨k, n, hf⟩ := first?_isSome hq
  have hk := (SortedMap.first?_eq_some.1 hf).1
  have hcont : s.runQueue.contains u64Max = true := by
    refine SortedMap.contains_iff.2 ⟨n, ?_⟩
    rcases h.min_lt hk with h1 | ⟨_, h1⟩
    · have := h.fits n
      rw [h.key hk] at this
      omega
    · rwa [h1] at hk
  have hstay : ∀ fuel, probe s.runQueue fuel u64Max = none := by
    intro fuel
    induction fuel with
    | zero => rfl
    | succ fuel ih =>
      unfold probe
      rw [if_pos hcont]
      have : satAdd u64Max 1 = u64Max := by unfold satAdd; omega
      rwa [this]
  have hsearch : searchKey s.runQueue u64Max = none := (searchKey_none_iff (Nat.le_refl _)).2 hstay
  have hreq : s.requeueCurrent = none := by
    unfold Scheduler.requeueCurrent
    rw [hc]
    simp only [hl, ne_eq, not_false_eq_true, if_true, Scheduler.insertTaskIntoQueue_eq, Scheduler.startKey, hm,
      hsearch, Option.map_none]
  unfold Scheduler.pickNext
  rw [if_neg (by simpa using hq), hreq]
  rfl

/-- A dead current task makes room for the first task of the queue. -/
theorem pickNext_dead (hc : s.current = some c) (hd : (s.tasks c).state = .dead) {k n : Nat}
    (hf : s.runQueue.first? = some (k, n)) :
    s.pickNext =
      some (some n, { s with runQueue := s.runQueue.erase k, minVruntime := k, current := some n }) := by
  have hq : s.runQueue.entries ≠ [] := by
    intro e
    rw [SortedMap.first?, e] at hf
    cases hf
  have hreq : s.requeueCurrent = some { s with current := none } := by
    unfold Scheduler.requeueCurrent
    rw [hc]
    simp only [hd, ne_eq, not_true_eq_false, if_false]
  unfold Scheduler.pickNext
  rw [if_neg (by simpa using hq), hreq]
  simp only [Option.map_some, Scheduler.takeFirst, hf]

/-- The three things a call of `pick_next` can do. -/
theorem pickNext_cases (h : SchedInv s) {r : Option TaskRef} (hp : s.pickNext = some (r, s')) :
    (s.runQueue.entries = [] ∧ r = none ∧ s' = s) ∨
      (∃ c, s.current = some c ∧ (s.tasks c).state ≠ .dead ∧ s.runQueue.entries ≠ [] ∧ r = some c ∧
        s' = s.setVruntime c s.minVruntime) ∨
      ∃ c k n, s.current = some c ∧ (s.tasks c).state = .dead ∧ s.runQueue.first? = some (k, n) ∧ r = some n ∧
        s' = { s with runQueue := s.runQueue.erase k, minVruntime := k, current := some n } := by
  by_cases hq : s.runQueue.entries = []
  · left
    simp only [Scheduler.pickNext, hq, List.isEmpty_nil, if_true, Option.some.injEq, Prod.mk.injEq] at hp
    exact ⟨hq, hp.1.symm, hp.2.symm⟩
  · right
    cases hc : s.current with
    | none => exact absurd (h.idle hc).1 hq
    | some c =>
      by_cases hd : (s.tasks c).state = .dead
      · obtain ⟨k, n, hf⟩ := first?_isSome hq
        rw [pickNext_dead hc hd hf] at hp
        cases hp
        exact Or.inr ⟨c, k, n, rfl, hd, hf, rfl, rfl⟩
      · by_cases hm : s.minVruntime = u64Max
        · rw [h.pickNext_stuck hc hd hq hm] at hp
          cases hp
        · rw [h.pickNext_live hc hd hq hm] at hp
          cases hp
          exact Or.inl ⟨c, rfl, hd, hq, rfl, rfl⟩

/-- A call of `schedule_locked` either leaves queue, current task and states as they are, or switches away from a dead
task to the first one of the queue. -/
theorem scheduleLocked_cases (h : SchedInv s) {r : Option (TaskRef × TaskRef)}
    (hs : s.scheduleLocked = some (r, s')) :
    (r = none ∧ s'.runQueue = s.runQueue ∧ s'.current = s.current ∧ s'.currentTicks = s.currentTicks ∧
        s'.currentTask = s.currentTask ∧ ∀ t, (s'.tasks t).state = (s.tasks t).state) ∨
      ∃ c k n, s.current = some c ∧ (s.tasks c).state = .dead ∧ s.runQueue.first? = some (k, n) ∧ c ≠ n ∧
        r = some (c, n) ∧ s' = s.switched c n k := by
  unfold Scheduler.scheduleLocked at hs
  cases hc : s.current with
  | none =>
    simp only [hc, Option.some.injEq, Prod.mk.injEq] at hs
    obtain ⟨rfl, rfl⟩ := hs
    exact Or.inl ⟨rfl, rfl, hc, rfl, rfl, fun _ => rfl⟩
  | some c =>
    cases hp : s.pickNext with
    | none => simp [hc, hp] at hs
    | some p =>
      obtain ⟨m, s₁⟩ := p
      rcases h.pickNext_cases hp with ⟨-, rfl, rfl⟩ | ⟨d, hd, -, -, rfl, rfl⟩ | ⟨d, k, n, hd, hdead, hf, rfl, rfl⟩
      · simp only [hc, hp, Option.some.injEq, Prod.mk.injEq] at hs
        obtain ⟨rfl, rfl⟩ := hs
        exact Or.inl ⟨rfl, rfl, hc, rfl, rfl, fun _ => rfl⟩
      · obtain rfl : d = c := Option.some.inj (hd.symm.trans hc)
        simp only [hc, hp, if_true, Option.some.injEq, Prod.mk.injEq] at hs
        obtain ⟨rfl, rfl⟩ := hs
        exact Or.inl ⟨rfl, rfl, hc, rfl, rfl, fun t => Scheduler.state_setVruntime s d t _⟩
      · obtain rfl : d = c := Option.some.inj (hd.symm.trans hc)
        have hne : d ≠ n := by
          intro e
          subst e
          exact h.not_queued hc (SortedMap.first?_eq_some.1 hf).1
        simp only [hc, hp, if_neg hne, Option.some.injEq, Prod.mk.injEq] at hs
        obtain ⟨rfl, rfl⟩ := hs
        exact Or.inr ⟨d, k, n, rfl, hdead, hf, hne, rfl, rfl⟩

/-! ### The invariant along a run -/

theorem new {tasks : TaskRef → Task} (h : ∀ t, (tasks t).vruntime ≤ u64Max) : SchedInv (Scheduler.new tasks) where
  nodup := List.nodup_nil
  idle _ := ⟨rfl, rfl⟩
  key hk := by cases hk
  fits := h
  min_le hc := by cases hc
  min_lt hk := by cases hk

/-- The invariant does not look at the states of the tasks, at the ticks and at `CURRENT_TASK`. -/
theorem congr (h : SchedInv s) (hq : s'.runQueue = s.runQueue) (hc : s'.current = s.current)
    (hm : s'.minVruntime = s.minVruntime) (hv : ∀ t, (s'.tasks t).vruntime = (s.tasks t).vruntime) : SchedInv s' where
  nodup := by
    rw [Scheduler.held, hc, hq]
    exact h.nodup
  idle := by
    rw [hc, hq, hm]
    exact h.idle
  key := by
    intro k t hk
    rw [hq] at hk
    rw [hv, h.key hk]
  fits t := by
    rw [hv]
    exact h.fits t
  min_le := by
    intro c hc'
    rw [hc] at hc'
    rw [hm, hv]
    exact h.min_le hc'
  min_lt := by
    intro k t hk
    rw [hq] at hk
    rw [hm]
    exact h.min_lt hk

theorem vruntime_setState (s : Scheduler) (t u : TaskRef) (st : TaskState) :
    ((s.setState t st).tasks u).vruntime = (s.tasks u).vruntime := by
  by_cases e : u = t
  · subst e
    simp [Scheduler.setState]
  · simp [Scheduler.setState, e]

theorem setState (h : SchedInv s) (t : TaskRef) (st : TaskState) : SchedInv (s.setState t st) :=
  h.congr rfl rfl rfl fun u => vruntime_setState s t u st

/-- The run time of the current task may change, as long as it stays above `min_vruntime`. -/
theorem setVruntime (h : SchedInv s) (hc : s.current = some c) {v : Nat} (h1 : s.minVruntime ≤ v) (h2 : v ≤ u64Max) :
    SchedInv (s.setVruntime c v) where
  nodup := h.nodup
  idle := h.idle
  key := by
    intro k t hk
    have hne : t ≠ c := by
      intro he
      subst he
      exact h.not_queued hc hk
    simpa [Scheduler.setVruntime, hne] using h.key hk
  fits t := by
    by_cases e : t = c
    · subst e
      simpa [Scheduler.setVruntime] using h2
    · simpa [Scheduler.setVruntime, e] using h.fits t
  min_le := by
    intro c' hc'
    have e : c = c' := Option.some.inj (hc.symm.trans hc')
    subst e
    simpa [Scheduler.setVruntime] using h1
  min_lt := h.min_lt

theorem charge (h : SchedInv s) (hc : s.current = some c) : SchedInv (s.charge c) := by
  refine h.setVruntime hc (Nat.le_min.2 ⟨?_, h.min_le_max hc⟩) (Nat.min_le_right _ _)
  exact (h.min_le hc).trans (Nat.le_add_right _ _)

/-- What `add_task` does to a scheduler with a current task. -/
theorem addTask_some (h : SchedInv s) (hc : s.current = some c) (ha : s.addTask t = some s') :
    ∃ key, s.runQueue.contains key = false ∧ s.startKey ≤ key ∧ key ≤ u64Max ∧ s' = s.enqueue t key := by
  rw [Scheduler.addTask, hc] at ha
  obtain ⟨key, hfree, hkey, e⟩ := Scheduler.insertTaskIntoQueue_some ha
  have hstart : s.startKey ≤ u64Max := by
    rw [h.startKey_eq hc]
    exact Nat.min_le_right _ _
  exact ⟨key, hfree, (hkey hstart).1, (hkey hstart).2, e⟩

theorem held_addTask (h : SchedInv s) (ha : s.addTask t = some s') : s'.held.Perm (t :: s.held) := by
  cases hc : s.current with
  | none =>
    rw [Scheduler.addTask, hc] at ha
    cases ha
    simp [Scheduler.held, hc]
  | some c =>
    obtain ⟨key, hfree, -, -, rfl⟩ := h.addTask_some hc ha
    have hp := (SortedMap.entries_insert_perm s.runQueue t hfree).map Prod.snd
    simp only [Scheduler.held, Scheduler.enqueue, Scheduler.setVruntime, hc, Option.toList_some,
      List.singleton_append]
    exact (hp.cons c).trans (List.Perm.swap t c _)

theorem addTask (h : SchedInv s) (ht : t ∉ s.held) (ha : s.addTask t = some s') : SchedInv s' := by
  have hnodup : s'.held.Nodup := (h.held_addTask ha).nodup_iff.2 (List.nodup_cons.2 ⟨ht, h.nodup⟩)
  cases hc : s.current with
  | none =>
    rw [Scheduler.addTask, hc] at ha
    cases ha
    refine ⟨hnodup, fun e => ?_, h.key, h.fits, fun _ => ?_, h.min_lt⟩
    · cases e
    · exact (h.idle hc).2.trans_le (Nat.zero_le _)
  | some c =>
    -- the new key lies above the current task's run time, hence above `min_vruntime`
    obtain ⟨key, hfree, hstart, hmax, rfl⟩ := h.addTask_some hc ha
    rw [h.startKey_eq hc] at hstart
    have hmin := h.min_le hc
    have hne : ∀ u ∈ s.held, u ≠ t := fun u hu e => ht (e ▸ hu)
    have hqueue : ∀ {k u}, s.runQueue.get? k = some u → u ≠ t := fun hk =>
      hne _ (List.mem_append_right _ (SortedMap.mem_values.2 ⟨_, hk⟩))
    have hcur : c ≠ t := hne c (List.mem_append_left _ (by simp [hc]))
    refine ⟨hnodup, fun e => ?_, fun {k u} hk => ?_, fun u => ?_, fun {c'} hc' => ?_, fun {k u} hk => ?_⟩
    · rw [show (s.enqueue t key).current = s.current from rfl, hc] at e
      cases e
    · simp only [Scheduler.enqueue, Scheduler.setVruntime, SortedMap.get?_insert] at hk ⊢
      split at hk
      · rename_i e
        cases hk
        simp [e]
      · simpa [hqueue hk] using h.key hk
    · by_cases e : u = t
      · subst e
        simpa [Scheduler.enqueue, Scheduler.setVruntime] using hmax
      · simpa [Scheduler.enqueue, Scheduler.setVruntime, e] using h.fits u
    · have e : c = c' := Option.some.inj (hc.symm.trans hc')
      subst e
      simpa [Scheduler.enqueue, Scheduler.setVruntime, hcur] using hmin
    · simp only [Scheduler.enqueue, Scheduler.setVruntime, SortedMap.get?_insert] at hk ⊢
      split at hk
      · rename_i e
        have := h.min_le_max hc
        unfold satAdd at hstart
        omega
      · exact h.min_lt hk

theorem held_pickNext (h : SchedInv s) {r : Option TaskRef} (hp : s.pickNext = some (r, s')) :
    s.held.Perm (s'.held ++ s.drops) := by
  rcases h.pickNext_cases hp with ⟨hq, -, e⟩ | ⟨c, hc, hl, -, -, rfl⟩ | ⟨c, k, n, hc, hd, hf, -, rfl⟩
  · have hdrop : s.drops = [] := by
      unfold Scheduler.drops
      cases s.current <;> simp [hq]
    rw [hdrop, List.append_nil, e]
  · have hdrop : s.drops = [] := by
      simp [Scheduler.drops, hc, hl]
    rw [hdrop, List.append_nil]
    rfl
  · have hq : s.runQueue.entries ≠ [] := by
      intro e
      rw [SortedMap.first?, e] at hf
      cases hf
    have hdrop : s.drops = [c] := by
      simp [Scheduler.drops, hc, hd, hq]
    have hperm := (SortedMap.entries_erase_perm s.runQueue (SortedMap.first?_eq_some.1 hf).1).map Prod.snd
    rw [hdrop, Scheduler.held, Scheduler.held, hc]
    simp only [Option.toList_some, List.singleton_append]
    exact (hperm.cons c).trans (List.perm_append_singleton c _).symm

theorem pickNext (h : SchedInv s) {r : Option TaskRef} (hp : s.pickNext = some (r, s')) : SchedInv s' := by
  have hnodup : s'.held.Nodup := ((h.held_pickNext hp).nodup_iff.1 h.nodup).of_append_left
  rcases h.pickNext_cases hp with ⟨-, -, rfl⟩ | ⟨c, hc, -, -, -, rfl⟩ | ⟨c, k, n, hc, -, hf, -, rfl⟩
  · exact h
  · exact h.setVruntime hc (Nat.le_refl _) (h.min_le_max hc)
  · obtain ⟨hk, hmin⟩ := SortedMap.first?_eq_some.1 hf
    refine ⟨hnodup, fun e => ?_, fun hku => h.key (SortedMap.get?_of_erase hku).2, h.fits, fun {c'} hc' => ?_,
      fun {k' u} hku => ?_⟩
    · cases e
    · cases hc'
      exact (h.key hk).ge
    · obtain ⟨hne, hku'⟩ := SortedMap.get?_of_erase hku
      have := hmin k' u hku'
      left
      show k < k'
      omega

/-- A call of `schedule_locked` is a call of `pick_next`, after which only states and `CURRENT_TASK` change. -/
theorem scheduleLocked_pick {r : Option (TaskRef × TaskRef)} (hs : s.scheduleLocked = some (r, s')) :
    (s.current = none ∧ s' = s) ∨
      ∃ n s₁, s.pickNext = some (n, s₁) ∧ s'.runQueue = s₁.runQueue ∧ s'.current = s₁.current ∧
        s'.minVruntime = s₁.minVruntime ∧ ∀ t, (s'.tasks t).vruntime = (s₁.tasks t).vruntime := by
  unfold Scheduler.scheduleLocked at hs
  cases hc : s.current with
  | none =>
    rw [hc] at hs
    cases hs
    exact Or.inl ⟨rfl, rfl⟩
  | some c =>
    right
    rw [hc] at hs
    cases hp : s.pickNext with
    | none =>
      rw [hp] at hs
      cases hs
    | some p =>
      obtain ⟨n, s₁⟩ := p
      rw [hp] at hs
      refine ⟨n, s₁, rfl, ?_⟩
      cases n with
      | none =>
        cases hs
        exact ⟨rfl, rfl, rfl, fun _ => rfl⟩
      | some n =>
        simp only at hs
        split at hs
        · cases hs
          exact ⟨rfl, rfl, rfl, fun _ => rfl⟩
        · cases hs
          refine ⟨rfl, rfl, rfl, fun t => ?_⟩
          exact (vruntime_setState _ n t _).trans (vruntime_setState _ c t _)

theorem held_scheduleLocked (h : SchedInv s) {r : Option (TaskRef × TaskRef)}
    (hs : s.scheduleLocked = some (r, s')) : s.held.Perm (s'.held ++ s.drops) := by
  rcases scheduleLocked_pick hs with ⟨hc, e⟩ | ⟨n, s₁, hp, hq, hc, -, -⟩
  · rw [Scheduler.drops, hc, List.append_nil, e]
  · have e : s'.held = s₁.held := by
      rw [Scheduler.held, Scheduler.held, hq, hc]
    rw [e]
    exact h.held_pickNext hp

theorem scheduleLocked (h : SchedInv s) {r : Option (TaskRef × TaskRef)} (hs : s.scheduleLocked = some (r, s')) :
    SchedInv s' := by
  rcases scheduleLocked_pick hs with ⟨-, rfl⟩ | ⟨n, s₁, hp, hq, hc, hm, hv⟩
  · exact h
  · exact (h.pickNext hp).congr hq hc hm hv

theorem ticks (h : SchedInv s) (n : Nat) : SchedInv { s with currentTicks := n } :=
  h.congr rfl rfl rfl fun _ => rfl

theorem countTick (h : SchedInv s) {r : Option (TaskRef × TaskRef)} (hs : s.countTick = some (r, s')) :
    SchedInv s' ∧ s.held.Perm (s'.held ++ s.tickDrops) := by
  unfold Scheduler.countTick at hs
  unfold Scheduler.tickDrops
  simp only at hs
  split at hs
  · rename_i hq
    rw [if_pos hq]
    exact ⟨(h.ticks 0).scheduleLocked hs, (h.ticks 0).held_scheduleLocked hs⟩
  · rename_i hq
    rw [if_neg hq, List.append_nil]
    cases hs
    exact ⟨h.ticks _, List.Perm.refl _⟩

theorem tickDrops_charge (s : Scheduler) (c : TaskRef) : (s.charge c).tickDrops = s.tickDrops := by
  unfold Scheduler.tickDrops Scheduler.drops Scheduler.charge Scheduler.setVruntime
  cases s.current with
  | none => rfl
  | some d =>
    by_cases e : d = c
    · subst e
      simp
    · simp [e]

theorem tick (h : SchedInv s) {r : Option (TaskRef × TaskRef)} (hs : s.tick = some (r, s')) :
    SchedInv s' ∧ s.held.Perm (s'.held ++ s.tickDrops) := by
  unfold Scheduler.tick at hs
  cases hc : s.current with
  | none =>
    rw [hc] at hs
    cases hs
    refine ⟨h, ?_⟩
    simp [Scheduler.tickDrops, Scheduler.drops, hc]
  | some c =>
    rw [hc] at hs
    have := (h.charge hc).countTick hs
    rwa [tickDrops_charge] at this

theorem tickNow (h : SchedInv s) {r : Option (TaskRef × TaskRef)} (hs : s.tickNow = some (r, s')) :
    SchedInv s' ∧ s.held.Perm (s'.held ++ s.tickDrops) := by
  unfold Scheduler.tickNow at hs
  cases hc : s.current with
  | none =>
    rw [hc] at hs
    exact h.countTick hs
  | some c =>
    rw [hc] at hs
    have := (h.charge hc).countTick hs
    rwa [tickDrops_charge] at this

theorem killCurrent_dead (hc : s.killCurrent.current = some c) : (s.killCurrent.tasks c).state = .dead := by
  unfold Scheduler.killCurrent at hc ⊢
  split at hc
  · rename_i hn
    rw [hn] at hc
    cases hc
  · rename_i d hd
    rw [show (s.setState d .dead).current = s.current from rfl, hd, Option.some.injEq] at hc
    subst hc
    simp only [Scheduler.state_setState, if_true]

theorem killCurrent (h : SchedInv s) : SchedInv s.killCurrent := by
  unfold Scheduler.killCurrent
  split
  · exact h
  · exact h.setState _ _

theorem held_killCurrent (s : Scheduler) : s.killCurrent.held = s.held := by
  unfold Scheduler.killCurrent
  split <;> rfl

/-- An exiting task is dropped, or there is no other task and the processor stops. -/
theorem exitCurrent (h : SchedInv s) (hc : s.current = some c) {r : Option (TaskRef × TaskRef)}
    (he : s.exitCurrent = some (r, s')) :
    SchedInv s' ∧ (∀ t ∈ s'.held, t ∈ s.held) ∧ (r = none ∨ c ∉ s'.held) := by
  have hk : s.killCurrent = s.setState c .dead := by
    rw [Scheduler.killCurrent, hc]
  have hperm := h.killCurrent.held_scheduleLocked he
  refine ⟨h.killCurrent.scheduleLocked he, fun t ht => ?_, ?_⟩
  · rw [← held_killCurrent s]
    exact hperm.mem_iff.2 (List.mem_append_left _ ht)
  · by_cases hq : s.runQueue.entries = []
    · left
      have hq' : (s.setState c .dead).runQueue.entries.isEmpty = true := by
        rw [show (s.setState c .dead).runQueue = s.runQueue from rfl, hq]
        rfl
      have hc' : (s.setState c .dead).current = some c := hc
      rw [Scheduler.exitCurrent, hk, Scheduler.schedule, Scheduler.scheduleLocked, hc', Scheduler.pickNext,
        if_pos hq'] at he
      exact (congrArg Prod.fst (Option.some.inj he)).symm
    · right
      have hdrop : s.killCurrent.drops = [c] := by
        rw [hk, Scheduler.drops, show (s.setState c .dead).current = s.current from rfl, hc]
        simp [Scheduler.setState, hq]
      rw [hdrop, held_killCurrent] at hperm
      have := hperm.nodup_iff.1 h.nodup
      exact fun hmem => List.disjoint_of_nodup_append this hmem (List.mem_singleton_self c)

/-- A task that is not held may be replaced. -/
theorem setTask (h : SchedInv s) (ht : t ∉ s.held) (task : Task) (hv : task.vruntime ≤ u64Max) :
    SchedInv { s with tasks := Function.update s.tasks t task } where
  nodup := h.nodup
  idle := h.idle
  key := by
    intro k u hk
    have hne : u ≠ t := by
      intro he
      subst he
      exact ht (List.mem_append_right _ (SortedMap.mem_values.2 ⟨k, hk⟩))
    simpa [hne] using h.key hk
  fits u := by
    by_cases e : u = t
    · subst e
      simpa using hv
    · simpa [e] using h.fits u
  min_le := by
    intro c hc
    have hne : c ≠ t := by
      intro he
      subst he
      exact ht (List.mem_append_left _ (by rw [show s.current = some c from hc]; simp))
    simpa [hne] using h.min_le hc
  min_lt := h.min_lt

end SchedInv

/-- The invariant of a run: what was added is held or was dropped. -/
theorem SchedRun.inv {P : Scheduler → Prop} {s : Scheduler} {added dropped : List TaskRef}
    (h : SchedRun P s added dropped) : SchedInv s ∧ added.Perm (s.held ++ dropped) := by
  induction h with
  | new tasks ht => exact ⟨SchedInv.new ht, List.Perm.refl _⟩
  | add _ _ ht ha ih =>
    obtain ⟨hi, hp⟩ := ih
    exact ⟨hi.addTask ht ha, (hp.cons _).trans ((hi.held_addTask ha).symm.append_right _)⟩
  | pick _ _ hs ih =>
    obtain ⟨hi, hp⟩ := ih
    refine ⟨hi.pickNext hs, hp.trans ?_⟩
    rw [← List.append_assoc]
    exact (hi.held_pickNext hs).append_right _
  | schedule _ _ hs ih =>
    obtain ⟨hi, hp⟩ := ih
    refine ⟨hi.scheduleLocked hs, hp.trans ?_⟩
    rw [← List.append_assoc]
    exact (hi.held_scheduleLocked hs).append_right _
  | tick _ _ hs ih =>
    obtain ⟨hi, hp⟩ := ih
    refine ⟨(hi.tick hs).1, hp.trans ?_⟩
    rw [← List.append_assoc]
    exact (hi.tick hs).2.append_right _
  | kill _ _ ih => exact ⟨ih.1.killCurrent, by rw [SchedInv.held_killCurrent]; exact ih.2⟩

/-! ### Termination -/

namespace SchedInv

variable {s s' : Scheduler} {t c : TaskRef}

theorem size_lt (hc : s.current = some c) : s.held.length = s.runQueue.size + 1 := by
  simp [Scheduler.held, hc, SortedMap.values, SortedMap.size]

/-- The search terminates both for a new task and for the outgoing one. -/
theorem startKey_room (h : SchedInv s) (hb : Bounded s) {cur : Option TaskRef} (hcur : cur = s.current ∨ cur = none) :
    { s with current := cur }.startKey + s.runQueue.size ≤ u64Max := by
  cases hc : s.current with
  | none =>
    have hidle := h.idle hc
    have hnone : cur = none := by simpa [hc] using hcur
    simp [Scheduler.startKey, hnone, hidle.1, hidle.2, SortedMap.size]
  | some c =>
    have hroom := hb c (by simp [Scheduler.held, hc])
    have hmin := h.min_le hc
    rw [size_lt hc] at hroom
    rcases hcur with rfl | rfl
    · have := h.startKey_eq hc
      rw [show ({ s with current := s.current } : Scheduler) = s from rfl, this]
      unfold satAdd
      omega
    · show s.minVruntime + s.runQueue.size ≤ u64Max
      omega

theorem insert_isSome (h : SchedInv s) (hb : Bounded s) {cur : Option TaskRef}
    (hcur : cur = s.current ∨ cur = none) (t : TaskRef) :
    ∃ s', { s with current := cur }.insertTaskIntoQueue t = some s' ∧
      ∀ k u, s.runQueue.get? k = some u → s'.runQueue.get? k = some u := by
  obtain ⟨key, hk⟩ := searchKey_isSome (h.startKey_room hb hcur)
  refine ⟨_, by rw [Scheduler.insertTaskIntoQueue_eq, hk]; rfl, fun k u hku => ?_⟩
  have hne : k ≠ key := by
    intro he
    subst he
    have := (probe_free hk).1
    rw [SortedMap.contains_iff.2 ⟨u, hku⟩] at this
    cases this
  show (s.runQueue.insert key t).get? k = some u
  rw [SortedMap.get?_insert, if_neg hne, hku]

theorem addTask_isSome (h : SchedInv s) (hb : Bounded s) (t : TaskRef) : ∃ s', s.addTask t = some s' := by
  unfold Scheduler.addTask
  cases hc : s.current with
  | none => exact ⟨_, rfl⟩
  | some c =>
    obtain ⟨s', hs, -⟩ := h.insert_isSome hb (Or.inl rfl) t
    exact ⟨s', hs⟩

/-- `pick_next` returns exactly if there is a key for the outgoing task. -/
theorem pickNext_isSome_iff (h : SchedInv s) : (∃ r, s.pickNext = some r) ↔ s.Room := by
  constructor
  · intro ⟨r, hr⟩ c hc
    by_cases hq : s.runQueue.entries = []
    · exact Or.inl hq
    · by_cases hd : (s.tasks c).state = .dead
      · exact Or.inr (Or.inl hd)
      · refine Or.inr (Or.inr ((h.min_le_max hc).lt_of_ne fun hm => ?_))
        rw [h.pickNext_stuck hc hd hq hm] at hr
        cases hr
  · intro hroom
    by_cases hq : s.runQueue.entries = []
    · exact ⟨_, by rw [Scheduler.pickNext, hq]; rfl⟩
    · cases hc : s.current with
      | none => exact absurd (h.idle hc).1 hq
      | some c =>
        by_cases hd : (s.tasks c).state = .dead
        · obtain ⟨k, n, hf⟩ := first?_isSome hq
          exact ⟨_, pickNext_dead hc hd hf⟩
        · exact ⟨_, h.pickNext_live hc hd hq (((hroom c hc).resolve_left hq).resolve_left hd).ne⟩

theorem scheduleLocked_isSome (h : SchedInv s) (hroom : s.Room) : ∃ r, s.scheduleLocked = some r := by
  obtain ⟨⟨n, s₁⟩, hp⟩ := h.pickNext_isSome_iff.2 hroom
  unfold Scheduler.scheduleLocked
  cases s.current with
  | none => exact ⟨_, rfl⟩
  | some c =>
    cases n with
    | none => exact ⟨_, by rw [hp]⟩
    | some n =>
      by_cases e : c = n
      · exact ⟨_, by simp only [hp, if_pos e]; rfl⟩
      · exact ⟨_, by simp only [hp, if_neg e]; rfl⟩

theorem countTick_isSome (h : SchedInv s) (hroom : quantumTicks ≤ s.currentTicks + 1 → s.Room) :
    ∃ r, s.countTick = some r := by
  simp only [Scheduler.countTick]
  split
  · rename_i hq
    exact (h.ticks 0).scheduleLocked_isSome (hroom (hq.trans (Nat.min_le_left _ _)))
  · exact ⟨_, rfl⟩

/-- A charge leaves the queue and the states alone. -/
theorem charge_room (hroom : s.Room) : (s.charge c).Room := by
  intro d hd
  rw [show ((s.charge c).tasks d).state = (s.tasks d).state from Scheduler.state_setVruntime _ _ _ _]
  exact hroom d hd

theorem tick_isSome (h : SchedInv s) (hroom : quantumTicks ≤ s.currentTicks + 1 → s.Room) :
    ∃ r, s.tick = some r := by
  unfold Scheduler.tick
  cases hc : s.current with
  | none => exact ⟨_, rfl⟩
  | some c => exact (h.charge hc).countTick_isSome fun hq => charge_room (hroom hq)

theorem tickNow_isSome (h : SchedInv s) (hroom : quantumTicks ≤ s.currentTicks + 1 → s.Room) :
    ∃ r, s.tickNow = some r := by
  unfold Scheduler.tickNow
  cases hc : s.current with
  | none => exact h.countTick_isSome hroom
  | some c => exact (h.charge hc).countTick_isSome fun hq => charge_room (hroom hq)

theorem room (h : SchedInv s) (hb : Bounded s) : s.Room := by
  intro c hc
  have h1 := h.min_le hc
  have h2 := hb c (by simp [Scheduler.held, hc])
  exact Or.inr (Or.inr (by omega))

end SchedInv

/-- No task is lost or duplicated.  In every state of a run whose run times stay bounded every operation returns, the
search for a key finds a free one, the tasks held are the tasks added without the dropped ones, each held once, and
each is queued under its own run time, at or above `min_vruntime`. -/
theorem tasks_conserved {s : Scheduler} {added dropped : List TaskRef} (h : SchedRun Bounded s added dropped)
    (hb : Bounded s) :
    ((∀ t, ∃ s', s.addTask t = some s') ∧ (∃ r, s.pickNext = some r) ∧ (∃ r, s.schedule = some r) ∧
        ∃ r, s.tick = some r) ∧
      (∀ cur t, (cur = s.current ∨ cur = none) →
        ∃ s', { s with current := cur }.insertTaskIntoQueue t = some s' ∧
          ∀ k u, s.runQueue.get? k = some u → s'.runQueue.get? k = some u) ∧
      added.Perm (s.held ++ dropped) ∧ s.held.Nodup ∧
      ∀ k t, s.runQueue.get? k = some t → (s.tasks t).vruntime = k ∧ s.minVruntime ≤ k := by
  obtain ⟨hi, hp⟩ := h.inv
  have hroom := hi.room hb
  refine ⟨⟨hi.addTask_isSome hb, hi.pickNext_isSome_iff.2 hroom, hi.scheduleLocked_isSome hroom,
    hi.tick_isSome fun _ => hroom⟩, ?_, hp, hi.nodup, fun k t hk => ⟨hi.key hk, ?_⟩⟩
  · exact fun cur t hcur => hi.insert_isSome hb hcur t
  · rcases hi.min_lt hk with h1 | ⟨h1, h2⟩
    · exact h1.le
    · exact (h1.trans h2.symm).le

/-- The theorem at a run of two tasks, of which the first one dies and is dropped. -/
theorem tasks_conserved_two :
    ∃ s, SchedRun Bounded s [1, 0] [0] ∧ Bounded s ∧ s.current = some 1 ∧ [1, 0].Perm (s.held ++ [0]) := by
  let s₀ := Scheduler.new (fun t => Task.new t 1)
  have r₀ : SchedRun Bounded s₀ [] [] := .new _ fun t => by simp [Task.new]
  have r₁ : SchedRun Bounded _ [0] [] := .add r₀ (by intro t ht; cases ht) (by decide) rfl
  have r₂ : SchedRun Bounded _ [1, 0] [] := .add r₁ (by unfold Bounded; decide) (by decide) rfl
  have r₃ : SchedRun Bounded _ [1, 0] [] := .kill r₂ (by unfold Bounded; decide)
  have r₄ : SchedRun Bounded _ [1, 0] [0] := .pick r₃ (by unfold Bounded; decide) rfl
  refine ⟨_, r₄, ?_, rfl, (tasks_conserved r₄ ?_).2.2.1⟩ <;>
    · unfold Bounded
      decide

end Hammam
