import Hammam.Process.Lifecycle

/-!
# Process identifiers (`process/mod.rs`, `arch/x86_64/syscall.rs`)

`next_pid` counts up from 2 in 32 bits, also for an `exec` whose image is rejected, and never asks the table.  So the
pids are new and not zero exactly as long as the counter has not wrapped around: the pid after `2 ^ 32 - 1` is 0, and
the one after that is 1, which the first process may still hold.
-/

namespace Hammam

/-- One use of `next_pid`: the pid chosen and the process table before and after the `exec`. -/
structure PidChoice where
  pid : Nat
  before : SortedMap Nat Process
  after : SortedMap Nat Process

/-- The pid is not zero and not in use, and no process is replaced. -/
def PidChoice.Sound (c : PidChoice) : Prop :=
  c.pid ≠ 0 ∧ c.before.get? c.pid = none ∧ ∀ pid p, c.before.get? pid = some p → c.after.get? pid = some p

namespace Kernel

/-- The use of `next_pid` in the step from `s` to `s'`. -/
def choiceBy (s s' : Kernel) : Event → List PidChoice
  | .exec .invalid | .exec (.loaded _ _) => [⟨s.nextPid, s.table, s'.table⟩]
  | _ => []

end Kernel

/-- The runs of the kernel, with the uses of `next_pid` so far, the last one first. -/
inductive PidRun : Kernel → List PidChoice → Prop
  | boot {s : Kernel} {entry stack : Nat} : Kernel.boot entry stack = some s → PidRun s []
  | step {s s' : Kernel} {choices : List PidChoice} {e : Event} {r : Int} :
    PidRun s choices → s.halted = false → s.step e = some (r, s') → PidRun s' (s.choiceBy s' e ++ choices)

namespace Kernel

variable {s s' : Kernel}

theorem table_spawn {pid entry stack : Nat} {p : Process} (h : s.spawn pid entry stack = some (p, s')) :
    s'.table = s.table.insert pid p ∧ s'.nextPid = s.nextPid := by
  simp only [spawn] at h
  split at h
  · cases h
  · cases h
    exact ⟨rfl, rfl⟩

theorem get?_storeExit_isSome {code : Int} {pid : Nat} (h : ((s.storeExit code).get? pid).isSome) :
    (s.table.get? pid).isSome := by
  unfold storeExit at h
  split at h
  · exact h
  · split at h
    · exact h
    · rename_i proc _ p hp
      rw [SortedMap.get?_insert] at h
      split at h
      · rename_i e
        rw [e, hp]
        rfl
      · exact h

theorem get?_sysWaitpid_isSome {pid flags pid' : Nat} (h : ((s.sysWaitpid pid flags).2.table.get? pid').isSome) :
    (s.table.get? pid').isSome := by
  simp only [sysWaitpid] at h
  split at h
  · exact h
  · split at h
    · rw [SortedMap.get?_erase] at h
      split at h
      · cases h
      · exact h
    · split at h <;> exact h

/-- A step either uses `next_pid` once, and then adds a process under that pid at most, or it adds none. -/
theorem step_pids {e : Event} {r : Int} (h : s.step e = some (r, s')) :
    (s.choiceBy s' e = [⟨s.nextPid, s.table, s'.table⟩] ∧ s'.nextPid = s.nextPidAfter ∧
      (s'.table = s.table ∨ ∃ p, s'.table = s.table.insert s.nextPid p)) ∨
    (s.choiceBy s' e = [] ∧ s'.nextPid = s.nextPid ∧
      ∀ pid, (s'.table.get? pid).isSome → (s.table.get? pid).isSome) := by
  cases e with
  | yield =>
    simp only [step, sysYield] at h
    split at h
    · cases h
    · cases h
      exact Or.inr ⟨rfl, rfl, fun _ hp => hp⟩
  | tick =>
    simp only [step, timer] at h
    split at h
    · cases h
    · cases h
      exact Or.inr ⟨rfl, rfl, fun _ hp => hp⟩
  | exec image =>
    cases image with
    | missing err =>
      cases h
      exact Or.inr ⟨rfl, rfl, fun _ hp => hp⟩
    | invalid =>
      cases h
      exact Or.inl ⟨rfl, rfl, Or.inl rfl⟩
    | loaded entry stack =>
      simp only [step, sysExec] at h
      split at h
      · cases h
      · rename_i p s₁ hsp
        cases h
        obtain ⟨ht, hn⟩ := table_spawn hsp
        exact Or.inl ⟨rfl, hn, Or.inr ⟨p, ht⟩⟩
  | exit code =>
    simp only [step, sysExit] at h
    split at h
    · cases h
    · cases h
      exact Or.inr ⟨rfl, rfl, fun _ hp => get?_storeExit_isSome hp⟩
  | waitpid pid flags =>
    have e : s' = (s.sysWaitpid pid flags).2 := (congrArg Prod.snd (Option.some.inj h)).symm
    subst e
    refine Or.inr ⟨rfl, ?_, fun _ hp => get?_sysWaitpid_isSome hp⟩
    simp only [sysWaitpid]
    split
    · rfl
    · split
      · rfl
      · split <;> rfl

end Kernel

/-- The counter as a function of the number of its uses, and what that says about the table and the pids chosen. -/
structure ChoiceInv (s : Kernel) (choices : List PidChoice) : Prop where
  next : s.nextPid = (2 + choices.length) % 2 ^ 32
  used : choices.length ≤ 2 ^ 32 - 2 → ∀ pid, (s.table.get? pid).isSome → pid < 2 + choices.length
  sound : choices.length ≤ 2 ^ 32 - 2 → ∀ c ∈ choices, c.Sound
  zero : 2 ^ 32 - 2 < choices.length → ∃ c ∈ choices, c.pid = 0

namespace ChoiceInv

variable {s s' : Kernel} {choices : List PidChoice}

theorem boot {entry stack : Nat} (h : Kernel.boot entry stack = some s) : ChoiceInv s [] := by
  cases h
  refine ⟨rfl, fun _ pid hp => ?_, fun _ _ hc => absurd hc List.not_mem_nil, fun hlt =>
    absurd hlt (Nat.not_lt_zero _)⟩
  have hget : ((SortedMap.empty : SortedMap Nat Process).insert 1 ⟨1, 0, entry, stack, 0, false⟩).get? pid =
      if pid = 1 then some ⟨1, 0, entry, stack, 0, false⟩ else none := SortedMap.get?_insert _ _ _ _
  by_cases e : pid = 1
  · exact e ▸ Nat.one_lt_two
  · rw [if_neg e] at hget
    exact absurd (hget ▸ hp : (none : Option Process).isSome) Bool.false_ne_true

/-- As long as the counter has not wrapped around, its value is not in use. -/
theorem fresh (h : ChoiceInv s choices) (hlen : choices.length < 2 ^ 32 - 2) :
    s.nextPid = 2 + choices.length ∧ s.table.get? s.nextPid = none := by
  have e : s.nextPid = 2 + choices.length := by
    rw [h.next, Nat.mod_eq_of_lt (by omega)]
  refine ⟨e, Option.not_isSome_iff_eq_none.1 fun hp => ?_⟩
  have := h.used hlen.le _ hp
  omega

theorem choose (h : ChoiceInv s choices) (hn : s'.nextPid = s.nextPidAfter)
    (ht : s'.table = s.table ∨ ∃ p, s'.table = s.table.insert s.nextPid p) :
    ChoiceInv s' (⟨s.nextPid, s.table, s'.table⟩ :: choices) := by
  refine ⟨?_, fun hlen pid hp => ?_, fun hlen c hc => ?_, fun hlen => ?_⟩
  · rw [hn, Kernel.nextPidAfter, h.next, Nat.mod_add_mod, List.length_cons, Nat.add_assoc]
  · rw [List.length_cons] at hlen ⊢
    obtain ⟨hnext, -⟩ := h.fresh hlen
    have hold : (s.table.get? pid).isSome → pid < 2 + (choices.length + 1) := fun hp => by
      have := h.used (by omega) pid hp
      omega
    rcases ht with e | ⟨p, e⟩
    · exact hold (e ▸ hp)
    · rw [e, SortedMap.get?_insert] at hp
      split at hp
      · omega
      · exact hold hp
  · rw [List.length_cons] at hlen
    obtain ⟨hnext, hnone⟩ := h.fresh hlen
    rcases List.mem_cons.1 hc with rfl | hc
    · refine ⟨by simp only [hnext]; omega, hnone, fun pid p hp => ?_⟩
      rcases ht with e | ⟨q, e⟩
      · exact e ▸ hp
      · show s'.table.get? pid = some p
        have hne : pid ≠ s.nextPid := by
          rintro rfl
          exact absurd (hnone.symm.trans hp) (by simp)
        rw [e, SortedMap.get?_insert, if_neg hne]
        exact hp
    · exact h.sound (by omega) c hc
  · -- the use number `2 ^ 32 - 1` is the one that gets 0
    rw [List.length_cons] at hlen
    rcases Nat.lt_or_ge (2 ^ 32 - 2) choices.length with hlt | hge
    · obtain ⟨c, hc, h0⟩ := h.zero hlt
      exact ⟨c, List.mem_cons_of_mem _ hc, h0⟩
    · have e : choices.length = 2 ^ 32 - 2 := by omega
      refine ⟨_, List.mem_cons_self, ?_⟩
      show s.nextPid = 0
      rw [h.next, e]
      rfl

theorem step (h : ChoiceInv s choices) {e : Event} {r : Int} (hs : s.step e = some (r, s')) :
    ChoiceInv s' (s.choiceBy s' e ++ choices) := by
  rcases Kernel.step_pids hs with ⟨hc, hn, ht⟩ | ⟨hc, hn, ht⟩
  · rw [hc]
    exact h.choose hn ht
  · rw [hc]
    exact ⟨hn.trans h.next, fun hlen pid hp => h.used hlen pid (ht pid hp), h.sound, h.zero⟩

end ChoiceInv

theorem PidRun.inv {s : Kernel} {choices : List PidChoice} (h : PidRun s choices) : ChoiceInv s choices := by
  induction h with
  | boot hb => exact ChoiceInv.boot hb
  | step _ _ hs ih => exact ih.step hs

/-- In every run from boot all pids chosen are sound exactly if `next_pid` has been used at most `2 ^ 32 - 2` times.
-/
theorem pids_sound_iff {s : Kernel} {choices : List PidChoice} (h : PidRun s choices) :
    (∀ c ∈ choices, c.Sound) ↔ choices.length ≤ 2 ^ 32 - 2 := by
  constructor
  · intro hall
    by_contra hlen
    obtain ⟨c, hc, h0⟩ := h.inv.zero (Nat.lt_of_not_le hlen)
    exact (hall c hc).1 h0
  · exact h.inv.sound

/-- The theorem at a run in which the first process starts another one, after an `exec` that fails. -/
theorem pids_sound_two : ∃ s choices, PidRun s choices ∧ choices.map PidChoice.pid = [3, 2] ∧
    ∀ c ∈ choices, c.Sound := by
  have r₀ : PidRun _ _ := .boot (show Kernel.boot 0x400000 0x8010000 = some _ from rfl)
  have r₁ : PidRun _ _ := .step (e := .exec .invalid) r₀ rfl rfl
  have r₂ : PidRun _ _ := .step (e := .exec (.loaded 0x400000 0x8010000)) r₁ rfl rfl
  exact ⟨_, _, r₂, rfl, (pids_sound_iff r₂).2 (by decide)⟩

/-- A process that starts a rejected image again and again moves only the counter. -/
theorem PidRun.invalid {s : Kernel} {choices : List PidChoice} (h : PidRun s choices) (hh : s.halted = false)
    (n : Nat) : ∃ choices', PidRun { s with nextPid := (s.nextPid + n) % 2 ^ 32 } choices' := by
  induction n with
  | zero =>
    have e : (s.nextPid + 0) % 2 ^ 32 = s.nextPid := by
      rw [h.inv.next, Nat.add_zero, Nat.mod_mod]
    rw [e]
    exact ⟨choices, h⟩
  | succ n ih =>
    obtain ⟨choices', hr⟩ := ih
    have hr' := PidRun.step (e := .exec .invalid) hr hh rfl
    have e : ((s.nextPid + n) % 2 ^ 32 + 1) % 2 ^ 32 = (s.nextPid + (n + 1)) % 2 ^ 32 := by
      rw [Nat.mod_add_mod, Nat.add_assoc]
    simp only [Kernel.nextPidAfter, e] at hr'
    exact ⟨_, hr'⟩

/-- The first process starts a rejected image `2 ^ 32 - 1` times and then a good one: that one gets pid 1 as well and
takes the place of the first process, which is still running. -/
theorem first_process_replaced : ∃ s c choices p q, PidRun s (c :: choices) ∧ c.pid = 1 ∧ c.before.get? 1 = some p ∧
    p.isZombie = false ∧ c.after.get? 1 = some q ∧ q.mainTask ≠ p.mainTask ∧ ¬ c.Sound := by
  have r₀ : PidRun _ [] := .boot (show Kernel.boot 0x400000 0x8010000 = some _ from rfl)
  obtain ⟨choices, r₁⟩ := r₀.invalid rfl (2 ^ 32 - 1)
  have r₂ : PidRun _ (_ :: choices) := .step (e := .exec (.loaded 0x400000 0x8010000)) r₁ rfl rfl
  exact ⟨_, _, _, _, _, r₂, rfl, rfl, rfl, rfl, by decide, fun h => absurd h.2.1 (by decide)⟩

end Hammam
