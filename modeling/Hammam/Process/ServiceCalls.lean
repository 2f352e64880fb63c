import Hammam.Process.Manager

/-!
# The system calls of the service manager

What the kernel's side of a run can do between two calls of the manager (`TableStep`), and what each call of the
manager can do (`ManagerMove`).
-/

namespace Hammam

/-! ### The table between two system calls -/

/-- What the calls other than `sys_exit` do to `PROCESS_TABLE` and `NEXT_PID`: zombies may go, and the pid that
`NEXT_PID` held may come in. -/
structure TableStep (k k' : Kernel) : Prop where
  next : k'.nextPid = k.nextPid ∨ k'.nextPid = k.nextPidAfter
  keep : ∀ {pid}, pid ≠ k.nextPid → k'.table.get? pid = k.table.get? pid ∨
    k'.table.get? pid = none ∧ ∃ p, k.table.get? pid = some p ∧ p.isZombie = true
  fresh : k'.table.get? k.nextPid = k.table.get? k.nextPid ∨ k'.nextPid = k.nextPidAfter ∨
    k'.table.get? k.nextPid = none

namespace TableStep

variable {k k' : Kernel}

theorem of_eq (ht : k'.table = k.table) (hn : k'.nextPid = k.nextPid) : TableStep k k' :=
  ⟨Or.inl hn, fun _ => Or.inl (by rw [ht]), Or.inl (by rw [ht])⟩

end TableStep

/-- `sys_exec` fails with a negative number, or puts a new process under the pid that it returns. -/
theorem sysExec_cases {k k' : Kernel} {image : Image} {r : Int} (h : k.sysExec image = some (r, k')) :
    (r < 0 ∧ k'.table = k.table ∧ (k'.nextPid = k.nextPid ∨ k'.nextPid = k.nextPidAfter)) ∨
      (r = k.nextPid ∧ k'.nextPid = k.nextPidAfter ∧
        ∃ p, p.isZombie = false ∧ k'.table = k.table.insert k.nextPid p) := by
  cases image with
  | missing e =>
    cases h
    exact Or.inl ⟨by cases e <;> decide, rfl, Or.inl rfl⟩
  | invalid =>
    cases h
    exact Or.inl ⟨by decide, rfl, Or.inr rfl⟩
  | loaded entry stack =>
    simp only [Kernel.sysExec, Kernel.spawn] at h
    split at h
    · cases h
    · rename_i p s' hsp
      split at hsp
      · cases hsp
      · cases hsp
        cases h
        exact Or.inr ⟨rfl, rfl, _, rfl, rfl⟩

theorem TableStep.sysExec {k k' : Kernel} {image : Image} {r : Int} (h : k.sysExec image = some (r, k')) :
    TableStep k k' := by
  rcases sysExec_cases h with ⟨-, ht, hn⟩ | ⟨-, hn, p, -, ht⟩
  · exact ⟨hn, fun _ => Or.inl (by rw [ht]), Or.inl (by rw [ht])⟩
  · refine ⟨Or.inr hn, fun hne => Or.inl ?_, Or.inr (Or.inl hn)⟩
    rw [ht, SortedMap.get?_insert, if_neg hne]

theorem TableStep.sysWaitpid (k : Kernel) (pid flags : Nat) : TableStep k (k.sysWaitpid pid flags).2 := by
  unfold Kernel.sysWaitpid
  simp only
  split
  · exact .of_eq rfl rfl
  · rename_i p hp
    split
    · rename_i hz
      have herase : ∀ pid', (k.table.erase (pid % 2 ^ 32)).get? pid' = k.table.get? pid' ∨
          (k.table.erase (pid % 2 ^ 32)).get? pid' = none ∧ ∃ p, k.table.get? pid' = some p ∧ p.isZombie = true := by
        intro pid'
        rw [SortedMap.get?_erase]
        split
        · rename_i he
          exact Or.inr ⟨rfl, p, he ▸ hp, hz⟩
        · exact Or.inl rfl
      exact ⟨Or.inl rfl, fun _ => herase _, (herase k.nextPid).imp_right fun hr => Or.inr hr.1⟩
    · split
      · exact .of_eq rfl rfl
      · exact .of_eq rfl rfl

/-- Every event of the kernel but an exit. -/
theorem TableStep.step {k k' : Kernel} {e : Event} {r : Int} (he : ∀ code, e ≠ .exit code)
    (h : k.step e = some (r, k')) : TableStep k k' := by
  cases e with
  | yield =>
    simp only [Kernel.step, Kernel.sysYield] at h
    split at h
    · cases h
    · cases h
      exact .of_eq rfl rfl
  | tick =>
    simp only [Kernel.step, Kernel.timer] at h
    split at h
    · cases h
    · cases h
      exact .of_eq rfl rfl
  | exec image => exact .sysExec h
  | exit code => exact absurd rfl (he code)
  | waitpid pid flags =>
    have e : k' = (k.sysWaitpid pid flags).2 := (congrArg Prod.snd (Option.some.inj h)).symm
    rw [e]
    exact .sysWaitpid k pid flags

/-- Until `NEXT_PID` wraps around, it is beyond all pids in the table. -/
structure PidInv (k : Kernel) : Prop where
  lt : k.nextPid < 2 ^ 32
  used : 2 ≤ k.nextPid → ∀ {pid p}, k.table.get? pid = some p → pid < k.nextPid

/-- A pid that was used and has been reaped. -/
structure Gone (k : Kernel) (pid : Nat) : Prop where
  lt : pid < 2 ^ 32
  used : 2 ≤ k.nextPid → pid < k.nextPid
  absent : k.table.get? pid = none

section TableStep

variable {k k' : Kernel} (ht : TableStep k k') (hp : PidInv k) (hw : 2 ≤ k.nextPid)

include ht hp hw

theorem TableStep.nextPid_le (h2 : 2 ≤ k'.nextPid) : k.nextPid ≤ k'.nextPid := by
  have hlt := hp.lt
  rcases ht.next with he | he
  · exact he.ge
  · rw [he, Kernel.nextPidAfter] at h2 ⊢
    omega

theorem TableStep.pidInv : PidInv k' where
  lt := by
    rcases ht.next with he | he
    · exact he ▸ hp.lt
    · exact he ▸ Nat.mod_lt _ (by decide)
  used := by
    intro h2 pid p hget
    have hle := ht.nextPid_le hp hw h2
    by_cases hne : pid = k.nextPid
    · subst hne
      rcases ht.fresh with he | he | he
      · rw [he] at hget
        exact absurd (hp.used hw hget) (Nat.lt_irrefl _)
      · have hlt := hp.lt
        rw [he, Kernel.nextPidAfter] at h2 ⊢
        omega
      · rw [he] at hget
        cases hget
    · rcases ht.keep hne with he | ⟨he, -⟩
      · exact Nat.lt_of_lt_of_le (hp.used hw (he ▸ hget)) hle
      · rw [he] at hget
        cases hget

theorem TableStep.gone {pid : Nat} (hg : Gone k pid) : Gone k' pid where
  lt := hg.lt
  used := fun h2 => Nat.lt_of_lt_of_le (hg.used hw) (ht.nextPid_le hp hw h2)
  absent := by
    rcases ht.keep (hg.used hw).ne with he | ⟨he, -⟩
    · rw [he, hg.absent]
    · exact he

/-- A process stays as it is, or it is a zombie and has gone. -/
theorem TableStep.present {pid : Nat} {p : Process} (hget : k.table.get? pid = some p) :
    k'.table.get? pid = some p ∨ p.isZombie = true ∧ Gone k' pid := by
  have hlt := hp.used hw hget
  rcases ht.keep hlt.ne with he | ⟨he, q, hq, hz⟩
  · exact Or.inl (he.trans hget)
  · rw [hget] at hq
    cases hq
    have hle := ht.nextPid_le hp hw
    have hmax := hp.lt
    exact Or.inr ⟨hz, by omega, fun h2 => Nat.lt_of_lt_of_le hlt (hle h2), he⟩

end TableStep

/-! ### The calls of the manager -/

section Poll

variable {k : Kernel} {pid : Nat} {p : Process}

theorem sysWaitpid_running (hlt : pid < 2 ^ 32) (hget : k.table.get? pid = some p) (hz : p.isZombie = false) :
    k.sysWaitpid pid 1 = (0, k) := by
  simp only [Kernel.sysWaitpid, Nat.mod_eq_of_lt hlt, hget, hz]
  rfl

theorem sysWaitpid_zombie (hlt : pid < 2 ^ 32) (hget : k.table.get? pid = some p) (hz : p.isZombie = true) :
    k.sysWaitpid pid 1 = (p.exitCode, { k with table := k.table.erase pid }) := by
  simp only [Kernel.sysWaitpid, Nat.mod_eq_of_lt hlt, hget, hz]
  rfl

theorem sysWaitpid_gone (hg : Gone k pid) : k.sysWaitpid pid 1 = (-10, k) := by
  simp only [Kernel.sysWaitpid, Nat.mod_eq_of_lt hg.lt, hg.absent]

end Poll

namespace Services

theorem spawn_cases {k k' : Kernel} {files : String → Image} {path : String} {r : Option Nat}
    (hlt : k.nextPid < 2 ^ 32)
    (h : spawn k files path = some (r, k')) :
    TableStep k k' ∧ (r = none ∨ r = some k.nextPid ∧ ∃ p, p.isZombie = false ∧
      k'.table.get? k.nextPid = some p) := by
  unfold spawn at h
  split at h
  · cases h
  · rename_i pid k₁ hex
    cases h
    refine ⟨.sysExec hex, ?_⟩
    rcases sysExec_cases hex with ⟨hneg, -⟩ | ⟨rfl, -, p, hz, ht⟩
    · exact Or.inl (if_pos hneg)
    · refine Or.inr ⟨?_, p, hz, by rw [ht, SortedMap.get?_insert, if_pos rfl]⟩
      rw [if_neg (by omega), Int.emod_eq_of_lt (by omega) (by omega), Int.toNat_natCast]

/-- What one call of the manager can do: go on to another unit, call `spawn` for a unit, or poll one. -/
inductive ManagerMove (s : Services) (files : String → Image) (s' : Services) : Prop
  | skip {m : Nat} : (∀ i, s.pc = .start i ∨ s.pc = .respawn i → s.units[i]? = none) →
    (∀ i, s.pc = .poll i → ∀ u, s.units[i]? = some u → u.state = .running → u.pid = none) →
    s' = { s with pc := .poll m } → ManagerMove s files s'
  | spawn {i : Nat} {u : ServiceUnit} {r : Option Nat} {k : Kernel} : (s.pc = .start i ∨ s.pc = .respawn i) →
    s.units[i]? = some u → spawn s.kernel files u.execPath = some (r, k) → s'.kernel = k →
    (s'.pc = .poll (i + 1) ∨ s.pc = .start i ∧ s'.pc = .start (i + 1)) →
    ((∃ pid, r = some pid ∧ s'.units = s.units.set i { u with state := .running, pid := some pid }) ∨
      r = none ∧ (s'.units = s.units ∧ s.pc = .respawn i ∨ s'.units = s.units.set i { u with state := .failed })) →
    ManagerMove s files s'
  | poll {i : Nat} {u : ServiceUnit} {pid : Nat} : s.pc = .poll i → s.units[i]? = some u → u.state = .running →
    u.pid = some pid → s'.kernel = (s.kernel.sysWaitpid pid 1).2 →
    ((exited (decode (s.kernel.sysWaitpid pid 1).1) = false ∧ s'.units = s.units ∧ s'.pc = .poll (i + 1)) ∨
      exited (decode (s.kernel.sysWaitpid pid 1).1) = true ∧ s'.units = s.units.set i { u with state := .failed } ∧
        s'.pc = if u.restart = .onFailure then .respawn i else .poll (i + 1)) → ManagerMove s files s'

section Moves

variable {s s' : Services} {files : String → Image} {i : Nat}

private theorem move_start (hpc : s.pc = .start i) (h : s.managerStep files = some s') : ManagerMove s files s' := by
  simp only [managerStep, hpc] at h
  cases hu : s.units[i]? with
  | none =>
    simp only [hu] at h
    cases h
    exact .skip (by simpa [hpc] using hu) (by simp [hpc]) rfl
  | some u =>
    simp only [hu] at h
    cases hs : spawn s.kernel files u.execPath with
    | none => simp [hs] at h
    | some rk =>
      obtain ⟨r, k⟩ := rk
      cases r with
      | none =>
        simp only [hs] at h
        cases h
        exact .spawn (Or.inl hpc) hu hs rfl (Or.inr ⟨hpc, rfl⟩) (Or.inr ⟨rfl, Or.inr rfl⟩)
      | some pid =>
        simp only [hs] at h
        cases h
        exact .spawn (Or.inl hpc) hu hs rfl (Or.inr ⟨hpc, rfl⟩) (Or.inl ⟨pid, rfl, rfl⟩)

private theorem move_respawn (hpc : s.pc = .respawn i) (h : s.managerStep files = some s') :
    ManagerMove s files s' := by
  simp only [managerStep, hpc] at h
  cases hu : s.units[i]? with
  | none =>
    simp only [hu] at h
    cases h
    exact .skip (by simpa [hpc] using hu) (by simp [hpc]) rfl
  | some u =>
    simp only [hu] at h
    cases hs : spawn s.kernel files u.execPath with
    | none => simp [hs] at h
    | some rk =>
      obtain ⟨r, k⟩ := rk
      cases r with
      | none =>
        simp only [hs] at h
        cases h
        exact .spawn (Or.inr hpc) hu hs rfl (Or.inl rfl) (Or.inr ⟨rfl, Or.inl ⟨rfl, hpc⟩⟩)
      | some pid =>
        simp only [hs] at h
        cases h
        exact .spawn (Or.inr hpc) hu hs rfl (Or.inl rfl) (Or.inl ⟨pid, rfl, rfl⟩)

private theorem move_poll (hpc : s.pc = .poll i) (h : s.managerStep files = some s') : ManagerMove s files s' := by
  simp only [managerStep, hpc] at h
  cases hu : s.units[i]? with
  | none =>
    simp only [hu] at h
    cases h
    exact .skip (by simp [hpc]) (by simp [hpc, hu]) rfl
  | some u =>
    simp only [hu] at h
    by_cases hrun : u.state = .running
    · rw [if_pos hrun] at h
      cases hpid : u.pid with
      | none =>
        simp only [hpid] at h
        cases h
        exact .skip (by simp [hpc]) (by simp [hpc, hu, hpid]) rfl
      | some pid =>
        simp only [hpid, waitpidNonblock] at h
        split at h
        · rename_i hex
          split at h
          · rename_i hr
            cases h
            exact .poll hpc hu hrun hpid rfl (Or.inr ⟨hex, by rw [hpid], (if_pos hr).symm⟩)
          · rename_i hr
            cases h
            exact .poll hpc hu hrun hpid rfl (Or.inr ⟨hex, by rw [hpid], (if_neg hr).symm⟩)
        · rename_i hex
          cases h
          exact .poll hpc hu hrun hpid rfl (Or.inl ⟨by simpa using hex, rfl, rfl⟩)
    · rw [if_neg hrun] at h
      cases h
      exact .skip (by simp [hpc]) (by simp [hpc, hu, hrun]) rfl

theorem managerStep_move (h : s.managerStep files = some s') : ManagerMove s files s' := by
  cases hpc : s.pc with
  | start i => exact move_start hpc h
  | poll i => exact move_poll hpc h
  | respawn i => exact move_respawn hpc h

end Moves

end Services

end Hammam
