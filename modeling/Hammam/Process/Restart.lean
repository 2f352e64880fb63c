import Hammam.Process.ServiceCalls

/-!
# Restarting the services

The manager reads a result of 0 as "still running" and everything below 0 as "exited".  A child that has exited is
reaped by the poll that sees it, so the poll after it finds no such process, and that restarts the unit whatever the
exit code was: once per exit (`respawn_per_exit`), but not only for the codes that are not 0.
-/

namespace Hammam

/-! ### The phases of a unit -/

/-- Where a unit that restarts on failure is between the exit of its child and the answer to it. -/
inductive UnitPhase (s : Services) (i : Nat) (u : ServiceUnit) (l : UnitLog) : Prop
  | idle : u.state ≠ .running → (∀ pid, u.pid = some pid → Gone s.kernel pid) → s.pc ≠ .respawn i →
    l.exits.length = l.respawns → UnitPhase s i u l
  | alive {pid : Nat} {p : Process} : u.state = .running → u.pid = some pid → s.kernel.table.get? pid = some p →
    p.isZombie = false → s.pc ≠ .respawn i → l.exits.length = l.respawns → UnitPhase s i u l
  | zombie {pid : Nat} {p : Process} : u.state = .running → u.pid = some pid → s.kernel.table.get? pid = some p →
    p.isZombie = true → s.pc ≠ .respawn i → l.exits.length = l.respawns + 1 → l.polls = 0 → UnitPhase s i u l
  | reaped {pid : Nat} : u.state = .running → u.pid = some pid → Gone s.kernel pid → s.pc ≠ .respawn i →
    l.exits.length = l.respawns + 1 → l.polls ≤ 1 → UnitPhase s i u l
  | respawning {pid : Nat} : u.state ≠ .running → u.pid = some pid → Gone s.kernel pid → s.pc = .respawn i →
    l.exits.length = l.respawns + 1 → UnitPhase s i u l

/-- A unit's phase after a step that neither concerns it nor is an exit. -/
theorem UnitPhase.calm {s s' : Services} {i : Nat} {u : ServiceUnit} {l : UnitLog} (h : UnitPhase s i u l)
    (ht : TableStep s.kernel s'.kernel) (hp : PidInv s.kernel) (hw : 2 ≤ s.kernel.nextPid)
    (hpc : s'.pc = .respawn i ↔ s.pc = .respawn i) : UnitPhase s' i u l := by
  have hne := not_congr hpc
  cases h with
  | idle h1 h2 h3 h4 => exact .idle h1 (fun pid hpid => ht.gone hp hw (h2 pid hpid)) (hne.2 h3) h4
  | alive h1 h2 h3 h4 h5 h6 =>
    rcases ht.present hp hw h3 with hk | ⟨hz, -⟩
    · exact .alive h1 h2 hk h4 (hne.2 h5) h6
    · rw [h4] at hz
      cases hz
  | zombie h1 h2 h3 h4 h5 h6 h7 =>
    rcases ht.present hp hw h3 with hk | ⟨-, hg⟩
    · exact .zombie h1 h2 hk h4 (hne.2 h5) h6 h7
    · exact .reaped h1 h2 hg (hne.2 h5) h6 (by omega)
  | reaped h1 h2 h3 h4 h5 h6 => exact .reaped h1 h2 (ht.gone hp hw h3) (hne.2 h4) h5 h6
  | respawning h1 h2 h3 h4 h5 => exact .respawning h1 h2 (ht.gone hp hw h3) (hpc.2 h4) h5

/-! ### The invariant -/

/-- The invariant of a unit in a run in which `NEXT_PID` does not wrap around. -/
structure ServiceInv (s : Services) (i : Nat) (l : UnitLog) : Prop where
  pids : PidInv s.kernel
  /-- `start_all` comes to each unit once. -/
  waiting : ∀ {u j}, s.units[i]? = some u → s.pc = .start j → j ≤ i → u.state ≠ .running
  phase : ∀ {u}, s.units[i]? = some u → u.restart = .onFailure → UnitPhase s i u l

namespace ServiceInv

variable {s s' : Services} {i : Nat} {l : UnitLog} {files : String → Image}

/-- A step that does not concern the unit. -/
theorem elsewhere (h : ServiceInv s i l) (hw : 2 ≤ s.kernel.nextPid) (ht : TableStep s.kernel s'.kernel)
    (hu : s'.units[i]? = s.units[i]?) (hpc : s'.pc = .respawn i ↔ s.pc = .respawn i)
    (hstart : ∀ j, s'.pc = .start j → ∃ j', s.pc = .start j' ∧ j' ≤ j) : ServiceInv s' i l where
  pids := ht.pidInv h.pids hw
  waiting := by
    intro u j hu' hj hle
    obtain ⟨j', hj', hle'⟩ := hstart j hj
    exact h.waiting (hu ▸ hu') hj' (hle'.trans hle)
  phase := fun hu' hr => (h.phase (hu ▸ hu') hr).calm ht h.pids hw hpc

/-- A call of `spawn` for the unit: it has not been started yet, or its child is gone. -/
private theorem spawned (h : ServiceInv s i l) {u : ServiceUnit} (hu : s.units[i]? = some u)
    (hpc : s.pc = .start i ∨ s.pc = .respawn i) (hr : u.restart = .onFailure) :
    u.state ≠ .running ∧ (∀ pid, u.pid = some pid → Gone s.kernel pid) ∧
      l.exits.length = l.respawns + if s.pc = .respawn i then 1 else 0 := by
  have hstart : s.pc ≠ .respawn i → u.state ≠ .running := fun hne =>
    h.waiting hu (hpc.resolve_right hne) (Nat.le_refl i)
  cases h.phase hu hr with
  | idle h1 h2 h3 h4 => exact ⟨h1, h2, by rw [if_neg h3]; exact h4⟩
  | alive h1 _ _ _ h5 _ => exact absurd h1 (hstart h5)
  | zombie h1 _ _ _ h5 _ _ => exact absurd h1 (hstart h5)
  | reaped h1 _ _ h4 _ _ => exact absurd h1 (hstart h4)
  | respawning h1 h2 h3 h4 h5 =>
    refine ⟨h1, fun pid hpid => ?_, by rw [if_pos h4]; exact h5⟩
    rw [h2] at hpid
    cases hpid
    exact h3

/-- The manager goes on to another unit. -/
private theorem skip (h : ServiceInv s i l) (hw : 2 ≤ s.kernel.nextPid) {m : Nat}
    (h1 : ∀ j, s.pc = .start j ∨ s.pc = .respawn j → s.units[j]? = none)
    (h2 : ∀ j, s.pc = .poll j → ∀ u, s.units[j]? = some u → u.state = .running → u.pid = none) :
    ServiceInv { s with pc := .poll m } i (s.logBy i l (.manager files)) := by
  refine ⟨h.pids, fun _ hj _ => (nomatch hj), fun {u} hu hr => ?_⟩
  have hne : s.pc ≠ .respawn i := by
    intro hpc
    rw [h1 i (Or.inr hpc)] at hu
    cases hu
  have hphase : UnitPhase { s with pc := .poll m } i u l :=
    (h.phase hu hr).calm (.of_eq rfl rfl) h.pids hw (iff_of_false (by simp) hne)
  unfold Services.logBy
  simp only [if_neg hne]
  by_cases hp : s.pc = .poll i
  · rw [if_pos hp]
    have hnone := h2 i hp u hu
    cases hphase with
    | idle g1 g2 g3 g4 => exact .idle g1 g2 g3 g4
    | alive g1 g2 => cases (hnone g1).symm.trans g2
    | zombie g1 g2 => cases (hnone g1).symm.trans g2
    | reaped g1 g2 => cases (hnone g1).symm.trans g2
    | respawning _ _ _ g4 => cases g4
  · rw [if_neg hp]
    exact hphase

/-- The manager calls `spawn` for the unit. -/
private theorem afterSpawn (h : ServiceInv s i l) (hw : 2 ≤ s.kernel.nextPid) {u : ServiceUnit} {r : Option Nat}
    {k : Kernel} (hpc : s.pc = .start i ∨ s.pc = .respawn i) (hu : s.units[i]? = some u)
    (hsp : Services.spawn s.kernel files u.execPath = some (r, k)) (hk : s'.kernel = k)
    (hpc' : s'.pc = .poll (i + 1) ∨ s.pc = .start i ∧ s'.pc = .start (i + 1))
    (hunits : (∃ pid, r = some pid ∧ s'.units = s.units.set i { u with state := .running, pid := some pid }) ∨
      r = none ∧ (s'.units = s.units ∧ s.pc = .respawn i ∨ s'.units = s.units.set i { u with state := .failed })) :
    ServiceInv s' i (s.logBy i l (.manager files)) := by
  subst hk
  obtain ⟨ht, hres⟩ := Services.spawn_cases h.pids.lt hsp
  have hlen : i < s.units.length := (List.getElem?_eq_some_iff.1 hu).1
  have hset : ∀ v : ServiceUnit, (s.units.set i v)[i]? = some v := fun v => List.getElem?_set_self hlen
  have hne : s'.pc ≠ .respawn i := by
    rcases hpc' with he | ⟨-, he⟩
    · rw [he]
      simp
    · rw [he]
      simp
  refine ⟨ht.pidInv h.pids hw, fun {_ j} _ hj hle => ?_, fun {v} hv hr => ?_⟩
  · rcases hpc' with he | ⟨-, he⟩
    · cases he.symm.trans hj
    · cases he.symm.trans hj
      omega
  · -- the policy of the unit has not changed, so it was in one of the two phases before
    have hpol : u.restart = .onFailure := by
      rcases hunits with ⟨pid, -, he⟩ | ⟨-, ⟨he, -⟩ | he⟩
      · rw [he, hset] at hv
        cases hv
        exact hr
      · rw [he, hu] at hv
        cases hv
        exact hr
      · rw [he, hset] at hv
        cases hv
        exact hr
    obtain ⟨h1, h2, h3⟩ := h.spawned hu hpc hpol
    have hlog : (s.logBy i l (.manager files)).exits.length = (s.logBy i l (.manager files)).respawns := by
      rcases hpc with he | he
      · simpa [Services.logBy, he] using h3
      · simpa [Services.logBy, he] using h3
    have hgone : ∀ pid, u.pid = some pid → Gone s'.kernel pid := fun pid hpid => ht.gone h.pids hw (h2 pid hpid)
    rcases hunits with ⟨pid, rfl, he⟩ | ⟨-, ⟨he, -⟩ | he⟩
    · rcases hres with hn | ⟨hpid, p, hz, hget⟩
      · cases hn
      · cases hpid
        rw [he, hset] at hv
        cases hv
        exact .alive rfl rfl hget hz hne hlog
    · rw [he, hu] at hv
      cases hv
      exact .idle h1 hgone hne hlog
    · rw [he, hset] at hv
      cases hv
      exact .idle (by simp) hgone hne hlog

/-- The manager polls the unit. -/
private theorem afterPoll (h : ServiceInv s i l) (hw : 2 ≤ s.kernel.nextPid) {u : ServiceUnit} {pid : Nat}
    (hpc : s.pc = .poll i) (hu : s.units[i]? = some u) (hrun : u.state = .running) (hpid : u.pid = some pid)
    (hk : s'.kernel = (s.kernel.sysWaitpid pid 1).2)
    (hout : (Services.exited (Services.decode (s.kernel.sysWaitpid pid 1).1) = false ∧ s'.units = s.units ∧
        s'.pc = .poll (i + 1)) ∨
      Services.exited (Services.decode (s.kernel.sysWaitpid pid 1).1) = true ∧
        s'.units = s.units.set i { u with state := .failed } ∧
        s'.pc = if u.restart = .onFailure then .respawn i else .poll (i + 1)) :
    ServiceInv s' i (s.logBy i l (.manager files)) := by
  have hlen : i < s.units.length := (List.getElem?_eq_some_iff.1 hu).1
  have ht : TableStep s.kernel s'.kernel := hk ▸ .sysWaitpid s.kernel pid 1
  have hlog : s.logBy i l (.manager files) = { l with polls := l.polls + 1 } := if_pos hpc
  rw [hlog]
  refine ⟨ht.pidInv h.pids hw, fun {_ j} _ hj => ?_, fun {v} hv hr => ?_⟩
  · rcases hout with ⟨-, -, he⟩ | ⟨-, -, he⟩
    · cases he.symm.trans hj
    · rw [he] at hj
      split at hj
      · cases hj
      · cases hj
  · -- an exited child sends the manager to `spawn`, any other one to the next unit
    have hpoll : s'.units = s.units → s'.pc = .poll (i + 1) → v = u ∧ s'.pc ≠ .respawn i := by
      intro he hp
      rw [he, hu] at hv
      exact ⟨(Option.some.inj hv).symm, by simp [hp]⟩
    have hfail : s'.units = s.units.set i { u with state := .failed } →
        s'.pc = (if u.restart = .onFailure then .respawn i else .poll (i + 1)) →
        v = { u with state := .failed } ∧ s'.pc = .respawn i := by
      intro he hp
      rw [he, List.getElem?_set_self hlen] at hv
      cases hv
      exact ⟨rfl, hp.trans (if_pos hr)⟩
    have hpol : u.restart = .onFailure := by
      rcases hout with ⟨-, he, hp⟩ | ⟨-, he, hp⟩
      · exact (hpoll he hp).1 ▸ hr
      · have hv' := (hfail he hp).1
        rw [hv'] at hr
        exact hr
    cases h.phase hu hpol with
    | idle g1 => exact absurd hrun g1
    | respawning g1 => exact absurd hrun g1
    | alive g1 g2 g3 g4 g5 g6 =>
      cases g2.symm.trans hpid
      rw [sysWaitpid_running (Nat.lt_trans (h.pids.used hw g3) h.pids.lt) g3 g4] at hk hout
      rcases hout with ⟨-, he, hp⟩ | ⟨hex, -⟩
      · obtain ⟨rfl, hne⟩ := hpoll he hp
        exact .alive g1 g2 (hk ▸ g3) g4 hne g6
      · cases hex
    | zombie g1 g2 g3 g4 g5 g6 g7 =>
      cases g2.symm.trans hpid
      have hgone : Gone s'.kernel pid := by
        rcases ht.present h.pids hw g3 with hkeep | ⟨-, hg⟩
        · rw [hk, sysWaitpid_zombie (Nat.lt_trans (h.pids.used hw g3) h.pids.lt) g3 g4] at hkeep
          rw [SortedMap.get?_erase, if_pos rfl] at hkeep
          cases hkeep
        · exact hg
      rcases hout with ⟨-, he, hp⟩ | ⟨-, he, hp⟩
      · obtain ⟨rfl, hne⟩ := hpoll he hp
        exact .reaped g1 g2 hgone hne g6 (by simp [g7])
      · obtain ⟨rfl, hpc'⟩ := hfail he hp
        exact .respawning (by simp) g2 hgone hpc' g6
    | reaped g1 g2 g3 g4 g5 g6 =>
      cases g2.symm.trans hpid
      rw [sysWaitpid_gone g3] at hk hout
      rcases hout with ⟨hex, -⟩ | ⟨-, he, hp⟩
      · cases hex
      · obtain ⟨rfl, hpc'⟩ := hfail he hp
        exact .respawning (by simp) g2 (hk ▸ g3) hpc' g5

theorem manager (h : ServiceInv s i l) (hw : 2 ≤ s.kernel.nextPid) (hs : s.managerStep files = some s') :
    ServiceInv s' i (s.logBy i l (.manager files)) := by
  cases Services.managerStep_move hs with
  | skip h1 h2 he =>
    subst he
    exact h.skip hw h1 h2
  | @spawn j u r k hpc hu hsp hk hpc' hunits =>
    by_cases hj : j = i
    · subst hj
      exact h.afterSpawn hw hpc hu hsp hk hpc' hunits
    · have hset : ∀ v : ServiceUnit, (s.units.set j v)[i]? = s.units[i]? := fun v => List.getElem?_set_ne hj
      have hlog : s.logBy i l (.manager files) = l := by
        rcases hpc with he | he
        · simp [Services.logBy, he]
        · simp [Services.logBy, he, hj]
      rw [hlog]
      refine h.elsewhere hw (hk ▸ (Services.spawn_cases h.pids.lt hsp).1) ?_ (iff_of_false ?_ ?_) ?_
      · rcases hunits with ⟨pid, -, he⟩ | ⟨-, ⟨he, -⟩ | he⟩
        · rw [he, hset]
        · rw [he]
        · rw [he, hset]
      · rcases hpc' with he | ⟨-, he⟩
        · simp [he]
        · simp [he]
      · rcases hpc with he | he
        · simp [he]
        · simp [he, hj]
      · intro m hm
        rcases hpc' with he | ⟨he', he⟩
        · cases he.symm.trans hm
        · cases he.symm.trans hm
          exact ⟨j, he', Nat.le_succ j⟩
  | @poll j u pid hpc hu hrun hpid hk hout =>
    by_cases hj : j = i
    · subst hj
      exact h.afterPoll hw hpc hu hrun hpid hk hout
    · have hlog : s.logBy i l (.manager files) = l := by simp [Services.logBy, hpc, hj]
      have hpc' : s'.pc = .poll (j + 1) ∨ s'.pc = .respawn j := by
        rcases hout with ⟨-, -, he⟩ | ⟨-, -, he⟩
        · exact Or.inl he
        · rw [he]
          split
          · exact Or.inr rfl
          · exact Or.inl rfl
      rw [hlog]
      refine h.elsewhere hw (hk ▸ .sysWaitpid s.kernel pid 1) ?_ (iff_of_false ?_ (by simp [hpc])) ?_
      · rcases hout with ⟨-, he, -⟩ | ⟨-, he, -⟩
        · rw [he]
        · rw [he, List.getElem?_set_ne hj]
      · rcases hpc' with he | he
        · simp [he]
        · simp [he, hj]
      · intro m hm
        rcases hpc' with he | he
        · cases he.symm.trans hm
        · cases he.symm.trans hm

end ServiceInv

theorem get?_exitOf {k : Kernel} {p : Process} {code : Int} (hget : k.table.get? p.pid = some p) (pid : Nat) :
    (k.exitOf p code).table.get? pid =
      if pid = p.pid then some { p with exitCode := code, isZombie := true } else k.table.get? pid := by
  simp only [Kernel.exitOf, Kernel.storeExit, hget, SortedMap.get?_insert]

namespace ServiceInv

variable {s s' : Services} {i : Nat} {l : UnitLog}

section Exit

variable {p : Process} {code : Int} {u : ServiceUnit}

private theorem gone_exitOf {k : Kernel} {pid : Nat} (hget : k.table.get? p.pid = some p) (hg : Gone k pid) :
    Gone (k.exitOf p code) pid := by
  have hne : pid ≠ p.pid := by
    intro he
    have habs := hg.absent
    rw [he, hget] at habs
    cases habs
  exact ⟨hg.lt, hg.used, by rw [get?_exitOf hget, if_neg hne, hg.absent]⟩

/-- The child exits: it is in the table and no zombie, so it was alive. -/
private theorem exit_child (h : ServiceInv s i l) (hget : s.kernel.table.get? p.pid = some p)
    (hz : p.isZombie = false)
    (hu : s.units[i]? = some u) (hr : u.restart = .onFailure) (hp : u.pid = some p.pid) :
    UnitPhase { s with kernel := s.kernel.exitOf p code } i u { l with exits := code :: l.exits, polls := 0 } := by
  have hin : ∀ {pid}, u.pid = some pid → ¬ Gone s.kernel pid := by
    intro pid hpid hg
    cases hpid.symm.trans hp
    have habs := hg.absent
    rw [hget] at habs
    cases habs
  cases h.phase hu hr with
  | idle g1 g2 => exact absurd (g2 _ hp) (hin hp)
  | alive g1 g2 g3 g4 g5 g6 =>
    have hdead : (s.kernel.exitOf p code).table.get? p.pid = _ := get?_exitOf hget p.pid
    rw [if_pos rfl] at hdead
    exact .zombie g1 hp hdead rfl g5 (by simp [g6]) rfl
  | zombie g1 g2 g3 g4 =>
    cases g2.symm.trans hp
    cases g3.symm.trans hget
    rw [hz] at g4
    cases g4
  | reaped g1 g2 g3 => exact absurd g3 (hin g2)
  | respawning g1 g2 g3 => exact absurd g3 (hin g2)

/-- Another process exits. -/
private theorem exit_other (h : ServiceInv s i l) (hget : s.kernel.table.get? p.pid = some p)
    (hu : s.units[i]? = some u) (hr : u.restart = .onFailure) (hp : u.pid ≠ some p.pid) :
    UnitPhase { s with kernel := s.kernel.exitOf p code } i u l := by
  have hkeep : ∀ {pid}, u.pid = some pid → (s.kernel.exitOf p code).table.get? pid = s.kernel.table.get? pid := by
    intro pid hpid
    rw [get?_exitOf hget, if_neg]
    intro he
    subst he
    exact hp hpid
  cases h.phase hu hr with
  | idle g1 g2 g3 g4 => exact .idle g1 (fun pid hpid => gone_exitOf hget (g2 pid hpid)) g3 g4
  | alive g1 g2 g3 g4 g5 g6 => exact .alive g1 g2 ((hkeep g2).trans g3) g4 g5 g6
  | zombie g1 g2 g3 g4 g5 g6 g7 => exact .zombie g1 g2 ((hkeep g2).trans g3) g4 g5 g6 g7
  | reaped g1 g2 g3 g4 g5 g6 => exact .reaped g1 g2 (gone_exitOf hget g3) g4 g5 g6
  | respawning g1 g2 g3 g4 g5 => exact .respawning g1 g2 (gone_exitOf hget g3) g4 g5

end Exit

theorem exit (h : ServiceInv s i l) {p : Process} {code : Int} (hget : s.kernel.table.get? p.pid = some p)
    (hz : p.isZombie = false) :
    ServiceInv { s with kernel := s.kernel.exitOf p code } i (s.logBy i l (.exit p code)) := by
  refine ⟨⟨h.pids.lt, fun h2 {pid q} hq => ?_⟩, h.waiting, fun {u} hu hr => ?_⟩
  · rw [get?_exitOf hget] at hq
    split at hq
    · rename_i he
      exact he ▸ h.pids.used h2 hget
    · exact h.pids.used h2 hq
  · have hu : s.units[i]? = some u := hu
    have hchild : s.child i = u.pid := by simp [Services.child, hu]
    by_cases hp : u.pid = some p.pid
    · have hlog : s.logBy i l (.exit p code) = { l with exits := code :: l.exits, polls := 0 } :=
        if_pos (hchild.trans hp)
      rw [hlog]
      exact h.exit_child hget hz hu hr hp
    · have hlog : s.logBy i l (.exit p code) = l := if_neg (hchild ▸ hp)
      rw [hlog]
      exact h.exit_other hget hu hr hp

theorem boot {k : Kernel} {entry stack : Nat} (hb : Kernel.boot entry stack = some k) {units : List ServiceUnit}
    (hu : ∀ u ∈ units, u.state = .stopped ∧ u.pid = none) (i : Nat) :
    ServiceInv ⟨k, units, .start 0⟩ i ⟨[], 0, 0⟩ := by
  have hlife := LifeInv.boot hb
  refine ⟨⟨hlife.pid_lt, fun h2 => (hlife.used h2).1⟩, fun {u j} hi _ _ => ?_, fun {u} hi _ => ?_⟩
  · rw [(hu u (List.mem_of_getElem? hi)).1]
    simp
  · obtain ⟨hstate, hpid⟩ := hu u (List.mem_of_getElem? hi)
    refine .idle (by simp [hstate]) (fun pid he => ?_) (by simp) rfl
    rw [hpid] at he
    cases he

end ServiceInv

theorem Services.step_other {s s' : Services} {e : Event} (h : s.step (.other e) = some s') :
    (∀ code, e ≠ .exit code) ∧ ∃ r k, s.kernel.step e = some (r, k) ∧ s' = { s with kernel := k } := by
  cases hk : s.kernel.step e with
  | none => cases e <;> simp [Services.step, hk] at h
  | some rk =>
    cases e with
    | exit code => cases h
    | _ =>
      simp only [Services.step, hk] at h
      cases h
      exact ⟨by simp, _, _, rfl, rfl⟩

theorem ServiceInv.step {s s' : Services} {i : Nat} {l : UnitLog} (h : ServiceInv s i l) (hw : 2 ≤ s.kernel.nextPid)
    {e : ServiceEvent} (hs : s.step e = some s') : ServiceInv s' i (s.logBy i l e) := by
  cases e with
  | manager files => exact h.manager hw hs
  | other e =>
    obtain ⟨he, r, k, hk, rfl⟩ := Services.step_other hs
    exact h.elsewhere hw (.step he hk) rfl Iff.rfl fun j hj => ⟨j, hj, Nat.le_refl j⟩
  | exit p code =>
    simp only [Services.step] at hs
    split at hs
    · rename_i hc
      cases hs
      exact h.exit hc.1 hc.2.1
    · cases hs

section Runs

variable {P : ServiceEvent → Services → Prop} {s : Services} {logs : Nat → UnitLog}

theorem ServiceRun.inv (hP : ∀ {e s}, P e s → 2 ≤ s.kernel.nextPid) (h : ServiceRun P s logs) (i : Nat) :
    ServiceInv s i (logs i) := by
  induction h with
  | boot hb hu => exact ServiceInv.boot hb hu i
  | step _ hp hs ih => exact ih.step (hP hp) hs

/-- Every exit of a child is answered by one call of `spawn`, at the second poll at the latest, and nothing else is.
-/
theorem respawn_per_exit (hP : ∀ {e s}, P e s → 2 ≤ s.kernel.nextPid) (h : ServiceRun P s logs) {i : Nat}
    {u : ServiceUnit} (hu : s.units[i]? = some u) (hr : u.restart = .onFailure) :
    (logs i).respawns ≤ (logs i).exits.length ∧ (logs i).exits.length ≤ (logs i).respawns + 1 ∧
      ((logs i).respawns < (logs i).exits.length → (logs i).polls ≤ 1 ∨ s.pc = .respawn i) ∧
      (s.pc = .respawn i → ∀ pid, s.child i = some pid → s.kernel.table.get? pid = none) := by
  cases (h.inv hP i).phase hu hr with
  | idle g1 g2 g3 g4 => exact ⟨g4.ge, by omega, fun hlt => by omega, fun hpc => absurd hpc g3⟩
  | alive g1 g2 g3 g4 g5 g6 => exact ⟨g6.ge, by omega, fun hlt => by omega, fun hpc => absurd hpc g5⟩
  | zombie g1 g2 g3 g4 g5 g6 g7 => exact ⟨by omega, g6.le, fun _ => Or.inl (by omega), fun hpc => absurd hpc g5⟩
  | reaped g1 g2 g3 g4 g5 g6 => exact ⟨by omega, g5.le, fun _ => Or.inl g6, fun hpc => absurd hpc g4⟩
  | respawning g1 g2 g3 g4 g5 =>
    refine ⟨by omega, g5.le, fun _ => Or.inr g4, fun _ pid hpid => ?_⟩
    have hchild : s.child i = u.pid := by simp [Services.child, hu]
    rw [hchild, g2] at hpid
    cases hpid
    exact g3.absent

end Runs

/-! ### Restarting on failure -/

/-- The exits that the policy is for. -/
def UnitLog.failures (l : UnitLog) : Nat := l.exits.countP fun code => code ≠ 0

/-- The child of the unit is running. -/
def Services.Running (s : Services) (i : Nat) : Prop :=
  ∃ pid p, s.child i = some pid ∧ s.kernel.table.get? pid = some p ∧ p.isZombie = false

/-- The unit is respawned once for each exit with a code other than 0, and for nothing else; the answer comes with the
second poll at the latest, and never while the child is running. -/
structure RestartsOnFailure (s : Services) (i : Nat) (l : UnitLog) : Prop where
  once : l.respawns ≤ l.failures ∧ l.failures ≤ l.respawns + 1
  prompt : l.respawns < l.failures → l.polls ≤ 1 ∨ s.pc = .respawn i
  dead : s.pc = .respawn i → ¬ s.Running i

/-- `NEXT_PID` has not wrapped around, and the unit's child does not exit with 0. -/
def FailsOnly (i : Nat) (e : ServiceEvent) (s : Services) : Prop :=
  2 ≤ s.kernel.nextPid ∧ ∀ p, s.child i = some p.pid → e ≠ .exit p 0

private theorem failures_logBy {s : Services} {i : Nat} {l : UnitLog} {e : ServiceEvent} (hp : FailsOnly i e s)
    (h : l.failures = l.exits.length) : (s.logBy i l e).failures = (s.logBy i l e).exits.length := by
  cases e with
  | manager files =>
    simp only [Services.logBy]
    split
    · exact h
    · split
      · exact h
      · exact h
  | other e => exact h
  | exit p code =>
    simp only [Services.logBy]
    split
    · rename_i hc
      have hne : code ≠ 0 := by
        intro he
        subst he
        exact hp.2 p hc rfl
      rw [UnitLog.failures, List.countP_cons_of_pos (by simpa using hne), List.length_cons]
      exact congrArg (· + 1) h
    · exact h

/-- In a run in which the children of a unit exit with codes other than 0 only, the unit is restarted on failure. -/
theorem restarts_on_failure {i : Nat} {s : Services} {logs : Nat → UnitLog} (h : ServiceRun (FailsOnly i) s logs)
    {u : ServiceUnit} (hu : s.units[i]? = some u) (hr : u.restart = .onFailure) :
    RestartsOnFailure s i (logs i) := by
  have hfail : (logs i).failures = (logs i).exits.length := by
    clear hu
    induction h with
    | boot => rfl
    | step _ hp _ ih => exact failures_logBy hp ih
  obtain ⟨h1, h2, h3, h4⟩ := respawn_per_exit (fun hp => hp.1) h hu hr
  refine ⟨by rw [hfail]; exact ⟨h1, h2⟩, by rw [hfail]; exact h3, fun hpc hrun => ?_⟩
  obtain ⟨pid, p, hchild, hget, -⟩ := hrun
  rw [h4 hpc pid hchild] at hget
  cases hget

/-- What `sys_exec` finds in the two runs below. -/
private def anyImage : String → Image := fun _ => .loaded 0x400000 0x8010000

/-- The child of the only unit exits with 3: the second poll leads to the only answer. -/
theorem restarts_on_failure_three :
    ∃ s logs, ServiceRun (FailsOnly 0) s logs ∧ logs 0 = ⟨[3], 1, 2⟩ ∧ RestartsOnFailure s 0 (logs 0) := by
  have h₀ : ServiceRun (FailsOnly 0) ⟨_, [.new "/usr/bin/net-server"], _⟩ _ := .boot
    (show Kernel.boot 0x400000 0x8010000 = some _ from rfl) (by simp [ServiceUnit.new])
  have h₁ : ServiceRun (FailsOnly 0) _ _ := .step (e := .manager anyImage) h₀ ⟨by decide, by simp⟩ rfl
  have h₂ : ServiceRun (FailsOnly 0) _ _ := .step (e := .manager anyImage) h₁ ⟨by decide, by simp⟩ rfl
  have h₃ : ServiceRun (FailsOnly 0) _ _ := .step (e := .exit ⟨2, 1, 0x400000, 0x8010000, 0, false⟩ 3) h₂
    ⟨by decide, by simp⟩ rfl
  have h₄ : ServiceRun (FailsOnly 0) _ _ := .step (e := .manager anyImage) h₃ ⟨by decide, by simp⟩ rfl
  have h₅ : ServiceRun (FailsOnly 0) _ _ := .step (e := .manager anyImage) h₄ ⟨by decide, by simp⟩ rfl
  have h₆ : ServiceRun (FailsOnly 0) _ _ := .step (e := .manager anyImage) h₅ ⟨by decide, by simp⟩ rfl
  have h₇ : ServiceRun (FailsOnly 0) _ _ := .step (e := .manager anyImage) h₆ ⟨by decide, by simp⟩ rfl
  exact ⟨_, _, h₇, rfl, restarts_on_failure h₇ rfl rfl⟩

/-- The child of the only unit exits with 0, and is respawned all the same. -/
theorem respawned_after_success :
    ∃ s logs, ServiceRun (fun _ s => 2 ≤ s.kernel.nextPid) s logs ∧ logs 0 = ⟨[0], 1, 2⟩ ∧
      ¬ RestartsOnFailure s 0 (logs 0) := by
  let P : ServiceEvent → Services → Prop := fun _ s => 2 ≤ s.kernel.nextPid
  have h₀ : ServiceRun P ⟨_, [.new "/usr/bin/net-server"], _⟩ _ := .boot
    (show Kernel.boot 0x400000 0x8010000 = some _ from rfl) (by simp [ServiceUnit.new])
  have h₁ : ServiceRun P _ _ := .step (e := .manager anyImage) h₀ (by decide) rfl
  have h₂ : ServiceRun P _ _ := .step (e := .manager anyImage) h₁ (by decide) rfl
  have h₃ : ServiceRun P _ _ := .step (e := .exit ⟨2, 1, 0x400000, 0x8010000, 0, false⟩ 0) h₂ (by decide) rfl
  have h₄ : ServiceRun P _ _ := .step (e := .manager anyImage) h₃ (by decide) rfl
  have h₅ : ServiceRun P _ _ := .step (e := .manager anyImage) h₄ (by decide) rfl
  have h₆ : ServiceRun P _ _ := .step (e := .manager anyImage) h₅ (by decide) rfl
  have h₇ : ServiceRun P _ _ := .step (e := .manager anyImage) h₆ (by decide) rfl
  exact ⟨_, _, h₇, rfl, fun h => absurd h.once.1 (by decide)⟩

end Hammam
