import Hammam.Process.Lifecycle

/-!
# The service manager (`dealduck/src/manager.rs`)

The manager starts its units and polls them for ever with `sys_waitpid`; everything else happens between its system
calls.  `sys_exit` stores the exit status with the process that exits here, and not with `CURRENT_PROCESS`.
-/

namespace Hammam

inductive ServiceState where
  | stopped
  | starting
  | running
  | failed
  deriving DecidableEq, Repr

inductive RestartPolicy where
  | no
  | onFailure
  | always
  deriving DecidableEq, Repr

/-- A unit without its name, which is only printed. -/
structure ServiceUnit where
  execPath : String
  state : ServiceState
  restart : RestartPolicy
  pid : Option Nat
  deriving DecidableEq, Repr

def ServiceUnit.new (execPath : String) : ServiceUnit := ⟨execPath, .stopped, .onFailure, none⟩

/-- The next system call of the manager: `spawn` in `start_all`, `waitpid_nonblock` or `spawn` in `run`; past the last
unit `run` yields and begins again. -/
inductive ManagerPc where
  | start (i : Nat)
  | poll (i : Nat)
  | respawn (i : Nat)
  deriving DecidableEq, Repr

structure Services where
  kernel : Kernel
  units : List ServiceUnit
  pc : ManagerPc

namespace Services

/-- `spawn`; `files` says what `sys_exec` finds under each path. -/
def spawn (k : Kernel) (files : String → Image) (path : String) : Option (Option Nat × Kernel) :=
  match k.sysExec (files path) with
  | none => none
  | some (pid, k') => some (if pid < 0 then none else some (pid % 2 ^ 32).toNat, k')

/-- The end of `waitpid_nonblock`, with the cast to `i32`. -/
def decode (result : Int) : Option Int := if result = 0 then none else some (result.bmod (2 ^ 32))

def waitpidNonblock (k : Kernel) (pid : Nat) : Option Int × Kernel :=
  let r := k.sysWaitpid pid 1
  (decode r.1, r.2)

/-- The condition under which `run` takes the unit for exited. -/
def exited (status : Option Int) : Bool := status == some 0 || (status.map fun s => decide (s < 0)).getD false

/-- One system call of the manager, with what it does before the next one. -/
def managerStep (s : Services) (files : String → Image) : Option Services :=
  match s.pc with
  | .start i =>
    match s.units[i]? with
    | none => some { s with pc := .poll 0 }
    | some u =>
      match spawn s.kernel files u.execPath with
      | none => none
      | some (some pid, k) =>
        some ⟨k, s.units.set i { u with state := .running, pid := some pid }, .start (i + 1)⟩
      | some (none, k) => some ⟨k, s.units.set i { u with state := .failed }, .start (i + 1)⟩
  | .poll i =>
    match s.units[i]? with
    | none => some { s with pc := .poll 0 }
    | some u =>
      if u.state = .running then
        match u.pid with
        | none => some { s with pc := .poll (i + 1) }
        | some pid =>
          let r := waitpidNonblock s.kernel pid
          if exited r.1 then
            let units := s.units.set i { u with state := .failed }
            if u.restart = .onFailure then some ⟨r.2, units, .respawn i⟩ else some ⟨r.2, units, .poll (i + 1)⟩
          else some ⟨r.2, s.units, .poll (i + 1)⟩
      else some { s with pc := .poll (i + 1) }
  | .respawn i =>
    match s.units[i]? with
    | none => some { s with pc := .poll (i + 1) }
    | some u =>
      match spawn s.kernel files u.execPath with
      | none => none
      | some (some pid, k) =>
        some ⟨k, s.units.set i { u with state := .running, pid := some pid }, .poll (i + 1)⟩
      | some (none, k) => some ⟨k, s.units, .poll (i + 1)⟩

end Services

/-- `sys_exit` of the process `p` itself. -/
def Kernel.exitOf (k : Kernel) (p : Process) (code : Int) : Kernel :=
  { k with table := { k with currentProcess := some p }.storeExit code }

/-- What happens next: a system call of the manager, an event of the kernel caused by someone else, or an exit. -/
inductive ServiceEvent where
  | manager (files : String → Image)
  | other (e : Event)
  | exit (p : Process) (code : Int)

/-- The exit codes of a unit's children, newest first, the calls of `spawn` in answer to them, and the polls since the
last exit. -/
structure UnitLog where
  exits : List Int
  respawns : Nat
  polls : Nat
  deriving DecidableEq, Repr

namespace Services

def step (s : Services) : ServiceEvent → Option Services
  | .manager files => s.managerStep files
  | .other (.exit _) => none
  | .other e =>
    match s.kernel.step e with
    | none => none
    | some (_, k) => some { s with kernel := k }
  | .exit p code =>
    if s.kernel.table.get? p.pid = some p ∧ p.isZombie = false ∧ -2 ^ 31 ≤ code ∧ code < 2 ^ 31 then
      some { s with kernel := s.kernel.exitOf p code }
    else none

/-- The child of the unit `i`. -/
def child (s : Services) (i : Nat) : Option Nat := s.units[i]?.bind ServiceUnit.pid

def logBy (s : Services) (i : Nat) (l : UnitLog) : ServiceEvent → UnitLog
  | .manager _ =>
    if s.pc = .poll i then { l with polls := l.polls + 1 }
    else if s.pc = .respawn i then { l with respawns := l.respawns + 1 }
    else l
  | .other _ => l
  | .exit p code => if s.child i = some p.pid then { l with exits := code :: l.exits, polls := 0 } else l

end Services

/-- The runs from boot on, with the logs of the units; every event meets `P` in the state in which it happens. -/
inductive ServiceRun (P : ServiceEvent → Services → Prop) : Services → (Nat → UnitLog) → Prop
  | boot {k : Kernel} {entry stack : Nat} {units : List ServiceUnit} : Kernel.boot entry stack = some k →
    (∀ u ∈ units, u.state = .stopped ∧ u.pid = none) → ServiceRun P ⟨k, units, .start 0⟩ fun _ => ⟨[], 0, 0⟩
  | step {s s' : Services} {logs : Nat → UnitLog} {e : ServiceEvent} : ServiceRun P s logs → P e s →
    s.step e = some s' → ServiceRun P s' fun i => s.logBy i (logs i) e

end Hammam
