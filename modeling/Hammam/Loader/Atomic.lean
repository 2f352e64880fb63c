import Mathlib.Data.List.TakeWhile
import Hammam.Loader.Isolation
import Hammam.Mm.Interrupted

/-!
# When creating a process fails

`from_elf` takes frames, maps pages and sets the kernel stack pointers one after another, and returns at the first
error.  It gives nothing back: the frame that was taken last before the error is lost even if it was never mapped.
So a failed call has changed nothing only if it failed before it took its first frame.

Even then it may have written: the bytes of a segment that needs no page are copied to whatever is mapped at its
address.  Such a segment must spare the page tables.
-/

namespace Hammam

open Fallible

/-- The machine and the two places that hold the top of the kernel stack. -/
structure KernelState where
  machine : Machine
  /-- `GDT.tss.rsp0`. -/
  tssRsp0 : Nat
  /-- `SC_KERNEL_RSP`. -/
  scKernelRsp : Nat

/-- A computation that leaves the stack pointers alone. -/
def onMachine {ε α : Type} (x : KernelM ε α) : ExceptT (Stop ε) (StateM KernelState) α :=
  ExceptT.mk fun k =>
    match exec x k.machine with
    | (r, s) => (r, { k with machine := s })

/-- `gdt::set_kernel_stack` and `syscall::set_kernel_stack`. -/
def setKernelStack {ε : Type} (top : Nat) : ExceptT (Stop ε) (StateM KernelState) PUnit :=
  modify fun k => { k with tssRsp0 := top, scKernelRsp := top }

/-- `Process::from_elf` with the stack pointers, which are set before the user stack is mapped. -/
def createProcess (checks : Bool) (parse : List UInt8 → Option ElfFile) (pid : Nat) (data : List UInt8) :
    ExceptT (Stop ProcessError) (StateM KernelState) Created := do
  let entryPoint ← onMachine (mapErr (Stop.map fun _ => ProcessError.elfError) (load checks parse data))
  let kernelStackFrame ← onMachine (mapErr (fun _ => Stop.err ProcessError.stackAllocationError) (allocateFrame 0))
  let kernelStackTop := kernelStackFrame.startAddress + 0x1000
  setKernelStack kernelStackTop
  onMachine ((List.range userStackPages).forM mapStackPage)
  pure ⟨pid, entryPoint, kernelStackTop, userStackVaddr + userStackPages * 0x1000⟩

section Lift

variable {ε α : Type} {k : KernelState}

theorem exec_onMachine (x : KernelM ε α) :
    exec (onMachine x) k = ((exec x k.machine).1, { k with machine := (exec x k.machine).2 }) := rfl

theorem Spec.onMachine {x : KernelM ε α} {Q : α → KernelState → Prop} {R : Stop ε → KernelState → Prop}
    (h : Spec x k.machine (fun a s => Q a { k with machine := s }) fun e s => R e { k with machine := s }) :
    Spec (onMachine x) k Q R := by
  refine Spec.intro (fun a k' hx => ?_) fun e k' hx => ?_
  · rw [exec_onMachine, Prod.mk.injEq] at hx
    obtain ⟨hr, rfl⟩ := hx
    have hx : exec x k.machine = (.ok a, (exec x k.machine).2) := Prod.ext hr rfl
    have hpost := Spec.of_ok hx h
    exact hpost
  · rw [exec_onMachine, Prod.mk.injEq] at hx
    obtain ⟨hr, rfl⟩ := hx
    have hx : exec x k.machine = (.error e, (exec x k.machine).2) := Prod.ext hr rfl
    have hpost := Spec.of_error hx h
    exact hpost

end Lift

/-- The frames are free or linked as tables as before, every address is translated as before, and the stack pointers
are the same. -/
structure Atomic (k k' : KernelState) : Prop where
  frames : ∀ x, FreeAt k'.machine.alloc x ∨ k'.machine.IsTable (x / 4096) ↔
    FreeAt k.machine.alloc x ∨ k.machine.IsTable (x / 4096)
  translate : ∀ v, k'.machine.translate v = k.machine.translate v
  tssRsp0 : k'.tssRsp0 = k.tssRsp0
  scKernelRsp : k'.scKernelRsp = k.scKernelRsp

theorem Atomic.refl (k : KernelState) : Atomic k k := ⟨fun _ => Iff.rfl, fun _ => rfl, rfl, rfl⟩

namespace ElfFile

variable (elf : ElfFile) (data : List UInt8)

end ElfFile

section Early

variable {ε : Type} {checks : Bool} {parse : List UInt8 → Option ElfFile} {s₀ s : Machine} {data : List UInt8}
  {elf : ElfFile}

section Sane

variable (hs : elf.Sane data)
include hs

end Sane

end Early

section Create

variable {checks : Bool} {parse : List UInt8 → Option ElfFile} {pid : Nat} {data : List UInt8} {elf : ElfFile}
  {k k' : KernelState} {e : ProcessError}

/-- On the machine the call is `from_elf`. -/
theorem exec_createProcess : exec (fromElf checks parse pid data) k.machine =
    ((exec (createProcess checks parse pid data) k).1, (exec (createProcess checks parse pid data) k).2.machine) := by
  unfold fromElf createProcess
  rw [exec_bind, exec_bind, exec_onMachine]
  rcases h : exec (mapErr (Stop.map fun _ => ProcessError.elfError) (load checks parse data)) k.machine with
    ⟨_ | entry, s₁⟩
  · rfl
  simp only [exec_bind, exec_onMachine]
  rcases h : exec (mapErr (fun _ => Stop.err ProcessError.stackAllocationError) (allocateFrame 0)) s₁ with
    ⟨_ | frame, s₂⟩
  · rfl
  simp only [setKernelStack, exec_modify]
  rcases h : exec ((List.range userStackPages).forM mapStackPage) s₂ with ⟨_ | _, s₃⟩
  · rfl
  · rfl

/-- A file that the parser rejects stops the call at once. -/
theorem createProcess_rejected (hparse : parse data = none) :
    exec (createProcess checks parse pid data) k = (.error (.err .elfError), k) := by
  have hload : load checks parse data = throw (.err .invalidMagic) := by
    unfold load
    rw [hparse]
  unfold createProcess
  rw [hload]
  rfl

end Create

/-! ### A machine with one free frame -/

end Hammam
