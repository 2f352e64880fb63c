import Hammam.Arch.SyscallEntry
import Hammam.Mm.TwinRuns
import Hammam.Mm.BootTables

/-!
# The boot code (`boot.rs`, `arch/x86_64/entry.rs`)

GRUB enters the kernel in 32-bit mode, with the magic number in `EAX` and the address of the information block in
`EBX`. The code puts both into memory, builds the boot tables, turns paging and long mode on, and passes both
numbers on to `_start_multiboot2`.

The processor is in the state that Multiboot2 describes: protected mode without paging, flat segments, no bit of
`CR4` set that matters here.  The direction flag is taken to be clear, which Multiboot2 leaves open and the code does
not see to.  The other flags are those of `cmpl` and `testl`, which the two conditional jumps follow directly.  From
the moment on when paging is on the code uses addresses of the first GiB only, which the tables map to itself.
-/

namespace Hammam

namespace BootCode

open ByteMem
open Syscall (Reg)

/-! ### The workspace -/

/-- `size_of::<BootPageTables>()`. -/
def pageTablesSize : Nat := 3 * 4096

def gdtAddr : Nat := bootPt + pageTablesSize

/-- A `BootGDT` is aligned to 16 bytes, so it has 32. -/
def gdtPtrAddr : Nat := gdtAddr + 32

def earlyIdtAddr : Nat := gdtPtrAddr + 10

def earlyIdtSize : Nat := 4096

def handoffMagicAddr : Nat := earlyIdtAddr + earlyIdtSize

def handoffInfoAddr : Nat := handoffMagicAddr + 4

def bootStackBytes : Nat := 16 * 1024

def bootStackTop : Nat := handoffInfoAddr + 4 + bootStackBytes

/-! ### The processor -/

inductive Seg where
  | cs | ds | es | ss | fs | gs
  deriving DecidableEq, Repr

inductive Cr where
  | cr0 | cr3 | cr4
  deriving DecidableEq, Repr

/-- `gdtr` and `idtr` are a limit and a base. -/
structure Cpu where
  reg : Reg → BitVec 64
  seg : Seg → BitVec 16
  cr : Cr → BitVec 64
  msr : BitVec 32 → BitVec 64
  gdtr : Nat × Nat
  idtr : Nat × Nat
  carry : Bool
  zero : Bool
  mem : Memory
  ports : List (Nat × BitVec 8)

namespace Cpu

def reg32 (c : Cpu) (r : Reg) : BitVec 32 := (c.reg r).setWidth 32

def setReg (c : Cpu) (r : Reg) (v : BitVec 64) : Cpu := { c with reg := Function.update c.reg r v }

def setReg32 (c : Cpu) (r : Reg) (v : BitVec 32) : Cpu := c.setReg r (v.setWidth 64)

/-- The upper bits of the register stay. -/
def setReg16 (c : Cpu) (r : Reg) (v : BitVec 16) : Cpu := c.setReg r ((c.reg r).extractLsb' 16 48 ++ v)

def setReg8 (c : Cpu) (r : Reg) (v : BitVec 8) : Cpu := c.setReg r ((c.reg r).extractLsb' 8 56 ++ v)

def setCr (c : Cpu) (r : Cr) (v : BitVec 64) : Cpu := { c with cr := Function.update c.cr r v }

def setMsr (c : Cpu) (n : BitVec 32) (v : BitVec 64) : Cpu := { c with msr := Function.update c.msr n v }

def setSeg (c : Cpu) (s : Seg) (v : BitVec 16) : Cpu := { c with seg := Function.update c.seg s v }

def setGdtr (c : Cpu) (limit base : Nat) : Cpu := { c with gdtr := (limit, base) }

def setIdtr (c : Cpu) (limit base : Nat) : Cpu := { c with idtr := (limit, base) }

/-- The `n` lower bytes of `v` are written to the address `a`. -/
def write (c : Cpu) (a n : Nat) (v : BitVec 64) : Cpu := { c with mem := store c.mem a n (bytesLE v.toNat) }

def read (c : Cpu) (a n : Nat) : Nat := readLE c.mem n a

/-- `disp(%base)`. -/
def ea (c : Cpu) (base : Reg) (disp : Nat) : Nat := ((c.reg32 base).toNat + disp) % 2 ^ 32

end Cpu

/-- What the code takes from its surroundings: `cpuid`, the labels, and the address behind the last `call`. -/
structure Platform where
  cpuid : BitVec 32 → BitVec 32 × BitVec 32 × BitVec 32 × BitVec 32
  earlyException32 : BitVec 32
  start64 : BitVec 32
  kernelStack : BitVec 64
  returnAddress : BitVec 64

/-! ### Instructions -/

inductive Label where
  | earlyException32
  | start64
  deriving DecidableEq, Repr

/-- The instructions of the 32-bit part, with the source before the destination. -/
inductive Instr where
  | cli
  | movImm (imm : BitVec 32) (dst : Reg)
  /-- `movb $imm, %al` and the like -/
  | movImm8 (imm : BitVec 8) (dst : Reg)
  | movAbs (src : Reg) (addr : Nat)
  /-- `movw` or `movl`, according to the number of bytes -/
  | mov (n : Nat) (src base : Reg) (disp : Nat)
  | movb (imm : BitVec 8) (base : Reg) (disp : Nat)
  | movw (imm : BitVec 16) (base : Reg) (disp : Nat)
  | movl (imm : BitVec 32) (base : Reg) (disp : Nat)
  | movReg (src dst : Reg)
  | movFromSeg (src : Seg) (dst : Reg)
  | movToSeg (src : Reg) (dst : Seg)
  | lea (l : Label) (dst : Reg)
  | addl (imm : BitVec 32) (dst : Reg)
  | orl (imm : BitVec 32) (dst : Reg)
  | xorl (src dst : Reg)
  | shrl (n : Nat) (dst : Reg)
  | outb (port : Nat)
  | cpuid
  | cmpl (imm : BitVec 32) (r : Reg)
  | testl (imm : BitVec 32) (r : Reg)
  | repStosl
  | movFromCr (src : Cr) (dst : Reg)
  | movToCr (src : Reg) (dst : Cr)
  | rdmsr
  | wrmsr
  | lidt (base : Reg)
  | lgdt (base : Reg)
  | pushl (imm : BitVec 32)
  | pushReg (src : Reg)
  deriving DecidableEq, Repr

def label (p : Platform) : Label → BitVec 32
  | .earlyException32 => p.earlyException32
  | .start64 => p.start64

/-- `rep stosl` for `n` words, upwards. -/
def repStosl : Nat → Cpu → Cpu
  | 0, c => c
  | n + 1, c =>
    let c := c.write (c.reg32 .rdi).toNat 4 (c.reg .rax)
    repStosl n ((c.setReg32 .rdi (c.reg32 .rdi + 4)).setReg32 .rcx (c.reg32 .rcx - 1))

def push32 (c : Cpu) (v : BitVec 32) : Cpu :=
  let c := c.setReg32 .rsp (c.reg32 .rsp - 4)
  c.write (c.reg32 .rsp).toNat 4 (v.setWidth 64)

def step (p : Platform) (c : Cpu) : Instr → Cpu
  | .cli => c
  | .movImm imm dst => c.setReg32 dst imm
  | .movImm8 imm dst => c.setReg8 dst imm
  | .movAbs src addr => c.write addr 4 (c.reg src)
  | .mov n src base disp => c.write (c.ea base disp) n (c.reg src)
  | .movb imm base disp => c.write (c.ea base disp) 1 (imm.setWidth 64)
  | .movw imm base disp => c.write (c.ea base disp) 2 (imm.setWidth 64)
  | .movl imm base disp => c.write (c.ea base disp) 4 (imm.setWidth 64)
  | .movReg src dst => c.setReg32 dst (c.reg32 src)
  | .movFromSeg src dst => c.setReg16 dst (c.seg src)
  | .movToSeg src dst => c.setSeg dst ((c.reg src).setWidth 16)
  | .lea l dst => c.setReg32 dst (label p l)
  | .addl imm dst => c.setReg32 dst (c.reg32 dst + imm)
  | .orl imm dst => c.setReg32 dst (c.reg32 dst ||| imm)
  | .xorl src dst => c.setReg32 dst (c.reg32 dst ^^^ c.reg32 src)
  | .shrl n dst => c.setReg32 dst (c.reg32 dst >>> n)
  | .outb port => { c with ports := c.ports ++ [(port, (c.reg .rax).setWidth 8)] }
  | .cpuid =>
    let (a, b, cx, d) := p.cpuid (c.reg32 .rax)
    (((c.setReg32 .rax a).setReg32 .rbx b).setReg32 .rcx cx).setReg32 .rdx d
  | .cmpl imm r => { c with carry := decide (c.reg32 r < imm), zero := decide (c.reg32 r = imm) }
  | .testl imm r => { c with carry := false, zero := decide (c.reg32 r &&& imm = 0) }
  | .repStosl => repStosl (c.reg32 .rcx).toNat c
  | .movFromCr src dst => c.setReg32 dst ((c.cr src).setWidth 32)
  | .movToCr src dst => c.setCr dst ((c.reg32 src).setWidth 64)
  | .rdmsr =>
    let v := c.msr (c.reg32 .rcx)
    (c.setReg32 .rax (v.setWidth 32)).setReg32 .rdx ((v >>> 32).setWidth 32)
  | .wrmsr => c.setMsr (c.reg32 .rcx) (c.reg32 .rdx ++ c.reg32 .rax)
  | .lidt base => c.setIdtr (c.read (c.ea base 0) 2) (c.read (c.ea base 2) 4)
  | .lgdt base => c.setGdtr (c.read (c.ea base 0) 2) (c.read (c.ea base 2) 4)
  | .pushl imm => push32 c imm
  | .pushReg src => push32 c (c.reg32 src)

def run (p : Platform) (c : Cpu) (code : List Instr) : Cpu := code.foldl (step p) c

/-- Straight-line code, the loops `1: ... loop 1b`, and the jumps to `no_long_mode`. -/
inductive Code where
  | block (code : List Instr)
  | loop (body : List Instr)
  | jb
  | jz
  deriving DecidableEq, Repr

inductive Stop where
  /-- The loop at `no_long_mode`. -/
  | noLongMode
  /-- The far return does not lead to `start64` in 64-bit mode. -/
  | fault
  | outOfFuel
  deriving DecidableEq, Repr

/-- The body and the decrement of `loop`. -/
def turn (p : Platform) (body : List Instr) (c : Cpu) : Cpu :=
  let c := run p c body
  c.setReg32 .rcx (c.reg32 .rcx - 1)

/-- The body is run until `ECX` is zero. -/
def loop (p : Platform) (body : List Instr) : Nat → Cpu → Except Stop Cpu
  | 0, _ => .error .outOfFuel
  | fuel + 1, c =>
    let c := turn p body c
    if c.reg32 .rcx = 0 then .ok c else loop p body fuel c

def exec (p : Platform) (fuel : Nat) (c : Cpu) : List Code → Except Stop Cpu
  | [] => .ok c
  | .block body :: code => exec p fuel (run p c body) code
  | .loop body :: code =>
    match loop p body fuel c with
    | .ok c => exec p fuel c code
    | .error e => .error e
  | .jb :: code => if c.carry then .error .noLongMode else exec p fuel c code
  | .jz :: code => if c.zero then .error .noLongMode else exec p fuel c code

/-! ### `_start` -/

def saveHandoff : List Instr :=
  [.cli, .movAbs .rax handoffMagicAddr, .movAbs .rbx handoffInfoAddr,
    .movFromSeg .ds .rax, .movToSeg .rax .es, .movImm8 0xff .rax, .outb 0x21, .outb 0xa1]

def earlyIdtStart : List Instr :=
  [.lea .earlyException32 .rbx, .movImm (.ofNat 32 earlyIdtAddr) .rdi, .movImm 256 .rcx]

/-- One gate of the early IDT. -/
def earlyGate : List Instr :=
  [.mov 2 .rbx .rdi 0, .movw 0x08 .rdi 2, .movb 0 .rdi 4, .movb 0x8E .rdi 5, .movReg .rbx .rax, .shrl 16 .rax,
    .mov 2 .rax .rdi 6, .addl 8 .rdi]

def loadEarlyIdt : List Instr :=
  [.movImm (.ofNat 32 earlyIdtAddr) .rdi, .addl 2048 .rdi, .movw 2047 .rdi 0, .movl (.ofNat 32 earlyIdtAddr) .rdi 4,
    .lidt .rdi, .movImm (.ofNat 32 bootStackTop) .rsp]

def highestExtended : List Instr := [.movImm 0x80000000 .rax, .cpuid, .cmpl 0x80000001 .rax]

def longModeBit : List Instr := [.movImm 0x80000001 .rax, .cpuid, .testl ((1 : BitVec 32) <<< 29) .rdx]

def zeroTables : List Instr :=
  [.movImm (.ofNat 32 bootPt) .rdi, .xorl .rax .rax, .movImm 3072 .rcx, .repStosl]

def linkTables : List Instr :=
  [.movImm (.ofNat 32 bootPt) .rdi, .movImm (.ofNat 32 bootPt) .rax, .addl 4096 .rax, .orl 7 .rax, .mov 4 .rax .rdi 0,
    .movImm (.ofNat 32 bootPt) .rax, .addl 4096 .rax, .movImm (.ofNat 32 bootPt) .rcx, .addl 8192 .rcx, .orl 7 .rcx,
    .mov 4 .rcx .rax 0]

def directoryStart : List Instr :=
  [.movImm (.ofNat 32 bootPt) .rdi, .addl 8192 .rdi, .movImm 0x87 .rax, .movImm 512 .rcx]

def directoryEntry : List Instr := [.mov 4 .rax .rdi 0, .addl 8 .rdi, .addl 0x200000 .rax]

def enableLongMode : List Instr :=
  [.movFromCr .cr4 .rax, .orl 0x20 .rax, .movToCr .rax .cr4,
    .movImm 0xC0000080 .rcx, .rdmsr, .orl 0x100 .rax, .wrmsr,
    .movImm (.ofNat 32 bootPt) .rax, .movToCr .rax .cr3,
    .movFromCr .cr0 .rax, .orl 0x80000000 .rax, .movToCr .rax .cr0]

def loadGdt : List Instr :=
  [.movImm (.ofNat 32 gdtAddr) .rax, .movImm (.ofNat 32 gdtPtrAddr) .rbx, .mov 4 .rax .rbx 2, .movl 0 .rbx 6,
    .lgdt .rbx]

def farAddress : List Instr := [.pushl 0x08, .lea .start64 .rax, .pushReg .rax]

/-- `_start` up to the far return. -/
def start : List Code :=
  [.block saveHandoff, .block earlyIdtStart, .loop earlyGate, .block loadEarlyIdt,
    .block highestExtended, .jb, .block longModeBit, .jz,
    .block zeroTables, .block linkTables, .block directoryStart, .loop directoryEntry,
    .block enableLongMode, .block loadGdt, .block farAddress]

/-! ### Into 64-bit mode -/

/-- `CR0.PG`, `CR4.PAE` and `EFER.LME`. -/
def Cpu.longMode (c : Cpu) : Bool :=
  (c.cr .cr0).getLsbD 31 && (c.cr .cr4).getLsbD 5 && (c.msr 0xC0000080).getLsbD 8

/-- The selector is that of a present code segment of 64-bit mode. -/
def Cpu.code64 (c : Cpu) (selector : BitVec 16) : Bool :=
  let offset := selector.toNat / 8 * 8
  let d := BitVec.ofNat 64 (c.read (c.gdtr.2 + offset) 8)
  decide (offset + 7 ≤ c.gdtr.1) && d.getLsbD 47 && d.getLsbD 44 && d.getLsbD 43 && d.getLsbD 53 && !d.getLsbD 54

/-- `lret` pops the address and the selector. -/
def lret (p : Platform) (c : Cpu) : Except Stop Cpu :=
  let sp := (c.reg32 .rsp).toNat
  let offset := BitVec.ofNat 32 (c.read sp 4)
  let selector := BitVec.ofNat 16 (c.read (sp + 4) 2)
  if c.longMode && c.code64 selector && decide (offset = p.start64) then
    .ok ((c.setReg32 .rsp (c.reg32 .rsp + 8)).setSeg .cs selector)
  else .error .fault

inductive Instr64 where
  | movw (imm : BitVec 16) (dst : Reg)
  | movToSeg (src : Reg) (dst : Seg)
  | xorw (src dst : Reg)
  | movabs (imm : BitVec 64) (dst : Reg)
  /-- `movl (%base), %dst` -/
  | load (base dst : Reg)
  /-- `lea dst, [rip + KERNEL_STACK]` -/
  | leaKernelStack (dst : Reg)
  | add (dst : Reg) (imm : BitVec 64)
  | and (dst : Reg) (imm : BitVec 64)
  /-- `mov dst, src` -/
  | mov (dst src : Reg)
  | call
  deriving DecidableEq, Repr

def step64 (p : Platform) (c : Cpu) : Instr64 → Cpu
  | .movw imm dst => c.setReg16 dst imm
  | .movToSeg src dst => c.setSeg dst ((c.reg src).setWidth 16)
  | .xorw src dst => c.setReg16 dst ((c.reg dst).setWidth 16 ^^^ (c.reg src).setWidth 16)
  | .movabs imm dst => c.setReg dst imm
  | .load base dst => c.setReg32 dst (.ofNat 32 (c.read (c.reg base).toNat 4))
  | .leaKernelStack dst => c.setReg dst p.kernelStack
  | .add dst imm => c.setReg dst (c.reg dst + imm)
  | .and dst imm => c.setReg dst (c.reg dst &&& imm)
  | .mov dst src => c.setReg dst (c.reg src)
  | .call =>
    let c := c.setReg .rsp (c.reg .rsp - 8)
    c.write (c.reg .rsp).toNat 8 p.returnAddress

def run64 (p : Platform) (c : Cpu) (code : List Instr64) : Cpu := code.foldl (step64 p) c

def setSegments : List Instr64 :=
  [.movw 0x10 .rax, .movToSeg .rax .ds, .movToSeg .rax .es, .movToSeg .rax .ss,
    .xorw .rax .rax, .movToSeg .rax .fs, .movToSeg .rax .gs]

def loadHandoff : List Instr64 :=
  [.movabs (.ofNat 64 handoffMagicAddr) .rax, .load .rax .rax,
    .movabs (.ofNat 64 handoffInfoAddr) .rbx, .load .rbx .rbx]

/-- The code at `start64`. -/
def start64 : List Instr64 := setSegments ++ loadHandoff

/-- `_hammam_entry`. -/
def hammamEntry : List Instr64 :=
  [.leaKernelStack .rsp, .add .rsp (.ofNat 64 (64 * 1024)), .and .rsp (-16), .mov .rdi .rax, .mov .rsi .rbx, .call]

/-- From the entry of the image to that of `_start_multiboot2`. -/
def boot (p : Platform) (fuel : Nat) (c : Cpu) : Except Stop Cpu := do
  let c ← exec p fuel c start
  let c ← lret p c
  pure (run64 p c (start64 ++ hammamEntry))

/-! ### Registers and memory -/

namespace Cpu

@[simp] theorem setReg_mem (c : Cpu) (r : Reg) (v : BitVec 64) : (c.setReg r v).mem = c.mem := rfl

@[simp] theorem setReg32_mem (c : Cpu) (r : Reg) (v : BitVec 32) : (c.setReg32 r v).mem = c.mem := rfl

@[simp] theorem setReg16_mem (c : Cpu) (r : Reg) (v : BitVec 16) : (c.setReg16 r v).mem = c.mem := rfl

@[simp] theorem setReg8_mem (c : Cpu) (r : Reg) (v : BitVec 8) : (c.setReg8 r v).mem = c.mem := rfl

@[simp] theorem write_reg (c : Cpu) (a n : Nat) (v : BitVec 64) : (c.write a n v).reg = c.reg := rfl

@[simp] theorem write_reg32 (c : Cpu) (a n : Nat) (v : BitVec 64) : (c.write a n v).reg32 = c.reg32 := rfl

theorem reg32_setReg32 (c : Cpu) (r r' : Reg) (v : BitVec 32) :
    (c.setReg32 r v).reg32 r' = if r' = r then v else c.reg32 r' := by
  unfold reg32 setReg32 setReg
  by_cases h : r' = r
  · subst h
    simp
  · simp [h]

theorem reg_setReg (c : Cpu) (r r' : Reg) (v : BitVec 64) :
    (c.setReg r v).reg r' = if r' = r then v else c.reg r' := Function.update_apply _ _ _ _

theorem reg_setReg32 (c : Cpu) (r r' : Reg) (v : BitVec 32) :
    (c.setReg32 r v).reg r' = if r' = r then v.setWidth 64 else c.reg r' := reg_setReg c r r' _

theorem write_mem (c : Cpu) (a n : Nat) (v : BitVec 64) : (c.write a n v).mem = store c.mem a n (bytesLE v.toNat) :=
  rfl

@[simp] theorem setSeg_mem (c : Cpu) (s : Seg) (v : BitVec 16) : (c.setSeg s v).mem = c.mem := rfl

@[simp] theorem setGdtr_mem (c : Cpu) (l b : Nat) : (c.setGdtr l b).mem = c.mem := rfl

@[simp] theorem setIdtr_mem (c : Cpu) (l b : Nat) : (c.setIdtr l b).mem = c.mem := rfl

@[simp] theorem setReg32_cr (c : Cpu) (r : Reg) (v : BitVec 32) : (c.setReg32 r v).cr = c.cr := rfl

@[simp] theorem setReg32_msr (c : Cpu) (r : Reg) (v : BitVec 32) : (c.setReg32 r v).msr = c.msr := rfl

@[simp] theorem setCr_cr (c : Cpu) (k : Cr) (v : BitVec 64) : (c.setCr k v).cr = Function.update c.cr k v := rfl

@[simp] theorem setCr_msr (c : Cpu) (k : Cr) (v : BitVec 64) : (c.setCr k v).msr = c.msr := rfl

@[simp] theorem setMsr_cr (c : Cpu) (k : BitVec 32) (v : BitVec 64) : (c.setMsr k v).cr = c.cr := rfl

@[simp] theorem setMsr_msr (c : Cpu) (k : BitVec 32) (v : BitVec 64) :
    (c.setMsr k v).msr = Function.update c.msr k v := rfl

end Cpu

/-! ### Loops -/

/-- A body that leaves `ECX` alone is run as often as `ECX` says. -/
theorem loop_spec {p : Platform} {body : List Instr} {inv : Nat → Cpu → Prop} {n i : Nat} {c : Cpu} (hn : n < 2 ^ 32)
    (hcount : ∀ c, (run p c body).reg32 .rcx = c.reg32 .rcx)
    (hbody : ∀ {i c}, i < n → inv i c → inv (i + 1) (turn p body c)) (hi : i < n) (h : inv i c)
    (hc : c.reg32 .rcx = BitVec.ofNat 32 (n - i)) :
    ∃ c', (∀ fuel ≥ n, loop p body fuel c = .ok c') ∧ inv n c' := by
  have main : ∀ k i c, i + k + 1 = n → inv i c → c.reg32 .rcx = BitVec.ofNat 32 (n - i) →
      ∃ c', (∀ fuel ≥ k + 1, loop p body fuel c = .ok c') ∧ inv n c' := by
    intro k
    induction k with
    | zero =>
      intro i c hk h hc
      have hlast : (turn p body c).reg32 .rcx = 0 := by
        rw [turn, Cpu.reg32_setReg32, if_pos rfl, hcount, hc, show n - i = 1 by omega]
        rfl
      refine ⟨turn p body c, fun fuel hf => ?_, ?_⟩
      · obtain ⟨fuel, rfl⟩ := Nat.exists_eq_add_of_le' hf
        rw [loop]
        exact if_pos hlast
      · rw [← hk]
        exact hbody (by omega) h
    | succ k ih =>
      intro i c hk h hc
      have hnext : (turn p body c).reg32 .rcx = BitVec.ofNat 32 (n - (i + 1)) := by
        rw [turn, Cpu.reg32_setReg32, if_pos rfl, hcount, hc]
        apply BitVec.eq_of_toNat_eq
        rw [BitVec.toNat_sub, BitVec.toNat_ofNat, BitVec.toNat_ofNat, show (1 : BitVec 32).toNat = 1 from rfl]
        omega
      have hmore : (turn p body c).reg32 .rcx ≠ 0 := by
        intro h0
        have := congrArg BitVec.toNat (hnext.symm.trans h0)
        rw [BitVec.toNat_ofNat, show (0 : BitVec 32).toNat = 0 from rfl] at this
        omega
      obtain ⟨c', hrun, hinv⟩ := ih (i + 1) (turn p body c) (by omega) (hbody (by omega) h) hnext
      refine ⟨c', fun fuel hf => ?_, hinv⟩
      obtain ⟨fuel, rfl⟩ := Nat.exists_eq_add_of_le' (Nat.le_trans (Nat.le_add_left 1 _) hf)
      rw [loop]
      exact (if_neg hmore).trans (hrun fuel (by omega))
  obtain ⟨c', hrun, hinv⟩ := main (n - i - 1) i c (by omega) h hc
  exact ⟨c', fun fuel hf => hrun fuel (by omega), hinv⟩

/-- The stack pointer and the IDT stay. -/
def Kept (c d : Cpu) : Prop := d.reg32 .rsp = c.reg32 .rsp ∧ d.idtr = c.idtr

theorem Kept.trans {c d e : Cpu} (h : Kept c d) (h' : Kept d e) : Kept c e := ⟨h'.1.trans h.1, h'.2.trans h.2⟩

theorem repStosl_kept (n : Nat) (c : Cpu) : Kept c (repStosl n c) := by
  induction n generalizing c with
  | zero => exact ⟨rfl, rfl⟩
  | succ n ih => exact Kept.trans ⟨rfl, rfl⟩ (ih _)

/-- `rep stosl` of zeros. -/
theorem repStosl_mem {n : Nat} {c : Cpu} (hd : (c.reg32 .rdi).toNat + 4 * n ≤ 2 ^ 32) (ha : c.reg .rax = 0) :
    (repStosl n c).mem = store c.mem (c.reg32 .rdi).toNat (4 * n) (fun _ => 0) := by
  induction n generalizing c with
  | zero =>
    funext x
    exact (store_of_not_mem _ (by omega)).symm
  | succ n ih =>
    have hbyte : ∀ i, bytesLE (c.reg .rax).toNat i = 0 := by
      intro i
      rw [ha, bytesLE, show (0 : BitVec 64).toNat = 0 from rfl, Nat.zero_div]
      rfl
    rw [repStosl]
    by_cases hlast : n = 0
    · subst hlast
      funext x
      simp only [repStosl, Cpu.setReg32_mem, Cpu.write_mem, store, hbyte]
    · have hdi : (c.reg32 .rdi + 4).toNat = (c.reg32 .rdi).toNat + 4 := by
        rw [BitVec.toNat_add, show (4 : BitVec 32).toNat = 4 from rfl]
        omega
      rw [ih]
      · funext x
        simp only [Cpu.setReg32_mem, Cpu.write_mem, Cpu.reg32_setReg32, reduceCtorEq, if_false, if_true,
          Cpu.write_reg32, hdi, store, hbyte]
        grind
      · simp only [Cpu.reg32_setReg32, reduceCtorEq, if_false, if_true, Cpu.write_reg32, hdi]
        omega
      · simp only [Cpu.reg_setReg32, reduceCtorEq, if_false, Cpu.write_reg, ha]

/-! ### The tables -/

theorem fillTable_apply (m : Memory) (a : Nat) (e : Nat → Nat) (n x : Nat) :
    fillTable m ⟨a⟩ e n x = if a ≤ x ∧ x < a + 8 * n then bytesLE (e ((x - a) / 8)) ((x - a) % 8) else m x := by
  induction n with
  | zero => exact (if_neg (by omega)).symm
  | succ n ih =>
    by_cases hx : a + 8 * n ≤ x ∧ x < a + 8 * n + 8
    · have hlast : fillTable m ⟨a⟩ e (n + 1) x = bytesLE (e n) (x - (a + 8 * n)) := store_of_mem _ hx
      rw [hlast, if_pos (by omega), show (x - a) / 8 = n by omega, show (x - a) % 8 = x - (a + 8 * n) by omega]
    · have hbefore : fillTable m ⟨a⟩ e (n + 1) x = fillTable m ⟨a⟩ e n x := store_of_not_mem _ hx
      rw [hbefore, ih]
      exact if_congr (by omega) rfl rfl

theorem zeroTable_eq (m : Memory) (a : Nat) : zeroTable m ⟨a⟩ = store m a 4096 fun _ => 0 := by
  funext x
  have hzero : ∀ i, bytesLE 0 i = 0 := by
    intro i
    rw [bytesLE, Nat.zero_div]
    rfl
  rw [zeroTable, fillTable_apply, hzero]
  rfl

/-- The upper half of an entry is zero already. -/
theorem store_long {m : Memory} {a i v : Nat} (hv : v < 2 ^ 32)
    (hz : ∀ x, a + 8 * i + 4 ≤ x → x < a + 8 * i + 8 → m x = 0) :
    store m (a + 8 * i) 4 (bytesLE v) = setEntry m ⟨a⟩ i v := by
  show _ = store m (a + 8 * i) 8 (bytesLE v)
  generalize a + 8 * i = a at hz
  funext x
  by_cases h4 : a ≤ x ∧ x < a + 4
  · rw [store_of_mem _ h4, store_of_mem _ (by omega)]
  · rw [store_of_not_mem _ h4]
    by_cases h8 : a ≤ x ∧ x < a + 8
    · have hbyte : v / 256 ^ (x - a) = 0 := by
        refine Nat.div_eq_of_lt (Nat.lt_of_lt_of_le hv ?_)
        calc 2 ^ 32 = 256 ^ 4 := rfl
          _ ≤ 256 ^ (x - a) := Nat.pow_le_pow_right (by decide) (by omega)
      rw [store_of_mem _ h8, bytesLE, hbyte, hz x (by omega) h8.2]
      rfl
    · rw [store_of_not_mem _ h8]

/-- Two links between tables of zeros. -/
theorem links_eq {m : Memory} {a v w : Nat} (hv : v < 2 ^ 32) (hw : w < 2 ^ 32)
    (hz : ∀ x, a ≤ x → x < a + 12288 → m x = 0) :
    store (store m a 4 (bytesLE v)) (a + 4096) 4 (bytesLE w) = setEntry (setEntry m ⟨a⟩ 0 v) ⟨a + 4096⟩ 0 w := by
  have hfirst : store m (a + 8 * 0) 4 (bytesLE v) = setEntry m ⟨a⟩ 0 v :=
    store_long hv fun x h1 h2 => hz x (by omega) (by omega)
  have hsecond : store (setEntry m ⟨a⟩ 0 v) (a + 4096 + 8 * 0) 4 (bytesLE w) =
      setEntry (setEntry m ⟨a⟩ 0 v) ⟨a + 4096⟩ 0 w := by
    refine store_long hw fun x h1 h2 => ?_
    have hfar : ¬ (a + 8 * 0 ≤ x ∧ x < a + 8 * 0 + 8) := by omega
    exact (store_of_not_mem _ hfar).trans (hz x (by omega) (by omega))
  rw [Nat.mul_zero, Nat.add_zero] at hfirst hsecond
  rw [hfirst, hsecond]

/-- `movl` writes the lower half of a register. -/
theorem Cpu.write_long (c : Cpu) (a : Nat) (r : Reg) :
    (c.write a 4 (c.reg r)).mem = store c.mem a 4 (bytesLE (c.reg32 r).toNat) := by
  funext x
  by_cases hx : a ≤ x ∧ x < a + 4
  · rw [write_mem, store_of_mem _ hx, store_of_mem _ hx, reg32, BitVec.toNat_setWidth]
    have hi : x - a < 4 := by omega
    generalize x - a = i at hi
    apply UInt8.toNat_inj.1
    rw [bytesLE, bytesLE, UInt8.toNat_ofNat', UInt8.toNat_ofNat']
    have : i = 0 ∨ i = 1 ∨ i = 2 ∨ i = 3 := by omega
    rcases this with rfl | rfl | rfl | rfl <;> omega
  · rw [write_mem, store_of_not_mem _ hx, store_of_not_mem _ hx]

/-- Three tables behind each other. -/
theorem zeroTables_eq (m : Memory) (a : Nat) :
    zeroTable (zeroTable (zeroTable m ⟨a⟩) ⟨a + 4096⟩) ⟨a + 8192⟩ = store m a 12288 fun _ => 0 := by
  rw [zeroTable_eq, zeroTable_eq, zeroTable_eq]
  funext x
  simp only [store]
  grind

theorem run_concat (p : Platform) (c : Cpu) (l : List Instr) (i : Instr) :
    run p c (l ++ [i]) = step p (run p c l) i := by
  rw [run, List.foldl_append]
  rfl

theorem run_zeroTables (p : Platform) (c : Cpu) :
    (run p c zeroTables).mem = zeroTable (zeroTable (zeroTable c.mem ⟨bootPt⟩) ⟨bootPt + 4096⟩) ⟨bootPt + 8192⟩ ∧
      Kept c (run p c zeroTables) := by
  let setup : List Instr := [.movImm (.ofNat 32 bootPt) .rdi, .xorl .rax .rax, .movImm 3072 .rcx]
  have hsplit : zeroTables = setup ++ [.repStosl] := rfl
  have hkept : Kept c (run p c setup) := ⟨rfl, rfl⟩
  have hmem : (run p c setup).mem = c.mem := rfl
  have hcx : ((run p c setup).reg32 .rcx).toNat = 3072 := by
    simp only [setup, run, List.foldl_cons, List.foldl_nil, step, Cpu.reg32_setReg32, if_true]
    decide
  have hdi : ((run p c setup).reg32 .rdi).toNat = bootPt := by
    simp only [setup, run, List.foldl_cons, List.foldl_nil, step, Cpu.reg32_setReg32, reduceCtorEq, if_false, if_true]
    decide
  have hax : (run p c setup).reg .rax = 0 := by
    simp only [setup, run, List.foldl_cons, List.foldl_nil, step, Cpu.reg_setReg32, reduceCtorEq, if_false, if_true,
      BitVec.xor_self]
    rfl
  rw [hsplit, run_concat]
  generalize run p c setup = c₁ at *
  have hfit : (c₁.reg32 .rdi).toNat + 4 * 3072 ≤ 2 ^ 32 := by
    rw [hdi]
    decide
  rw [step, hcx, zeroTables_eq, repStosl_mem hfit hax, hdi, hmem]
  exact ⟨rfl, hkept.trans (repStosl_kept _ _)⟩

theorem run_linkTables (p : Platform) (c : Cpu) :
    (run p c linkTables).mem = store (store c.mem bootPt 4 (bytesLE ((bootPt + 4096) ||| 7))) (bootPt + 4096) 4
      (bytesLE ((bootPt + 8192) ||| 7)) := by
  simp only [run, linkTables, List.foldl_cons, List.foldl_nil, step, Cpu.write_long, Cpu.ea, Cpu.setReg32_mem,
    Cpu.write_reg32, Cpu.reg32_setReg32, reduceCtorEq, if_false, if_true]
  have h₄ : ((BitVec.ofNat 32 bootPt).toNat + 0) % 2 ^ 32 = bootPt := by decide
  have h₃ : ((BitVec.ofNat 32 bootPt + 4096).toNat + 0) % 2 ^ 32 = bootPt + 4096 := by decide
  have e₄ : (BitVec.ofNat 32 bootPt + 4096 ||| 7).toNat = (bootPt + 4096) ||| 7 := by decide
  have e₃ : (BitVec.ofNat 32 bootPt + 8192 ||| 7).toNat = (bootPt + 8192) ||| 7 := by decide
  rw [h₄, h₃, e₄, e₃]

theorem linkTables_kept (p : Platform) (c : Cpu) : Kept c (run p c linkTables) := ⟨rfl, rfl⟩

/-- One entry of the page directory. -/
theorem turn_directoryEntry (p : Platform) (c : Cpu) :
    (turn p directoryEntry c).mem = store c.mem (c.reg32 .rdi).toNat 4 (bytesLE (c.reg32 .rax).toNat) ∧
      (turn p directoryEntry c).reg32 .rdi = c.reg32 .rdi + 8 ∧
      (turn p directoryEntry c).reg32 .rax = c.reg32 .rax + 0x200000 ∧ Kept c (turn p directoryEntry c) := by
  have hea : (c.reg32 .rdi).toNat % 2 ^ 32 = (c.reg32 .rdi).toNat := Nat.mod_eq_of_lt (c.reg32 .rdi).isLt
  refine ⟨?_, ?_, ?_, rfl, rfl⟩ <;> simp only [turn, run, directoryEntry, List.foldl_cons, List.foldl_nil, step,
    Cpu.write_long, Cpu.ea, Cpu.setReg32_mem, Cpu.write_reg32, Cpu.reg32_setReg32, reduceCtorEq, if_false, if_true,
    Nat.add_zero, hea]

/-- The loop over the page directory, which holds zeros. -/
theorem directory_spec (p : Platform) {c : Cpu} {a : Nat} (ha : a + 4096 < 2 ^ 32)
    (hz : ∀ x, a ≤ x → x < a + 4096 → c.mem x = 0) (hdi : c.reg32 .rdi = .ofNat 32 a) (hax : c.reg32 .rax = 0x87)
    (hcx : c.reg32 .rcx = 512) :
    ∃ c', (∀ fuel ≥ 512, loop p directoryEntry fuel c = .ok c') ∧
      c'.mem = fillTable c.mem ⟨a⟩ (fun i => 0x87 + i * 0x200000) 512 ∧ Kept c c' := by
  let e : Nat → Nat := fun i => 0x87 + i * 0x200000
  let inv : Nat → Cpu → Prop := fun i d => d.mem = fillTable c.mem ⟨a⟩ e i ∧
    d.reg32 .rdi = BitVec.ofNat 32 (a + 8 * i) ∧ d.reg32 .rax = BitVec.ofNat 32 (e i) ∧ Kept c d
  have hstep : ∀ {i d}, i < 512 → inv i d → inv (i + 1) (turn p directoryEntry d) := by
    intro i d hi hd
    obtain ⟨hmem, hdi, hax, hkept⟩ := hd
    obtain ⟨tmem, tdi, tax, tkept⟩ := turn_directoryEntry p d
    have hlt : e i < 2 ^ 32 := by
      simp only [e]
      omega
    refine ⟨?_, ?_, ?_, hkept.trans tkept⟩
    · rw [tmem, hmem, hdi, hax, BitVec.toNat_ofNat, BitVec.toNat_ofNat, Nat.mod_eq_of_lt hlt,
        Nat.mod_eq_of_lt (by omega)]
      refine store_long hlt fun x h1 h2 => ?_
      rw [fillTable_apply, if_neg (by omega)]
      exact hz x (by omega) (by omega)
    · rw [tdi, hdi, Nat.mul_succ, ← Nat.add_assoc, BitVec.ofNat_add _ 8]
      rfl
    · rw [tax, hax, show e (i + 1) = e i + 0x200000 by simp only [e]; omega, BitVec.ofNat_add _ 0x200000]
      rfl
  have hcount : ∀ d, (run p d directoryEntry).reg32 .rcx = d.reg32 .rcx := by
    intro d
    simp only [run, directoryEntry, List.foldl_cons, List.foldl_nil, step, Cpu.write_reg32, Cpu.reg32_setReg32,
      reduceCtorEq, if_false]
  have hstart : inv 0 c := ⟨rfl, hdi, hax, rfl, rfl⟩
  obtain ⟨c', hloop, hmem, -, -, hkept⟩ :=
    @loop_spec p directoryEntry inv 512 0 c (by decide) hcount hstep (by decide) hstart hcx
  exact ⟨c', hloop, hmem, hkept⟩

/-- The last of three tables of zeros, after links in the first two. -/
theorem links_zero {m : Memory} {a v w x : Nat} (hz : ∀ x, a ≤ x → x < a + 12288 → m x = 0) (h1 : a + 8192 ≤ x)
    (h2 : x < a + 8192 + 4096) : store (store m a 4 (bytesLE v)) (a + 4096) 4 (bytesLE w) x = 0 := by
  rw [store_of_not_mem _ (by omega), store_of_not_mem _ (by omega)]
  exact hz x (by omega) (by omega)

theorem run_directoryStart (p : Platform) (c : Cpu) : (run p c directoryStart).mem = c.mem ∧
    (run p c directoryStart).reg32 .rdi = .ofNat 32 (bootPt + 8192) ∧
    (run p c directoryStart).reg32 .rax = 0x87 ∧ (run p c directoryStart).reg32 .rcx = 512 := by
  simp only [run, directoryStart, List.foldl_cons, List.foldl_nil, step, Cpu.reg32_setReg32, Cpu.setReg32_mem,
    reduceCtorEq, if_false, if_true, true_and, and_true]
  decide

theorem directoryStart_kept (p : Platform) (c : Cpu) : Kept c (run p c directoryStart) := ⟨rfl, rfl⟩

/-- The 32-bit code builds the boot tables. -/
theorem tables_spec (p : Platform) (c : Cpu) : ∃ c', c'.mem = bootTables c.mem ∧ Kept c c' ∧ ∀ fuel ≥ 512,
    loop p directoryEntry fuel (run p (run p (run p c zeroTables) linkTables) directoryStart) = .ok c' := by
  obtain ⟨hzeros, hkept₁⟩ := run_zeroTables p c
  have hlinks := run_linkTables p (run p c zeroTables)
  have hzero : ∀ x, bootPt ≤ x → x < bootPt + 12288 → (run p c zeroTables).mem x = 0 := by
    intro x h1 h2
    rw [hzeros, zeroTables_eq]
    exact store_of_mem _ ⟨h1, h2⟩
  have hpd : ∀ x, bootPt + 8192 ≤ x → x < bootPt + 8192 + 4096 →
      (run p (run p c zeroTables) linkTables).mem x = 0 := by
    intro x h1 h2
    rw [hlinks]
    exact links_zero hzero h1 h2
  rw [links_eq (by decide) (by decide) hzero, hzeros] at hlinks
  obtain ⟨hmem₂, hdi, hax, hcx⟩ := run_directoryStart p (run p (run p c zeroTables) linkTables)
  rw [← hmem₂] at hpd
  obtain ⟨c', hloop, hmem, hkept⟩ := directory_spec p (by decide) hpd hdi hax hcx
  have hkept₂ := (linkTables_kept p (run p c zeroTables)).trans (directoryStart_kept p _)
  refine ⟨c', ?_, (hkept₁.trans hkept₂).trans hkept, hloop⟩
  rw [hmem, hmem₂, hlinks, bootTables]

/-! ### Before the tables -/

theorem run_saveHandoff (p : Platform) (c : Cpu) :
    (run p c saveHandoff).mem = store (store c.mem handoffMagicAddr 4 (bytesLE (c.reg .rax).toNat)) handoffInfoAddr 4
      (bytesLE (c.reg .rbx).toNat) := by
  simp only [run, saveHandoff, List.foldl_cons, List.foldl_nil, step, Cpu.setReg8_mem, Cpu.setReg16_mem,
    Cpu.setSeg_mem, Cpu.write_mem, Cpu.write_reg]

/-- A gate is written to the eight bytes at `EDI`. -/
theorem turn_earlyGate (p : Platform) {c : Cpu} (h : (c.reg32 .rdi).toNat + 8 ≤ 2 ^ 32) :
    (turn p earlyGate c).reg32 .rdi = c.reg32 .rdi + 8 ∧
      ∀ x, ¬ ((c.reg32 .rdi).toNat ≤ x ∧ x < (c.reg32 .rdi).toNat + 8) → (turn p earlyGate c).mem x = c.mem x := by
  have hea : ∀ d ≤ 6, ((c.reg32 .rdi).toNat + d) % 2 ^ 32 = (c.reg32 .rdi).toNat + d :=
    fun d hd => Nat.mod_eq_of_lt (by omega)
  constructor
  · simp only [turn, run, earlyGate, List.foldl_cons, List.foldl_nil, step, Cpu.write_reg32, Cpu.reg32_setReg32,
      reduceCtorEq, if_false, if_true]
  · intro x hx
    simp only [turn, run, earlyGate, List.foldl_cons, List.foldl_nil, step, Cpu.ea, Cpu.setReg32_mem, Cpu.write_mem,
      Cpu.write_reg32, Cpu.reg32_setReg32, reduceCtorEq, if_false]
    rw [hea 0 (by decide), hea 2 (by decide), hea 4 (by decide), hea 5 (by decide), hea 6 (by decide)]
    repeat rw [store_of_not_mem _ (by omega)]

/-- The loop over the early IDT. -/
theorem earlyIdt_spec (p : Platform) {c : Cpu} (hdi : c.reg32 .rdi = .ofNat 32 earlyIdtAddr)
    (hcx : c.reg32 .rcx = 256) :
    ∃ c', (∀ fuel ≥ 512, loop p earlyGate fuel c = .ok c') ∧
      ∀ x, ¬ (earlyIdtAddr ≤ x ∧ x < earlyIdtAddr + 2048) → c'.mem x = c.mem x := by
  let inv : Nat → Cpu → Prop := fun i d => d.reg32 .rdi = .ofNat 32 (earlyIdtAddr + 8 * i) ∧
    ∀ x, ¬ (earlyIdtAddr ≤ x ∧ x < earlyIdtAddr + 2048) → d.mem x = c.mem x
  have hsmall : earlyIdtAddr + 2048 < 2 ^ 32 := by decide
  have hstep : ∀ {i d}, i < 256 → inv i d → inv (i + 1) (turn p earlyGate d) := by
    intro i d hi hd
    obtain ⟨hdi, hmem⟩ := hd
    have hnat : (d.reg32 .rdi).toNat = earlyIdtAddr + 8 * i := by
      rw [hdi, BitVec.toNat_ofNat, Nat.mod_eq_of_lt (by omega)]
    obtain ⟨tdi, tmem⟩ := turn_earlyGate p (c := d) (by omega)
    refine ⟨?_, fun x hx => ?_⟩
    · rw [tdi, hdi, Nat.mul_succ, ← Nat.add_assoc, BitVec.ofNat_add _ 8]
      rfl
    · rw [tmem x (by omega), hmem x hx]
  have hcount : ∀ d, (run p d earlyGate).reg32 .rcx = d.reg32 .rcx := by
    intro d
    simp only [run, earlyGate, List.foldl_cons, List.foldl_nil, step, Cpu.write_reg32, Cpu.reg32_setReg32,
      reduceCtorEq, if_false]
  have hstart : inv 0 c := ⟨hdi, fun _ _ => rfl⟩
  obtain ⟨c', hloop, -, hmem⟩ := @loop_spec p earlyGate inv 256 0 c (by decide) hcount hstep (by decide) hstart hcx
  exact ⟨c', fun fuel hf => hloop fuel (by omega), hmem⟩

/-- A number that is read two bytes in front of where it was written. -/
theorem le_readLE_shifted (m : Memory) (a v : Nat) :
    v % 2 ^ 16 * 2 ^ 16 ≤ readLE (store m (a + 2) 4 (bytesLE v)) 4 a := by
  have hlow : (store m (a + 2) 4 (bytesLE v) (a + 1 + 1)).toNat = v % 256 := by
    rw [store_of_mem _ (by omega), show a + 1 + 1 - (a + 2) = 0 by omega, bytesLE, UInt8.toNat_ofNat']
    omega
  have hhigh : (store m (a + 2) 4 (bytesLE v) (a + 1 + 1 + 1)).toNat = v / 256 % 256 := by
    rw [store_of_mem _ (by omega), show a + 1 + 1 + 1 - (a + 2) = 1 by omega, bytesLE, UInt8.toNat_ofNat']
    omega
  rw [readLE, readLE, readLE, readLE, hlow, hhigh]
  omega

/-- The base of the IDT is written two bytes too far behind its limit, so that `lidt` finds another one. -/
theorem run_loadEarlyIdt (p : Platform) (c : Cpu) :
    (∀ x, ¬ (earlyIdtAddr + 2048 ≤ x ∧ x < earlyIdtAddr + 2056) → (run p c loadEarlyIdt).mem x = c.mem x) ∧
      (run p c loadEarlyIdt).idtr.2 ≠ earlyIdtAddr ∧
      (run p c loadEarlyIdt).reg32 .rsp = .ofNat 32 bootStackTop := by
  have hdi : ((BitVec.ofNat 32 earlyIdtAddr + 2048).toNat + 0) % 2 ^ 32 = earlyIdtAddr + 2048 := by decide
  have hdi2 : ((BitVec.ofNat 32 earlyIdtAddr + 2048).toNat + 2) % 2 ^ 32 = earlyIdtAddr + 2050 := by decide
  have hdi4 : ((BitVec.ofNat 32 earlyIdtAddr + 2048).toNat + 4) % 2 ^ 32 = earlyIdtAddr + 2050 + 2 := by decide
  have hbase : ((BitVec.ofNat 32 earlyIdtAddr).setWidth 64 : BitVec 64).toNat = earlyIdtAddr := by decide
  generalize hm : store c.mem (earlyIdtAddr + 2048) 2 (bytesLE ((2047 : BitVec 16).setWidth 64 : BitVec 64).toNat) = m
  have hrun : (run p c loadEarlyIdt).mem = store m (earlyIdtAddr + 2050 + 2) 4 (bytesLE earlyIdtAddr) ∧
      (run p c loadEarlyIdt).idtr.2 = readLE (store m (earlyIdtAddr + 2050 + 2) 4 (bytesLE earlyIdtAddr)) 4
        (earlyIdtAddr + 2050) ∧
      (run p c loadEarlyIdt).reg32 .rsp = .ofNat 32 bootStackTop := by
    simp only [run, loadEarlyIdt, List.foldl_cons, List.foldl_nil, step, Cpu.ea, Cpu.setReg32_mem, Cpu.write_mem,
      Cpu.setIdtr_mem, Cpu.write_reg32, Cpu.reg32_setReg32, if_true, hdi, hdi2, hdi4, hbase, hm, Cpu.read]
    exact ⟨trivial, rfl, trivial⟩
  obtain ⟨hmem, hidtr, hsp⟩ := hrun
  refine ⟨fun x hx => ?_, ?_, hsp⟩
  · have hlimit : ¬ (earlyIdtAddr + 2048 ≤ x ∧ x < earlyIdtAddr + 2048 + 2) := by omega
    have hdword : ¬ (earlyIdtAddr + 2050 + 2 ≤ x ∧ x < earlyIdtAddr + 2050 + 2 + 4) := by omega
    rw [hmem, store_of_not_mem _ hdword, ← hm, store_of_not_mem _ hlimit]
  · rw [hidtr]
    have := le_readLE_shifted m (earlyIdtAddr + 2050) earlyIdtAddr
    have hlow : earlyIdtAddr < earlyIdtAddr % 2 ^ 16 * 2 ^ 16 := by decide
    omega

theorem run_highestExtended (p : Platform) (c : Cpu) : (run p c highestExtended).mem = c.mem ∧
    Kept c (run p c highestExtended) ∧
    (run p c highestExtended).carry = decide ((p.cpuid 0x80000000).1 < 0x80000001) := by
  refine ⟨rfl, ⟨rfl, rfl⟩, ?_⟩
  simp only [run, highestExtended, List.foldl_cons, List.foldl_nil, step, Cpu.reg32_setReg32, if_true, reduceCtorEq,
    if_false]

theorem run_longModeBit (p : Platform) (c : Cpu) : (run p c longModeBit).mem = c.mem ∧
    Kept c (run p c longModeBit) ∧
    (run p c longModeBit).zero = decide ((p.cpuid 0x80000001).2.2.2 &&& (1 : BitVec 32) <<< 29 = 0) := by
  refine ⟨rfl, ⟨rfl, rfl⟩, ?_⟩
  simp only [run, longModeBit, List.foldl_cons, List.foldl_nil, step, Cpu.reg32_setReg32, if_true, reduceCtorEq,
    if_false]

theorem run_enableLongMode (p : Platform) (c : Cpu) : (run p c enableLongMode).mem = c.mem ∧
    Kept c (run p c enableLongMode) ∧ (run p c enableLongMode).longMode = true ∧
      ((run p c enableLongMode).cr .cr3).toNat = bootPt := by
  have hcr0 :
    (run p c enableLongMode).cr .cr0 = ((c.cr .cr0).setWidth 32 ||| 0x80000000 : BitVec 32).setWidth 64 := by
    simp [run, enableLongMode, step, Cpu.reg32_setReg32]
  have hcr4 : (run p c enableLongMode).cr .cr4 = ((c.cr .cr4).setWidth 32 ||| 0x20 : BitVec 32).setWidth 64 := by
    simp [run, enableLongMode, step, Cpu.reg32_setReg32]
  have hcr3 : (run p c enableLongMode).cr .cr3 = (BitVec.ofNat 32 bootPt).setWidth 64 := by
    simp [run, enableLongMode, step, Cpu.reg32_setReg32]
  have hmsr : (run p c enableLongMode).msr 0xC0000080 =
      (c.msr 0xC0000080 >>> 32).setWidth 32 ++ ((c.msr 0xC0000080).setWidth 32 ||| 0x100 : BitVec 32) := by
    simp [run, enableLongMode, step, Cpu.reg32_setReg32]
  refine ⟨rfl, ⟨rfl, rfl⟩, ?_, ?_⟩
  · rw [Cpu.longMode, hcr0, hcr4, hmsr, BitVec.getLsbD_append]
    simp
  · rw [hcr3]
    decide

/-! ### Behind the tables -/

theorem run_loadGdt (p : Platform) (c : Cpu) :
    (run p c loadGdt).mem = store (store c.mem (gdtPtrAddr + 2) 4 (bytesLE gdtAddr)) (gdtPtrAddr + 6) 4 (bytesLE 0) ∧
      (run p c loadGdt).gdtr = ((run p c loadGdt).read gdtPtrAddr 2, (run p c loadGdt).read (gdtPtrAddr + 2) 4) ∧
      Kept c (run p c loadGdt) ∧ (run p c loadGdt).longMode = c.longMode ∧ (run p c loadGdt).cr = c.cr := by
  have hbx0 : ((BitVec.ofNat 32 gdtPtrAddr).toNat + 0) % 2 ^ 32 = gdtPtrAddr := by decide
  have hbx2 : ((BitVec.ofNat 32 gdtPtrAddr).toNat + 2) % 2 ^ 32 = gdtPtrAddr + 2 := by decide
  have hbx6 : ((BitVec.ofNat 32 gdtPtrAddr).toNat + 6) % 2 ^ 32 = gdtPtrAddr + 6 := by decide
  have hbase : ((BitVec.ofNat 32 gdtAddr).setWidth 64 : BitVec 64).toNat = gdtAddr := by decide
  have hzero : ((0 : BitVec 32).setWidth 64 : BitVec 64).toNat = 0 := by decide
  have hmem : (run p c loadGdt).mem =
      store (store c.mem (gdtPtrAddr + 2) 4 (bytesLE gdtAddr)) (gdtPtrAddr + 6) 4 (bytesLE 0) := by
    simp only [run, loadGdt, List.foldl_cons, List.foldl_nil, step, Cpu.ea, Cpu.setReg32_mem, Cpu.setGdtr_mem,
      Cpu.write_mem, Cpu.write_reg32, Cpu.reg32_setReg32, Cpu.reg_setReg32, reduceCtorEq, if_true, if_false, hbx2,
      hbx6, hbase, hzero]
  refine ⟨hmem, ?_, ⟨rfl, rfl⟩, rfl, rfl⟩
  rw [Cpu.read, Cpu.read, hmem]
  simp only [run, loadGdt, List.foldl_cons, List.foldl_nil, step, Cpu.ea, Cpu.setReg32_mem, Cpu.read, Cpu.setGdtr,
      Cpu.write_mem, Cpu.write_reg32, Cpu.reg32_setReg32, Cpu.reg_setReg32, reduceCtorEq, if_true, if_false, hbx0,
      hbx2, hbx6, hbase, hzero]

theorem run_farAddress (p : Platform) {c : Cpu} (hsp : c.reg32 .rsp = .ofNat 32 bootStackTop) :
    (run p c farAddress).mem = store (store c.mem (bootStackTop - 4) 4 (bytesLE 8)) (bootStackTop - 8) 4
      (bytesLE p.start64.toNat) ∧
      (run p c farAddress).reg32 .rsp = .ofNat 32 (bootStackTop - 8) ∧ (run p c farAddress).gdtr = c.gdtr ∧
      (run p c farAddress).idtr = c.idtr ∧ (run p c farAddress).longMode = c.longMode ∧
      (run p c farAddress).cr = c.cr := by
  have hsp4 : (BitVec.ofNat 32 bootStackTop - 4).toNat = bootStackTop - 4 := by decide
  have hsp8 : (BitVec.ofNat 32 bootStackTop - 4 - 4).toNat = bootStackTop - 8 := by decide
  have htop : BitVec.ofNat 32 bootStackTop - 4 - 4 = BitVec.ofNat 32 (bootStackTop - 8) := by decide
  have height : ((8 : BitVec 32).setWidth 64 : BitVec 64).toNat = 8 := by decide
  have hlabel : (p.start64.setWidth 64 : BitVec 64).toNat = p.start64.toNat := by
    rw [BitVec.toNat_setWidth, Nat.mod_eq_of_lt (Nat.lt_trans p.start64.isLt (by decide))]
  refine ⟨?_, ?_, rfl, rfl, rfl, rfl⟩
  · simp only [run, farAddress, List.foldl_cons, List.foldl_nil, step, push32, label, Cpu.setReg32_mem, Cpu.write_mem,
      Cpu.write_reg32, Cpu.reg32_setReg32, if_true, reduceCtorEq, if_false, hsp, hsp4, hsp8, height, hlabel]
  · simp only [run, farAddress, List.foldl_cons, List.foldl_nil, step, push32, label, Cpu.write_reg32,
      Cpu.reg32_setReg32, if_true, reduceCtorEq, if_false, hsp, htop]

/-! ### Into 64-bit mode -/

theorem read_bytes {c : Cpu} {a n v : Nat} (h : ∀ i < n, c.mem (a + i) = bytesLE v i) : c.read a n = v % 256 ^ n :=
  readLE_bytesLE c.mem n a v h

/-- The far return leads to `start64` if the address and the selector are on the stack, and the descriptor is there.
-/
theorem lret_spec {p : Platform} {c : Cpu} (hsp : c.reg32 .rsp = .ofNat 32 (bootStackTop - 8))
    (hoffset : c.read (bootStackTop - 8) 4 = p.start64.toNat) (hselector : c.read (bootStackTop - 8 + 4) 2 = 8)
    (hlong : c.longMode = true) (hgdtr : c.gdtr = (23, gdtAddr))
    (hcode : c.read (gdtAddr + 8) 8 = 0x00209A0000000000) :
    lret p c = .ok ((c.setReg32 .rsp (c.reg32 .rsp + 8)).setSeg .cs (.ofNat 16 8)) := by
  have hnat : (BitVec.ofNat 32 (bootStackTop - 8)).toNat = bootStackTop - 8 := by decide
  have hcode64 : c.code64 (.ofNat 16 8) = true := by
    unfold Cpu.code64
    rw [hgdtr]
    show (decide _ && _ && _ && _ && _ && _) = true
    rw [show (BitVec.ofNat 16 8).toNat / 8 * 8 = 8 from rfl, hcode]
    decide
  unfold lret
  simp only [hsp, hnat, hoffset, hselector, hlong, hcode64, BitVec.ofNat_toNat, BitVec.setWidth_eq, decide_true,
    Bool.and_true, if_true]

/-- The handoff words are loaded, and the stack is the upper end of `KERNEL_STACK`. -/
theorem entry_spec (p : Platform) (c : Cpu) :
    let f := run64 p c (start64 ++ hammamEntry)
    let sp := (p.kernelStack + .ofNat 64 (64 * 1024)) &&& (-16 : BitVec 64)
    f.reg .rdi = (BitVec.ofNat 32 (c.read handoffMagicAddr 4)).setWidth 64 ∧
      f.reg .rsi = (BitVec.ofNat 32 (c.read handoffInfoAddr 4)).setWidth 64 ∧
      f.reg .rsp = sp - 8 ∧ f.mem = store c.mem (sp - 8).toNat 8 (bytesLE p.returnAddress.toNat) ∧
      f.cr = c.cr ∧ f.idtr = c.idtr ∧ f.longMode = c.longMode := by
  have hmagic : (BitVec.ofNat 64 handoffMagicAddr).toNat = handoffMagicAddr := by decide
  have hinfo : (BitVec.ofNat 64 handoffInfoAddr).toNat = handoffInfoAddr := by decide
  have hmem : (run64 p c setSegments).mem = c.mem := rfl
  rw [start64, List.append_assoc, run64, List.foldl_append, ← run64, ← run64]
  refine ⟨?_, ?_, ?_, ?_, rfl, rfl, rfl⟩
  all_goals
    rw [run64, loadHandoff, hammamEntry]
    simp only [List.cons_append, List.nil_append, List.foldl_cons, List.foldl_nil, step64, Cpu.reg_setReg,
      Cpu.reg_setReg32, Cpu.write_reg, reduceCtorEq, if_true, if_false, Cpu.read, Cpu.setReg_mem, Cpu.setReg32_mem,
      Cpu.write_mem, hmagic, hinfo, hmem]

/-! ### The whole code -/

/-- `cpuid` reports long mode. -/
def Platform.hasLongMode (p : Platform) : Bool :=
  !decide ((p.cpuid 0x80000000).1 < 0x80000001) && !decide ((p.cpuid 0x80000001).2.2.2 &&& (1 : BitVec 32) <<< 29 = 0)

/-- What the image has in the workspace: the descriptor of 64-bit code, and the limit of the GDT. -/
structure Image (m : Memory) : Prop where
  code : readLE m 8 (gdtAddr + 8) = 0x00209A0000000000
  limit : readLE m 2 gdtPtrAddr = 23

theorem layout : bootPt = 0x21b000 ∧ gdtAddr = 0x21e000 ∧ gdtPtrAddr = 0x21e020 ∧ earlyIdtAddr = 0x21e02a ∧
    handoffMagicAddr = 0x21f02a ∧ handoffInfoAddr = 0x21f02e ∧ bootStackTop = 0x223032 := by decide

/-- The tables do not depend on what was there. -/
theorem bootTables_congr {m m' : Memory} {x : Nat} (h : bootPt ≤ x ∧ x < gdtAddr) :
    bootTables m x = bootTables m' x := by
  obtain ⟨hpt, hgdt, -⟩ := layout
  rw [hpt, hgdt] at h
  have hz : ∀ {m m' : Memory} (t : Nat), x / 4096 = t ∨ m x = m' x →
      zeroTable m ⟨4096 * t⟩ x = zeroTable m' ⟨4096 * t⟩ x := fun _ => fillTable_congr
  have hs : ∀ {m m' : Memory} (t e : Nat), m x = m' x →
      setEntry m ⟨4096 * t⟩ 0 e x = setEntry m' ⟨4096 * t⟩ 0 e x := fun _ _ => setEntry_congr
  show fillTable (setEntry (setEntry (zeroTable (zeroTable (zeroTable m ⟨4096 * 0x21b⟩) ⟨4096 * 0x21c⟩)
    ⟨4096 * 0x21d⟩) ⟨4096 * 0x21b⟩ 0 0x21c007) ⟨4096 * 0x21c⟩ 0 0x21d007) ⟨4096 * 0x21d⟩ _ 512 x = _
  refine fillTable_congr ?_
  have hpage : x / 4096 = 0x21b ∨ x / 4096 = 0x21c ∨ x / 4096 = 0x21d := by omega
  rcases hpage with hx | hx | hx
  · exact Or.inr (hs _ _ (hs _ _ (hz _ (Or.inr (hz _ (Or.inr (hz _ (Or.inl hx))))))))
  · exact Or.inr (hs _ _ (hs _ _ (hz _ (Or.inr (hz _ (Or.inl hx))))))
  · exact Or.inl hx

/-- The memory in front of the far return, from that in front of the tables. -/
def started (p : Platform) (m : Memory) : Memory :=
  store (store (store (store (bootTables m) (gdtPtrAddr + 2) 4 (bytesLE gdtAddr)) (gdtPtrAddr + 6) 4 (bytesLE 0))
    (bootStackTop - 4) 4 (bytesLE 8)) (bootStackTop - 8) 4 (bytesLE p.start64.toNat)

theorem started_of_outside (p : Platform) (m : Memory) {x : Nat} (hgdt : ¬ (gdtPtrAddr + 2 ≤ x ∧ x < gdtPtrAddr + 10))
    (hstack : ¬ (bootStackTop - 8 ≤ x ∧ x < bootStackTop)) : started p m x = bootTables m x := by
  obtain ⟨-, -, hptr, -, -, -, htop⟩ := layout
  rw [hptr] at hgdt
  rw [htop] at hstack
  have h1 : ¬ (bootStackTop - 8 ≤ x ∧ x < bootStackTop - 8 + 4) := by rw [htop]; omega
  have h2 : ¬ (bootStackTop - 4 ≤ x ∧ x < bootStackTop - 4 + 4) := by rw [htop]; omega
  have h3 : ¬ (gdtPtrAddr + 6 ≤ x ∧ x < gdtPtrAddr + 6 + 4) := by rw [hptr]; omega
  have h4 : ¬ (gdtPtrAddr + 2 ≤ x ∧ x < gdtPtrAddr + 2 + 4) := by rw [hptr]; omega
  rw [started, store_of_not_mem _ h1, store_of_not_mem _ h2, store_of_not_mem _ h3, store_of_not_mem _ h4]

/-- What the code before the far return leaves alone. -/
theorem started_eq (p : Platform) (m : Memory) {x : Nat} (htables : ¬ (bootPt ≤ x ∧ x < gdtAddr))
    (hgdt : ¬ (gdtPtrAddr + 2 ≤ x ∧ x < gdtPtrAddr + 10)) (hstack : ¬ (bootStackTop - 8 ≤ x ∧ x < bootStackTop)) :
    started p m x = m x := by
  obtain ⟨hpt, hgdt', -⟩ := layout
  rw [hpt, hgdt'] at htables
  rw [started_of_outside p m hgdt hstack]
  exact bootTables_of_outside m (by omega) (by omega) (by omega)

/-- `_start` up to the far return. -/
theorem start_spec {p : Platform} (hp : p.hasLongMode = true) (c : Cpu) :
    ∃ d m, (∀ fuel ≥ 512, exec p fuel c start = .ok d) ∧ d.mem = started p m ∧
      (∀ x, ¬ (earlyIdtAddr ≤ x ∧ x < earlyIdtAddr + 2056) →
        m x = store (store c.mem handoffMagicAddr 4 (bytesLE (c.reg .rax).toNat)) handoffInfoAddr 4
          (bytesLE (c.reg .rbx).toNat) x) ∧
      d.reg32 .rsp = .ofNat 32 (bootStackTop - 8) ∧ d.idtr.2 ≠ earlyIdtAddr ∧ d.longMode = true ∧
      (d.cr .cr3).toNat = bootPt ∧ d.gdtr = (d.read gdtPtrAddr 2, d.read (gdtPtrAddr + 2) 4) := by
  rw [Platform.hasLongMode, Bool.and_eq_true, Bool.not_eq_true', Bool.not_eq_true'] at hp
  have hsplit : ∀ a x, ¬ (a ≤ x ∧ x < a + 2056) → ¬ (a ≤ x ∧ x < a + 2048) ∧ ¬ (a + 2048 ≤ x ∧ x < a + 2056) := by
    omega
  -- the handoff and the early IDT
  have hsaved := run_saveHandoff p c
  generalize hc₁ : run p c saveHandoff = c₁ at hsaved
  obtain ⟨c₂, hloop, hidt⟩ := earlyIdt_spec p (c := run p c₁ earlyIdtStart) rfl rfl
  obtain ⟨hlidt, hbase, hsp⟩ := run_loadEarlyIdt p c₂
  generalize hc₃ : run p c₂ loadEarlyIdt = c₃ at hlidt hbase hsp
  -- both jumps are not taken
  obtain ⟨hmem₄, hkept₄, hcarry⟩ := run_highestExtended p c₃
  generalize hc₄ : run p c₃ highestExtended = c₄ at hmem₄ hkept₄ hcarry
  obtain ⟨hmem₅, hkept₅, hzero⟩ := run_longModeBit p c₄
  generalize hc₅ : run p c₄ longModeBit = c₅ at hmem₅ hkept₅ hzero
  obtain ⟨c₆, htables, hkept₆, htable⟩ := tables_spec p c₅
  obtain ⟨hmem₇, hkept₇, hlong₇, hcr₇⟩ := run_enableLongMode p c₆
  generalize hc₇ : run p c₆ enableLongMode = c₇ at hmem₇ hkept₇ hlong₇ hcr₇
  obtain ⟨hmem₈, hgdtr₈, hkept₈, hlong₈, hcr₈⟩ := run_loadGdt p c₇
  generalize hc₈ : run p c₇ loadGdt = c₈ at hmem₈ hgdtr₈ hkept₈ hlong₈ hcr₈
  have hkept : Kept c₃ c₈ := ((((hkept₄.trans hkept₅).trans hkept₆).trans hkept₇).trans hkept₈)
  obtain ⟨hmem₉, hsp₉, hgdtr₉, hidtr₉, hlong₉, hcr₉⟩ := run_farAddress p (hkept.1.trans hsp)
  refine ⟨run p c₈ farAddress, c₃.mem, fun fuel hf => ?_, ?_, fun x hx => ?_, hsp₉, ?_, ?_, ?_, ?_⟩
  · simp only [start, exec, hc₁, hloop fuel hf, hc₃, hc₄, hcarry, hp.1, Bool.false_eq_true, if_false, hc₅, hzero,
      hp.2, htable fuel hf, hc₇, hc₈]
  · rw [hmem₉, hmem₈, hmem₇, htables, hmem₅, hmem₄, started]
  · obtain ⟨hgates, hpointer⟩ := hsplit _ _ hx
    rw [hlidt x hpointer, hidt x hgates, ← hsaved]
    rfl
  · rw [hidtr₉, hkept.2]
    exact hbase
  · rw [hlong₉, hlong₈, hlong₇]
  · rw [hcr₉, hcr₈, hcr₇]
  · -- the stack is elsewhere
    have hread : ∀ a n, a + n ≤ gdtPtrAddr + 10 → (run p c₈ farAddress).read a n = c₈.read a n := by
      intro a n ha
      obtain ⟨-, -, hptr, -, -, -, htop⟩ := layout
      rw [hptr] at ha
      refine readLE_congr fun x h1 h2 => ?_
      have hlow : ¬ (bootStackTop - 8 ≤ x ∧ x < bootStackTop - 8 + 4) := by rw [htop]; omega
      have hhigh : ¬ (bootStackTop - 4 ≤ x ∧ x < bootStackTop - 4 + 4) := by rw [htop]; omega
      rw [hmem₉, store_of_not_mem _ hlow, store_of_not_mem _ hhigh]
    have hlimit : gdtPtrAddr + 2 ≤ gdtPtrAddr + 10 := by omega
    have haddr : gdtPtrAddr + 2 + 4 ≤ gdtPtrAddr + 10 := by omega
    rw [hgdtr₉, hgdtr₈, hread _ _ hlimit, hread _ _ haddr]

/-- Without long mode the code ends in its loop. -/
theorem start_halts {p : Platform} (hp : p.hasLongMode = false) (c : Cpu) {fuel : Nat} (hf : 512 ≤ fuel) :
    exec p fuel c start = .error .noLongMode := by
  obtain ⟨c₂, hloop, -⟩ := earlyIdt_spec p (c := run p (run p c saveHandoff) earlyIdtStart) rfl rfl
  obtain ⟨-, -, hcarry⟩ := run_highestExtended p (run p c₂ loadEarlyIdt)
  obtain ⟨-, -, hzero⟩ := run_longModeBit p (run p (run p c₂ loadEarlyIdt) highestExtended)
  rw [Platform.hasLongMode, Bool.and_eq_false_iff, Bool.not_eq_false', Bool.not_eq_false'] at hp
  simp only [start, exec, hloop fuel hf, hcarry, hzero]
  rcases hp with hp | hp
  · rw [if_pos hp]
  · rw [if_pos hp]
    exact ite_self _

/-- `and rsp, -16`. -/
theorem toNat_and_align (x : BitVec 64) : (x &&& (-16 : BitVec 64)).toNat = x.toNat / 16 * 16 := by
  have hmask : ∀ i < 64, (-16 : BitVec 64).getLsbD i = decide (4 ≤ i) := by decide
  have hshift : x &&& (-16 : BitVec 64) = (x >>> 4) <<< 4 := by
    refine BitVec.eq_of_getLsbD_eq fun i hi => ?_
    rw [BitVec.getLsbD_and, hmask i hi, BitVec.getLsbD_shiftLeft, BitVec.getLsbD_ushiftRight]
    by_cases h4 : 4 ≤ i
    · simp [hi, h4]
    · simp [h4]
  have hlt := x.isLt
  rw [hshift, BitVec.toNat_shiftLeft, BitVec.toNat_ushiftRight, Nat.shiftLeft_eq, Nat.shiftRight_eq_div_pow]
  exact Nat.mod_eq_of_lt (by omega)

/-- What lies on the stack and in the pointer to the GDT. -/
theorem started_words (p : Platform) (m : Memory) : readLE (started p m) 4 (bootStackTop - 8) = p.start64.toNat ∧
    readLE (started p m) 2 (bootStackTop - 8 + 4) = 8 ∧ readLE (started p m) 4 (gdtPtrAddr + 2) = gdtAddr := by
  obtain ⟨-, -, hptr, -, -, -, htop⟩ := layout
  refine ⟨?_, ?_, ?_⟩
  · refine (readLE_bytesLE _ 4 _ p.start64.toNat fun i hi => ?_).trans ?_
    · have hin : bootStackTop - 8 ≤ bootStackTop - 8 + i ∧ bootStackTop - 8 + i < bootStackTop - 8 + 4 := by omega
      rw [started, store_of_mem _ hin, Nat.add_sub_cancel_left]
    · exact Nat.mod_eq_of_lt p.start64.isLt
  · refine readLE_bytesLE _ 2 _ 8 fun i hi => ?_
    have hout :
      ¬ (bootStackTop - 8 ≤ bootStackTop - 8 + 4 + i ∧ bootStackTop - 8 + 4 + i < bootStackTop - 8 + 4) := by
      omega
    have hin : bootStackTop - 4 ≤ bootStackTop - 8 + 4 + i ∧ bootStackTop - 8 + 4 + i < bootStackTop - 4 + 4 := by
      rw [htop]
      omega
    rw [started, store_of_not_mem _ hout, store_of_mem _ hin]
    exact congrArg _ (by rw [htop]; omega)
  · refine (readLE_bytesLE _ 4 _ gdtAddr fun i hi => ?_).trans ?_
    · have h1 : ¬ (bootStackTop - 8 ≤ gdtPtrAddr + 2 + i ∧ gdtPtrAddr + 2 + i < bootStackTop - 8 + 4) := by
        rw [htop, hptr]
        omega
      have h2 : ¬ (bootStackTop - 4 ≤ gdtPtrAddr + 2 + i ∧ gdtPtrAddr + 2 + i < bootStackTop - 4 + 4) := by
        rw [htop, hptr]
        omega
      have h3 : ¬ (gdtPtrAddr + 6 ≤ gdtPtrAddr + 2 + i ∧ gdtPtrAddr + 2 + i < gdtPtrAddr + 6 + 4) := by omega
      have hin : gdtPtrAddr + 2 ≤ gdtPtrAddr + 2 + i ∧ gdtPtrAddr + 2 + i < gdtPtrAddr + 2 + 4 := by omega
      rw [started, store_of_not_mem _ h1, store_of_not_mem _ h2, store_of_not_mem _ h3, store_of_mem _ hin,
        Nat.add_sub_cancel_left]
    · decide

/-- Up to the far return nothing outside of the workspace is written, and the numbers of the boot loader stay where
they were put. -/
theorem started_keeps {p : Platform} {c d : Cpu} {m : Memory} (hmem : d.mem = started p m)
    (hbefore : ∀ x, ¬ (earlyIdtAddr ≤ x ∧ x < earlyIdtAddr + 2056) →
      m x = store (store c.mem handoffMagicAddr 4 (bytesLE (c.reg .rax).toNat)) handoffInfoAddr 4
        (bytesLE (c.reg .rbx).toNat) x) :
    (∀ x, ¬ (bootPt ≤ x ∧ x < gdtAddr) → ¬ (gdtPtrAddr + 2 ≤ x ∧ x < bootStackTop) → d.mem x = c.mem x) ∧
      BitVec.ofNat 32 (d.read handoffMagicAddr 4) = c.reg32 .rax ∧
      BitVec.ofNat 32 (d.read handoffInfoAddr 4) = c.reg32 .rbx := by
  obtain ⟨-, hgdt, hptr, hidt, hmagic, hinfo, htop⟩ := layout
  have hsame : ∀ x, ¬ (bootPt ≤ x ∧ x < gdtAddr) → ¬ (gdtPtrAddr + 2 ≤ x ∧ x < earlyIdtAddr + 2056) →
      ¬ (bootStackTop - 8 ≤ x ∧ x < bootStackTop) → d.mem x =
        store (store c.mem handoffMagicAddr 4 (bytesLE (c.reg .rax).toNat)) handoffInfoAddr 4
          (bytesLE (c.reg .rbx).toNat) x := by
    intro x h1 h2 h3
    rw [hptr, hidt] at h2
    have hgdtptr : ¬ (gdtPtrAddr + 2 ≤ x ∧ x < gdtPtrAddr + 10) := by rw [hptr]; omega
    have hgates : ¬ (earlyIdtAddr ≤ x ∧ x < earlyIdtAddr + 2056) := by rw [hidt]; omega
    rw [hmem, started_eq p m h1 hgdtptr h3, hbefore x hgates]
  have hword : ∀ a r, (∀ i < 4, d.mem (a + i) = bytesLE (c.reg r).toNat i) →
      BitVec.ofNat 32 (d.read a 4) = c.reg32 r := by
    intro a r h
    rw [read_bytes h]
    apply BitVec.eq_of_toNat_eq
    rw [BitVec.toNat_ofNat, Cpu.reg32, BitVec.toNat_setWidth]
    omega
  refine ⟨fun x h1 h2 => ?_, hword _ _ fun i hi => ?_, hword _ _ fun i hi => ?_⟩
  · rw [hptr, htop] at h2
    have hmag : ¬ (handoffMagicAddr ≤ x ∧ x < handoffMagicAddr + 4) := by rw [hmagic]; omega
    have hinf : ¬ (handoffInfoAddr ≤ x ∧ x < handoffInfoAddr + 4) := by rw [hinfo]; omega
    rw [hsame x h1 (by rw [hptr, hidt]; omega) (by rw [htop]; omega), store_of_not_mem _ hinf,
      store_of_not_mem _ hmag]
  · have hout : ¬ (handoffInfoAddr ≤ handoffMagicAddr + i ∧ handoffMagicAddr + i < handoffInfoAddr + 4) := by
      rw [hinfo, hmagic]
      omega
    rw [hsame _ (by rw [hmagic, hgdt]; omega) (by rw [hmagic, hidt]; omega) (by rw [hmagic, htop]; omega),
      store_of_not_mem _ hout, store_of_mem _ ⟨Nat.le_add_right _ _, by omega⟩, Nat.add_sub_cancel_left]
  · rw [hsame _ (by rw [hinfo, hgdt]; omega) (by rw [hinfo, hidt]; omega) (by rw [hinfo, htop]; omega),
      store_of_mem _ ⟨Nat.le_add_right _ _, by omega⟩, Nat.add_sub_cancel_left]

/-- The tables are complete at the far return. -/
theorem bootTables_started {p : Platform} {m m' : Memory} (h : ∀ x, bootPt ≤ x → x < gdtAddr → m' x = started p m x) :
    bootTables m' = m' := by
  obtain ⟨hpt, hgdt, hptr, -, -, -, htop⟩ := layout
  funext x
  by_cases hx : bootPt ≤ x ∧ x < gdtAddr
  · have hlt := hx.2
    rw [hgdt] at hlt
    have hgdtptr : ¬ (gdtPtrAddr + 2 ≤ x ∧ x < gdtPtrAddr + 10) := by rw [hptr]; omega
    have hstack : ¬ (bootStackTop - 8 ≤ x ∧ x < bootStackTop) := by rw [htop]; omega
    rw [h x hx.1 hx.2, started_of_outside p m hgdtptr hstack]
    exact bootTables_congr hx
  · rw [hpt, hgdt] at hx
    exact bootTables_of_outside _ (by omega) (by omega) (by omega)

/-- The far return goes to `start64`. -/
theorem started_returns {p : Platform} {d : Cpu} {m : Memory} (hmem : d.mem = started p m)
    (hsp : d.reg32 .rsp = .ofNat 32 (bootStackTop - 8)) (hlong : d.longMode = true)
    (hgdtr : d.gdtr = (d.read gdtPtrAddr 2, d.read (gdtPtrAddr + 2) 4)) (hi : Image d.mem) :
    lret p d = .ok ((d.setReg32 .rsp (d.reg32 .rsp + 8)).setSeg .cs (.ofNat 16 8)) := by
  obtain ⟨hoffset, hselector, hbase⟩ := started_words p m
  rw [← hmem] at hoffset hselector hbase
  rw [show d.read gdtPtrAddr 2 = 23 from hi.limit, show d.read (gdtPtrAddr + 2) 4 = gdtAddr from hbase] at hgdtr
  exact lret_spec hsp hoffset hselector hlong hgdtr hi.code

/-- What `_start_multiboot2` finds: both numbers of the boot loader, the tables, and all other memory as it was. -/
structure HandedOver (p : Platform) (c t : Cpu) : Prop where
  magic : t.reg .rdi = (c.reg32 .rax).setWidth 64
  info : t.reg .rsi = (c.reg32 .rbx).setWidth 64
  longMode : t.longMode = true
  cr3 : (t.cr .cr3).toNat = bootPt
  tables : bootTables t.mem = t.mem
  stack : (t.reg .rsp).toNat % 16 = 8
  memory : ∀ x, ¬ (bootPt ≤ x ∧ x < bootStackTop) →
    ¬ (p.kernelStack.toNat ≤ x ∧ x < p.kernelStack.toNat + 64 * 1024) → t.mem x = c.mem x
  /-- The early IDT is not in effect. -/
  idtr : t.idtr.2 ≠ earlyIdtAddr

/-- With long mode the code reaches `_start_multiboot2`. -/
theorem boot_spec {p : Platform} {c : Cpu} (hp : p.hasLongMode = true) (hi : Image c.mem)
    (hk : bootStackTop ≤ p.kernelStack.toNat) (hk' : p.kernelStack.toNat + 64 * 1024 < 2 ^ 64) :
    ∃ t, HandedOver p c t ∧ ∀ fuel ≥ 512, boot p fuel c = .ok t := by
  obtain ⟨d, m, hexec, hmem, hbefore, hsp, hidtr, hlong, hcr3, hgdtr⟩ := start_spec hp c
  obtain ⟨hpt, hgdt, hptr, -, -, -, htop⟩ := layout
  obtain ⟨hkeep, hmagic, hinfo⟩ := started_keeps hmem hbefore
  -- the descriptor and the limit are still there
  have himage : Image d.mem := by
    constructor
    · rw [← hi.code]
      refine readLE_congr fun x h1 h2 => hkeep x (by omega) ?_
      rw [hgdt] at h2
      rw [hptr]
      omega
    · rw [← hi.limit]
      refine readLE_congr fun x h1 h2 => hkeep x ?_ (by omega)
      rw [hptr] at h1
      rw [hgdt]
      omega
  have hlret := started_returns hmem hsp hlong hgdtr himage
  generalize he : (d.setReg32 .rsp (d.reg32 .rsp + 8)).setSeg .cs (.ofNat 16 8) = e at hlret
  have hemem : e.mem = d.mem := by rw [← he]; rfl
  obtain ⟨hrdi, hrsi, hrsp, htmem, htcr, htidtr, htlong⟩ := entry_spec p e
  rw [Cpu.read, hemem] at hrdi hrsi
  -- the return address lies at the upper end of the kernel stack
  have htopSp : (p.kernelStack + BitVec.ofNat 64 (64 * 1024)).toNat = p.kernelStack.toNat + 64 * 1024 := by
    rw [BitVec.toNat_add, BitVec.toNat_ofNat]
    omega
  have hsp8 : ((p.kernelStack + BitVec.ofNat 64 (64 * 1024) &&& (-16 : BitVec 64)) - 8).toNat =
      (p.kernelStack.toNat + 64 * 1024) / 16 * 16 - 8 := by
    rw [BitVec.toNat_sub, toNat_and_align, htopSp, show (8 : BitVec 64).toNat = 8 from rfl]
    omega
  rw [hsp8] at htmem
  have hcall : ∀ x, ¬ (p.kernelStack.toNat ≤ x ∧ x < p.kernelStack.toNat + 64 * 1024) →
      (run64 p e (start64 ++ hammamEntry)).mem x = d.mem x := by
    intro x hx
    rw [htmem, store_of_not_mem _ (by omega), hemem]
  refine ⟨run64 p e (start64 ++ hammamEntry), ⟨?_, ?_, ?_, ?_, ?_, ?_, ?_, ?_⟩, fun fuel hf => ?_⟩
  · exact hrdi.trans (congrArg _ hmagic)
  · exact hrsi.trans (congrArg _ hinfo)
  · rw [htlong, ← he]
    exact hlong
  · rw [htcr, ← he]
    exact hcr3
  · refine bootTables_started (p := p) (m := m) fun x h1 h2 => ?_
    rw [hgdt] at h2
    rw [htop] at hk
    rw [hcall x (by omega), hmem]
  · rw [hrsp, hsp8]
    omega
  · intro x hx hks
    rw [hcall x hks]
    refine hkeep x (fun h => hx ⟨h.1, ?_⟩) fun h => hx ⟨?_, h.2⟩
    · rw [hgdt] at h
      rw [htop]
      omega
    · rw [hptr] at h
      rw [hpt]
      omega
  · rw [htidtr, ← he]
    exact hidtr
  · rw [boot, hexec fuel hf]
    show (lret p d >>= _) = _
    rw [hlret]
    rfl

/-- If the processor has long mode the boot code passes on what the boot loader passed to it, with the first GiB
mapped to itself; otherwise it stops. -/
theorem boot_code_hands_over {p : Platform} {c : Cpu} (hi : Image c.mem) (hk : bootStackTop ≤ p.kernelStack.toNat)
    (hk' : p.kernelStack.toNat + 64 * 1024 < 2 ^ 64) :
    (p.hasLongMode = true → ∃ t, HandedOver p c t ∧ ∀ fuel ≥ 512, boot p fuel c = .ok t) ∧
      (p.hasLongMode = false → ∀ fuel ≥ 512, boot p fuel c = .error .noLongMode) := by
  refine ⟨fun hp => boot_spec hp hi hk hk', fun hp fuel hf => ?_⟩
  rw [boot, start_halts hp c hf]
  rfl

/-- A processor with long mode, and a kernel stack behind the workspace. -/
def samplePlatform : Platform :=
  ⟨fun a => if a = 0x80000000 then (0x80000008, 0, 0, 0) else (0, 0, 0, 0x20000000), 0x101234, 0x101200, 0x230000,
    0x105000⟩

/-- The state in which GRUB leaves the processor. -/
def sampleCpu : Cpu where
  reg r := if r = .rax then 0x36d76289 else if r = .rbx then 0x9000 else 0
  seg _ := 0x10
  cr r := if r = .cr0 then 0x11 else 0
  msr _ := 0
  gdtr := (0, 0)
  idtr := (0, 0)
  carry := false
  zero := false
  mem := store (store (fun _ => 0) (gdtAddr + 8) 8 (bytesLE 0x00209A0000000000)) gdtPtrAddr 2 (bytesLE 23)
  ports := []

theorem boot_code_hands_over_sample : ∃ t : Cpu, t.reg .rdi = 0x36d76289 ∧ t.reg .rsi = 0x9000 ∧
    bootTables t.mem = t.mem ∧ ∀ fuel ≥ 512, boot samplePlatform fuel sampleCpu = .ok t := by
  have himage : Image sampleCpu.mem := ⟨by decide, by decide⟩
  obtain ⟨hlong, -⟩ := boot_code_hands_over (p := samplePlatform) himage (by decide) (by decide)
  obtain ⟨t, h, hboot⟩ := hlong (by decide)
  exact ⟨t, h.magic, h.info, h.tables, hboot⟩

end BootCode

end Hammam
