import Hammam.Mm.Paging

/-!
# Loading a program (`loader/elf.rs`, `Process::from_elf`)

The crate `xmas_elf` parses a file: `parse` stands for `ElfFile::new`, and an `ElfFile` has what the loader asks of
it. A call returns a value, returns an error, or does not return (`Stop.halt`) because of a panic or of a fault of
the processor.  `checks` says whether the kernel was built with overflow checks and debug assertions, as the profile
`dev` does; without them arithmetic wraps around and an access need not be aligned.  The kernel writes to user pages
through the page tables, as the processor does.
-/

namespace Hammam

open Fallible

/-! ### Machine arithmetic and memory accesses -/

/-- Why a call does not go on. -/
inductive Stop (ε : Type) where
  | err (e : ε)
  | halt
  deriving DecidableEq, Repr

/-- `map_err` concerns errors, not a call that does not return. -/
def Stop.map {ε ε' : Type} (f : ε → ε') : Stop ε → Stop ε'
  | .err e => .err (f e)
  | .halt => .halt

/-- Computations of the kernel that may fail or halt. -/
abbrev KernelM (ε : Type) := ExceptT (Stop ε) (StateM Machine)

section Primitives

variable {ε : Type} (checks : Bool)

/-- The result `n` of an operation on `u64`. -/
def wrapU64 (n : Nat) : KernelM ε Nat :=
  if n < 2 ^ 64 then pure n else if checks then throw .halt else pure (n % 2 ^ 64)

/-- `a - b`. -/
def subU64 (a b : Nat) : KernelM ε Nat :=
  if b ≤ a then pure (a - b) else if checks then throw .halt else pure (a + 2 ^ 64 - b)

/-- The upper 17 bits of the address are equal. -/
def canonicalAddr (v : Nat) : Bool := v < 2 ^ 47 || (2 ^ 64 - 2 ^ 47 ≤ v && v < 2 ^ 64)

/-- The physical address that the processor accesses at `v`. -/
def Machine.access (s : Machine) (v : Nat) : Option Nat := if canonicalAddr v then s.hwTranslate v else none

def storeByte (v : Nat) (b : UInt8) : KernelM ε PUnit := do
  match (← get).access v with
  | some x => modify fun s => { s with mem := Function.update s.mem x b }
  | none => throw .halt

def loadByte (v : Nat) : KernelM ε UInt8 := do
  let s ← get
  match s.access v with
  | some x => pure (s.mem x)
  | none => throw .halt

/-- The address after `v`. -/
def nextAddr (v : Nat) : Nat := (v + 1) % 2 ^ 64

def storeBytes (v : Nat) : List UInt8 → KernelM ε PUnit
  | [] => pure ⟨⟩
  | b :: bytes => do
    storeByte v b
    storeBytes (nextAddr v) bytes

def loadBytes (v : Nat) : Nat → KernelM ε (List UInt8)
  | 0 => pure []
  | n + 1 => do
    let b ← loadByte v
    let rest ← loadBytes (nextAddr v) n
    pure (b :: rest)

/-- `read_volatile` and `write_volatile` of a word assert that its address is aligned.  The address is never null:
the relocations of a program lie above `USER_BASE`, unless a sum has wrapped around. -/
def assertAligned (v : Nat) : KernelM ε PUnit := if checks ∧ v % 8 ≠ 0 then throw .halt else pure ⟨⟩

end Primitives

/-- `u64::from_ne_bytes` on a little-endian processor. -/
def fromBytes (bytes : List UInt8) : Nat := bytes.foldr (fun b n => b.toNat + 256 * n) 0

/-- The bytes of a `u64`. -/
def toBytes (n : Nat) : List UInt8 := (List.range 8).map (ByteMem.bytesLE n)

/-! ### The file -/

inductive SegmentType where
  | load
  | dynamic
  | other
  deriving DecidableEq, Repr

structure ProgramHeader where
  type : SegmentType
  virtualAddr : Nat
  fileSize : Nat
  memSize : Nat
  offset : Nat
  isWrite : Bool
  isExecute : Bool
  deriving DecidableEq, Repr

structure ElfFile where
  entryPoint : Nat
  programHeaders : List ProgramHeader
  deriving DecidableEq, Repr

/-- `USER_BASE`. -/
def userBase : Nat := 0x10000000

/-- The program headers of type `LOAD`. -/
def ElfFile.loads (elf : ElfFile) : List ProgramHeader := elf.programHeaders.filter (·.type = .load)

/-- A program whose first `LOAD` segment lies below `0x1000` is relocated to `USER_BASE`. -/
def ElfFile.loadOffset (elf : ElfFile) : Nat :=
  if (elf.loads.map (·.virtualAddr)).min?.getD 0 < 0x1000 then userBase else 0

/-- The flags of the pages of a segment. -/
def ProgramHeader.pageFlags (ph : ProgramHeader) : PageFlags :=
  let base := PageFlags.present ||| PageFlags.userAccessible
  let base := if ph.isWrite then base ||| PageFlags.writable else base
  if ph.isExecute then base else base ||| PageFlags.noExecute

/-! ### Loading -/

inductive ElfError where
  | invalidMagic
  | invalidElf
  | allocationError
  | mappingError
  deriving DecidableEq, Repr

section Load

variable (checks : Bool)

/-- One page is backed by a new frame. -/
def mapSegmentPage (startPage : Nat) (flags : PageFlags) (i : Nat) : KernelM ElfError PUnit := do
  let frame ← mapErr (fun _ => Stop.err ElfError.allocationError) (allocateFrame 0)
  let pageVaddr ← wrapU64 checks (startPage + i * 0x1000)
  mapErr (fun _ => Stop.err ElfError.mappingError) (mapPage pageVaddr frame flags)

/-- `&data[offset..offset + len]`; a range outside the file panics. -/
def dataSlice (data : List UInt8) (offset len : Nat) : KernelM ElfError (List UInt8) := do
  let last ← wrapU64 checks (offset + len)
  if offset ≤ last ∧ last ≤ data.length then pure ((data.drop offset).take (last - offset)) else throw .halt

/-- The bytes of the file are copied. -/
def copySegment (data : List UInt8) (vaddr : Nat) (ph : ProgramHeader) : KernelM ElfError PUnit :=
  if 0 < ph.fileSize then do
    let src ← dataSlice checks data ph.offset ph.fileSize
    storeBytes vaddr src
  else pure ⟨⟩

/-- The rest of the segment is cleared. -/
def clearSegment (vaddr : Nat) (ph : ProgramHeader) : KernelM ElfError PUnit :=
  if ph.fileSize < ph.memSize then
    storeBytes ((vaddr + ph.fileSize) % 2 ^ 64) (List.replicate (ph.memSize - ph.fileSize) 0)
  else pure ⟨⟩

/-- The body of the loop over the segments. -/
def loadSegment (data : List UInt8) (loadOffset : Nat) (ph : ProgramHeader) : KernelM ElfError PUnit := do
  let vaddr ← wrapU64 checks (ph.virtualAddr + loadOffset)
  let startPage := vaddr / 0x1000 * 0x1000
  let endAddr ← wrapU64 checks (vaddr + ph.memSize)
  let endAddr ← wrapU64 checks (endAddr + 0xFFF)
  let endPage := endAddr / 0x1000 * 0x1000
  let span ← subU64 checks endPage startPage
  (List.range (span / 0x1000)).forM (mapSegmentPage checks startPage ph.pageFlags)
  copySegment checks data vaddr ph
  clearSegment vaddr ph

/-- What the dynamic section says of the relocations: `DT_RELA`, `DT_RELASZ` and `DT_RELAENT`. -/
structure RelaInfo where
  va : Nat
  size : Nat
  ent : Nat
  deriving DecidableEq, Repr

/-- Eight bytes of the file as a number. -/
def word (data : List UInt8) (offset : Nat) : Option Nat :=
  if offset + 8 ≤ data.length then some (fromBytes ((data.drop offset).take 8)) else none

/-- The loop over the entries of the dynamic section, of which `n` remain; `none` is a range outside the file. -/
def scanDynamic (data : List UInt8) (offset : Nat) (info : RelaInfo) : Nat → Option RelaInfo
  | 0 => some info
  | n + 1 => do
    let tag ← word data offset
    let val ← word data (offset + 8)
    match tag with
    | 7 => scanDynamic data (offset + 16) { info with va := val } n
    | 8 => scanDynamic data (offset + 16) { info with size := val } n
    | 9 => scanDynamic data (offset + 16) { info with ent := val } n
    | 0 => some info
    | _ => scanDynamic data (offset + 16) info n

/-- The relocations of a file; only the first dynamic segment is looked at. -/
def ElfFile.relaInfo (elf : ElfFile) (data : List UInt8) : Option RelaInfo :=
  match elf.programHeaders.find? (·.type = .dynamic) with
  | none => some ⟨0, 0, 24⟩
  | some ph => scanDynamic data ph.offset ⟨0, 0, 24⟩ (ph.fileSize / 16)

/-- The body of the loop over the relocations: only `R_X86_64_RELATIVE` is applied. -/
def applyRelocation (info : RelaInfo) (delta i : Nat) : KernelM ElfError PUnit := do
  let base ← wrapU64 checks (info.va + delta)
  let step ← wrapU64 checks (i * info.ent)
  let entryVa ← wrapU64 checks (base + step)
  assertAligned checks entryVa
  let rOffset ← loadBytes entryVa 8
  let infoVa ← wrapU64 checks (entryVa + 8)
  assertAligned checks infoVa
  let rInfo ← loadBytes infoVa 8
  let addendVa ← wrapU64 checks (entryVa + 16)
  assertAligned checks addendVa
  let rAddend ← loadBytes addendVa 8
  if fromBytes rInfo % 2 ^ 32 = 8 then
    let targetVa ← wrapU64 checks (fromBytes rOffset + delta)
    assertAligned checks targetVa
    storeBytes targetVa (toBytes ((fromBytes rAddend + delta) % 2 ^ 64))

def applyRelocations (parse : List UInt8 → Option ElfFile) (data : List UInt8) (loadOffset : Nat) :
    KernelM ElfError PUnit := do
  if loadOffset = 0 ∨ 0x100000000 < loadOffset then pure ⟨⟩
  else
    match parse data with
    | none => throw (.err .invalidMagic)
    | some elf =>
      match elf.relaInfo data with
      | none => throw .halt
      | some info =>
        if info.va = 0 ∨ info.size = 0 then pure ⟨⟩
        else if info.ent = 0 then throw .halt
        else (List.range (info.size / info.ent)).forM (applyRelocation checks info loadOffset)

/-- `ElfLoader::load`, which returns the entry point. -/
def load (parse : List UInt8 → Option ElfFile) (data : List UInt8) : KernelM ElfError Nat := do
  match parse data with
  | none => throw (.err .invalidMagic)
  | some elf =>
    let entry ← wrapU64 checks (elf.entryPoint + elf.loadOffset)
    elf.loads.forM (loadSegment checks data elf.loadOffset)
    applyRelocations checks parse data elf.loadOffset
    pure entry

/-! ### Creating a process -/

inductive ProcessError where
  | elfError
  | allocationError
  | stackAllocationError
  deriving DecidableEq, Repr

/-- What `from_elf` finds out about the new process; the top of the kernel stack also goes to the TSS and to the entry
code of system calls. -/
structure Created where
  pid : Nat
  entryPoint : Nat
  kernelStackTop : Nat
  userStackTop : Nat
  deriving DecidableEq, Repr

/-- `user_stack_vaddr`. -/
def userStackVaddr : Nat := 0x08000000

/-- `USER_STACK_PAGES`. -/
def userStackPages : Nat := 16

/-- One page of the user stack. -/
def mapStackPage (i : Nat) : KernelM ProcessError PUnit := do
  let frame ← mapErr (fun _ => Stop.err ProcessError.stackAllocationError) (allocateFrame 0)
  mapErr (fun _ => Stop.err ProcessError.stackAllocationError)
    (mapPage (userStackVaddr + i * 0x1000) frame
      (PageFlags.present ||| PageFlags.writable ||| PageFlags.userAccessible))

/-- `Process::from_elf`. -/
def fromElf (parse : List UInt8 → Option ElfFile) (pid : Nat) (data : List UInt8) : KernelM ProcessError Created := do
  let entryPoint ← mapErr (Stop.map fun _ => ProcessError.elfError) (load checks parse data)
  let kernelStackFrame ← mapErr (fun _ => Stop.err ProcessError.stackAllocationError) (allocateFrame 0)
  (List.range userStackPages).forM mapStackPage
  pure ⟨pid, entryPoint, kernelStackFrame.startAddress + 0x1000, userStackVaddr + userStackPages * 0x1000⟩

end Load

end Hammam
