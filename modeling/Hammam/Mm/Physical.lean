import Mathlib.Logic.Function.Basic
import Mathlib.Logic.Relation
import Mathlib.Data.Nat.Bitwise
import Mathlib.Data.List.Basic

/-!
# The physical frame allocator (`mm/physical.rs`)

A binary buddy allocator.  Addresses are natural numbers (`u64` in the source; every address the allocator meets lies
at or below `2 ^ 52`, so no operation wraps).  A free list is the list of the addresses of its blocks, head first:
the source threads it through the first bytes of the free blocks themselves.
-/

namespace Hammam

/-- `MAX_ORDER`: the orders are `0, …, 10`. -/
def maxOrder : Nat := 11

/-- `PAGE_SIZE`. -/
def pageSize : Nat := 4096

/-- The size in bytes of a block: `(1 << order) * PAGE_SIZE`. -/
def blockSize (order : Nat) : Nat := 2 ^ order * pageSize

/-- The address `x` lies in the block `b`, a pair of address and order. -/
def InBlock (b : Nat × Nat) (x : Nat) : Prop := b.1 ≤ x ∧ x < b.1 + blockSize b.2

inductive MemoryKind where
  | usable
  | reserved
  | uefiBootServices
  | uefiRuntimeServices
  | kernel
  | bootloader
  | acpiNvs
  | acpiReclaimable
  | mmio
  deriving DecidableEq, Repr

/-- An area of physical memory, without its end address. -/
structure MemoryRegion where
  start : Nat
  end_ : Nat
  kind : MemoryKind
  deriving DecidableEq, Repr

structure PhysFrame where
  startAddress : Nat
  deriving DecidableEq, Repr

inductive AllocError where
  | outOfMemory
  | invalidOrder
  deriving DecidableEq, Repr

/-- The loaded kernel, `[kernel_phys_start, kernel_phys_end)`; `link.ld` aligns both symbols to pages. -/
structure KernelImage where
  physStart : Nat
  physEnd : Nat
  start_le_end : physStart ≤ physEnd
  start_aligned : pageSize ∣ physStart
  end_aligned : pageSize ∣ physEnd

/-- Entry `k` of `freeLists` is the list of order `k`; only the entries below `maxOrder` are used. -/
structure BuddyAllocator where
  freeLists : Nat → List Nat
  totalFrames : Nat
  freeFrames : Nat

namespace BuddyAllocator

def new : BuddyAllocator := ⟨fun _ => [], 0, 0⟩

/-- `free_lists[order] = l`. -/
def setList (s : BuddyAllocator) (order : Nat) (l : List Nat) : BuddyAllocator :=
  { s with freeLists := Function.update s.freeLists order l }

/-- The head of list `order` becomes the block at `addr`. -/
def push (s : BuddyAllocator) (order addr : Nat) : BuddyAllocator := s.setList order (addr :: s.freeLists order)

/-- List `order` without the block at `addr`. -/
def unlink (s : BuddyAllocator) (order addr : Nat) : BuddyAllocator :=
  s.setList order ((s.freeLists order).erase addr)

def removeFromList (s : BuddyAllocator) (order blockAddr : Nat) : Bool × BuddyAllocator :=
  if blockAddr ∈ s.freeLists order then (true, s.unlink order blockAddr) else (false, s)

/-- The loop of `deallocate_internal`; `fuel` is `MAX_ORDER - 1 - order`, so the loop condition is `0 < fuel`. -/
def mergeBuddies (s : BuddyAllocator) (addr order : Nat) : Nat → BuddyAllocator × Nat × Nat
  | 0 => (s, addr, order)
  | fuel + 1 =>
    let buddyAddr := addr ^^^ blockSize order
    match s.removeFromList order buddyAddr with
    | (true, s') => mergeBuddies s' (min addr buddyAddr) (order + 1) fuel
    | (false, _) => (s, addr, order)

def deallocateInternal (s : BuddyAllocator) (frame : PhysFrame) (order : Nat) : BuddyAllocator :=
  let (s₁, addr, k) := s.mergeBuddies frame.startAddress order (maxOrder - 1 - order)
  let s₂ := s₁.push k addr
  { s₂ with freeFrames := s₂.freeFrames + 2 ^ order }

def deallocate (s : BuddyAllocator) (frame : PhysFrame) (order : Nat) : BuddyAllocator :=
  if maxOrder ≤ order then s else s.deallocateInternal frame order

/-- The split loop of `allocate`: the upper halves of orders `order + n - 1, …, order` of the block at `block`
go to their lists. -/
def splitBlock (s : BuddyAllocator) (block order : Nat) : Nat → BuddyAllocator
  | 0 => s
  | n + 1 => splitBlock (s.push (order + n) (block + blockSize (order + n))) block order n

/-- The search loop of `allocate` over the orders that remain to be tried. -/
def allocateFrom (s : BuddyAllocator) (order : Nat) : List Nat → Except AllocError PhysFrame × BuddyAllocator
  | [] => (.error .outOfMemory, s)
  | current :: rest =>
    match s.freeLists current with
    | [] => s.allocateFrom order rest
    | block :: next =>
      let s₁ := (s.setList current next).splitBlock block order (current - order)
      (.ok ⟨block⟩, { s₁ with freeFrames := s₁.freeFrames - 2 ^ order })

def allocate (s : BuddyAllocator) (order : Nat) : Except AllocError PhysFrame × BuddyAllocator :=
  if maxOrder ≤ order then (.error .invalidOrder, s)
  else s.allocateFrom order (List.range' order (maxOrder - order))

/-- The largest order at most the given one that fits into `maxPages` pages and to which `addr` is aligned. -/
def chooseOrder (maxPages addr : Nat) : Nat → Nat
  | 0 => 0
  | k + 1 => if 2 ^ (k + 1) ≤ maxPages ∧ addr % blockSize (k + 1) = 0 then k + 1 else chooseOrder maxPages addr k

theorem blockSize_pos (order : Nat) : 0 < blockSize order :=
  Nat.mul_pos (Nat.two_pow_pos order) (by decide)

/-- The loop of `add_memory_region` over one of its two sub-ranges. -/
def addRange (s : BuddyAllocator) (current rangeEnd : Nat) : BuddyAllocator :=
  if current < rangeEnd then
    let maxPages := (rangeEnd - current) / pageSize
    if maxPages = 0 then s
    else
      let order := chooseOrder maxPages current (maxOrder - 1)
      let s₁ := s.deallocateInternal ⟨current⟩ order
      addRange { s₁ with totalFrames := s₁.totalFrames + 2 ^ order } (current + blockSize order) rangeEnd
  else s
termination_by rangeEnd - current
decreasing_by
  have := blockSize_pos (chooseOrder ((rangeEnd - current) / pageSize) current (maxOrder - 1))
  omega

/-- One sub-range of `add_memory_region`; the page at address 0 is never added. -/
def addSubRange (s : BuddyAllocator) (rangeStart rangeEnd : Nat) : BuddyAllocator :=
  if rangeEnd ≤ rangeStart then s
  else s.addRange (if rangeStart = 0 then pageSize else rangeStart) rangeEnd

/-- The part of `[startAddr, endAddr)` before the kernel, then the part after it. -/
def addMemoryRegion (s : BuddyAllocator) (k : KernelImage) (startAddr endAddr : Nat) : BuddyAllocator :=
  (s.addSubRange startAddr (min endAddr k.physStart)).addSubRange (max startAddr k.physEnd) endAddr

/-- `(x + PAGE_SIZE - 1) & !(PAGE_SIZE - 1)`. -/
def alignUp (x : Nat) : Nat := (x + pageSize - 1) / pageSize * pageSize

/-- `x & !(PAGE_SIZE - 1)`. -/
def alignDown (x : Nat) : Nat := x / pageSize * pageSize

def initRegion (k : KernelImage) (s : BuddyAllocator) (region : MemoryRegion) : BuddyAllocator :=
  if region.kind ≠ .usable then s
  else if alignUp region.start < alignDown region.end_ then
    s.addMemoryRegion k (alignUp region.start) (alignDown region.end_)
  else s

def init (s : BuddyAllocator) (k : KernelImage) (memoryMap : List MemoryRegion) : BuddyAllocator :=
  memoryMap.foldl (initRegion k) s

end BuddyAllocator

/-! ### Runs -/

/-- An allocator with the blocks it has handed out, as pairs of address and order. -/
structure FrameState where
  alloc : BuddyAllocator
  live : List (Nat × Nat)

/-- A client calls `allocate` and keeps the block it gets. -/
def FrameState.allocate (s : FrameState) (order : Nat) : FrameState :=
  match s.alloc.allocate order with
  | (.ok frame, a) => ⟨a, (frame.startAddress, order) :: s.live⟩
  | (.error _, a) => ⟨a, s.live⟩

/-- A client returns a block. -/
def FrameState.deallocate (s : FrameState) (frame : PhysFrame) (order : Nat) : FrameState :=
  ⟨s.alloc.deallocate frame order, s.live.erase (frame.startAddress, order)⟩

/-- One call: any `allocate`, or a `deallocate` of a block that is handed out, with the order it was allocated with.
-/
inductive FrameStep : FrameState → FrameState → Prop
  | allocate (s : FrameState) (order : Nat) : FrameStep s (s.allocate order)
  | deallocate (s : FrameState) (frame : PhysFrame) (order : Nat) :
    (frame.startAddress, order) ∈ s.live → FrameStep s (s.deallocate frame order)

/-- The state right after `BuddyAllocator::new` and `init`. -/
def FrameState.boot (k : KernelImage) (memoryMap : List MemoryRegion) : FrameState :=
  ⟨BuddyAllocator.new.init k memoryMap, []⟩

/-- The states of all runs from `boot`. -/
def FrameState.Reachable (k : KernelImage) (memoryMap : List MemoryRegion) : FrameState → Prop :=
  Relation.ReflTransGen FrameStep (FrameState.boot k memoryMap)

/-- The usable regions are intervals that end at or below `2 ^ 52` and are pairwise disjoint. -/
structure ValidMap (memoryMap : List MemoryRegion) : Prop where
  bounded : ∀ r ∈ memoryMap, r.kind = .usable → r.start ≤ r.end_ ∧ r.end_ ≤ 2 ^ 52
  disjoint : (memoryMap.filter (·.kind = .usable)).Pairwise fun r r' =>
    ∀ x, r.start ≤ x → x < r.end_ → ¬ (r'.start ≤ x ∧ x < r'.end_)

/-- The numbers of the pages that `init` adds: those inside a usable region, except page 0 and the kernel's. -/
def initPages (k : KernelImage) (memoryMap : List MemoryRegion) : Set Nat :=
  {n | n ≠ 0 ∧ ¬ (k.physStart ≤ n * pageSize ∧ n * pageSize < k.physEnd) ∧
    ∃ r ∈ memoryMap, r.kind = .usable ∧ r.start ≤ n * pageSize ∧ (n + 1) * pageSize ≤ r.end_}

end Hammam
