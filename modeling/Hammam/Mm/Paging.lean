import Mathlib.Data.Nat.Bitwise
import Hammam.Lib.ByteMem
import Hammam.Lib.Fallible
import Hammam.Mm.Physical

/-!
# Page tables (`mm/paging.rs`)

Page tables live in physical memory, a function from addresses to bytes.  `get_table` takes a frame to the table in
it: under the identity mapping the physical address is the virtual one, and the model reads and writes the frame
itself.  Entries and addresses are natural numbers below `2 ^ 64`.  The `invlpg` instruction and the debug output have
no effect here, and the links of the free lists, which lie in free frames, are not part of this memory.
-/

namespace Hammam

open ByteMem Fallible

/-- Physical memory. -/
abbrev Memory := Nat → UInt8

/-! ### Entries -/

/-- All bits that `PageFlags` names: 0 to 8 and 63. -/
def pageFlagsAll : Nat := 0x80000000000001FF

/-- A set of the named bits. -/
structure PageFlags where
  bits : Nat
  named : bits &&& pageFlagsAll = bits
  deriving DecidableEq

namespace PageFlags

def present : PageFlags := ⟨1 <<< 0, by decide⟩

def writable : PageFlags := ⟨1 <<< 1, by decide⟩

def userAccessible : PageFlags := ⟨1 <<< 2, by decide⟩

def writeThrough : PageFlags := ⟨1 <<< 3, by decide⟩

def cacheDisable : PageFlags := ⟨1 <<< 4, by decide⟩

def accessed : PageFlags := ⟨1 <<< 5, by decide⟩

def dirty : PageFlags := ⟨1 <<< 6, by decide⟩

def hugePage : PageFlags := ⟨1 <<< 7, by decide⟩

def global : PageFlags := ⟨1 <<< 8, by decide⟩

def noExecute : PageFlags := ⟨1 <<< 63, by decide⟩

/-- `from_bits_truncate`. -/
def fromBitsTruncate (bits : Nat) : PageFlags :=
  ⟨bits &&& pageFlagsAll, by rw [Nat.and_assoc, Nat.and_self]⟩

def contains (f g : PageFlags) : Bool := f.bits &&& g.bits == g.bits

instance : OrOp PageFlags :=
  ⟨fun f g => ⟨f.bits ||| g.bits, by rw [Nat.and_or_distrib_right, f.named, g.named]⟩⟩

/-- `f & !g`. -/
def without (f g : PageFlags) : PageFlags := fromBitsTruncate (f.bits &&& (pageFlagsAll ^^^ g.bits))

end PageFlags

/-- The bits 12 to 51 of an entry. -/
def addrMask : Nat := 0x000FFFFFFFFFF000

/-- An entry of a table, a `u64`. -/
abbrev PageTableEntry := Nat

namespace PageTableEntry

def flags (e : PageTableEntry) : PageFlags := PageFlags.fromBitsTruncate e

/-- The flag `f` is set in the entry. -/
def has (e : PageTableEntry) (f : PageFlags) : Bool := (flags e).contains f

def frame (e : PageTableEntry) : Option PhysFrame :=
  if has e .present then some ⟨e &&& addrMask⟩ else none

/-- The value that `set_frame` stores. -/
def setFrame (frame : PhysFrame) (flags : PageFlags) : PageTableEntry :=
  (frame.startAddress &&& addrMask) ||| flags.bits

end PageTableEntry

open PageTableEntry

/-! ### Tables -/

/-- Entry `i` of the table in a frame. -/
def entry (m : Memory) (table : PhysFrame) (i : Nat) : PageTableEntry := read64 m (table.startAddress + 8 * i)

def setEntry (m : Memory) (table : PhysFrame) (i : Nat) (e : PageTableEntry) : Memory :=
  write64 m (table.startAddress + 8 * i) e

/-- The first `n` entries are written in order. -/
def fillTable (m : Memory) (table : PhysFrame) (e : Nat → PageTableEntry) : Nat → Memory
  | 0 => m
  | n + 1 => setEntry (fillTable m table e n) table n (e n)

/-- `PageTable::zero`. -/
def zeroTable (m : Memory) (table : PhysFrame) : Memory := fillTable m table (fun _ => 0) 512

def pml4Index (virt : Nat) : Nat := (virt >>> 39) &&& 0x1FF

def pdptIndex (virt : Nat) : Nat := (virt >>> 30) &&& 0x1FF

def pdIndex (virt : Nat) : Nat := (virt >>> 21) &&& 0x1FF

def ptIndex (virt : Nat) : Nat := (virt >>> 12) &&& 0x1FF

inductive MapError where
  | frameAllocationFailed
  | alreadyMapped
  deriving DecidableEq, Repr

/-- Physical memory, the register `CR3` and the allocator of frames. -/
structure Machine where
  mem : Memory
  cr3 : Nat
  alloc : BuddyAllocator

/-- `active_pml4`. -/
def Machine.activePml4 (s : Machine) : PhysFrame := ⟨s.cr3 &&& addrMask⟩

/-! ### Mapping -/

abbrev MapM := ExceptT MapError (StateM Machine)

/-- `allocator.allocate(order)` on the shared allocator. -/
def allocateFrame (order : Nat) : ExceptT AllocError (StateM Machine) PhysFrame :=
  ExceptT.mk fun s =>
    match s.alloc.allocate order with
    | (r, a) => (r, { s with alloc := a })

/-- The flags of an entry that points to a table. -/
def tableFlags : PageFlags := PageFlags.present ||| PageFlags.writable ||| PageFlags.userAccessible

/-- The next table on the way down: the one that entry `i` points to, or else a new one, which is zeroed and linked.
-/
def nextTable (table : PhysFrame) (i : Nat) : MapM PhysFrame := do
  match frame (entry (← get).mem table i) with
  | some next => pure next
  | none =>
    let next ← mapErr (fun _ => MapError.frameAllocationFailed) (allocateFrame 0)
    modify fun s => { s with mem := setEntry (zeroTable s.mem next) table i (setFrame next tableFlags) }
    pure next

/-- A 2 MiB page in entry `i` of a page directory becomes a table of 512 pages. -/
def splitHuge (pd : PhysFrame) (i : Nat) : MapM PUnit := do
  let e := entry (← get).mem pd i
  if has e .present && has e .hugePage then
    let hugePhys := e &&& addrMask
    let pt ← mapErr (fun _ => MapError.frameAllocationFailed) (allocateFrame 0)
    let hugeFlags := (flags e).without .hugePage
    let page := fun j => setFrame ⟨hugePhys + j * 0x1000⟩ hugeFlags
    modify fun s => { s with mem := setEntry (fillTable s.mem pt page 512) pd i (setFrame pt tableFlags) }
  else pure ⟨⟩

def mapPage (virt : Nat) (phys : PhysFrame) (flags : PageFlags) : MapM PUnit := do
  let pdpt ← nextTable (← get).activePml4 (pml4Index virt)
  let pd ← nextTable pdpt (pdptIndex virt)
  splitHuge pd (pdIndex virt)
  let pt ← nextTable pd (pdIndex virt)
  -- a leaf that is already there is overwritten; `AlreadyMapped` is never returned
  modify fun s => { s with mem := setEntry s.mem pt (ptIndex virt) (setFrame phys (flags ||| PageFlags.present)) }

/-! ### Unmapping -/

inductive UnmapError where
  | notMapped
  deriving DecidableEq, Repr

abbrev UnmapM := ExceptT UnmapError (StateM Machine)

/-- The frame that entry `i` points to, if it is present; whether it is a huge page is not asked. -/
def presentFrame (table : PhysFrame) (i : Nat) : UnmapM PhysFrame := do
  match frame (entry (← get).mem table i) with
  | some next => pure next
  | none => throw UnmapError.notMapped

def unmapPage (virt : Nat) : UnmapM PhysFrame := do
  let pdpt ← presentFrame (← get).activePml4 (pml4Index virt)
  let pd ← presentFrame pdpt (pdptIndex virt)
  let pt ← presentFrame pd (pdIndex virt)
  let page ← presentFrame pt (ptIndex virt)
  -- `set_unused`
  modify fun s => { s with mem := setEntry s.mem pt (ptIndex virt) 0 }
  pure page

/-! ### Translation -/

def Machine.translateFlags (s : Machine) (virt : Nat) : Option PageFlags := do
  let pml4e := entry s.mem s.activePml4 (pml4Index virt)
  let pdptFrame ← frame pml4e
  let pdpte := entry s.mem pdptFrame (pdptIndex virt)
  let pdFrame ← frame pdpte
  if has pdpte .hugePage then flags pdpte
  else
    let pde := entry s.mem pdFrame (pdIndex virt)
    let ptFrame ← frame pde
    if has pde .hugePage then flags pde
    else
      let pte := entry s.mem ptFrame (ptIndex virt)
      if has pte .present then flags pte else none

/-- Unlike `translate_flags`, this walk has no case for a 1 GiB page. -/
def Machine.translate (s : Machine) (virt : Nat) : Option Nat := do
  let pml4e := entry s.mem s.activePml4 (pml4Index virt)
  let pdptFrame ← frame pml4e
  let pdpte := entry s.mem pdptFrame (pdptIndex virt)
  let pdFrame ← frame pdpte
  let pde := entry s.mem pdFrame (pdIndex virt)
  let ptFrame ← frame pde
  if has pde .hugePage then some (ptFrame.startAddress + (virt &&& 0x001FFFFF))
  else
    let pte := entry s.mem ptFrame (ptIndex virt)
    let page ← frame pte
    some (page.startAddress + (virt &&& 0xFFF))

/-! ### The processor -/

/-- The walk of the processor: the leaf entry of an address, with the number of address bits below it. -/
def Machine.hwLeaf (s : Machine) (v : Nat) : Option (Nat × Nat) := do
  let pdptFrame ← frame (entry s.mem s.activePml4 (pml4Index v))
  let pdpte := entry s.mem pdptFrame (pdptIndex v)
  let pdFrame ← frame pdpte
  if has pdpte .hugePage then some (pdpte, 30)
  else
    let pde := entry s.mem pdFrame (pdIndex v)
    let ptFrame ← frame pde
    if has pde .hugePage then some (pde, 21)
    else
      let pte := entry s.mem ptFrame (ptIndex v)
      if has pte .present then some (pte, 12) else none

/-- The physical address of `v`: a page of `2 ^ w` bytes is aligned to its size. -/
def Machine.hwTranslate (s : Machine) (v : Nat) : Option Nat :=
  (s.hwLeaf v).map fun l => (l.1 &&& addrMask) / 2 ^ l.2 * 2 ^ l.2 + v % 2 ^ l.2

/-- The byte at `v`; `none` is a page fault. -/
def Machine.readByte (s : Machine) (v : Nat) : Option UInt8 := (s.hwTranslate v).map s.mem

/-! ### The tables that the boot code builds -/

/-- `BOOT_PT_ADDR`: the PML4, followed by the PDPT and the page directory. -/
def bootPt : Nat := 0x21b000

/-- The first GiB is mapped to itself by 512 pages of 2 MiB. -/
def bootTables (m : Memory) : Memory :=
  let m₁ := zeroTable (zeroTable (zeroTable m ⟨bootPt⟩) ⟨bootPt + 4096⟩) ⟨bootPt + 8192⟩
  let m₂ := setEntry m₁ ⟨bootPt⟩ 0 ((bootPt + 4096) ||| 7)
  let m₃ := setEntry m₂ ⟨bootPt + 4096⟩ 0 ((bootPt + 8192) ||| 7)
  fillTable m₃ ⟨bootPt + 8192⟩ (fun i => 0x87 + i * 0x200000) 512

end Hammam
