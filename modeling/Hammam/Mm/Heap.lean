import Hammam.Lib.ByteMem
import Hammam.Lib.Extent
import Hammam.Mm.Paging

/-!
# The kernel heap (`mm/heap.rs`)

A first-fit allocator whose free list is threaded through the holes themselves.  A hole begins with its header of 24
bytes: the size, the tag of `next` and the pointer in it (a raw pointer leaves no niche for `None`).  Arithmetic is
that of `usize` and wraps, as in a release build; a build with overflow checks stops there instead.

`prev` in the source points to the head of the allocator or to a hole; the former is `none` here.
-/

namespace Hammam

open ByteMem

/-- `size_of::<Hole>()`. -/
def holeBytes : Nat := 24

/-- `align_of::<Hole>()`. -/
def holeAlign : Nat := 8

/-- The field `next` of the head of the allocator, and the memory. -/
structure Heap where
  head : Option Nat
  mem : Memory

namespace Heap

/-! ### Headers -/

def sizeAt (m : Memory) (p : Nat) : Nat := read64 m p

def nextAt (m : Memory) (p : Nat) : Option Nat := if read64 m (p + 8) = 0 then none else some (read64 m (p + 16))

def setSizeAt (m : Memory) (p size : Nat) : Memory := write64 m p size

def setNextAt (m : Memory) (p : Nat) : Option Nat → Memory
  | none => write64 m (p + 8) 0
  | some q => write64 (write64 m (p + 8) 1) (p + 16) q

/-- `(*hole).size = size; (*hole).next = next`. -/
def writeHole (m : Memory) (p size : Nat) (next : Option Nat) : Memory := setNextAt (setSizeAt m p size) p next

/-- `(*prev).next`. -/
def next (h : Heap) : Option Nat → Option Nat
  | none => h.head
  | some p => nextAt h.mem p

/-- `(*prev).next = v`. -/
def setNext (h : Heap) (v : Option Nat) : Option Nat → Heap
  | none => { h with head := v }
  | some p => { h with mem := setNextAt h.mem p v }

/-! ### Operations -/

def init (m : Memory) (startAddr size : Nat) : Heap := ⟨some startAddr, writeHole m startAddr size none⟩

/-- `(x + align - 1) & !(align - 1)`. -/
def alignUp (x align : Nat) : Nat := (x + align - 1) % 2 ^ 64 &&& (2 ^ 64 - align)

/-- The loop of `alloc_raw`, for at most `fuel` iterations: a cyclic list would keep it running. -/
def allocLoop (size align : Nat) : Nat → Heap → Option Nat → Option (Option Nat × Heap)
  | 0, _, _ => none
  | fuel + 1, h, prev =>
    match h.next prev with
    | none => some (none, h)
    | some curr =>
      let alignedAddr := alignUp curr align
      let padding := (alignedAddr + 2 ^ 64 - curr) % 2 ^ 64
      let requiredSize := (size + padding) % 2 ^ 64
      if sizeAt h.mem curr ≥ requiredSize then
        let nextHole := nextAt h.mem curr
        let remainingSize := sizeAt h.mem curr - requiredSize
        if remainingSize ≥ holeBytes then
          let newHoleAddr := (alignedAddr + size) % 2 ^ 64
          let h₁ := { h with mem := writeHole h.mem newHoleAddr remainingSize nextHole }
          some (some alignedAddr, h₁.setNext (some newHoleAddr) prev)
        else some (some alignedAddr, h.setNext nextHole prev)
      else allocLoop size align fuel h (some curr)

def allocRaw (h : Heap) (size align fuel : Nat) : Option (Option Nat × Heap) :=
  let size := max size holeBytes
  let align := max align holeAlign
  allocLoop (alignUp size align) align fuel h none

def deallocRaw (h : Heap) (ptr size _align : Nat) : Heap :=
  let size := max size holeBytes
  ⟨some ptr, writeHole h.mem ptr size h.head⟩

end Heap

/-- The sizes and alignments that `core::alloc::Layout` admits. -/
structure ValidLayout (size align : Nat) : Prop where
  pow : ∃ k, align = 2 ^ k
  fits : size + (align - 1) ≤ 2 ^ 63 - 1

/-- A live allocation. -/
structure Allocation where
  ptr : Nat
  size : Nat
  align : Nat
  deriving DecidableEq, Repr

/-- A heap with its live allocations. -/
structure HeapState where
  heap : Heap
  live : List Allocation

/-- The runs from `init` on a region of `n` bytes: allocations, deallocations of live pointers with the size and the
alignment they were allocated with, and writes of the owners to the bytes of live allocations. -/
inductive HeapRun (start n : Nat) : HeapState → Prop
  | init (m : Memory) : HeapRun start n ⟨Heap.init m start n, []⟩
  | alloc {s : HeapState} {size align fuel : Nat} {r : Option Nat} {h : Heap} : HeapRun start n s →
    ValidLayout size align → s.heap.allocRaw size align fuel = some (r, h) →
    HeapRun start n ⟨h, (r.toList.map fun p => ⟨p, size, align⟩) ++ s.live⟩
  | dealloc {s : HeapState} {a : Allocation} : HeapRun start n s → a ∈ s.live →
    HeapRun start n ⟨s.heap.deallocRaw a.ptr a.size a.align, s.live.erase a⟩
  | write {s : HeapState} {m : Memory} : HeapRun start n s →
    (∀ x, (∀ a ∈ s.live, ¬ Extent.Contains (a.ptr, a.size) x) → m x = s.heap.mem x) →
    HeapRun start n ⟨{ s.heap with mem := m }, s.live⟩

end Hammam
