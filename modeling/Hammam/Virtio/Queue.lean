import Mathlib.Logic.Function.Basic
import Hammam.Lib.WrapRing

/-!
# Virtqueues (`net-server/src/virtio.rs`)

A queue is a table of 256 descriptors, the available ring, in which the driver publishes descriptors, and the used
ring, in which the device returns them.  The free descriptors form a list through their `next` fields.  The indices
of the rings are `u16` values that wrap around; the slot of a position is its value modulo 256.
-/

namespace Hammam

open WrapRing

def queueSize : Nat := 256

structure VirtqDesc where
  addr : UInt64
  len : UInt32
  flags : UInt16
  next : UInt16
  deriving DecidableEq, Repr

structure VirtqAvail where
  idx : UInt16
  ring : Nat → UInt16

structure VirtqUsedElem where
  id : UInt32
  len : UInt32
  deriving DecidableEq, Repr

structure VirtqUsed where
  idx : UInt16
  ring : Nat → VirtqUsedElem

/-- The descriptor table as a function of the index; only the indices below `queueSize` belong to it. -/
structure Virtqueue where
  desc : Nat → VirtqDesc
  avail : VirtqAvail
  used : VirtqUsed
  freeHead : UInt16
  lastUsed : UInt16

/-- The bytes from an address on. -/
def bytesAt (mem : UInt64 → UInt8) (addr : UInt64) (len : Nat) : List UInt8 :=
  (List.range len).map fun i => mem (addr + UInt64.ofNat i)

namespace Virtqueue

/-- The memory is zero before the list is threaded through the table; the last descriptor keeps `next = 0`. -/
def init : Virtqueue where
  desc i := if i < queueSize - 1 then ⟨0, 0, 1, UInt16.ofNat (i + 1)⟩ else ⟨0, 0, 0, 0⟩
  avail := ⟨0, fun _ => 0⟩
  used := ⟨0, fun _ => ⟨0, 0⟩⟩
  freeHead := 0
  lastUsed := 0

/-- `send` of the `len` bytes at `addr`. -/
def send (q : Virtqueue) (addr : UInt64) (len : Nat) : Virtqueue :=
  let idx := q.freeHead.toNat
  { q with
    freeHead := (q.desc idx).next
    desc := Function.update q.desc idx { q.desc idx with addr := addr, len := UInt32.ofNat len, flags := 0 }
    avail := ⟨q.avail.idx + 1, Function.update q.avail.ring (q.avail.idx.toNat % queueSize) (UInt16.ofNat idx)⟩ }

/-- `recv` into `buf`: the length returned, the buffer and the queue after it. -/
def recv (q : Virtqueue) (mem : UInt64 → UInt8) (buf : List UInt8) : Option (Nat × List UInt8 × Virtqueue) :=
  if q.used.idx = q.lastUsed then none
  else
    let elem := q.used.ring (q.lastUsed.toNat % queueSize)
    let desc := q.desc elem.id.toNat
    let len := min elem.len.toNat buf.length
    some (len, bytesAt mem desc.addr len ++ buf.drop len,
      { q with
        lastUsed := q.lastUsed + 1
        desc := Function.update q.desc elem.id.toNat { desc with next := q.freeHead }
        freeHead := UInt16.ofNat elem.id.toNat })

/-- The device returns a descriptor. -/
def complete (q : Virtqueue) (elem : VirtqUsedElem) : Virtqueue :=
  { q with used := ⟨q.used.idx + 1, Function.update q.used.ring (q.used.idx.toNat % queueSize) elem⟩ }

/-- The elements that the driver has not read. -/
def unread (q : Virtqueue) : List VirtqUsedElem :=
  window q.used.ring queueSize q.lastUsed.toNat (q.used.idx - q.lastUsed).toNat

@[simp] theorem unread_init : init.unread = [] := rfl

@[simp] theorem unread_send (q : Virtqueue) (addr : UInt64) (len : Nat) : (q.send addr len).unread = q.unread := rfl

theorem length_unread (q : Virtqueue) : q.unread.length = (q.used.idx - q.lastUsed).toNat := length_window _ _ _

theorem unread_eq_nil {q : Virtqueue} : q.unread = [] ↔ q.used.idx = q.lastUsed := by
  rw [← List.length_eq_zero_iff, length_unread]
  constructor
  · intro h
    have h0 : q.used.idx - q.lastUsed = 0 := UInt16.toNat_inj.1 h
    rw [← UInt16.sub_add_cancel q.used.idx q.lastUsed, h0, UInt16.zero_add]
  · intro h
    rw [h, UInt16.sub_self]
    rfl

/-- A queue with fewer than 256 elements to read gets another one behind them. -/
theorem unread_complete {q : Virtqueue} (h : q.unread.length < queueSize) (elem : VirtqUsedElem) :
    (q.complete elem).unread = q.unread ++ [elem] := by
  rw [length_unread] at h
  have hn : (q.used.idx + 1 - q.lastUsed).toNat = (q.used.idx - q.lastUsed).toNat + 1 := by
    simp only [queueSize, UInt16.toNat_sub, UInt16.toNat_add, UInt16.toNat_one] at *
    omega
  have hslot : q.used.idx.toNat % queueSize = (q.lastUsed.toNat + (q.used.idx - q.lastUsed).toNat) % queueSize := by
    have h1 := q.used.idx.toNat_lt
    have h2 := q.lastUsed.toNat_lt
    simp only [queueSize, UInt16.toNat_sub] at *
    omega
  unfold unread complete
  simp only [hn]
  refine window_write h ?_ fun i hi => ?_
  · rw [hslot, Function.update_self]
  · rw [hslot, Function.update_of_ne hi]

/-- `recv` takes the first element that has not been read and puts its descriptor in front of the free list. -/
theorem recv_cons {q q' : Virtqueue} {mem : UInt64 → UInt8} {buf out : List UInt8} {len : Nat}
    (h : q.recv mem buf = some (len, out, q')) :
    ∃ elem, q.unread = elem :: q'.unread ∧ len = min elem.len.toNat buf.length ∧
      out = bytesAt mem (q.desc elem.id.toNat).addr len ++ buf.drop len ∧
      q'.desc = Function.update q.desc elem.id.toNat { q.desc elem.id.toNat with next := q.freeHead } ∧
      q'.freeHead = UInt16.ofNat elem.id.toNat := by
  unfold recv at h
  split at h
  · cases h
  · rename_i hne
    cases h
    refine ⟨_, ?_, rfl, rfl, rfl, rfl⟩
    have hpos : (q.used.idx - q.lastUsed).toNat ≠ 0 := by
      rw [← length_unread, List.length_eq_zero_iff.ne]
      exact fun h => hne (unread_eq_nil.1 h)
    have hn : (q.used.idx - q.lastUsed).toNat = (q.used.idx - (q.lastUsed + 1)).toNat + 1 := by
      have h1 := q.used.idx.toNat_lt
      have h2 := q.lastUsed.toNat_lt
      simp only [UInt16.toNat_sub, UInt16.toNat_add, UInt16.toNat_one] at *
      omega
    unfold unread
    rw [hn, window_succ]
    congr 1
    show window _ queueSize (q.lastUsed.toNat + 1) _ = window _ queueSize ((q.lastUsed + 1).toNat) _
    rw [UInt16.toNat_add, window_mod (by decide)]
    rfl

theorem recv_eq_none {q : Virtqueue} {mem : UInt64 → UInt8} {buf : List UInt8} :
    q.recv mem buf = none ↔ q.unread = [] := by
  rw [unread_eq_nil, recv]
  split
  · exact iff_of_true rfl ‹_›
  · exact iff_of_false (by simp) ‹_›

end Virtqueue

end Hammam
