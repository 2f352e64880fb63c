import Mathlib.Data.Nat.Log
import Hammam.Lib.WrapRing

/-!
# Submission and completion rings (`io/uring.rs`)

The counters of a ring are `u32` values that run freely and wrap around; the slot of a position is its value modulo
the number of entries, a power of two.
-/

namespace Hammam

/-! ### The ring header -/

structure RingHeader where
  head : UInt32
  tail : UInt32
  mask : UInt32
  entries : UInt32
  deriving DecidableEq, Repr

/-- `u32::next_power_of_two`; beyond `2 ^ 31` it wraps to 0. -/
def nextPowerOfTwo (n : UInt32) : UInt32 := UInt32.ofNat (2 ^ Nat.clog 2 n.toNat)

namespace RingHeader

def new (entries : UInt32) : RingHeader :=
  let entries := nextPowerOfTwo entries
  ⟨0, 0, entries - 1, entries⟩

def len (r : RingHeader) : UInt32 := r.tail - r.head

def isEmpty (r : RingHeader) : Bool := r.len == 0

def isFull (r : RingHeader) : Bool := r.len ≥ r.entries

def index (r : RingHeader) (pos : UInt32) : Nat := (pos &&& r.mask).toNat

/-- The position that is handed out, and the ring with `tail` increased. -/
def push (r : RingHeader) : UInt32 × RingHeader := (r.tail, { r with tail := r.tail + 1 })

/-- The position that is taken out, and the ring with `head` increased. -/
def pop (r : RingHeader) : UInt32 × RingHeader := (r.head, { r with head := r.head + 1 })

end RingHeader

/-! ### Processing submissions -/

/-- The fields of a submission that the kernel reads. -/
structure SqEntry where
  opcode : UInt8
  len : UInt32
  userData : UInt64
  deriving DecidableEq, Repr

structure CqEntry where
  userData : UInt64
  result : Int
  flags : UInt32
  deriving DecidableEq, Repr

def CqEntry.new (userData : UInt64) (result : Int) : CqEntry := ⟨userData, result, 0⟩

def opRead : UInt8 := 0

def opWrite : UInt8 := 1

def opNop : UInt8 := 2

def opFsync : UInt8 := 3

def executeRead (_ : SqEntry) : Int := 0

def executeWrite (sqe : SqEntry) : Int := sqe.len.toNat

def executeSqe (sqe : SqEntry) : Int :=
  if sqe.opcode = opRead then executeRead sqe
  else if sqe.opcode = opWrite then executeWrite sqe
  else if sqe.opcode = opNop then 0
  else if sqe.opcode = opFsync then 0
  else -22

/-- The completion of a submission is written to the completion ring, unless that is full. -/
def postCompletion (cq : RingHeader) (cqEntries : List CqEntry) (sqe : SqEntry) : RingHeader × List CqEntry :=
  let result := executeSqe sqe
  if cq.isFull then (cq, cqEntries)
  else
    let (cqPos, cq) := cq.push
    -- an index outside the slice is ignored, as by `List.set`
    (cq, cqEntries.set (cq.index cqPos) (CqEntry.new sqe.userData result))

theorem len_pop {r : RingHeader} (h : ¬ r.isEmpty = true) : r.pop.2.len.toNat < r.len.toNat := by
  have hne : r.len.toNat ≠ 0 := by
    intro h0
    apply h
    rw [RingHeader.isEmpty, beq_iff_eq, ← UInt32.toNat_inj, h0]
    rfl
  have h1 := r.tail.toNat_lt
  have h2 := r.head.toNat_lt
  simp only [RingHeader.len, RingHeader.pop, UInt32.toNat_sub, UInt32.toNat_add] at *
  have : (1 : UInt32).toNat = 1 := rfl
  omega

/-- `process_sq`: the two headers and the completion slots after the loop. -/
def processSq (sq : RingHeader) (sqEntries : List SqEntry) (cq : RingHeader) (cqEntries : List CqEntry) :
    RingHeader × RingHeader × List CqEntry :=
  if _ : sq.isEmpty then (sq, cq, cqEntries)
  else
    match sqEntries[sq.pop.2.index sq.pop.1]? with
    | none => (sq.pop.2, cq, cqEntries)
    | some sqe =>
      let posted := postCompletion cq cqEntries sqe
      processSq sq.pop.2 sqEntries posted.1 posted.2
termination_by sq.len.toNat
decreasing_by exact len_pop (by assumption)

end Hammam
