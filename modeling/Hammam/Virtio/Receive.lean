import Hammam.Virtio.Queue

/-!
# Receiving from a virtqueue (`net-server/src/virtio.rs`)

The device appends to the used ring and the driver reads it, in any interleaving.  The driver has read what the device
appended, in the order in which it appended it, up to the elements that are still unread.
-/

namespace Hammam

/-- A call of `recv` that returned: the queue before it, its arguments and what it returned. -/
structure Received where
  queue : Virtqueue
  mem : UInt64 → UInt8
  buf : List UInt8
  len : Nat
  out : List UInt8

/-- The call has copied what fits of the buffer that `elem` returns. -/
def Received.Of (r : Received) (elem : VirtqUsedElem) : Prop :=
  r.len = min elem.len.toNat r.buf.length ∧
    r.out = bytesAt r.mem (r.queue.desc elem.id.toNat).addr r.len ++ r.buf.drop r.len

/-- The interleavings of a device that is at most 256 elements ahead with the calls of the driver, with the elements
appended and the calls of `recv` that returned one. -/
inductive ReceiveRun (start : Virtqueue) : Virtqueue → List VirtqUsedElem → List Received → Prop
  | start : start.used.idx = start.lastUsed → ReceiveRun start start [] []
  | append {q appended received} (elem : VirtqUsedElem) : ReceiveRun start q appended received →
      elem.id.toNat < queueSize → appended.length < received.length + queueSize →
      ReceiveRun start (q.complete elem) (appended ++ [elem]) received
  | recv {q q' appended received mem buf len out} : ReceiveRun start q appended received →
      q.recv mem buf = some (len, out, q') →
      ReceiveRun start q' appended (received ++ [⟨q, mem, buf, len, out⟩])
  | send {q appended received} (addr : UInt64) (len : Nat) : ReceiveRun start q appended received →
      ReceiveRun start (q.send addr len) appended received

/-- What is unread is what has been appended and not been received. -/
structure ReceiveInv (q : Virtqueue) (appended : List VirtqUsedElem) (received : List Received) : Prop where
  le : received.length ≤ appended.length
  ahead : appended.length ≤ received.length + queueSize
  unread : q.unread = appended.drop received.length
  inOrder : List.Forall₂ Received.Of received (appended.take received.length)

namespace ReceiveInv

variable {q q' : Virtqueue} {appended : List VirtqUsedElem} {received : List Received}

theorem length_unread (h : ReceiveInv q appended received) :
    q.unread.length = appended.length - received.length := by
  rw [h.unread, List.length_drop]

theorem append (h : ReceiveInv q appended received) (hroom : appended.length < received.length + queueSize)
    (elem : VirtqUsedElem) : ReceiveInv (q.complete elem) (appended ++ [elem]) received := by
  have hle := h.le
  have hlen := h.length_unread
  refine ⟨?_, ?_, ?_, ?_⟩
  · rw [List.length_append]
    omega
  · rw [List.length_append, List.length_singleton]
    exact hroom
  · rw [Virtqueue.unread_complete (by omega), h.unread, List.drop_append_of_le_length hle]
  · rw [List.take_append_of_le_length hle]
    exact h.inOrder

theorem recv (h : ReceiveInv q appended received) {mem : UInt64 → UInt8} {buf out : List UInt8} {len : Nat}
    (hr : q.recv mem buf = some (len, out, q')) :
    ReceiveInv q' appended (received ++ [⟨q, mem, buf, len, out⟩]) := by
  obtain ⟨elem, hu, hl, ho, -, -⟩ := Virtqueue.recv_cons hr
  rw [h.unread] at hu
  have hlt : received.length < appended.length := by
    by_contra hge
    rw [List.drop_of_length_le (Nat.le_of_not_lt hge)] at hu
    cases hu
  rw [List.drop_eq_getElem_cons hlt, List.cons.injEq] at hu
  obtain ⟨he, hu⟩ := hu
  have hahead := h.ahead
  refine ⟨?_, ?_, ?_, ?_⟩ <;> rw [List.length_append, List.length_singleton]
  · exact hlt
  · omega
  · exact hu.symm
  · rw [List.take_add_one, List.getElem?_eq_getElem hlt, he]
    exact List.rel_append h.inOrder (.cons ⟨hl, ho⟩ .nil)

end ReceiveInv

theorem ReceiveRun.inv {start q : Virtqueue} {appended : List VirtqUsedElem} {received : List Received}
    (h : ReceiveRun start q appended received) : ReceiveInv q appended received := by
  induction h with
  | start hs => exact ⟨Nat.le_refl 0, Nat.zero_le _, Virtqueue.unread_eq_nil.2 hs, .nil⟩
  | append elem _ _ hroom ih => exact ih.append hroom elem
  | recv _ hr ih => exact ih.recv hr
  | send addr len _ ih => exact ⟨ih.le, ih.ahead, ih.unread, ih.inOrder⟩

/-- Over any number of wraps of the indices the `k`-th call of `recv` that returns an element returns the `k`-th one
that the device appended, and `recv` returns none exactly if all have been received. -/
theorem receive_in_order {start q : Virtqueue} {appended : List VirtqUsedElem} {received : List Received}
    (h : ReceiveRun start q appended received) :
    received.length ≤ appended.length ∧ List.Forall₂ Received.Of received (appended.take received.length) ∧
      ∀ mem buf, q.recv mem buf = none ↔ received.length = appended.length := by
  have hi := h.inv
  refine ⟨hi.le, hi.inOrder, fun mem buf => ?_⟩
  have hle := hi.le
  rw [Virtqueue.recv_eq_none, ← List.length_eq_zero_iff, hi.length_unread]
  omega

/-- The theorem at two buffers that the device returns in the other order, one of them filled further than the
other. -/
theorem receive_in_order_two : ∃ q received, ReceiveRun .init q [⟨1, 1⟩, ⟨0, 2⟩] received ∧
    received.map Received.out = [[9, 0, 0], [7, 7, 0]] ∧ q.recv (fun _ => 7) [] = none ∧
    List.Forall₂ Received.Of received [⟨1, 1⟩, ⟨0, 2⟩] := by
  let mem : UInt64 → UInt8 := fun a => if a < 8192 then 7 else 9
  have r₁ : ReceiveRun .init _ [] [] := .send 8192 1514 (.send 4096 1514 (.start rfl))
  have r₂ : ReceiveRun .init _ [⟨1, 1⟩] [] := .append ⟨1, 1⟩ r₁ (by decide) (by decide)
  have r₃ : ReceiveRun .init _ [⟨1, 1⟩, ⟨0, 2⟩] [] := .append ⟨0, 2⟩ r₂ (by decide) (by decide)
  have r₄ : ReceiveRun .init _ [⟨1, 1⟩, ⟨0, 2⟩] [_] :=
    .recv r₃ (show Virtqueue.recv _ mem [0, 0, 0] = some _ from rfl)
  have r₅ : ReceiveRun .init _ [⟨1, 1⟩, ⟨0, 2⟩] [_, _] :=
    .recv r₄ (show Virtqueue.recv _ mem [0, 0, 0] = some _ from rfl)
  have h := receive_in_order r₅
  exact ⟨_, _, r₅, by decide, (h.2.2 _ _).2 rfl, h.2.1⟩

end Hammam
