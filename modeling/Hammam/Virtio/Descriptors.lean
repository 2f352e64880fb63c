import Mathlib.Data.List.Perm.Basic
import Mathlib.Data.List.Range
import Hammam.Virtio.Queue

/-!
# Ownership of descriptors (`net-server/src/virtio.rs`)

`send` takes the head of the free list without asking whether there is one, and only `recv` puts descriptors back.
The list ends in the `next = 0` of the last descriptor, so when all descriptors are in flight `send` takes
descriptor 0 once more.  A descriptor is handed out only while it is free exactly if every `send` finds one.
-/

namespace Hammam

open Virtqueue

/-- The descriptors that are with the device or wait in the used ring. -/
def inFlight (q : Virtqueue) (owned : List Nat) : List Nat := owned ++ q.unread.map fun elem => elem.id.toNat

/-- A call of `send`, with the queue and the descriptors of the device before it. -/
structure Send where
  queue : Virtqueue
  owned : List Nat
  addr : UInt64
  len : Nat

namespace Send

/-- The queue after the call. -/
def after (x : Send) : Virtqueue := x.queue.send x.addr x.len

/-- The descriptor that the call publishes. -/
def published (x : Send) : Nat := (x.after.avail.ring (x.queue.avail.idx.toNat % queueSize)).toNat

/-- The descriptor published is not in flight, and none of those in flight is overwritten. -/
def Exclusive (x : Send) : Prop :=
  (x.published :: inFlight x.queue x.owned).Nodup ∧ ∀ id ∈ inFlight x.queue x.owned,
    (x.after.desc id).addr = (x.queue.desc id).addr ∧ (x.after.desc id).len = (x.queue.desc id).len

/-- A descriptor is left. -/
def HasFree (x : Send) : Prop := x.owned.length + x.queue.unread.length < queueSize

instance (x : Send) : Decidable x.HasFree := Nat.decLt _ _

theorem published_eq (x : Send) : x.published = x.queue.freeHead.toNat := by
  unfold published after send
  simp only [Function.update_self, UInt16.ofNat_toNat]

end Send

/-- The interleavings of the driver with a device that returns descriptors it owns, in any order, with the descriptors
of the device and the calls of `send`. -/
inductive DeviceRun : Virtqueue → List Nat → List Send → Prop
  | init : DeviceRun Virtqueue.init [] []
  | send {q owned sends} (addr : UInt64) (len : Nat) : DeviceRun q owned sends →
      DeviceRun (q.send addr len) (Send.published ⟨q, owned, addr, len⟩ :: owned) (sends ++ [⟨q, owned, addr, len⟩])
  | complete {q owned sends id} (len : UInt32) : DeviceRun q owned sends → id ∈ owned →
      DeviceRun (q.complete ⟨UInt32.ofNat id, len⟩) (owned.erase id) sends
  | recv {q q' owned sends mem buf len out} : DeviceRun q owned sends → q.recv mem buf = some (len, out, q') →
      DeviceRun q' owned sends

/-! ### The free list -/

/-- The list from `head` on, through the `next` fields; the last one is 0. -/
def FreeList (desc : Nat → VirtqDesc) : Nat → List Nat → Prop
  | head, [] => head = 0
  | head, i :: free => head = i ∧ FreeList desc (desc i).next.toNat free

theorem FreeList.congr {desc desc' : Nat → VirtqDesc} {head : Nat} {free : List Nat} (h : FreeList desc head free)
    (hd : ∀ i ∈ free, (desc' i).next = (desc i).next) : FreeList desc' head free := by
  induction free generalizing head with
  | nil => exact h
  | cons i free ih =>
    refine ⟨h.1, ?_⟩
    rw [hd i List.mem_cons_self]
    exact ih h.2 fun j hj => hd j (List.mem_cons_of_mem i hj)

/-- Every descriptor is in the free list or in flight, once. -/
def DescInv (q : Virtqueue) (owned : List Nat) : Prop :=
  ∃ free, FreeList q.desc q.freeHead.toNat free ∧ (free ++ inFlight q owned).Perm (List.range queueSize)

theorem freeList_init {n k : Nat} (hn : n + (k + 1) = queueSize) :
    FreeList Virtqueue.init.desc n (List.range' n (k + 1)) := by
  induction k generalizing n with
  | zero =>
    obtain rfl : n = 255 := Nat.succ.inj hn
    exact ⟨rfl, rfl⟩
  | succ k ih =>
    refine ⟨rfl, ?_⟩
    have hlt : n < queueSize - 1 := by omega
    have hnext : (Virtqueue.init.desc n).next.toNat = n + 1 := by
      simp only [Virtqueue.init, hlt, if_true, UInt16.toNat_ofNat']
      exact Nat.mod_eq_of_lt (by rw [queueSize] at hlt; omega)
    rw [hnext]
    exact ih (by omega)

namespace DescInv

variable {q q' : Virtqueue} {owned : List Nat}

theorem init : DescInv Virtqueue.init [] := by
  refine ⟨List.range queueSize, ?_, ?_⟩
  · rw [List.range_eq_range']
    exact freeList_init rfl
  · rw [inFlight, unread_init]
    simp

theorem nodup (h : DescInv q owned) : (inFlight q owned).Nodup := by
  obtain ⟨free, -, hp⟩ := h
  exact (List.nodup_append.1 (hp.nodup_iff.2 List.nodup_range)).2.1

theorem lt (h : DescInv q owned) {id : Nat} (hid : id ∈ inFlight q owned) : id < queueSize := by
  obtain ⟨free, -, hp⟩ := h
  exact List.mem_range.1 (hp.mem_iff.1 (List.mem_append_right free hid))

theorem length_le (h : DescInv q owned) : owned.length + q.unread.length ≤ queueSize := by
  obtain ⟨free, -, hp⟩ := h
  have hl := hp.length_eq
  rw [List.length_append, inFlight, List.length_append, List.length_map, List.length_range] at hl
  omega

/-- A `send` that finds a free descriptor takes the first one. -/
theorem free_cons {addr : UInt64} {len : Nat} (h : DescInv q owned) (hf : Send.HasFree ⟨q, owned, addr, len⟩) :
    ∃ free, FreeList q.desc q.freeHead.toNat (q.freeHead.toNat :: free) ∧
      (q.freeHead.toNat :: (free ++ inFlight q owned)).Perm (List.range queueSize) := by
  obtain ⟨free, hl, hp⟩ := h
  cases free with
  | nil =>
    have hlen := hp.length_eq
    rw [List.nil_append, inFlight, List.length_append, List.length_map, List.length_range] at hlen
    exact absurd hlen (Nat.ne_of_lt hf)
  | cons i free =>
    obtain ⟨rfl, hl⟩ := hl
    exact ⟨free, ⟨rfl, hl⟩, hp⟩

theorem exclusive_iff (h : DescInv q owned) (addr : UInt64) (len : Nat) :
    Send.Exclusive ⟨q, owned, addr, len⟩ ↔ Send.HasFree ⟨q, owned, addr, len⟩ := by
  constructor
  · intro he
    by_contra hf
    -- nothing is free, and the list ends in descriptor 0
    obtain ⟨free, hl, hp⟩ := h
    have hlen := hp.length_eq
    rw [List.length_append, inFlight, List.length_append, List.length_map, List.length_range] at hlen
    obtain rfl : free = [] := List.length_eq_zero_iff.1 (by simp only [Send.HasFree] at hf; omega)
    have h0 : q.freeHead.toNat = 0 := hl
    have hnot := (List.nodup_cons.1 he.1).1
    rw [Send.published_eq, h0] at hnot
    exact hnot (hp.mem_iff.2 (List.mem_range.2 (by decide)))
  · intro hf
    obtain ⟨free, hl, hp⟩ := h.free_cons hf
    have hnd := (List.nodup_cons.1 (hp.nodup_iff.2 List.nodup_range))
    have hnew : q.freeHead.toNat ∉ inFlight q owned := fun hm => hnd.1 (List.mem_append_right free hm)
    refine ⟨?_, fun id hid => ?_⟩
    · rw [Send.published_eq]
      exact List.nodup_cons.2 ⟨hnew, (List.nodup_append.1 hnd.2).2.1⟩
    · have hne : id ≠ q.freeHead.toNat := fun e => hnew (e ▸ hid)
      simp only [Send.after, send, Function.update_of_ne hne, and_self]

theorem send (h : DescInv q owned) {addr : UInt64} {len : Nat} (hf : Send.HasFree ⟨q, owned, addr, len⟩) :
    DescInv (q.send addr len) (Send.published ⟨q, owned, addr, len⟩ :: owned) := by
  obtain ⟨free, hl, hp⟩ := h.free_cons hf
  refine ⟨free, ?_, ?_⟩
  · refine hl.2.congr fun i _ => ?_
    simp only [Virtqueue.send, Function.update_apply]
    split
    · rename_i e
      rw [e]
    · rfl
  · rw [Send.published_eq, inFlight, unread_send]
    exact List.perm_middle.trans hp

theorem complete (h : DescInv q owned) {id : Nat} (hid : id ∈ owned) (len : UInt32) :
    DescInv (q.complete ⟨UInt32.ofNat id, len⟩) (owned.erase id) := by
  have hlt : id < queueSize := h.lt (List.mem_append_left _ hid)
  have hroom : q.unread.length < queueSize := by
    have h1 := h.length_le
    have h2 := List.length_pos_of_mem hid
    omega
  have he : (UInt32.ofNat id).toNat = id := by
    rw [UInt32.toNat_ofNat', Nat.mod_eq_of_lt (hlt.trans (by decide))]
  obtain ⟨free, hl, hp⟩ := h
  refine ⟨free, hl, List.Perm.trans (List.Perm.append_left free ?_) hp⟩
  rw [inFlight, inFlight, unread_complete hroom, List.map_append, List.map_singleton, he, ← List.append_assoc]
  exact (List.perm_append_singleton _ _).trans ((List.perm_cons_erase hid).symm.append_right _)

theorem recv (h : DescInv q owned) {mem : UInt64 → UInt8} {buf out : List UInt8} {len : Nat}
    (hr : q.recv mem buf = some (len, out, q')) : DescInv q' owned := by
  obtain ⟨elem, hu, -, -, hd, hh⟩ := recv_cons hr
  have hmem : elem.id.toNat ∈ inFlight q owned := by
    rw [inFlight, hu]
    exact List.mem_append_right _ List.mem_cons_self
  have hlt := h.lt hmem
  obtain ⟨free, hl, hp⟩ := h
  have hnot : elem.id.toNat ∉ free := fun hm =>
    (List.nodup_append.1 (hp.nodup_iff.2 List.nodup_range)).2.2 _ hm _ hmem rfl
  refine ⟨elem.id.toNat :: free, ⟨?_, ?_⟩, List.Perm.trans ?_ hp⟩
  · rw [hh, UInt16.toNat_ofNat', Nat.mod_eq_of_lt (hlt.trans (by decide))]
  · rw [hd, Function.update_self]
    refine hl.congr fun i hi => ?_
    have hne : i ≠ elem.id.toNat := fun e => hnot (e ▸ hi)
    rw [Function.update_of_ne hne]
  · rw [inFlight, inFlight, hu, List.map_cons, ← List.append_assoc, ← List.append_assoc]
    exact List.perm_middle.symm

end DescInv

/-- As long as every `send` finds a free descriptor. -/
theorem DeviceRun.inv {q : Virtqueue} {owned : List Nat} {sends : List Send} (h : DeviceRun q owned sends)
    (hall : ∀ x ∈ sends, x.HasFree) : DescInv q owned := by
  induction h with
  | init => exact DescInv.init
  | send addr len _ ih =>
    rw [List.forall_mem_append, List.forall_mem_singleton] at hall
    exact (ih hall.1).send hall.2
  | complete len _ hid ih => exact (ih hall).complete hid len
  | recv _ hr ih => exact (ih hall).recv hr

/-- In every interleaving from `init` on, each descriptor published is out of use exactly if each `send` finds a free
one; then no descriptor is in flight twice, and `recv` overwrites no address and no length. -/
theorem descriptors_exclusive_iff {q : Virtqueue} {owned : List Nat} {sends : List Send}
    (h : DeviceRun q owned sends) :
    ((∀ x ∈ sends, x.Exclusive) ↔ ∀ x ∈ sends, x.HasFree) ∧
      ((∀ x ∈ sends, x.HasFree) → (inFlight q owned).Nodup) ∧
      ∀ mem buf len out q', q.recv mem buf = some (len, out, q') →
        ∀ id, (q'.desc id).addr = (q.desc id).addr ∧ (q'.desc id).len = (q.desc id).len := by
  refine ⟨?_, fun hall => (h.inv hall).nodup, ?_⟩
  · induction h with
    | init => exact iff_of_true (fun _ hx => absurd hx List.not_mem_nil) fun _ hx => absurd hx List.not_mem_nil
    | send addr len hr ih =>
      rw [List.forall_mem_append, List.forall_mem_append, ih, List.forall_mem_singleton, List.forall_mem_singleton]
      exact and_congr_right fun hall => (hr.inv hall).exclusive_iff addr len
    | complete len _ hid ih => exact ih
    | recv _ hr ih => exact ih
  · intro mem buf len out q' hr id
    obtain ⟨elem, -, -, -, hd, -⟩ := recv_cons hr
    rw [hd, Function.update_apply]
    split
    · rename_i e
      rw [e]
      exact ⟨rfl, rfl⟩
    · exact ⟨rfl, rfl⟩

/-- The theorem at two sends, the second one after the device has returned the first descriptor. -/
theorem descriptors_exclusive_two : ∃ q owned sends, DeviceRun q owned sends ∧ owned = [1] ∧
    sends.map Send.published = [0, 1] ∧ (∀ x ∈ sends, x.Exclusive) ∧ (inFlight q owned).Nodup := by
  have r₁ : DeviceRun _ _ _ := .send 4096 60 .init
  have r₂ : DeviceRun _ _ _ := .complete 60 r₁ (show 0 ∈ _ by decide)
  have r₃ : DeviceRun _ _ _ := .send 8192 60 r₂
  have h := descriptors_exclusive_iff r₃
  exact ⟨_, _, _, r₃, by decide, by decide, h.1.2 (by decide), h.2.1 (by decide)⟩

/-- The first 256 sends, to a device that returns nothing. -/
theorem sends_to_idle_device {n : Nat} (hn : n ≤ queueSize) : ∃ q owned sends, DeviceRun q owned sends ∧
    owned.length = n ∧ q.unread = [] ∧ sends.length = n ∧ ∀ x ∈ sends, x.HasFree := by
  induction n with
  | zero => exact ⟨_, _, _, .init, rfl, rfl, rfl, fun _ hx => absurd hx List.not_mem_nil⟩
  | succ n ih =>
    obtain ⟨q, owned, sends, hr, ho, hu, hs, hall⟩ := ih (by omega)
    refine ⟨_, _, _, .send 4096 60 hr, congrArg Nat.succ ho, hu, ?_, ?_⟩
    · rw [List.length_append, hs]
      rfl
    · rw [List.forall_mem_append, List.forall_mem_singleton]
      refine ⟨hall, ?_⟩
      show owned.length + q.unread.length < queueSize
      rw [ho, hu]
      exact hn

/-- The send number 257 to a device that returns nothing publishes descriptor 0, which the device owns. -/
theorem descriptor_zero_twice : ∃ q owned sends x, DeviceRun q owned (sends ++ [x]) ∧ sends.length = 256 ∧
    x.published = 0 ∧ 0 ∈ x.owned ∧ ¬ x.Exclusive := by
  obtain ⟨q, owned, sends, hr, ho, hu, hs, hall⟩ := sends_to_idle_device (Nat.le_refl queueSize)
  obtain ⟨free, hl, hp⟩ := hr.inv hall
  have hin : inFlight q owned = owned := by
    rw [inFlight, hu]
    exact List.append_nil owned
  rw [hin] at hp
  have hlen := hp.length_eq
  rw [List.length_append, List.length_range, ho] at hlen
  obtain rfl : free = [] := List.length_eq_zero_iff.1 (by omega)
  have h0 : (⟨q, owned, 4096, 60⟩ : Send).published = 0 := (Send.published_eq _).trans hl
  have hmem : 0 ∈ owned := hp.mem_iff.2 (List.mem_range.2 (by decide))
  refine ⟨_, _, sends, _, .send 4096 60 hr, hs, h0, hmem, fun he => ?_⟩
  have hnot := (List.nodup_cons.1 he.1).1
  rw [h0, hin] at hnot
  exact hnot hmem

end Hammam
