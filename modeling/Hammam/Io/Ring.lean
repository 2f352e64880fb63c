import Mathlib.Logic.Relation
import Hammam.Io.Uring

/-!
# One producer and one consumer (`io/uring.rs`)

A run pushes only when the ring is not full and pops only when it is not empty.  The counters of the ring are the
numbers of pushes and pops modulo `2 ^ 32`, so the occupancy, the slots and the order of the positions are read off
the two numbers, however often the counters have wrapped.

The loads and stores of the two sides may interleave.  `Spsc` has one step for each of them, and every state that it
reaches is a state of a run of whole operations.
-/

namespace Hammam

namespace RingHeader

/-! ### Sizes and slots -/

/-- The ring has a size that `new` makes; its counters are arbitrary. -/
def Sized (r : RingHeader) : Prop := ∃ k ≤ 31, r.entries.toNat = 2 ^ k ∧ r.mask = r.entries - 1

theorem sized_new {n : UInt32} (hn : n.toNat ≤ 2 ^ 31) : (new n).Sized := by
  have hk : Nat.clog 2 n.toNat ≤ 31 := Nat.clog_le_of_le_pow hn
  refine ⟨Nat.clog 2 n.toNat, hk, ?_, rfl⟩
  have hlt : 2 ^ Nat.clog 2 n.toNat < 2 ^ 32 := Nat.pow_lt_pow_right (by omega) (by omega)
  rw [new, nextPowerOfTwo, UInt32.toNat_ofNat', Nat.mod_eq_of_lt hlt]

theorem Sized.entries_le {r : RingHeader} (hr : r.Sized) : r.entries.toNat ≤ 2 ^ 31 := by
  obtain ⟨k, hk, he, -⟩ := hr
  rw [he]
  exact Nat.pow_le_pow_right (by omega) hk

theorem Sized.entries_pos {r : RingHeader} (hr : r.Sized) : 0 < r.entries.toNat := by
  obtain ⟨k, -, he, -⟩ := hr
  rw [he]
  exact Nat.two_pow_pos k

/-- The slot of a position is its value modulo the number of entries, which divides `2 ^ 32`. -/
theorem Sized.index {r : RingHeader} (hr : r.Sized) (p : Nat) :
    r.index (UInt32.ofNat p) = p % r.entries.toNat := by
  obtain ⟨k, hk, he, hm⟩ := hr
  have hpos := Nat.two_pow_pos k
  have h1 : (1 : UInt32).toNat = 1 := rfl
  have hmask : r.mask.toNat = 2 ^ k - 1 := by
    rw [hm, UInt32.toNat_sub_of_le _ _ (by rw [UInt32.le_iff_toNat_le, he, h1]; omega), he, h1]
  rw [RingHeader.index, UInt32.toNat_and, hmask, Nat.and_two_pow_sub_one_eq_mod, UInt32.toNat_ofNat', he]
  exact Nat.mod_mod_of_dvd p (Nat.pow_dvd_pow 2 (by omega))

/-! ### The counters -/

/-- The counters of the ring after `b` pushes and `a` pops. -/
structure Counts (r : RingHeader) (a b : Nat) : Prop where
  sized : r.Sized
  head_eq : r.head = UInt32.ofNat a
  tail_eq : r.tail = UInt32.ofNat b
  le : a ≤ b
  room : b ≤ a + r.entries.toNat

namespace Counts

variable {r : RingHeader} {a b : Nat}

theorem new {n : UInt32} (hn : n.toNat ≤ 2 ^ 31) : (RingHeader.new n).Counts 0 0 :=
  ⟨sized_new hn, rfl, rfl, Nat.le_refl 0, Nat.zero_le _⟩

theorem len (h : r.Counts a b) : r.len.toNat = b - a := by
  have he := h.sized.entries_le
  have hr := h.room
  rw [RingHeader.len, h.head_eq, h.tail_eq, UInt32.toNat_sub, UInt32.toNat_ofNat', UInt32.toNat_ofNat']
  exact WrapRing.sub_mod h.le (by omega)

theorem isEmpty (h : r.Counts a b) : r.isEmpty = true ↔ a = b := by
  have hl := h.len
  have hle := h.le
  rw [RingHeader.isEmpty, beq_iff_eq, ← UInt32.toNat_inj, hl, UInt32.toNat_zero]
  omega

theorem isFull (h : r.Counts a b) : r.isFull = true ↔ b = a + r.entries.toNat := by
  have hl := h.len
  have hle := h.le
  have hr := h.room
  rw [RingHeader.isFull, decide_eq_true_iff, ge_iff_le, UInt32.le_iff_toNat_le, hl]
  omega

theorem push (h : r.Counts a b) (hroom : b < a + r.entries.toNat) : r.push.2.Counts a (b + 1) where
  sized := h.sized
  head_eq := h.head_eq
  tail_eq := by
    simp only [RingHeader.push, h.tail_eq, UInt32.ofNat_add]
    rfl
  le := Nat.le_succ_of_le h.le
  room := hroom

theorem pop (h : r.Counts a b) (hne : a < b) : r.pop.2.Counts (a + 1) b where
  sized := h.sized
  head_eq := by
    simp only [RingHeader.pop, h.head_eq, UInt32.ofNat_add]
    rfl
  tail_eq := h.tail_eq
  le := hne
  room := by
    have := h.room
    simp only [RingHeader.pop]
    omega

end Counts

end RingHeader

/-! ### Runs -/

/-- Runs of a ring made for `n` entries, with the positions that `push` and `pop` have returned. -/
inductive RingRun (n : UInt32) : RingHeader → List UInt32 → List UInt32 → Prop
  | new : RingRun n (RingHeader.new n) [] []
  | push {r pushed popped} (hr : RingRun n r pushed popped) (h : r.isFull = false) :
      RingRun n r.push.2 (pushed ++ [r.push.1]) popped
  | pop {r pushed popped} (hr : RingRun n r pushed popped) (h : r.isEmpty = false) :
      RingRun n r.pop.2 pushed (popped ++ [r.pop.1])

/-- The positions `0, 1, …` as the counters show them. -/
def positions (n : Nat) : List UInt32 := (List.range n).map UInt32.ofNat

theorem positions_succ (n : Nat) : positions (n + 1) = positions n ++ [UInt32.ofNat n] := by
  simp [positions, List.range_succ]

private theorem take_positions {a b : Nat} (h : a ≤ b) : (positions b).take a = positions a := by
  rw [positions, ← List.map_take, List.take_range, Nat.min_eq_left h, positions]

private theorem drop_positions (a b : Nat) : (positions b).drop a = (List.range' a (b - a)).map UInt32.ofNat := by
  rw [positions, ← List.map_drop, List.range_eq_range', List.drop_range']
  simp

/-- A ring, and the positions that it has handed out and taken back. -/
structure Logged (r : RingHeader) (pushed popped : List UInt32) : Prop where
  counts : r.Counts popped.length pushed.length
  pushed_eq : pushed = positions pushed.length
  popped_eq : popped = positions popped.length

namespace Logged

variable {r : RingHeader} {pushed popped : List UInt32}

theorem push (h : Logged r pushed popped) (hroom : pushed.length < popped.length + r.entries.toNat) :
    Logged r.push.2 (pushed ++ [r.push.1]) popped where
  counts := by
    rw [List.length_append]
    exact h.counts.push hroom
  pushed_eq := by
    rw [List.length_append, List.length_singleton, positions_succ, ← h.pushed_eq]
    exact congrArg (fun p => pushed ++ [p]) h.counts.tail_eq
  popped_eq := h.popped_eq

theorem pop (h : Logged r pushed popped) (hne : popped.length < pushed.length) :
    Logged r.pop.2 pushed (popped ++ [r.pop.1]) where
  counts := by
    rw [List.length_append]
    exact h.counts.pop hne
  pushed_eq := h.pushed_eq
  popped_eq := by
    rw [List.length_append, List.length_singleton, positions_succ, ← h.popped_eq]
    exact congrArg (fun p => popped ++ [p]) h.counts.head_eq

theorem not_full (h : Logged r pushed popped) :
    r.isFull = false ↔ pushed.length < popped.length + r.entries.toNat := by
  have hroom := h.counts.room
  rw [← Bool.not_eq_true, h.counts.isFull]
  omega

theorem not_empty (h : Logged r pushed popped) : r.isEmpty = false ↔ popped.length < pushed.length := by
  have hle := h.counts.le
  rw [← Bool.not_eq_true, h.counts.isEmpty]
  omega

theorem popped_take (h : Logged r pushed popped) : popped = pushed.take popped.length := by
  conv_rhs => rw [h.pushed_eq, take_positions h.counts.le]
  exact h.popped_eq

/-- The slots of the pending positions. -/
theorem pending_slots (h : Logged r pushed popped) :
    (pushed.drop popped.length).map r.index =
      (List.range' popped.length (pushed.length - popped.length)).map (· % r.entries.toNat) := by
  conv_lhs => rw [h.pushed_eq, drop_positions, List.map_map]
  exact List.map_congr_left fun p _ => h.counts.sized.index p

theorem pending_nodup (h : Logged r pushed popped) : ((pushed.drop popped.length).map r.index).Nodup := by
  rw [h.pending_slots]
  refine List.Nodup.map_on (fun p hp q hq hpq => ?_) List.nodup_range'
  rw [List.mem_range'_1] at hp hq
  have hroom := h.counts.room
  exact WrapRing.slot_injOn hp.1 (by omega) hq.1 (by omega) hpq

theorem pending_lt (h : Logged r pushed popped) :
    ∀ p ∈ pushed.drop popped.length, r.index p < r.entries.toNat := by
  intro p hp
  have hmem := List.mem_map_of_mem (f := r.index) hp
  rw [h.pending_slots, List.mem_map] at hmem
  obtain ⟨q, -, hq⟩ := hmem
  rw [← hq]
  exact Nat.mod_lt q h.counts.sized.entries_pos

end Logged

/-- Every run keeps the counters and the two logs in step. -/
theorem RingRun.logged {n : UInt32} {r : RingHeader} {pushed popped : List UInt32} (hn : n.toNat ≤ 2 ^ 31)
    (h : RingRun n r pushed popped) : Logged r pushed popped := by
  induction h with
  | new => exact ⟨RingHeader.Counts.new hn, rfl, rfl⟩
  | push hr hfull ih => exact ih.push (ih.not_full.1 hfull)
  | pop hr hempty ih => exact ih.pop (ih.not_empty.1 hempty)

theorem RingRun.entries {n : UInt32} {r : RingHeader} {pushed popped : List UInt32}
    (h : RingRun n r pushed popped) : r.entries = nextPowerOfTwo n := by
  induction h with
  | new => rfl
  | push hr hfull ih => exact ih
  | pop hr hempty ih => exact ih

/-- In every run, over any number of wraps, `len` is the number of pushes minus the number of pops, `is_full` and
`is_empty` are exact, pending positions have different slots, and positions are popped in the order of the pushes. -/
theorem ring_spsc {n : UInt32} {r : RingHeader} {pushed popped : List UInt32} (hn : n.toNat ≤ 2 ^ 31)
    (h : RingRun n r pushed popped) :
    r.entries = nextPowerOfTwo n ∧ popped.length ≤ pushed.length ∧
      r.len.toNat = pushed.length - popped.length ∧ r.len ≤ r.entries ∧
      (r.isFull = true ↔ pushed.length - popped.length = r.entries.toNat) ∧
      (r.isEmpty = true ↔ pushed.length = popped.length) ∧
      ((pushed.drop popped.length).map r.index).Nodup ∧
      (∀ p ∈ pushed.drop popped.length, r.index p < r.entries.toNat) ∧
      popped = pushed.take popped.length := by
  have hl := h.logged hn
  have hlen := hl.counts.len
  have hle := hl.counts.le
  have hroom := hl.counts.room
  refine ⟨h.entries, hle, hlen, ?_, ?_, ?_, hl.pending_nodup, hl.pending_lt, hl.popped_take⟩
  · rw [UInt32.le_iff_toNat_le, hlen]
    omega
  · rw [hl.counts.isFull]
    omega
  · rw [hl.counts.isEmpty]
    exact eq_comm

/-- A ring of two slots that is filled and emptied in turn, any number of times. -/
theorem RingRun.turns (k : Nat) : ∃ r l, RingRun 2 r l l ∧ l.length = k := by
  induction k with
  | zero => exact ⟨_, _, .new, rfl⟩
  | succ k ih =>
    obtain ⟨r, l, h, hl⟩ := ih
    have hlog := h.logged (by decide)
    have hpos := hlog.counts.sized.entries_pos
    have h₁ := h.push (hlog.not_full.2 (by omega))
    have hlog₁ := h₁.logged (by decide)
    have h₂ := h₁.pop (hlog₁.not_empty.2 (by rw [List.length_append, List.length_singleton]; omega))
    have heq : r.push.2.pop.1 = r.push.1 := hlog.counts.head_eq.trans hlog.counts.tail_eq.symm
    rw [heq] at h₂
    exact ⟨_, _, h₂, by rw [List.length_append, hl, List.length_singleton]⟩

/-- The theorem at a run in which both counters have wrapped: `2 ^ 32 + 1` pushes and `2 ^ 32` pops, the ring full
before the last pop. -/
theorem ring_spsc_wraps :
    ∃ r pushed popped, RingRun 2 r pushed popped ∧ r.isFull = true ∧ r.head = 0xFFFFFFFF ∧ r.tail = 1 ∧
      r.pop.2.head = 0 ∧ r.pop.2.len.toNat = 1 ∧ r.pop.2.isFull = false ∧ r.pop.2.isEmpty = false ∧
      popped ++ [r.pop.1] = pushed.take (2 ^ 32) := by
  obtain ⟨r, l, h, hlen⟩ := RingRun.turns (2 ^ 32 - 1)
  have hentries : r.entries.toNat = 2 := by rw [h.entries]; decide
  have hlog := h.logged (by decide)
  have h₁ := h.push (hlog.not_full.2 (by omega))
  have hlog₁ := h₁.logged (by decide)
  have h₂ := h₁.push (hlog₁.not_full.2 (by
    rw [List.length_append, List.length_singleton, show r.push.2.entries = r.entries from rfl]
    omega))
  have hlog₂ := h₂.logged (by decide)
  have hpushed : (l ++ [r.push.1] ++ [r.push.2.push.1]).length = 2 ^ 32 + 1 := by
    simp only [List.length_append, List.length_singleton, hlen]
    omega
  have h₃ := h₂.pop (hlog₂.not_empty.2 (by omega))
  have hpopped : (l ++ [r.push.2.push.2.pop.1]).length = 2 ^ 32 := by
    simp only [List.length_append, List.length_singleton, hlen]
    omega
  have hspsc₂ := ring_spsc (by decide) h₂
  have hspsc₃ := ring_spsc (by decide) h₃
  have hentries₂ : r.push.2.push.2.entries.toNat = 2 := hentries
  have hentries₃ : r.push.2.push.2.pop.2.entries.toNat = 2 := hentries
  refine ⟨_, _, _, h₂, hspsc₂.2.2.2.2.1.2 ?_, ?_, ?_, ?_, ?_, ?_, ?_, ?_⟩
  · omega
  · rw [hlog₂.counts.head_eq, hlen]
    rfl
  · rw [hlog₂.counts.tail_eq, hpushed]
    rfl
  · rw [(h₃.logged (by decide)).counts.head_eq, hpopped]
    rfl
  · rw [hspsc₃.2.2.1]
    omega
  · rw [← Bool.not_eq_true, hspsc₃.2.2.2.2.1]
    omega
  · rw [← Bool.not_eq_true, hspsc₃.2.2.2.2.2.1]
    omega
  · rw [← hpopped]
    exact hspsc₃.2.2.2.2.2.2.2.2

/-! ### Interleaved loads and stores -/

/-- Where the producer is: before the check, with `head` loaded by `is_full`, past the check, with `tail` loaded by
`push`. -/
inductive Producer
  | idle
  | checking (head : UInt32)
  | ready
  | pushing (tail : UInt32)

/-- Where the consumer is: before the check, with `head` loaded by `is_empty`, past the check, with `head` loaded by
`pop`. -/
inductive Consumer
  | idle
  | checking (head : UInt32)
  | ready
  | popping (head : UInt32)

/-- The ring between two sides that share it, and the positions handed out and taken out so far. -/
structure Spsc where
  ring : RingHeader
  producer : Producer
  consumer : Consumer
  pushed : List UInt32
  popped : List UInt32

def Spsc.new (n : UInt32) : Spsc := ⟨RingHeader.new n, .idle, .idle, [], []⟩

/-- One load or store of one side. -/
inductive SpscStep : Spsc → Spsc → Prop
  | fullHead {s} (h : s.producer = .idle) : SpscStep s { s with producer := .checking s.ring.head }
  | fullTail {s head} (h : s.producer = .checking head) :
      SpscStep s { s with producer := if s.ring.tail - head ≥ s.ring.entries then .idle else .ready }
  | pushTail {s} (h : s.producer = .ready) : SpscStep s { s with producer := .pushing s.ring.tail }
  | pushStore {s tail} (h : s.producer = .pushing tail) :
      SpscStep s { s with
        ring := { s.ring with tail := tail + 1 }, producer := .idle, pushed := s.pushed ++ [tail] }
  | emptyHead {s} (h : s.consumer = .idle) : SpscStep s { s with consumer := .checking s.ring.head }
  | emptyTail {s head} (h : s.consumer = .checking head) :
      SpscStep s { s with consumer := if s.ring.tail - head == 0 then .idle else .ready }
  | popHead {s} (h : s.consumer = .ready) : SpscStep s { s with consumer := .popping s.ring.head }
  | popStore {s head} (h : s.consumer = .popping head) :
      SpscStep s { s with
        ring := { s.ring with head := head + 1 }, consumer := .idle, popped := s.popped ++ [head] }

/-- What the producer knows: the head that it has loaded may be old, but then the ring is less full than it looks. -/
def Producer.Knows (s : Spsc) : Producer → Prop
  | .idle => True
  | .checking head => ∃ a ≤ s.popped.length, head = UInt32.ofNat a ∧ s.pushed.length ≤ a + s.ring.entries.toNat
  | .ready => s.pushed.length < s.popped.length + s.ring.entries.toNat
  | .pushing tail => tail = s.ring.tail ∧ s.pushed.length < s.popped.length + s.ring.entries.toNat

/-- What the consumer knows: only it moves the head. -/
def Consumer.Knows (s : Spsc) : Consumer → Prop
  | .idle => True
  | .checking head => head = s.ring.head
  | .ready => s.popped.length < s.pushed.length
  | .popping head => head = s.ring.head ∧ s.popped.length < s.pushed.length

structure SpscInv (n : UInt32) (s : Spsc) : Prop where
  run : RingRun n s.ring s.pushed s.popped
  producer : s.producer.Knows s
  consumer : s.consumer.Knows s

namespace SpscInv

variable {n : UInt32} {s : Spsc}

theorem new (n : UInt32) : SpscInv n (Spsc.new n) := ⟨.new, trivial, trivial⟩

private theorem set_producer (h : SpscInv n s) {p : Producer} (hp : p.Knows s) :
    SpscInv n { s with producer := p } := by
  have hc := h.consumer
  refine ⟨h.run, ?_, ?_⟩
  · cases p <;> exact hp
  · simp only
    cases hcon : s.consumer <;> rw [hcon] at hc <;> exact hc

private theorem set_consumer (h : SpscInv n s) {c : Consumer} (hc : c.Knows s) :
    SpscInv n { s with consumer := c } := by
  have hp := h.producer
  refine ⟨h.run, ?_, ?_⟩
  · simp only
    cases hprod : s.producer <;> rw [hprod] at hp <;> exact hp
  · cases c <;> exact hc

/-- The difference from a head that may be old. -/
private theorem sub_old_head (hn : n.toNat ≤ 2 ^ 31) (h : SpscInv n s) {a : Nat} (ha : a ≤ s.popped.length)
    (hroom : s.pushed.length ≤ a + s.ring.entries.toNat) :
    (s.ring.tail - UInt32.ofNat a).toNat = s.pushed.length - a := by
  have hl := h.run.logged hn
  have he := hl.counts.sized.entries_le
  have hle := hl.counts.le
  rw [hl.counts.tail_eq, UInt32.toNat_sub, UInt32.toNat_ofNat', UInt32.toNat_ofNat']
  exact WrapRing.sub_mod (by omega) (by omega)

private theorem fullTail (hn : n.toNat ≤ 2 ^ 31) (h : SpscInv n s) {head : UInt32}
    (hp : s.producer = .checking head) :
    Producer.Knows s (if s.ring.tail - head ≥ s.ring.entries then .idle else .ready) := by
  have hk := h.producer
  rw [hp] at hk
  obtain ⟨a, ha, rfl, hroom⟩ := hk
  split
  · trivial
  · next hlt =>
    rw [ge_iff_le, UInt32.le_iff_toNat_le, h.sub_old_head hn ha hroom] at hlt
    show s.pushed.length < s.popped.length + s.ring.entries.toNat
    omega

private theorem emptyTail (hn : n.toNat ≤ 2 ^ 31) (h : SpscInv n s) {head : UInt32}
    (hc : s.consumer = .checking head) :
    Consumer.Knows s (if s.ring.tail - head == 0 then .idle else .ready) := by
  have hk := h.consumer
  rw [hc] at hk
  obtain rfl : head = s.ring.head := hk
  split
  · trivial
  · next hne => exact (h.run.logged hn).not_empty.1 (Bool.not_eq_true _ ▸ hne)

private theorem pushStore (hn : n.toNat ≤ 2 ^ 31) (h : SpscInv n s) {tail : UInt32}
    (hp : s.producer = .pushing tail) :
    SpscInv n { s with
      ring := { s.ring with tail := tail + 1 }, producer := .idle, pushed := s.pushed ++ [tail] } := by
  have hk := h.producer
  rw [hp] at hk
  obtain ⟨rfl, hroom⟩ := hk
  have hc := h.consumer
  refine ⟨.push h.run ((h.run.logged hn).not_full.2 hroom), trivial, ?_⟩
  cases hcon : s.consumer <;> rw [hcon] at hc <;> simp_all [Consumer.Knows] <;> omega

private theorem popStore (hn : n.toNat ≤ 2 ^ 31) (h : SpscInv n s) {head : UInt32}
    (hc : s.consumer = .popping head) :
    SpscInv n { s with
      ring := { s.ring with head := head + 1 }, consumer := .idle, popped := s.popped ++ [head] } := by
  have hk := h.consumer
  rw [hc] at hk
  obtain ⟨rfl, hne⟩ := hk
  have hp := h.producer
  refine ⟨.pop h.run ((h.run.logged hn).not_empty.2 hne), ?_, trivial⟩
  cases hprod : s.producer with
  | idle => trivial
  | checking old =>
    rw [hprod] at hp
    obtain ⟨a, ha, hold, hroom⟩ := hp
    exact ⟨a, by simp; omega, hold, hroom⟩
  | ready =>
    rw [hprod] at hp
    simp only [Producer.Knows, List.length_append] at hp ⊢
    omega
  | pushing tail =>
    rw [hprod] at hp
    refine ⟨hp.1, ?_⟩
    have := hp.2
    simp only [List.length_append]
    omega

theorem step (hn : n.toNat ≤ 2 ^ 31) (h : SpscInv n s) {t : Spsc} (hstep : SpscStep s t) : SpscInv n t := by
  have hl := h.run.logged hn
  cases hstep with
  | fullHead hp => exact h.set_producer ⟨s.popped.length, Nat.le_refl _, hl.counts.head_eq, hl.counts.room⟩
  | fullTail hp => exact h.set_producer (h.fullTail hn hp)
  | pushTail hp =>
    have hk := h.producer
    rw [hp] at hk
    exact h.set_producer ⟨rfl, hk⟩
  | pushStore hp => exact h.pushStore hn hp
  | emptyHead hc => exact h.set_consumer rfl
  | emptyTail hc => exact h.set_consumer (h.emptyTail hn hc)
  | popHead hc =>
    have hk := h.consumer
    rw [hc] at hk
    exact h.set_consumer ⟨rfl, hk⟩
  | popStore hc => exact h.popStore hn hc

end SpscInv

/-- Every interleaving of the loads and stores of the two sides is a run of whole operations. -/
theorem spsc_refines_ringRun {n : UInt32} {s : Spsc} (hn : n.toNat ≤ 2 ^ 31)
    (h : Relation.ReflTransGen SpscStep (Spsc.new n) s) : RingRun n s.ring s.pushed s.popped := by
  have hinv : SpscInv n s := by
    induction h with
    | refl => exact SpscInv.new n
    | tail _ hstep ih => exact ih.step hn hstep
  exact hinv.run

end Hammam
