import Mathlib.Algebra.BigOperators.Group.List.Basic
import Hammam.Lib.PowBlock
import Hammam.Mm.Physical

/-!
# Ownership of physical memory

Every byte that `init` gave to the allocator lies in exactly one block: one of a free list, or one that a client
holds.  The invariant `Owned` counts, for each address, the blocks that contain it.  Splitting a block and merging
two buddies do not change the count, so `allocate` and `deallocate` preserve it, and the loop of `add_memory_region`
raises it by one on the pages it adds.

The free lists never hold a block beside its buddy (`NoBuddies`), so they are the canonical decomposition of the set
of free pages: two states with the same free pages have the same free lists up to order.
-/

namespace Hammam

open PowBlock (Mem cover buddy)

theorem blockSize_eq (order : Nat) : blockSize order = 2 ^ (order + 12) := by
  rw [blockSize, pageSize, Nat.pow_add]

/-- A block as `PowBlock` lists it: the exponent of an order counts bytes. -/
def span (b : Nat × Nat) : Nat × Nat := (b.1, b.2 + 12)

/-- The number of blocks of `l` that contain the address `x`. -/
def owners (l : List (Nat × Nat)) (x : Nat) : Nat := cover (l.map span) x

/-- The number of frames in the blocks of `l`. -/
def frames (l : List (Nat × Nat)) : Nat := (l.map fun b => 2 ^ b.2).sum

theorem owners_perm {l l' : List (Nat × Nat)} (h : l.Perm l') (x : Nat) : owners l x = owners l' x :=
  PowBlock.cover_perm (h.map _) x

theorem frames_perm {l l' : List (Nat × Nat)} (h : l.Perm l') : frames l = frames l' :=
  (h.map _).sum_eq

theorem owners_append (l l' : List (Nat × Nat)) (x : Nat) : owners (l ++ l') x = owners l x + owners l' x := by
  simp [owners]

theorem frames_append (l l' : List (Nat × Nat)) : frames (l ++ l') = frames l + frames l' := by
  simp [frames]

theorem owners_cons (b : Nat × Nat) (l : List (Nat × Nat)) (x : Nat) :
    owners (b :: l) x = owners [b] x + owners l x := owners_append [b] l x

theorem frames_cons (a k : Nat) (l : List (Nat × Nat)) : frames ((a, k) :: l) = 2 ^ k + frames l := by
  simp [frames]

theorem mem_span {b : Nat × Nat} {x : Nat} : Mem x (span b).1 (span b).2 ↔ InBlock b x := by
  rw [InBlock, blockSize_eq]
  exact Iff.rfl

theorem owners_pos {l : List (Nat × Nat)} {x : Nat} :
    0 < owners l x ↔ ∃ b ∈ l, InBlock b x := by
  rw [owners, PowBlock.cover_pos]
  constructor
  · intro h
    obtain ⟨_, hm, hx⟩ := h
    obtain ⟨b, hb, rfl⟩ := List.mem_map.1 hm
    exact ⟨b, hb, mem_span.1 hx⟩
  · intro h
    obtain ⟨b, hb, hx⟩ := h
    exact ⟨span b, List.mem_map_of_mem hb, mem_span.2 hx⟩

/-- A block and the block after it are the block one order up. -/
theorem owners_halves (a k x : Nat) (l : List (Nat × Nat)) :
    owners ((a, k) :: (a + blockSize k, k) :: l) x = owners ((a, k + 1) :: l) x := by
  have h := PowBlock.cover_halves a (k + 12) x (l.map span)
  rw [← blockSize_eq] at h
  simpa [owners, span, Nat.add_right_comm] using h

theorem frames_halves (a b c k : Nat) (l : List (Nat × Nat)) :
    frames ((a, k) :: (b, k) :: l) = frames ((c, k + 1) :: l) := by
  simp only [frames_cons, Nat.pow_succ]
  omega

/-! ### The blocks of the free lists -/

/-- The blocks of eleven lists, as pairs of address and order. -/
def blocksOf (fl : Nat → List Nat) : List (Nat × Nat) :=
  (List.range maxOrder).flatMap fun k => (fl k).map (·, k)

/-- All free blocks. -/
def BuddyAllocator.blocks (s : BuddyAllocator) : List (Nat × Nat) := blocksOf s.freeLists

theorem BuddyAllocator.mem_blocks {s : BuddyAllocator} {b : Nat × Nat} :
    b ∈ s.blocks ↔ b.2 < maxOrder ∧ b.1 ∈ s.freeLists b.2 := by
  obtain ⟨a, k⟩ := b
  simp only [blocks, blocksOf, List.mem_flatMap, List.mem_range, List.mem_map, Prod.mk.injEq]
  constructor
  · intro h
    obtain ⟨j, hj, c, hc, rfl, rfl⟩ := h
    exact ⟨hj, hc⟩
  · intro h
    obtain ⟨hk, ha⟩ := h
    exact ⟨k, hk, a, ha, rfl, rfl⟩

private theorem blocksOf_update_cons (fl : Nat → List Nat) {k : Nat} (hk : k < maxOrder) (a : Nat) (l : List Nat) :
    (blocksOf (Function.update fl k (a :: l))).Perm ((a, k) :: blocksOf (Function.update fl k l)) := by
  obtain ⟨pre, post, hr⟩ := List.append_of_mem (List.mem_range.2 hk)
  have hnd : (pre ++ k :: post).Nodup := hr ▸ List.nodup_range
  have hpre : k ∉ pre := fun h => (List.nodup_append.1 hnd).2.2 k h k (by simp) rfl
  have hpost : k ∉ post := (List.nodup_cons.1 (List.nodup_append.1 hnd).2.1).1
  have hcongr : ∀ (m : List Nat), k ∉ m → ∀ l' : List Nat,
      (m.flatMap fun j => (Function.update fl k l' j).map (·, j)) = m.flatMap fun j => (fl j).map (·, j) := by
    intro m hm l'
    apply List.flatMap_congr
    intro j hj
    rw [Function.update_of_ne (show j ≠ k from fun e => hm (e ▸ hj))]
  simp only [blocksOf, hr, List.flatMap_append, List.flatMap_cons, Function.update_self, List.map_cons,
    hcongr pre hpre, hcongr post hpost]
  exact List.perm_middle

/-- Putting a block at the head of a list adds it to the free blocks. -/
theorem BuddyAllocator.blocks_push (s : BuddyAllocator) {k : Nat} (hk : k < maxOrder) (a : Nat) :
    (s.push k a).blocks.Perm ((a, k) :: s.blocks) := by
  have h := blocksOf_update_cons s.freeLists hk a (s.freeLists k)
  rwa [Function.update_eq_self] at h

/-- Replacing a list by one with a block less. -/
theorem BuddyAllocator.blocks_setList (s : BuddyAllocator) {k : Nat} (hk : k < maxOrder) {a : Nat} {l : List Nat}
    (h : (s.freeLists k).Perm (a :: l)) :
    s.blocks.Perm ((a, k) :: (s.setList k l).blocks) := by
  refine List.Perm.trans ?_ (blocksOf_update_cons s.freeLists hk a l)
  apply List.Perm.flatMap_left
  intro j _
  by_cases hj : j = k
  · subst hj
    simpa using h.map (·, j)
  · rw [Function.update_of_ne hj]

theorem BuddyAllocator.blocks_unlink (s : BuddyAllocator) {k : Nat} (hk : k < maxOrder) {a : Nat}
    (ha : a ∈ s.freeLists k) : s.blocks.Perm ((a, k) :: (s.unlink k a).blocks) :=
  s.blocks_setList hk (List.perm_cons_erase ha)

/-! ### Merging -/

/-- Merging with the buddy gives the block one order up. -/
private theorem merge_buddy {a k : Nat} (h : blockSize k ∣ a) :
    blockSize (k + 1) ∣ min a (a ^^^ blockSize k) ∧ ∀ (l : List (Nat × Nat)) (x : Nat),
      owners ((min a (a ^^^ blockSize k), k + 1) :: l) x = owners ((a, k) :: (a ^^^ blockSize k, k) :: l) x := by
  have hb : a ^^^ blockSize k = buddy a (k + 12) := by rw [blockSize_eq, buddy]
  rw [blockSize_eq] at h
  obtain ⟨hd, hc⟩ := PowBlock.min_buddy h
  rw [hb, blockSize_eq]
  refine ⟨by rwa [Nat.add_right_comm], fun l x => ?_⟩
  rcases hc with ⟨hm, hc⟩ | ⟨hm, hc⟩
  · rw [hm, hc, ← blockSize_eq, owners_halves]
  · have e : (a, k) = (buddy a (k + 12) + blockSize k, k) := by rw [blockSize_eq, ← hc]
    rw [hm, e, ← owners_halves]
    exact owners_perm (List.Perm.swap ..) x

theorem mem_of_mem_unlink {s : BuddyAllocator} {k j a b : Nat} (h : b ∈ (s.unlink k a).freeLists j) :
    b ∈ s.freeLists j := by
  simp only [BuddyAllocator.unlink, BuddyAllocator.setList, Function.update_apply] at h
  split at h
  · rename_i hj
    exact hj ▸ List.mem_of_mem_erase h
  · exact h

/-- What the loop of `deallocate_internal` does to a block that is being freed: `(addr', k')` is the block to insert
into the lists of `s'`. -/
structure Merged (s : BuddyAllocator) (addr order last : Nat) (s' : BuddyAllocator) (addr' k' : Nat) :
    Prop where
  order_le : order ≤ k' ∧ k' ≤ last
  aligned : blockSize k' ∣ addr'
  subset : ∀ k a, a ∈ s'.freeLists k → a ∈ s.freeLists k
  owners_eq : ∀ x, owners ((addr', k') :: s'.blocks) x = owners ((addr, order) :: s.blocks) x
  frames_eq : frames ((addr', k') :: s'.blocks) = frames ((addr, order) :: s.blocks)
  total_eq : s'.totalFrames = s.totalFrames
  free_eq : s'.freeFrames = s.freeFrames
  no_buddy : k' < last → addr' ^^^ blockSize k' ∉ s'.freeLists k'

theorem mergeBuddies_merged (fuel : Nat) : ∀ (s : BuddyAllocator) (addr order : Nat),
    order + fuel < maxOrder → blockSize order ∣ addr →
      Merged s addr order (order + fuel) (s.mergeBuddies addr order fuel).1 (s.mergeBuddies addr order fuel).2.1
        (s.mergeBuddies addr order fuel).2.2 := by
  induction fuel with
  | zero =>
    intro s addr order _ ha
    exact ⟨by simp [BuddyAllocator.mergeBuddies], ha, fun _ _ h => h, fun _ => rfl, rfl, rfl, rfl,
      fun h => absurd h (by simp [BuddyAllocator.mergeBuddies])⟩
  | succ fuel ih =>
    intro s addr order hlt ha
    by_cases hb : addr ^^^ blockSize order ∈ s.freeLists order
    · obtain ⟨ha', hown⟩ := merge_buddy ha
      have e : s.mergeBuddies addr order (fuel + 1) =
          (s.unlink order (addr ^^^ blockSize order)).mergeBuddies (min addr (addr ^^^ blockSize order))
            (order + 1) fuel := by
        simp [BuddyAllocator.mergeBuddies, BuddyAllocator.removeFromList, hb]
      rw [e]
      have hp := s.blocks_unlink (show order < maxOrder by omega) hb
      have m := ih (s.unlink order (addr ^^^ blockSize order)) (min addr (addr ^^^ blockSize order)) (order + 1)
        (by omega) ha'
      rw [show order + 1 + fuel = order + (fuel + 1) by omega] at m
      refine ⟨⟨by have := m.order_le.1; omega, m.order_le.2⟩, m.aligned, fun k a h => ?_, fun x => ?_, ?_,
        m.total_eq, m.free_eq, m.no_buddy⟩
      · exact mem_of_mem_unlink (m.subset k a h)
      · rw [m.owners_eq, hown]
        exact owners_perm (hp.symm.cons _) x
      · rw [m.frames_eq, ← frames_halves addr (addr ^^^ blockSize order)]
        exact frames_perm (hp.symm.cons _)
    · have e : s.mergeBuddies addr order (fuel + 1) = (s, addr, order) := by
        simp [BuddyAllocator.mergeBuddies, BuddyAllocator.removeFromList, hb]
      rw [e]
      exact ⟨⟨Nat.le_refl _, Nat.le_add_right _ _⟩, ha, fun _ _ h => h, fun _ => rfl, rfl, rfl, rfl, fun _ => hb⟩

/-- No free block below the top order lies beside its buddy. -/
def NoBuddies (s : BuddyAllocator) : Prop :=
  ∀ k a, k + 1 < maxOrder → a ∈ s.freeLists k → a ^^^ blockSize k ∉ s.freeLists k

private theorem xor_blockSize_ne (a k : Nat) : a ^^^ blockSize k ≠ a := by
  intro h
  have : blockSize k = 0 := by
    have h' := congrArg (a ^^^ ·) h
    simpa [← Nat.xor_assoc] using h'
  exact absurd this (BuddyAllocator.blockSize_pos k).ne'

private theorem xor_blockSize_cancel {a b k : Nat} (h : a ^^^ blockSize k = b) : b ^^^ blockSize k = a := by
  rw [← h, Nat.xor_assoc, Nat.xor_self, Nat.xor_zero]

theorem mem_push {s : BuddyAllocator} {k j a b : Nat} :
    b ∈ (s.push k a).freeLists j ↔ (j = k ∧ b = a) ∨ b ∈ s.freeLists j := by
  unfold BuddyAllocator.push BuddyAllocator.setList
  by_cases h : j = k
  · subst h
    simp
  · simp [h]

private theorem NoBuddies.push {s : BuddyAllocator} (h : NoBuddies s) {k a : Nat}
    (ha : k + 1 < maxOrder → a ^^^ blockSize k ∉ s.freeLists k) : NoBuddies (s.push k a) := by
  intro j b hj hb hb'
  rw [mem_push] at hb hb'
  rcases hb with ⟨rfl, rfl⟩ | hb
  · rcases hb' with ⟨-, e⟩ | hb'
    · exact xor_blockSize_ne _ _ e
    · exact ha hj hb'
  · rcases hb' with ⟨rfl, e⟩ | hb'
    · rw [xor_blockSize_cancel e] at ha
      exact ha hj hb
    · exact h j b hj hb hb'

/-- What freeing an aligned block does to the free lists. -/
theorem deallocateInternal_spec (s : BuddyAllocator) (frame : PhysFrame) (order : Nat) (hk : order < maxOrder)
    (ha : blockSize order ∣ frame.startAddress) (hs : ∀ b ∈ s.blocks, blockSize b.2 ∣ b.1) (hn : NoBuddies s) :
    (∀ b ∈ (s.deallocateInternal frame order).blocks, blockSize b.2 ∣ b.1) ∧
      (∀ x, owners (s.deallocateInternal frame order).blocks x =
        owners ((frame.startAddress, order) :: s.blocks) x) ∧
      frames (s.deallocateInternal frame order).blocks = 2 ^ order + frames s.blocks ∧
      (s.deallocateInternal frame order).totalFrames = s.totalFrames ∧
      (s.deallocateInternal frame order).freeFrames = s.freeFrames + 2 ^ order ∧
      NoBuddies (s.deallocateInternal frame order) := by
  have m := mergeBuddies_merged (maxOrder - 1 - order) s frame.startAddress order (by omega) ha
  have hlast : order + (maxOrder - 1 - order) = maxOrder - 1 := by omega
  rw [hlast] at m
  unfold BuddyAllocator.deallocateInternal
  rcases hr : s.mergeBuddies frame.startAddress order (maxOrder - 1 - order) with ⟨s₁, addr, k⟩
  rw [hr] at m
  have hle : k ≤ maxOrder - 1 := m.order_le.2
  have hk' : k < maxOrder := by omega
  have hp := s₁.blocks_push hk' addr
  refine ⟨fun b hb => ?_, fun x => ?_, ?_, m.total_eq, ?_, ?_⟩
  · rcases List.mem_cons.1 (hp.mem_iff.1 hb) with rfl | hb
    · exact m.aligned
    · rw [BuddyAllocator.mem_blocks] at hb
      exact hs b (BuddyAllocator.mem_blocks.2 ⟨hb.1, m.subset _ _ hb.2⟩)
  · exact (owners_perm hp x).trans (m.owners_eq x)
  · refine (frames_perm hp).trans (m.frames_eq.trans ?_)
    rw [frames_cons]
  · exact congrArg (· + 2 ^ order) m.free_eq
  · refine NoBuddies.push (fun j a hj h h' => hn j a hj (m.subset j a h) (m.subset j _ h')) fun hlt => ?_
    exact m.no_buddy (show k < maxOrder - 1 by omega)

/-! ### Splitting -/

private theorem dvd_upper_half {a k : Nat} (h : blockSize (k + 1) ∣ a) : blockSize k ∣ a + blockSize k := by
  rw [blockSize_eq] at *
  exact (Nat.dvd_add_right (PowBlock.dvd_of_le h (by omega))).2 (dvd_refl _)

private theorem dvd_of_order_le {a j k : Nat} (h : blockSize k ∣ a) (hjk : j ≤ k) : blockSize j ∣ a := by
  rw [blockSize_eq] at *
  exact PowBlock.dvd_of_le h (by omega)

/-- What the split loop of `allocate` does to the lists. -/
structure Split (s : BuddyAllocator) (block order last : Nat) (s' : BuddyAllocator) : Prop where
  mem : ∀ k a, a ∈ s'.freeLists k ↔ a ∈ s.freeLists k ∨ (order ≤ k ∧ k < last ∧ a = block + blockSize k)
  owners_eq : ∀ x, owners ((block, order) :: s'.blocks) x = owners ((block, last) :: s.blocks) x
  frames_eq : frames ((block, order) :: s'.blocks) = frames ((block, last) :: s.blocks)
  total_eq : s'.totalFrames = s.totalFrames
  free_eq : s'.freeFrames = s.freeFrames

theorem splitBlock_split (n : Nat) : ∀ (s : BuddyAllocator) (block order : Nat), order + n < maxOrder →
    Split s block order (order + n) (s.splitBlock block order n) := by
  induction n with
  | zero =>
    intro s block order _
    exact ⟨fun k a => ⟨Or.inl, fun h => h.resolve_right (by omega)⟩, fun _ => rfl, rfl, rfl, rfl⟩
  | succ n ih =>
    intro s block order hlt
    have m := ih (s.push (order + n) (block + blockSize (order + n))) block order (by omega)
    have hp := s.blocks_push (show order + n < maxOrder by omega) (block + blockSize (order + n))
    refine ⟨fun k a => ?_, fun x => ?_, ?_, m.total_eq, m.free_eq⟩
    · rw [BuddyAllocator.splitBlock, m.mem, mem_push]
      constructor
      · rintro ((⟨rfl, rfl⟩ | h) | ⟨h1, h2, rfl⟩)
        · exact Or.inr ⟨by omega, by omega, rfl⟩
        · exact Or.inl h
        · exact Or.inr ⟨h1, by omega, rfl⟩
      · rintro (h | ⟨h1, h2, rfl⟩)
        · exact Or.inl (Or.inr h)
        · by_cases hk : k = order + n
          · exact Or.inl (Or.inl ⟨hk, by rw [hk]⟩)
          · exact Or.inr ⟨h1, by omega, rfl⟩
    · refine (m.owners_eq x).trans ((owners_perm (hp.cons _) x).trans ?_)
      rw [owners_halves, Nat.add_assoc]
    · refine m.frames_eq.trans ((frames_perm (hp.cons _)).trans ?_)
      rw [frames_halves _ _ block, Nat.add_assoc]

/-- The allocator after `allocate` has taken the head `block` of list `current`. -/
def takeBlock (s : BuddyAllocator) (order current block : Nat) (next : List Nat) : BuddyAllocator :=
  let s₁ := (s.setList current next).splitBlock block order (current - order)
  { s₁ with freeFrames := s₁.freeFrames - 2 ^ order }

private theorem allocateFrom_cases (s : BuddyAllocator) (order : Nat) (l : List Nat) :
    (s.allocateFrom order l = (.error .outOfMemory, s) ∧ ∀ k ∈ l, s.freeLists k = []) ∨
      ∃ current block next, current ∈ l ∧ s.freeLists current = block :: next ∧
        s.allocateFrom order l = (.ok ⟨block⟩, takeBlock s order current block next) := by
  induction l with
  | nil => exact Or.inl ⟨rfl, fun _ h => absurd h List.not_mem_nil⟩
  | cons k l ih =>
    cases hk : s.freeLists k with
    | nil =>
      have e : s.allocateFrom order (k :: l) = s.allocateFrom order l := by
        simp [BuddyAllocator.allocateFrom, hk]
      rw [e]
      rcases ih with ⟨h, hl⟩ | ⟨current, block, next, h1, h2, h3⟩
      · exact Or.inl ⟨h, List.forall_mem_cons.2 ⟨hk, hl⟩⟩
      · exact Or.inr ⟨current, block, next, List.mem_cons_of_mem _ h1, h2, h3⟩
    | cons block next =>
      refine Or.inr ⟨k, block, next, List.mem_cons_self, hk, ?_⟩
      simp [BuddyAllocator.allocateFrom, hk, takeBlock]

/-- A call of `allocate` fails without effect, when the lists of at least the requested order are empty, or takes the
head of one of them. -/
theorem allocate_cases (s : BuddyAllocator) (order : Nat) :
    (∃ e, s.allocate order = (.error e, s) ∧ ∀ k, order ≤ k → k < maxOrder → s.freeLists k = []) ∨
      ∃ current block next, order ≤ current ∧ current < maxOrder ∧ s.freeLists current = block :: next ∧
        s.allocate order = (.ok ⟨block⟩, takeBlock s order current block next) := by
  unfold BuddyAllocator.allocate
  split
  · exact Or.inl ⟨_, rfl, by omega⟩
  · rename_i hk
    rcases allocateFrom_cases s order (List.range' order (maxOrder - order)) with
      ⟨h, hl⟩ | ⟨current, block, next, hm, h2, h3⟩
    · refine Or.inl ⟨_, h, fun k h1 h2 => hl k ?_⟩
      rw [List.mem_range'_1]
      omega
    · rw [List.mem_range'_1] at hm
      exact Or.inr ⟨current, block, next, hm.1, by omega, h2, h3⟩

/-! ### The invariant -/

/-- `c x` counts the blocks, free or handed out, that contain the address `x`; no address lies in two blocks. -/
structure Owned (s : BuddyAllocator) (live : List (Nat × Nat)) (c : Nat → Nat) : Prop where
  live_order : ∀ b ∈ live, b.2 < maxOrder
  aligned : ∀ b ∈ s.blocks ++ live, blockSize b.2 ∣ b.1
  owner : ∀ x, owners (s.blocks ++ live) x = c x
  once : ∀ x, c x ≤ 1
  free : s.freeFrames = frames s.blocks
  total : s.totalFrames = frames (s.blocks ++ live)
  noBuddies : NoBuddies s

section Steps

variable {s : BuddyAllocator} {live : List (Nat × Nat)} {c : Nat → Nat}

theorem Owned.owners_le (h : Owned s live c) (x : Nat) : cover ((s.blocks ++ live).map span) x ≤ 1 := by
  have h1 := h.owner x
  have h2 := h.once x
  rw [owners] at h1
  omega

/-- Two blocks with a common address are the same block. -/
theorem Owned.eq_of_mem (h : Owned s live c) {b b' : Nat × Nat} (hb : b ∈ s.blocks ++ live)
    (hb' : b' ∈ s.blocks ++ live) {x : Nat} (hx : InBlock b x) (hx' : InBlock b' x) : b = b' := by
  have key := PowBlock.eq_of_mem_both h.owners_le (List.mem_map_of_mem hb) (List.mem_map_of_mem hb')
    (mem_span.2 hx) (mem_span.2 hx')
  simpa [span, Prod.ext_iff] using key

theorem Owned.dealloc (h : Owned s live c) {frame : PhysFrame} {order : Nat}
    (hl : (frame.startAddress, order) ∈ live) :
    Owned (s.deallocate frame order) (live.erase (frame.startAddress, order)) c := by
  have hk : order < maxOrder := h.live_order _ hl
  have ha : blockSize order ∣ frame.startAddress := h.aligned (frame.startAddress, order) (List.mem_append_right _ hl)
  have hlp := List.perm_cons_erase hl
  obtain ⟨d1, d2, d3, d4, d5, d6⟩ := deallocateInternal_spec s frame order hk ha
    (fun b hb => h.aligned b (List.mem_append_left _ hb)) h.noBuddies
  have e : s.deallocate frame order = s.deallocateInternal frame order := by
    simp [BuddyAllocator.deallocate, Nat.not_le.2 hk]
  rw [e]
  refine ⟨fun b hb => h.live_order b (List.mem_of_mem_erase hb), fun b hb => ?_, fun x => ?_, h.once, ?_, ?_, d6⟩
  · rcases List.mem_append.1 hb with hb | hb
    · exact d1 b hb
    · exact h.aligned b (List.mem_append_right _ (List.mem_of_mem_erase hb))
  · have h1 := h.owner x
    rw [owners_append, owners_perm hlp, owners_cons] at h1
    rw [owners_append, d2, owners_cons]
    omega
  · rw [d5, d3, h.free, Nat.add_comm]
  · have h1 := h.total
    rw [frames_append, frames_perm hlp, frames_cons] at h1
    rw [frames_append, d3, d4]
    omega

/-- The free blocks before a successful `allocate` are the block found and the lists without it. -/
private theorem blocks_pop {a : BuddyAllocator} {current block : Nat} {next : List Nat} (hc : current < maxOrder)
    (hf : a.freeLists current = block :: next) :
    a.blocks.Perm ((block, current) :: (a.setList current next).blocks) :=
  a.blocks_setList hc (by rw [hf])

private theorem mem_of_setList {a : BuddyAllocator} {current block : Nat} {next : List Nat}
    (hf : a.freeLists current = block :: next) {k x : Nat} (hx : x ∈ (a.setList current next).freeLists k) :
    x ∈ a.freeLists k := by
  simp only [BuddyAllocator.setList, Function.update_apply] at hx
  split at hx
  · rename_i hk
    rw [hk, hf]
    exact List.mem_cons_of_mem _ hx
  · exact hx

/-- A block of a smaller order at the same address would share its first byte. -/
private theorem Owned.not_mem_smaller (h : Owned s live c) {current block k : Nat} (hc : current < maxOrder)
    (hmem : (block, current) ∈ s.blocks) (hk : k < current) : block ∉ s.freeLists k := by
  intro hb
  have hb' : (block, k) ∈ s.blocks := BuddyAllocator.mem_blocks.2 ⟨Nat.lt_trans hk hc, hb⟩
  have hfst : ∀ j, InBlock (block, j) block := fun j =>
    ⟨Nat.le_refl _, Nat.lt_add_of_pos_right (BuddyAllocator.blockSize_pos j)⟩
  have e := h.eq_of_mem (b := (block, k)) (List.mem_append_left _ hb') (List.mem_append_left _ hmem)
    (hfst k) (hfst current)
  simp only [Prod.mk.injEq, true_and] at e
  omega

/-- The buddy of the upper half is the lower one. -/
private theorem upper_half_buddy {current block k : Nat} (ha : blockSize current ∣ block) (hk : k < current) :
    (block + blockSize k) ^^^ blockSize k = block := by
  have hd : blockSize (k + 1) ∣ block := dvd_of_order_le ha hk
  rw [blockSize_eq] at hd ⊢
  rw [← PowBlock.buddy_of_dvd (e := k + 12) (by rwa [Nat.add_right_comm] at hd)]
  exact PowBlock.buddy_buddy block (k + 12)

theorem Owned.alloc (h : Owned s live c) {order current block : Nat} {next : List Nat} (hle : order ≤ current)
    (hc : current < maxOrder) (hf : s.freeLists current = block :: next) :
    Owned (takeBlock s order current block next) ((block, order) :: live) c := by
  have hp := blocks_pop hc hf
  have hmem : (block, current) ∈ s.blocks := BuddyAllocator.mem_blocks.2 ⟨hc, hf ▸ List.mem_cons_self⟩
  have ha : blockSize current ∣ block := h.aligned (block, current) (List.mem_append_left _ hmem)
  have m := splitBlock_split (current - order) (s.setList current next) block order (by omega)
  rw [show order + (current - order) = current by omega] at m
  refine ⟨?_, ?_, fun x => ?_, h.once, ?_, ?_, ?_⟩
  · intro b hb
    rcases List.mem_cons.1 hb with rfl | hb
    · exact Nat.lt_of_le_of_lt hle hc
    · exact h.live_order b hb
  · intro b hb
    rcases List.mem_append.1 hb with hb | hb
    · obtain ⟨hk, hb⟩ := BuddyAllocator.mem_blocks.1 hb
      rcases (m.mem _ _).1 hb with hb | ⟨_, h2, h3⟩
      · exact h.aligned b (List.mem_append_left _ (BuddyAllocator.mem_blocks.2 ⟨hk, mem_of_setList hf hb⟩))
      · rw [h3]
        exact dvd_upper_half (dvd_of_order_le ha h2)
    · rcases List.mem_cons.1 hb with rfl | hb
      · exact dvd_of_order_le ha hle
      · exact h.aligned b (List.mem_append_right _ hb)
  · have h1 := h.owner x
    have h2 := m.owners_eq x
    rw [owners_append, owners_perm hp] at h1
    rw [owners_cons] at h2
    rw [owners_append, owners_cons (block, order) live]
    show owners ((BuddyAllocator.splitBlock _ _ _ _).blocks) x + _ = _
    omega
  · have h1 := h.free
    have h2 := m.frames_eq
    have h3 : _ = s.freeFrames := m.free_eq
    rw [frames_perm hp] at h1
    rw [frames_cons] at h2
    show (BuddyAllocator.splitBlock _ _ _ _).freeFrames - 2 ^ order =
      frames (BuddyAllocator.splitBlock _ _ _ _).blocks
    rw [h3, h1, ← h2]
    omega
  · have h1 := h.total
    have h2 := m.frames_eq
    have h3 : _ = s.totalFrames := m.total_eq
    rw [frames_append, frames_perm hp] at h1
    rw [frames_cons] at h2
    rw [frames_append, frames_cons block order live]
    show (BuddyAllocator.splitBlock _ _ _ _).totalFrames = frames (BuddyAllocator.splitBlock _ _ _ _).blocks + _
    rw [h3, h1, ← h2]
    omega
  · -- two buddies: old blocks are none, and the buddy of a new one is part of the block taken
    intro k a hk h1 h2
    rcases (m.mem _ _).1 h1 with h1 | ⟨_, hlt, rfl⟩ <;> rcases (m.mem _ _).1 h2 with h2 | ⟨_, hlt', e⟩
    · exact h.noBuddies k a hk (mem_of_setList hf h1) (mem_of_setList hf h2)
    · have e' : a = block := by rw [← xor_blockSize_cancel e, upper_half_buddy ha hlt']
      exact h.not_mem_smaller hc hmem hlt' (e' ▸ mem_of_setList hf h1)
    · rw [upper_half_buddy ha hlt] at h2
      exact h.not_mem_smaller hc hmem hlt (mem_of_setList hf h2)
    · rw [upper_half_buddy ha hlt] at e
      have := BuddyAllocator.blockSize_pos k
      omega

/-- What a client sees of `allocate`: a failure without effect, when nothing large enough is free, or a block that it
then owns. -/
theorem Owned.allocate (h : Owned s live c) (order : Nat) :
    (∃ e, s.allocate order = (.error e, s) ∧ ∀ k, order ≤ k → k < maxOrder → s.freeLists k = []) ∨
      ∃ frame s', s.allocate order = (.ok frame, s') ∧ Owned s' ((frame.startAddress, order) :: live) c ∧
        s'.freeFrames + 2 ^ order = s.freeFrames := by
  obtain ⟨e, he⟩ | ⟨current, block, next, hle, hc, hf, he⟩ := allocate_cases s order
  · exact Or.inl ⟨e, he⟩
  · have h' := h.alloc hle hc hf
    refine Or.inr ⟨⟨block⟩, _, he, h', ?_⟩
    have ht : (takeBlock s order current block next).totalFrames = s.totalFrames :=
      (splitBlock_split (current - order) (s.setList current next) block order (by omega)).total_eq
    have h1 := h.total
    have h2 := h'.total
    rw [frames_append, ← h.free] at h1
    rw [frames_append, frames_cons, ← h'.free] at h2
    omega

/-- Every call of a client keeps the invariant. -/
theorem Owned.step {s s' : FrameState} (h : Owned s.alloc s.live c) (hs : FrameStep s s') :
    Owned s'.alloc s'.live c := by
  cases hs with
  | allocate order =>
    unfold FrameState.allocate
    obtain ⟨e, he, -⟩ | ⟨frame, a, he, h', -⟩ := h.allocate order
    · rw [he]
      exact h
    · rw [he]
      exact h'
  | deallocate frame order hl => exact h.dealloc hl

/-- Every run keeps the invariant. -/
theorem Owned.run {s s' : FrameState} (h : Owned s.alloc s.live c) (hr : Relation.ReflTransGen FrameStep s s') :
    Owned s'.alloc s'.live c := by
  induction hr with
  | refl => exact h
  | tail _ hs ih => exact ih.step hs

end Steps

end Hammam
