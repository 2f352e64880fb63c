import Mathlib.Data.List.Induction
import Mathlib.Data.List.Nodup
import Hammam.Mm.Ownership

/-!
# The frame allocator from `init` on

The loop of `add_memory_region` decomposes a range of pages into aligned blocks greedily and frees them one by one.
Each iteration raises the number of owners by one on the block it frees, so a region raises it by one on the pages of
the region outside page 0 and the kernel.  With disjoint usable regions no page is added twice, the invariant `Owned`
holds after `init`, and therefore in every state of every run.
-/

namespace Hammam

/-- The invariant of `init`: the free lists hold everything that has been added so far. -/
private structure Filled (s : BuddyAllocator) (c : Nat → Nat) : Prop where
  aligned : ∀ b ∈ s.blocks, blockSize b.2 ∣ b.1
  owner : ∀ x, owners s.blocks x = c x
  free : s.freeFrames = frames s.blocks
  total : s.totalFrames = frames s.blocks
  noBuddies : NoBuddies s

private theorem Filled.congr {s : BuddyAllocator} {c c' : Nat → Nat} (h : Filled s c) (hc : ∀ x, c x = c' x) :
    Filled s c' := ⟨h.aligned, fun x => (h.owner x).trans (hc x), h.free, h.total, h.noBuddies⟩

private theorem Filled.owned {s : BuddyAllocator} {c : Nat → Nat} (h : Filled s c) (hc : ∀ x, c x ≤ 1) :
    Owned s [] c := by
  refine ⟨fun _ hb => absurd hb List.not_mem_nil, ?_, ?_, hc, h.free, ?_, h.noBuddies⟩ <;> rw [List.append_nil]
  exacts [h.aligned, h.owner, h.total]

private theorem filled_new : Filled BuddyAllocator.new fun _ => 0 := by
  have e : BuddyAllocator.new.blocks = [] := List.flatMap_eq_nil_iff.2 fun _ _ => rfl
  refine ⟨?_, ?_, ?_, ?_, fun _ _ _ h => absurd h List.not_mem_nil⟩ <;> rw [e]
  exacts [fun _ hb => absurd hb List.not_mem_nil, fun _ => rfl, rfl, rfl]

theorem chooseOrder_spec (maxPages addr : Nat) (ha : pageSize ∣ addr) (hp : 0 < maxPages) (k : Nat) :
    BuddyAllocator.chooseOrder maxPages addr k ≤ k ∧
      blockSize (BuddyAllocator.chooseOrder maxPages addr k) ∣ addr ∧
      2 ^ BuddyAllocator.chooseOrder maxPages addr k ≤ maxPages := by
  induction k with
  | zero => exact ⟨Nat.le_refl _, by simpa [BuddyAllocator.chooseOrder, blockSize] using ha, hp⟩
  | succ k ih =>
    rw [BuddyAllocator.chooseOrder]
    split
    · rename_i h
      exact ⟨Nat.le_refl _, Nat.dvd_of_mod_eq_zero h.2, h.1⟩
    · exact ⟨Nat.le_succ_of_le ih.1, ih.2⟩

/-- The block that an iteration of the loop frees: it fits into the rest of the range, and the page after it is the
next one. -/
theorem chooseOrder_range {current rangeEnd : Nat} (hcur : pageSize ∣ current)
    (h0 : (rangeEnd - current) / pageSize ≠ 0) :
    let order := BuddyAllocator.chooseOrder ((rangeEnd - current) / pageSize) current (maxOrder - 1)
    order < maxOrder ∧ blockSize order ∣ current ∧ blockSize order ≤ rangeEnd - current ∧
      pageSize ∣ current + blockSize order := by
  intro order
  obtain ⟨hk, ha, hfit⟩ := chooseOrder_spec _ current hcur (Nat.pos_of_ne_zero h0) (maxOrder - 1)
  have hle : 2 ^ order * pageSize ≤ (rangeEnd - current) / pageSize * pageSize := Nat.mul_le_mul_right _ hfit
  exact ⟨Nat.lt_of_le_of_lt hk (by decide), ha, hle.trans (Nat.div_mul_le_self _ _),
    (Nat.dvd_add_right hcur).2 (Dvd.intro_left _ rfl)⟩

private theorem owners_single (a k x : Nat) :
    owners [(a, k)] x = if a ≤ x ∧ x < a + blockSize k then 1 else 0 := by
  simp only [owners, List.map_cons, List.map_nil, PowBlock.cover_cons, PowBlock.cover_nil, Nat.zero_add, mem_span,
    InBlock]

/-- The loop of `add_memory_region` adds exactly the pages of its range. -/
private theorem Filled.addRange {rangeEnd : Nat} (he : pageSize ∣ rangeEnd) (s : BuddyAllocator) (current : Nat) :
    ∀ c : Nat → Nat, Filled s c → pageSize ∣ current →
      Filled (s.addRange current rangeEnd) fun x => c x + if current ≤ x ∧ x < rangeEnd then 1 else 0 := by
  induction s, current using BuddyAllocator.addRange.induct rangeEnd with
  | case1 s current hlt maxPages h0 =>
    intro c _ hcur
    obtain ⟨a, rfl⟩ := he
    obtain ⟨b, rfl⟩ := hcur
    simp only [maxPages, pageSize] at h0 hlt
    omega
  | case2 s current hlt maxPages h0 order s₁ ih =>
    intro c h hcur
    -- the largest block that fits is freed, and the loop goes on behind it
    obtain ⟨hk, ha, hbs, hdvd⟩ := chooseOrder_range hcur h0
    obtain ⟨d1, d2, d3, d4, d5, d6⟩ := deallocateInternal_spec s ⟨current⟩ order hk ha h.aligned h.noBuddies
    have hstep : Filled { s₁ with totalFrames := s₁.totalFrames + 2 ^ order }
        fun x => c x + if current ≤ x ∧ x < current + blockSize order then 1 else 0 := by
      refine ⟨d1, fun x => ?_, ?_, ?_, d6⟩
      · rw [← h.owner, ← owners_single]
        exact (d2 x).trans ((owners_cons _ _ _).trans (Nat.add_comm _ _))
      · exact d5.trans (by rw [h.free, Nat.add_comm]; exact d3.symm)
      · show s₁.totalFrames + 2 ^ order = frames s₁.blocks
        rw [d3, d4, h.total, Nat.add_comm]
    have hbs : blockSize order ≤ rangeEnd - current := hbs
    have hpos := BuddyAllocator.blockSize_pos order
    rw [BuddyAllocator.addRange, if_pos hlt]
    simp only [maxPages] at h0
    rw [if_neg h0]
    refine (ih _ hstep hdvd).congr fun x => ?_
    simp only [Nat.add_assoc, Nat.add_left_cancel_iff]
    split <;> split <;> split <;> omega
  | case3 s current hge =>
    intro c h _
    rw [BuddyAllocator.addRange, if_neg hge]
    refine h.congr fun x => ?_
    rw [if_neg (by omega), Nat.add_zero]

private theorem Filled.addSubRange {s : BuddyAllocator} {c : Nat → Nat} (h : Filled s c) {a b : Nat}
    (ha : pageSize ∣ a) (hb : pageSize ∣ b) :
    Filled (s.addSubRange a b) fun x => c x + if a ≤ x ∧ x < b ∧ pageSize ≤ x then 1 else 0 := by
  unfold BuddyAllocator.addSubRange
  split
  · refine h.congr fun x => ?_
    rw [if_neg (by omega), Nat.add_zero]
  · have hstart : pageSize ∣ if a = 0 then pageSize else a := by
      split
      exacts [dvd_refl _, ha]
    refine (h.addRange hb s _ c hstart).congr fun x => ?_
    have hle : a ≠ 0 → pageSize ≤ a := fun h0 => Nat.le_of_dvd (Nat.pos_of_ne_zero h0) ha
    congr 1
    split
    · split <;> split <;> omega
    · have := hle ‹_›
      split <;> split <;> omega

/-- The pages that `init` adds for one region. -/
def regionPages (k : KernelImage) (r : MemoryRegion) : Set Nat :=
  {n | n ≠ 0 ∧ ¬ (k.physStart ≤ n * pageSize ∧ n * pageSize < k.physEnd) ∧
    r.kind = .usable ∧ r.start ≤ n * pageSize ∧ (n + 1) * pageSize ≤ r.end_}

theorem mem_regionPages (k : KernelImage) {r : MemoryRegion} (hkind : r.kind = .usable) (x : Nat) :
    x / pageSize ∈ regionPages k r ↔ pageSize ≤ x ∧ ¬ (k.physStart ≤ x ∧ x < k.physEnd) ∧
      BuddyAllocator.alignUp r.start ≤ x ∧ x < BuddyAllocator.alignDown r.end_ := by
  obtain ⟨ks, hks⟩ := k.start_aligned
  obtain ⟨ke, hke⟩ := k.end_aligned
  simp only [regionPages, Set.mem_ofPred_eq, hkind, true_and, BuddyAllocator.alignUp, BuddyAllocator.alignDown,
    pageSize, hks, hke] at *
  omega

open Classical in
private theorem Filled.initRegion {s : BuddyAllocator} {c : Nat → Nat} (h : Filled s c) (k : KernelImage)
    (r : MemoryRegion) :
    Filled (s.initRegion k r) fun x => c x + if x / pageSize ∈ regionPages k r then 1 else 0 := by
  have hle := k.start_le_end
  unfold BuddyAllocator.initRegion
  split
  · rename_i hr
    refine h.congr fun x => ?_
    rw [if_neg (fun hm => hr hm.2.2.1), Nat.add_zero]
  · rename_i hr
    have hkind : r.kind = .usable := not_not.1 hr
    have hmem : ∀ x, x / pageSize ∈ regionPages k r ↔ pageSize ≤ x ∧ ¬ (k.physStart ≤ x ∧ x < k.physEnd) ∧
        BuddyAllocator.alignUp r.start ≤ x ∧ x < BuddyAllocator.alignDown r.end_ := mem_regionPages k hkind
    have hup : pageSize ∣ BuddyAllocator.alignUp r.start := Dvd.intro_left _ rfl
    have hdown : pageSize ∣ BuddyAllocator.alignDown r.end_ := Dvd.intro_left _ rfl
    split
    · have hmin : pageSize ∣ min (BuddyAllocator.alignDown r.end_) k.physStart := by
        rcases min_choice (BuddyAllocator.alignDown r.end_) k.physStart with e | e <;> rw [e]
        exacts [hdown, k.start_aligned]
      have hmax : pageSize ∣ max (BuddyAllocator.alignUp r.start) k.physEnd := by
        rcases max_choice (BuddyAllocator.alignUp r.start) k.physEnd with e | e <;> rw [e]
        exacts [hup, k.end_aligned]
      refine ((h.addSubRange hup hmin).addSubRange hmax hdown).congr fun x => ?_
      simp only [Nat.add_assoc, Nat.add_left_cancel_iff, hmem]
      split <;> split <;> split <;> omega
    · refine h.congr fun x => ?_
      rw [if_neg (by rw [hmem]; omega), Nat.add_zero]

theorem mem_initPages {k : KernelImage} {memoryMap : List MemoryRegion} {n : Nat} :
    n ∈ initPages k memoryMap ↔ ∃ r ∈ memoryMap, n ∈ regionPages k r := by
  simp only [initPages, regionPages, Set.mem_ofPred_eq]
  constructor
  · intro h
    obtain ⟨h1, h2, r, hr, h3⟩ := h
    exact ⟨r, hr, h1, h2, h3⟩
  · intro h
    obtain ⟨r, hr, h1, h2, h3⟩ := h
    exact ⟨h1, h2, r, hr, h3⟩

open Classical in
/-- After `init` every page of `initPages` has one owner and no other page has any. -/
private theorem filled_init (k : KernelImage) (memoryMap : List MemoryRegion) :
    (memoryMap.filter (·.kind = .usable)).Pairwise (fun r r' =>
      ∀ x, r.start ≤ x → x < r.end_ → ¬ (r'.start ≤ x ∧ x < r'.end_)) →
    Filled (BuddyAllocator.new.init k memoryMap) fun x => if x / pageSize ∈ initPages k memoryMap then 1 else 0 := by
  induction memoryMap using List.reverseRecOn with
  | nil =>
    intro _
    refine filled_new.congr fun x => ?_
    rw [if_neg fun h => ?_]
    obtain ⟨r, hr, -⟩ := mem_initPages.1 h
    exact List.not_mem_nil hr
  | append_singleton l r ih =>
    intro hd
    rw [List.filter_append, List.pairwise_append] at hd
    unfold BuddyAllocator.init at *
    rw [List.foldl_append]
    refine ((ih hd.1).initRegion k r).congr fun x => ?_
    have hsplit : x / pageSize ∈ initPages k (l ++ [r]) ↔
        x / pageSize ∈ initPages k l ∨ x / pageSize ∈ regionPages k r := by
      simp only [mem_initPages, List.mem_append, List.mem_singleton, or_and_right, exists_or, exists_eq_left]
    have hdisj : ¬ (x / pageSize ∈ initPages k l ∧ x / pageSize ∈ regionPages k r) := by
      intro h
      obtain ⟨h1, -, -, hkind, h2, h3⟩ := h
      obtain ⟨r', hr', -, -, hkind', h4, h5⟩ := mem_initPages.1 h1
      refine hd.2.2 r' (by simp [hr', hkind']) r (by simp [hkind]) (x / pageSize * pageSize) h4 ?_ ⟨h2, ?_⟩
      · exact Nat.lt_of_lt_of_le (Nat.mul_lt_mul_of_pos_right (Nat.lt_succ_self _) (by decide)) h5
      · exact Nat.lt_of_lt_of_le (Nat.mul_lt_mul_of_pos_right (Nat.lt_succ_self _) (by decide)) h3
    by_cases h1 : x / pageSize ∈ initPages k l <;> by_cases h2 : x / pageSize ∈ regionPages k r
    · exact absurd ⟨h1, h2⟩ hdisj
    all_goals simp [hsplit, h1, h2]

section Runs

variable {k : KernelImage} {memoryMap : List MemoryRegion} {s : FrameState}

/-- The invariant in every state of every run. -/
theorem FrameState.Reachable.owned (hm : ValidMap memoryMap) (hr : FrameState.Reachable k memoryMap s) :
    ∃ c, Owned s.alloc s.live c ∧ ∀ x, 0 < c x ↔ x / pageSize ∈ initPages k memoryMap := by
  classical
  refine ⟨fun x => if x / pageSize ∈ initPages k memoryMap then 1 else 0, ?_, fun x => ?_⟩
  · have h0 : Owned (FrameState.boot k memoryMap).alloc (FrameState.boot k memoryMap).live
        fun x => if x / pageSize ∈ initPages k memoryMap then 1 else 0 :=
      (filled_init k memoryMap hm.disjoint).owned fun x => by split <;> omega
    exact h0.run hr
  · by_cases h : x / pageSize ∈ initPages k memoryMap <;> simp [h]

/-- In every state of every run the free blocks and the blocks handed out are aligned, pairwise disjoint and together
hold exactly the pages that `init` added; the two counters count the frames of these blocks. -/
theorem buddy_ownership (hm : ValidMap memoryMap) (hr : FrameState.Reachable k memoryMap s) :
    (∀ o < maxOrder, ∀ a ∈ s.alloc.freeLists o, blockSize o ∣ a) ∧
      (s.alloc.blocks ++ s.live).Pairwise (fun b b' => ∀ x, InBlock b x → ¬ InBlock b' x) ∧
      (∀ x, (∃ b ∈ s.alloc.blocks ++ s.live, InBlock b x) ↔ x / pageSize ∈ initPages k memoryMap) ∧
      (∀ b ∈ s.live, b.2 < maxOrder ∧ blockSize b.2 ∣ b.1) ∧
      s.alloc.freeFrames = (s.alloc.blocks.map fun b => 2 ^ b.2).sum ∧
      s.alloc.totalFrames = s.alloc.freeFrames + (s.live.map fun b => 2 ^ b.2).sum := by
  obtain ⟨c, h, hc⟩ := hr.owned hm
  refine ⟨fun o ho a ha => ?_, ?_, fun x => ?_, fun b hb => ⟨h.live_order b hb, ?_⟩, h.free, ?_⟩
  · exact h.aligned (a, o) (List.mem_append_left _ (BuddyAllocator.mem_blocks.2 ⟨ho, ha⟩))
  · have hp := PowBlock.pairwise_apart h.owners_le
    rw [List.pairwise_map] at hp
    exact hp.imp fun hbb x hx hx' => hbb x (mem_span.2 hx) (mem_span.2 hx')
  · rw [← hc, ← h.owner, owners_pos]
  · exact h.aligned b (List.mem_append_right _ hb)
  · rw [h.free, h.total, frames_append, frames, frames]

/-- A kernel from 1 MiB to 2 MiB, and one usable page behind it. -/
def sampleKernel : KernelImage := ⟨0x100000, 0x200000, by decide, by decide, by decide⟩

def sampleMap : List MemoryRegion := [⟨0x200000, 0x201000, .usable⟩]

theorem sampleMap_valid : ValidMap sampleMap := ⟨by simp [sampleMap], by simp [sampleMap]⟩

/-- The allocator of the sample map: one page. -/
def sampleAlloc : BuddyAllocator := ⟨Function.update (fun _ => []) 0 [0x200000], 1, 1⟩

theorem sample_init : (FrameState.boot sampleKernel sampleMap).alloc = sampleAlloc := by
  have h1 : BuddyAllocator.new.init sampleKernel sampleMap = BuddyAllocator.new.addRange 0x200000 0x201000 := rfl
  have h2 : BuddyAllocator.new.addRange 0x200000 0x201000 = sampleAlloc.addRange 0x201000 0x201000 := by
    rw [BuddyAllocator.addRange]
    simp [pageSize, BuddyAllocator.chooseOrder, maxOrder, BuddyAllocator.deallocateInternal,
      BuddyAllocator.mergeBuddies, BuddyAllocator.removeFromList, BuddyAllocator.new, BuddyAllocator.push,
      BuddyAllocator.setList, blockSize, sampleAlloc]
  rw [FrameState.boot, h1, h2, BuddyAllocator.addRange, if_neg (by decide)]

/-- Four pages behind this kernel. -/
def fourPages : List MemoryRegion := [⟨0x200000, 0x204000, .usable⟩]

theorem fourPages_valid : ValidMap fourPages := ⟨by simp [fourPages], by simp [fourPages]⟩

/-- Two pages are handed out, so that the block of four is split twice, and the first one is returned. -/
def splitState : FrameState :=
  (((FrameState.boot sampleKernel fourPages).allocate 0).allocate 0).deallocate ⟨0x200000⟩ 0

private theorem four_boot :
    FrameState.boot sampleKernel fourPages = ⟨⟨Function.update (fun _ => []) 2 [0x200000], 4, 4⟩, []⟩ := by
  have h1 : BuddyAllocator.new.init sampleKernel fourPages = BuddyAllocator.new.addRange 0x200000 0x204000 := rfl
  have h2 : BuddyAllocator.new.addRange 0x200000 0x204000 =
      BuddyAllocator.addRange ⟨Function.update (fun _ => []) 2 [0x200000], 4, 4⟩ 0x204000 0x204000 := by
    rw [BuddyAllocator.addRange]
    simp [pageSize, BuddyAllocator.chooseOrder, maxOrder, BuddyAllocator.deallocateInternal,
      BuddyAllocator.mergeBuddies, BuddyAllocator.removeFromList, BuddyAllocator.new, BuddyAllocator.push,
      BuddyAllocator.setList, blockSize]
  rw [FrameState.boot, h1, h2, BuddyAllocator.addRange, if_neg (by decide)]

theorem split_eq : splitState.alloc.blocks = [(0x200000, 0), (0x202000, 1)] ∧ splitState.live = [(0x201000, 0)] := by
  rw [splitState, four_boot]
  decide

theorem split_reachable : FrameState.Reachable sampleKernel fourPages splitState := by
  refine .tail (.tail (.single (.allocate _ 0)) (.allocate _ 0)) (.deallocate _ ⟨0x200000⟩ 0 ?_)
  rw [four_boot]
  decide

/-- One page is in use, and three are free in two blocks. -/
theorem buddy_ownership_sample :
    splitState.alloc.totalFrames = splitState.alloc.freeFrames + 1 ∧
      splitState.alloc.freeFrames = 3 ∧
      ∀ x, (∃ b ∈ [(0x200000, 0), (0x202000, 1), (0x201000, 0)], InBlock b x) ↔
        x / pageSize ∈ initPages sampleKernel fourPages := by
  obtain ⟨-, -, hpages, -, hfree, htotal⟩ := buddy_ownership fourPages_valid split_reachable
  obtain ⟨hblocks, hlive⟩ := split_eq
  rw [hblocks, hlive] at hpages
  rw [hlive] at htotal
  rw [hblocks] at hfree
  exact ⟨htotal, hfree, hpages⟩

/-! ### Coalescing -/

/-- The address `x` lies in a free block. -/
def FreeAt (a : BuddyAllocator) (x : Nat) : Prop := ∃ b ∈ a.blocks, InBlock b x

private def family (a : BuddyAllocator) (e base : Nat) : Prop := ∃ o < maxOrder, e = o + 12 ∧ base ∈ a.freeLists o

/-- The free lists of an owned allocator are a canonical decomposition. -/
private theorem Owned.canonical {a : BuddyAllocator} {live : List (Nat × Nat)} {c : Nat → Nat} (h : Owned a live c) :
    PowBlock.Canonical 12 22 (family a) := by
  have hmem : ∀ {o base}, o < maxOrder → base ∈ a.freeLists o → (base, o) ∈ a.blocks ++ live :=
    fun ho hb => List.mem_append_left _ (BuddyAllocator.mem_blocks.2 ⟨ho, hb⟩)
  constructor
  · intro e base hb
    obtain ⟨o, ho, rfl, -⟩ := hb
    have : maxOrder = 11 := rfl
    omega
  · intro e base hfree
    obtain ⟨o, ho, rfl, hb⟩ := hfree
    rw [← blockSize_eq]
    exact h.aligned (base, o) (hmem ho hb)
  · rintro e base f base' x ⟨o, ho, rfl, hb⟩ ⟨o', ho', rfl, hb'⟩ hx hx'
    have key := h.eq_of_mem (hmem ho hb) (hmem ho' hb') (mem_span.1 hx) (mem_span.1 hx')
    simp only [Prod.mk.injEq] at key
    exact ⟨by rw [key.2], key.1⟩
  · rintro e base ⟨o, ho, rfl, hb⟩ hlt ⟨o', ho', e', hb'⟩
    have : o' = o := by omega
    subst this
    have hm : maxOrder = 11 := rfl
    rw [PowBlock.buddy, ← blockSize_eq] at hb'
    exact h.noBuddies o' base (by omega) hb hb'

private theorem mem_cells_family {a : BuddyAllocator} {x : Nat} : x ∈ PowBlock.cells (family a) ↔ FreeAt a x := by
  constructor
  · intro h
    obtain ⟨e, base, ⟨o, ho, rfl, hb⟩, hx⟩ := h
    exact ⟨(base, o), BuddyAllocator.mem_blocks.2 ⟨ho, hb⟩, mem_span.1 hx⟩
  · intro h
    obtain ⟨⟨base, o⟩, hb, hx⟩ := h
    obtain ⟨ho, hb⟩ := BuddyAllocator.mem_blocks.1 hb
    exact ⟨o + 12, base, ⟨o, ho, rfl, hb⟩, mem_span.2 hx⟩

private theorem Owned.nodup {a : BuddyAllocator} {live : List (Nat × Nat)} {c : Nat → Nat} (h : Owned a live c)
    {o : Nat} (ho : o < maxOrder) : (a.freeLists o).Nodup := by
  have h1 : (a.blocks ++ live).Nodup := List.Nodup.of_map _ (PowBlock.nodup_of_cover h.owners_le)
  have h2 := (List.nodup_flatMap.1 (List.nodup_append.1 h1).1).1 o (List.mem_range.2 ho)
  exact List.Nodup.of_map _ h2

/-- Owned allocators with the same free pages have the same lists up to order. -/
theorem Owned.freeLists_perm {a a' : BuddyAllocator} {live live' : List (Nat × Nat)} {c c' : Nat → Nat}
    (h : Owned a live c) (h' : Owned a' live' c') (hfree : ∀ x, FreeAt a x ↔ FreeAt a' x) {o : Nat}
    (ho : o < maxOrder) : (a.freeLists o).Perm (a'.freeLists o) := by
  have hcells : PowBlock.cells (family a) = PowBlock.cells (family a') := by
    ext x
    rw [mem_cells_family, mem_cells_family, hfree]
  refine (List.perm_ext_iff_of_nodup (h.nodup ho) (h'.nodup ho)).2 fun base => ?_
  have key := h.canonical.unique h'.canonical hcells (o + 12) base
  have hfam : ∀ d : BuddyAllocator, family d (o + 12) base ↔ base ∈ d.freeLists o := fun d =>
    ⟨fun ⟨o', _, e, hb⟩ => (show o' = o by omega) ▸ hb, fun hb => ⟨o, ho, rfl, hb⟩⟩
  rwa [hfam, hfam] at key

/-- An aligned run of free pages lies in one free block, so a list of at least its order is not empty. -/
theorem Owned.exists_block {a : BuddyAllocator} {live : List (Nat × Nat)} {c : Nat → Nat} (h : Owned a live c)
    {order base : Nat} (ho : order < maxOrder) (ha : blockSize order ∣ base)
    (hfree : ∀ x, InBlock (base, order) x → FreeAt a x) :
    ∃ o, order ≤ o ∧ o < maxOrder ∧ a.freeLists o ≠ [] := by
  rw [blockSize_eq] at ha
  have hm : maxOrder = 11 := rfl
  obtain ⟨_, b, ⟨o, ho', rfl, hb⟩, hle, -⟩ := h.canonical.exists_block (by omega) (by omega) ha
    fun x hx => mem_cells_family.2 (hfree x (mem_span.1 hx))
  exact ⟨o, by omega, ho', List.ne_nil_of_mem hb⟩

/-- A block that goes from the free lists to a client was free, and the other free pages stay free. -/
theorem Owned.freeAt_taken {a a' : BuddyAllocator} {live : List (Nat × Nat)} {c : Nat → Nat} {b : Nat × Nat}
    (h : Owned a live c) (h' : Owned a' (b :: live) c) (x : Nat) :
    (InBlock b x → FreeAt a x) ∧ (FreeAt a' x ↔ FreeAt a x ∧ ¬ InBlock b x) := by
  -- the two sides of the balance of owners before and after
  have h1 := h.owner x
  have h2 := h'.owner x
  have h3 := h.once x
  rw [owners_append] at h1 h2
  rw [owners_cons] at h2
  have hfree : ∀ d : BuddyAllocator, FreeAt d x ↔ 0 < owners d.blocks x := fun _ => owners_pos.symm
  have hin : InBlock b x ↔ 0 < owners [b] x := by
    rw [owners_pos]
    simp
  rw [hfree, hfree, hin]
  omega

/-- No free block lies beside its buddy, so the free lists depend on the free pages only: once every block has been
returned they are those of `init`, and two runs with the same free pages have the same lists up to order. -/
theorem buddy_coalescing (hm : ValidMap memoryMap) (hr : FrameState.Reachable k memoryMap s) :
    (∀ o a, o < maxOrder - 1 → a ∈ s.alloc.freeLists o → a ^^^ blockSize o ∉ s.alloc.freeLists o) ∧
      (s.live = [] → ∀ o < maxOrder,
        (s.alloc.freeLists o).Perm ((FrameState.boot k memoryMap).alloc.freeLists o)) ∧
      ∀ (k' : KernelImage) (memoryMap' : List MemoryRegion) (s' : FrameState), ValidMap memoryMap' →
        FrameState.Reachable k' memoryMap' s' → (∀ x, FreeAt s.alloc x ↔ FreeAt s'.alloc x) →
          ∀ o < maxOrder, (s.alloc.freeLists o).Perm (s'.alloc.freeLists o) := by
  obtain ⟨c, h, hc⟩ := hr.owned hm
  refine ⟨fun o a ho => h.noBuddies o a (by omega), fun hlive o ho => ?_, fun k' map' s' hm' hr' hfree o ho => ?_⟩
  · obtain ⟨c₀, h₀, hc₀⟩ := FrameState.Reachable.owned hm (s := FrameState.boot k memoryMap)
      Relation.ReflTransGen.refl
    refine h.freeLists_perm h₀ (fun x => ?_) ho
    have e : ∀ a : BuddyAllocator, FreeAt a x ↔ 0 < owners (a.blocks ++ []) x := fun a => by
      rw [List.append_nil, owners_pos, FreeAt]
    rw [e, e, ← hlive, h.owner, hc, hlive]
    exact (by rw [← hc₀, ← h₀.owner]; exact Iff.rfl)
  · obtain ⟨c', h', -⟩ := hr'.owned hm'
    exact h.freeLists_perm h' hfree ho

/-- The other page is returned as well, and the three blocks become the block of `init` again. -/
theorem buddy_coalescing_sample :
    splitState.alloc.freeLists 0 = [0x200000] ∧ splitState.alloc.freeLists 2 = [] ∧
      (splitState.deallocate ⟨0x201000⟩ 0).alloc.freeLists 0 = [] ∧
      (splitState.deallocate ⟨0x201000⟩ 0).alloc.freeLists 2 = [0x200000] := by
  have hlive := split_eq.2
  have hr : FrameState.Reachable sampleKernel fourPages (splitState.deallocate ⟨0x201000⟩ 0) :=
    split_reachable.tail (.deallocate _ ⟨0x201000⟩ 0 (by simp [hlive]))
  obtain ⟨-, hall, -⟩ := buddy_coalescing fourPages_valid hr
  have hperm := hall (by simp [FrameState.deallocate, hlive])
  have hboot : (FrameState.boot sampleKernel fourPages).alloc.freeLists 0 = [] ∧
      (FrameState.boot sampleKernel fourPages).alloc.freeLists 2 = [0x200000] := by
    rw [four_boot]
    decide
  have hsplit : splitState.alloc.freeLists 0 = [0x200000] ∧ splitState.alloc.freeLists 2 = [] := by
    rw [splitState, four_boot]
    decide
  refine ⟨hsplit.1, hsplit.2, List.perm_nil.1 ?_, List.perm_singleton.1 ?_⟩
  · exact hboot.1 ▸ hperm 0 (by decide)
  · exact hboot.2 ▸ hperm 2 (by decide)

/-! ### When allocation fails -/

private theorem allocateFrom_error {a a' : BuddyAllocator} {order : Nat} {e : AllocError} {l : List Nat}
    (h : a.allocateFrom order l = (.error e, a')) : e = .outOfMemory ∧ a' = a := by
  induction l with
  | nil =>
    cases h
    exact ⟨rfl, rfl⟩
  | cons k l ih =>
    unfold BuddyAllocator.allocateFrom at h
    split at h
    · exact ih h
    · cases h

/-- An error says what was wrong with the order, and changes nothing. -/
theorem allocate_error {a a' : BuddyAllocator} {order : Nat} {e : AllocError}
    (h : a.allocate order = (.error e, a')) : (e = .invalidOrder ↔ maxOrder ≤ order) ∧ a' = a := by
  unfold BuddyAllocator.allocate at h
  split at h
  · rename_i ho
    cases h
    exact ⟨iff_of_true rfl ho, rfl⟩
  · rename_i ho
    obtain ⟨rfl, rfl⟩ := allocateFrom_error h
    exact ⟨iff_of_false (by decide) ho, rfl⟩

/-- In every state of every run `allocate` fails for want of memory exactly when no aligned run of `2 ^ order` pages
is free.  Otherwise it takes such a run, and nothing else, out of the free pages; an error changes nothing. -/
theorem allocate_complete (hm : ValidMap memoryMap) (hr : FrameState.Reachable k memoryMap s) (order : Nat) :
    (order < maxOrder →
      ((s.alloc.allocate order).1 = .error .outOfMemory ↔
        ¬ ∃ base, blockSize order ∣ base ∧ ∀ x, InBlock (base, order) x → FreeAt s.alloc x)) ∧
      (∀ frame a, s.alloc.allocate order = (.ok frame, a) →
        blockSize order ∣ frame.startAddress ∧
        (∀ x, InBlock (frame.startAddress, order) x → FreeAt s.alloc x) ∧
        (∀ x, FreeAt a x ↔ FreeAt s.alloc x ∧ ¬ InBlock (frame.startAddress, order) x) ∧
        a.freeFrames + 2 ^ order = s.alloc.freeFrames) ∧
      ∀ e a, s.alloc.allocate order = (.error e, a) → a = s.alloc := by
  obtain ⟨c, h, -⟩ := hr.owned hm
  refine ⟨fun ho => ?_, fun frame a hok => ?_, fun e a he => (allocate_error he).2⟩
  · obtain ⟨e, he, hempty⟩ | ⟨frame, a, hok, h', -⟩ := h.allocate order
    · have hoom : e = .outOfMemory := by
        have := (allocate_error he).1
        cases e with
        | outOfMemory => rfl
        | invalidOrder => exact absurd (this.1 rfl) (by omega)
      rw [he, hoom]
      refine iff_of_true rfl fun hrun => ?_
      obtain ⟨base, ha, hfree⟩ := hrun
      obtain ⟨o, hle, hlt, hne⟩ := h.exists_block ho ha hfree
      exact hne (hempty o hle hlt)
    · rw [hok]
      refine iff_of_false (by simp) fun hno => hno ⟨frame.startAddress, ?_, fun x => (h.freeAt_taken h' x).1⟩
      exact h'.aligned (frame.startAddress, order) (by simp)
  · obtain ⟨e, he, -⟩ | ⟨frame', a', hok', h', hcount⟩ := h.allocate order
    · rw [he] at hok
      cases hok
    · rw [hok'] at hok
      cases hok
      exact ⟨h'.aligned (frame.startAddress, order) (by simp), fun x => (h.freeAt_taken h' x).1,
        fun x => (h.freeAt_taken h' x).2, hcount⟩

theorem sample_free {x : Nat} (hx : FreeAt (FrameState.boot sampleKernel sampleMap).alloc x) :
    x / pageSize = 0x200 := by
  obtain ⟨⟨b, o⟩, hb, hin⟩ := hx
  rw [sample_init] at hb
  obtain ⟨-, hb⟩ := BuddyAllocator.mem_blocks.1 hb
  simp only [sampleAlloc, Function.update_apply] at hb
  split at hb
  · rename_i ho
    rw [List.mem_singleton] at hb
    simp only [InBlock, hb, ho, blockSize, pageSize, Nat.pow_zero] at hin ⊢
    omega
  · cases hb

/-- Three of the four pages are free: there is a run of two of them, and none of four. -/
theorem allocate_complete_sample :
    (splitState.alloc.allocate 2).1 = .error .outOfMemory ∧
      (splitState.alloc.allocate 1).1 ≠ .error .outOfMemory := by
  have hfree : ∀ x, FreeAt splitState.alloc x ↔ (0x200000 ≤ x ∧ x < 0x201000) ∨ (0x202000 ≤ x ∧ x < 0x204000) := by
    intro x
    simp [FreeAt, split_eq.1, InBlock, blockSize, pageSize]
  have hsize : blockSize 2 = 0x4000 := by decide
  refine ⟨((allocate_complete fourPages_valid split_reachable 2).1 (by decide)).2 ?_, fun hno => ?_⟩
  · rintro ⟨base, ha, hrun⟩
    have hin : ∀ x, InBlock (base, 2) x ↔ base ≤ x ∧ x < base + 0x4000 := fun x => by rw [InBlock, hsize]
    have h1 := (hfree _).1 (hrun base ((hin _).2 (by omega)))
    have h2 := (hfree _).1 (hrun (base + 0x1000) ((hin _).2 (by omega)))
    rw [hsize] at ha
    omega
  · refine ((allocate_complete fourPages_valid split_reachable 1).1 (by decide)).1 hno ⟨0x202000, by decide, ?_⟩
    intro x hx
    simp only [InBlock, blockSize, pageSize] at hx
    exact (hfree x).2 (Or.inr (by omega))

end Runs

end Hammam
