import Hammam.Mm.FrameInit

/-!
# Where the frame allocator writes

The free lists are threaded through the free blocks, so freeing and splitting write to memory: to the block that
enters a list, and to the predecessor of a block that leaves one from the middle.  For each operation `…Writes`
lists the addresses of the blocks whose header it writes.

Every such block lies in a page that `init` was given (`Within`), and `init` writes a header to every block that it
leaves in a list.  The boot tables map the first GiB only, so the writes hit mapped memory exactly when all these
pages lie there.
-/

namespace Hammam

namespace BuddyAllocator

/-! ### The blocks written -/

/-- `remove_from_list` writes the header of the predecessor; before the first block there is only the list head. -/
def unlinkWrites (blockAddr : Nat) : List Nat → List Nat
  | prev :: node :: rest =>
    if prev = blockAddr then [] else if node = blockAddr then [prev] else unlinkWrites blockAddr (node :: rest)
  | _ => []

/-- The loop of `deallocate_internal`, as in `mergeBuddies`. -/
def mergeWrites (s : BuddyAllocator) (addr order : Nat) : Nat → List Nat
  | 0 => []
  | fuel + 1 =>
    let buddyAddr := addr ^^^ blockSize order
    match s.removeFromList order buddyAddr with
    | (true, s') =>
      unlinkWrites buddyAddr (s.freeLists order) ++ mergeWrites s' (min addr buddyAddr) (order + 1) fuel
    | (false, _) => []

def deallocateInternalWrites (s : BuddyAllocator) (frame : PhysFrame) (order : Nat) : List Nat :=
  s.mergeWrites frame.startAddress order (maxOrder - 1 - order) ++
    [(s.mergeBuddies frame.startAddress order (maxOrder - 1 - order)).2.1]

def deallocateWrites (s : BuddyAllocator) (frame : PhysFrame) (order : Nat) : List Nat :=
  if maxOrder ≤ order then [] else s.deallocateInternalWrites frame order

/-- The split loop of `allocate`, as in `splitBlock`. -/
def splitWrites (block order : Nat) : Nat → List Nat
  | 0 => []
  | n + 1 => (block + blockSize (order + n)) :: splitWrites block order n

def allocateFromWrites (s : BuddyAllocator) (order : Nat) : List Nat → List Nat
  | [] => []
  | current :: rest =>
    match s.freeLists current with
    | [] => s.allocateFromWrites order rest
    | block :: _ => splitWrites block order (current - order)

def allocateWrites (s : BuddyAllocator) (order : Nat) : List Nat :=
  if maxOrder ≤ order then [] else s.allocateFromWrites order (List.range' order (maxOrder - order))

def addRangeWrites (s : BuddyAllocator) (current rangeEnd : Nat) : List Nat :=
  if current < rangeEnd then
    let maxPages := (rangeEnd - current) / pageSize
    if maxPages = 0 then []
    else
      let order := chooseOrder maxPages current (maxOrder - 1)
      let s₁ := s.deallocateInternal ⟨current⟩ order
      s.deallocateInternalWrites ⟨current⟩ order ++
        addRangeWrites { s₁ with totalFrames := s₁.totalFrames + 2 ^ order } (current + blockSize order) rangeEnd
  else []
termination_by rangeEnd - current
decreasing_by
  have := blockSize_pos (chooseOrder ((rangeEnd - current) / pageSize) current (maxOrder - 1))
  omega

def addSubRangeWrites (s : BuddyAllocator) (rangeStart rangeEnd : Nat) : List Nat :=
  if rangeEnd ≤ rangeStart then []
  else s.addRangeWrites (if rangeStart = 0 then pageSize else rangeStart) rangeEnd

def addMemoryRegionWrites (s : BuddyAllocator) (k : KernelImage) (startAddr endAddr : Nat) : List Nat :=
  s.addSubRangeWrites startAddr (min endAddr k.physStart) ++
    (s.addSubRange startAddr (min endAddr k.physStart)).addSubRangeWrites (max startAddr k.physEnd) endAddr

def initRegionWrites (k : KernelImage) (s : BuddyAllocator) (region : MemoryRegion) : List Nat :=
  if region.kind ≠ .usable then []
  else if alignUp region.start < alignDown region.end_ then
    s.addMemoryRegionWrites k (alignUp region.start) (alignDown region.end_)
  else []

def initWrites (s : BuddyAllocator) (k : KernelImage) : List MemoryRegion → List Nat
  | [] => []
  | region :: memoryMap => initRegionWrites k s region ++ (initRegion k s region).initWrites k memoryMap

end BuddyAllocator

/-- Runs from `init`, with the addresses of all the blocks whose header has been written. -/
inductive HeaderRun (k : KernelImage) (memoryMap : List MemoryRegion) : FrameState → List Nat → Prop
  | boot : HeaderRun k memoryMap (FrameState.boot k memoryMap) (BuddyAllocator.new.initWrites k memoryMap)
  | allocate {s : FrameState} {writes : List Nat} (order : Nat) : HeaderRun k memoryMap s writes →
    HeaderRun k memoryMap (s.allocate order) (writes ++ s.alloc.allocateWrites order)
  | deallocate {s : FrameState} {writes : List Nat} (frame : PhysFrame) (order : Nat) :
    HeaderRun k memoryMap s writes → (frame.startAddress, order) ∈ s.live →
    HeaderRun k memoryMap (s.deallocate frame order) (writes ++ s.alloc.deallocateWrites frame order)

theorem HeaderRun.reachable {k : KernelImage} {memoryMap : List MemoryRegion} {s : FrameState} {writes : List Nat}
    (h : HeaderRun k memoryMap s writes) : FrameState.Reachable k memoryMap s := by
  induction h with
  | boot => exact Relation.ReflTransGen.refl
  | allocate order _ ih => exact ih.tail (.allocate _ order)
  | deallocate frame order _ hl ih => exact ih.tail (.deallocate _ frame order hl)

/-! ### Freeing and splitting -/

namespace BuddyAllocator

theorem mem_unlinkWrites {l : List Nat} {a w : Nat} (h : w ∈ unlinkWrites a l) : w ∈ l := by
  induction l with
  | nil => cases h
  | cons prev l ih =>
    cases l with
    | nil => cases h
    | cons node rest =>
      unfold unlinkWrites at h
      split at h
      · cases h
      · split at h
        · rw [List.mem_singleton.1 h]
          exact List.mem_cons_self
        · exact List.mem_cons_of_mem prev (ih h)

/-- The merge loop writes to blocks that were free. -/
theorem mem_mergeWrites {fuel : Nat} {s : BuddyAllocator} {addr order w : Nat} (hlt : order + fuel < maxOrder)
    (h : w ∈ s.mergeWrites addr order fuel) : ∃ j, j < maxOrder ∧ w ∈ s.freeLists j := by
  induction fuel generalizing s addr order with
  | zero => cases h
  | succ fuel ih =>
    by_cases hb : addr ^^^ blockSize order ∈ s.freeLists order
    · simp only [mergeWrites, removeFromList, if_pos hb, List.mem_append] at h
      rcases h with h | h
      · exact ⟨order, by omega, mem_unlinkWrites h⟩
      · obtain ⟨j, hj, hw⟩ := ih (by omega) h
        exact ⟨j, hj, mem_of_mem_unlink hw⟩
    · simp [mergeWrites, removeFromList, hb] at h

theorem mem_splitWrites {n block order w : Nat} (h : w ∈ splitWrites block order n) :
    ∃ j, order ≤ j ∧ j < order + n ∧ w = block + blockSize j := by
  induction n with
  | zero => cases h
  | succ n ih =>
    rcases List.mem_cons.1 h with rfl | h
    · exact ⟨order + n, by omega, by omega, rfl⟩
    · obtain ⟨j, h1, h2, h3⟩ := ih h
      exact ⟨j, h1, by omega, h3⟩

/-- The block that `deallocate_internal` inserts is free afterwards; the other blocks were free before. -/
theorem blocks_deallocateInternal (s : BuddyAllocator) (frame : PhysFrame) {order : Nat} (hk : order < maxOrder)
    (ha : blockSize order ∣ frame.startAddress) :
    ∃ k, ((s.mergeBuddies frame.startAddress order (maxOrder - 1 - order)).2.1, k) ∈
        (s.deallocateInternal frame order).blocks ∧
      ∀ b ∈ (s.deallocateInternal frame order).blocks,
        b ∈ s.blocks ∨ b.1 = (s.mergeBuddies frame.startAddress order (maxOrder - 1 - order)).2.1 := by
  have m := mergeBuddies_merged (maxOrder - 1 - order) s frame.startAddress order (by omega) ha
  unfold deallocateInternal
  rcases hr : s.mergeBuddies frame.startAddress order (maxOrder - 1 - order) with ⟨s₁, addr, k⟩
  rw [hr] at m
  have hle : k ≤ order + (maxOrder - 1 - order) := m.order_le.2
  have hp := s₁.blocks_push (show k < maxOrder by omega) addr
  refine ⟨k, hp.mem_iff.2 List.mem_cons_self, fun b hb => ?_⟩
  rcases List.mem_cons.1 (hp.mem_iff.1 hb) with rfl | hb
  · exact Or.inr rfl
  · obtain ⟨hj, hmem⟩ := mem_blocks.1 hb
    exact Or.inl (mem_blocks.2 ⟨hj, m.subset _ _ hmem⟩)

theorem mem_deallocateInternalWrites {s : BuddyAllocator} {frame : PhysFrame} {order w : Nat}
    (hk : order < maxOrder) (ha : blockSize order ∣ frame.startAddress)
    (h : w ∈ s.deallocateInternalWrites frame order) :
    ∃ b, (b ∈ s.blocks ∨ b ∈ (s.deallocateInternal frame order).blocks) ∧ b.1 = w := by
  rcases List.mem_append.1 h with h | h
  · obtain ⟨j, hj, hw⟩ := mem_mergeWrites (by omega) h
    exact ⟨(w, j), Or.inl (mem_blocks.2 ⟨hj, hw⟩), rfl⟩
  · obtain ⟨k, hmem, -⟩ := s.blocks_deallocateInternal frame hk ha
    exact ⟨_, Or.inr hmem, (List.mem_singleton.1 h).symm⟩

private theorem mem_allocateFromWrites {s : BuddyAllocator} {order w : Nat} {l : List Nat}
    (hl : ∀ o ∈ l, order ≤ o ∧ o < maxOrder) (h : w ∈ s.allocateFromWrites order l) :
    ∃ j < maxOrder, w ∈ (s.allocateFrom order l).2.freeLists j := by
  induction l with
  | nil => cases h
  | cons current l ih =>
    obtain ⟨h1, h2⟩ := hl current List.mem_cons_self
    unfold allocateFromWrites at h
    unfold allocateFrom
    cases hf : s.freeLists current with
    | nil =>
      simp only [hf] at h ⊢
      exact ih (fun o ho => hl o (List.mem_cons_of_mem current ho)) h
    | cons block next =>
      simp only [hf] at h ⊢
      obtain ⟨j, hj, hlt, rfl⟩ := mem_splitWrites h
      have m := splitBlock_split (current - order) (s.setList current next) block order (by omega)
      exact ⟨j, by omega, (m.mem j _).2 (Or.inr ⟨hj, hlt, rfl⟩)⟩

/-- `allocate` writes to blocks that are free afterwards. -/
theorem mem_allocateWrites {s : BuddyAllocator} {order w : Nat} (h : w ∈ s.allocateWrites order) :
    ∃ b ∈ (s.allocate order).2.blocks, b.1 = w := by
  unfold allocateWrites at h
  unfold allocate
  split at h
  · cases h
  · next hk =>
    rw [if_neg hk]
    have hl : ∀ o ∈ List.range' order (maxOrder - order), order ≤ o ∧ o < maxOrder := by
      intro o ho
      rw [List.mem_range'_1] at ho
      omega
    obtain ⟨j, hj, hw⟩ := mem_allocateFromWrites hl h
    exact ⟨(w, j), mem_blocks.2 ⟨hj, hw⟩, rfl⟩

end BuddyAllocator

/-! ### Initialisation -/

/-- All the blocks and all the writes lie in the pages of `P`, and every block has been written. -/
private structure Within (P : Set Nat) (s : BuddyAllocator) (writes : List Nat) : Prop where
  aligned : ∀ b ∈ s.blocks, blockSize b.2 ∣ b.1
  noBuddies : NoBuddies s
  inside : ∀ b ∈ s.blocks, ∀ x, InBlock b x → x / pageSize ∈ P
  inPages : ∀ w ∈ writes, w / pageSize ∈ P
  written : ∀ b ∈ s.blocks, b.1 ∈ writes

namespace Within

variable {P : Set Nat} {s : BuddyAllocator} {writes : List Nat}

private theorem inBlock_head (b : Nat × Nat) : InBlock b b.1 :=
  ⟨Nat.le_refl _, Nat.lt_add_of_pos_right (BuddyAllocator.blockSize_pos b.2)⟩

private theorem new : Within P BuddyAllocator.new [] := by
  have e : BuddyAllocator.new.blocks = [] := List.flatMap_eq_nil_iff.2 fun _ _ => rfl
  refine ⟨?_, fun _ _ _ h => absurd h List.not_mem_nil, ?_, ?_, ?_⟩ <;> simp [e]

private theorem dealloc (h : Within P s writes) {frame : PhysFrame} {order : Nat} (hk : order < maxOrder)
    (ha : blockSize order ∣ frame.startAddress)
    (hin : ∀ x, InBlock (frame.startAddress, order) x → x / pageSize ∈ P) :
    Within P (s.deallocateInternal frame order) (writes ++ s.deallocateInternalWrites frame order) := by
  obtain ⟨d1, d2, -, -, -, d6⟩ := deallocateInternal_spec s frame order hk ha h.aligned h.noBuddies
  have hinside : ∀ b ∈ (s.deallocateInternal frame order).blocks, ∀ x, InBlock b x → x / pageSize ∈ P := by
    intro b hb x hx
    have hpos : 0 < owners ((frame.startAddress, order) :: s.blocks) x := by
      rw [← d2]
      exact owners_pos.2 ⟨b, hb, hx⟩
    obtain ⟨b', hb', hx'⟩ := owners_pos.1 hpos
    rcases List.mem_cons.1 hb' with rfl | hb'
    · exact hin x hx'
    · exact h.inside b' hb' x hx'
  refine ⟨d1, d6, hinside, fun w hw => ?_, fun b hb => ?_⟩
  · rcases List.mem_append.1 hw with hw | hw
    · exact h.inPages w hw
    · obtain ⟨b, hb | hb, rfl⟩ := BuddyAllocator.mem_deallocateInternalWrites hk ha hw
      · exact h.inside b hb _ (inBlock_head b)
      · exact hinside b hb _ (inBlock_head b)
  · obtain ⟨k, -, hblocks⟩ := s.blocks_deallocateInternal frame hk ha
    rcases hblocks b hb with hb | hb
    · exact List.mem_append_left _ (h.written b hb)
    · refine List.mem_append_right _ (List.mem_append_right _ ?_)
      rw [hb]
      exact List.mem_singleton_self _

private theorem addRange {rangeEnd : Nat} (s : BuddyAllocator) (current : Nat) :
    ∀ writes : List Nat, Within P s writes → pageSize ∣ current →
      (∀ x, current ≤ x → x < rangeEnd → x / pageSize ∈ P) →
      Within P (s.addRange current rangeEnd) (writes ++ s.addRangeWrites current rangeEnd) := by
  induction s, current using BuddyAllocator.addRange.induct rangeEnd with
  | case1 s current hlt maxPages h0 =>
    intro writes h _ _
    rw [BuddyAllocator.addRange, BuddyAllocator.addRangeWrites, if_pos hlt, if_pos hlt]
    simp only [maxPages] at h0
    rw [if_pos h0, if_pos h0, List.append_nil]
    exact h
  | case2 s current hlt maxPages h0 order s₁ ih =>
    intro writes h hcur hin
    obtain ⟨hk, ha, hbs, hdvd⟩ := chooseOrder_range hcur h0
    have hbs : blockSize order ≤ rangeEnd - current := hbs
    have hpos := BuddyAllocator.blockSize_pos order
    have hblock : ∀ x, InBlock (current, order) x → x / pageSize ∈ P := by
      intro x hx
      have hend : x < current + blockSize order := hx.2
      exact hin x hx.1 (by omega)
    have hstep : Within P (s.deallocateInternal ⟨current⟩ order)
        (writes ++ s.deallocateInternalWrites ⟨current⟩ order) :=
      h.dealloc hk ha hblock
    have := ih _ ⟨hstep.aligned, hstep.noBuddies, hstep.inside, hstep.inPages, hstep.written⟩ hdvd
      fun x h1 h2 => hin x (by omega) h2
    rw [BuddyAllocator.addRange, BuddyAllocator.addRangeWrites, if_pos hlt, if_pos hlt]
    simp only [maxPages] at h0
    rw [if_neg h0, if_neg h0, ← List.append_assoc]
    exact this
  | case3 s current hge =>
    intro writes h _ _
    rw [BuddyAllocator.addRange, BuddyAllocator.addRangeWrites, if_neg hge, if_neg hge, List.append_nil]
    exact h

private theorem addSubRange (h : Within P s writes) {a b : Nat} (ha : pageSize ∣ a)
    (hin : ∀ x, a ≤ x → x < b → pageSize ≤ x → x / pageSize ∈ P) :
    Within P (s.addSubRange a b) (writes ++ s.addSubRangeWrites a b) := by
  unfold BuddyAllocator.addSubRange BuddyAllocator.addSubRangeWrites
  split
  · rw [List.append_nil]
    exact h
  · by_cases h0 : a = 0
    · rw [if_pos h0]
      exact addRange s _ _ h (dvd_refl _) fun x h1 h2 => hin x (by omega) h2 h1
    · have hle : pageSize ≤ a := Nat.le_of_dvd (Nat.pos_of_ne_zero h0) ha
      rw [if_neg h0]
      exact addRange s _ _ h ha fun x h1 h2 => hin x h1 h2 (by omega)

private theorem initRegion (h : Within P s writes) (k : KernelImage) {r : MemoryRegion} (hin : regionPages k r ⊆ P) :
    Within P (s.initRegion k r) (writes ++ s.initRegionWrites k r) := by
  have hle := k.start_le_end
  unfold BuddyAllocator.initRegion BuddyAllocator.initRegionWrites
  by_cases hkind : r.kind = .usable
  · rw [if_neg (not_not.2 hkind), if_neg (not_not.2 hkind)]
    have hup : pageSize ∣ BuddyAllocator.alignUp r.start := Dvd.intro_left _ rfl
    have hmax : pageSize ∣ max (BuddyAllocator.alignUp r.start) k.physEnd := by
      rcases max_choice (BuddyAllocator.alignUp r.start) k.physEnd with e | e <;> rw [e]
      exacts [hup, k.end_aligned]
    split
    · rw [BuddyAllocator.addMemoryRegionWrites, ← List.append_assoc]
      refine (h.addSubRange hup fun x h1 h2 h3 => ?_).addSubRange hmax fun x h1 h2 h3 => ?_
      · exact hin ((mem_regionPages k hkind x).2 ⟨h3, by omega, h1, by omega⟩)
      · exact hin ((mem_regionPages k hkind x).2 ⟨h3, by omega, by omega, h2⟩)
    · rw [List.append_nil]
      exact h
  · rw [if_pos hkind, if_pos hkind, List.append_nil]
    exact h

/-- The blocks and the writes of `init` lie in its pages. -/
private theorem init (k : KernelImage) {memoryMap : List MemoryRegion} (h : Within P s writes)
    (hin : ∀ r ∈ memoryMap, regionPages k r ⊆ P) :
    Within P (s.init k memoryMap) (writes ++ s.initWrites k memoryMap) := by
  induction memoryMap generalizing s writes with
  | nil =>
    rw [BuddyAllocator.initWrites, List.append_nil]
    exact h
  | cons r memoryMap ih =>
    rw [BuddyAllocator.initWrites, ← List.append_assoc]
    exact ih (h.initRegion k (hin r List.mem_cons_self)) fun r' hr' => hin r' (List.mem_cons_of_mem r hr')

end Within

/-! ### Runs -/

section Runs

variable {k : KernelImage} {memoryMap : List MemoryRegion} {s : FrameState} {writes : List Nat}

private theorem within_boot (k : KernelImage) (memoryMap : List MemoryRegion) :
    Within (initPages k memoryMap) (FrameState.boot k memoryMap).alloc
      (BuddyAllocator.new.initWrites k memoryMap) := by
  have h := Within.init (P := initPages k memoryMap) k Within.new fun r hr n hn => mem_initPages.2 ⟨r, hr, hn⟩
  rwa [List.nil_append] at h

/-- In every state of every run the blocks lie in the pages of `init`. -/
private theorem head_mem_initPages (hm : ValidMap memoryMap) (hr : FrameState.Reachable k memoryMap s)
    {b : Nat × Nat} (hb : b ∈ s.alloc.blocks) : b.1 / pageSize ∈ initPages k memoryMap := by
  obtain ⟨c, h, hc⟩ := hr.owned hm
  rw [← hc, ← h.owner]
  exact owners_pos.2 ⟨b, List.mem_append_left _ hb, Within.inBlock_head b⟩

/-- Every block whose header is written lies in a page that `init` has added. -/
theorem HeaderRun.inPages (hm : ValidMap memoryMap) (h : HeaderRun k memoryMap s writes) :
    ∀ w ∈ writes, w / pageSize ∈ initPages k memoryMap := by
  induction h with
  | boot => exact (within_boot k memoryMap).inPages
  | @allocate s writes order hr ih =>
    intro w hw
    rcases List.mem_append.1 hw with hw | hw
    · exact ih w hw
    · obtain ⟨b, hb, rfl⟩ := BuddyAllocator.mem_allocateWrites hw
      have halloc : (s.allocate order).alloc = (s.alloc.allocate order).2 := by
        unfold FrameState.allocate
        split <;> simp_all
      exact head_mem_initPages hm (hr.allocate order).reachable (halloc ▸ hb)
  | @deallocate s writes frame order hr hl ih =>
    intro w hw
    rcases List.mem_append.1 hw with hw | hw
    · exact ih w hw
    · obtain ⟨c, ho, -⟩ := hr.reachable.owned hm
      have hk := ho.live_order _ hl
      have ha := ho.aligned _ (List.mem_append_right _ hl)
      rw [BuddyAllocator.deallocateWrites, if_neg (Nat.not_le.2 hk)] at hw
      obtain ⟨b, hb | hb, rfl⟩ := BuddyAllocator.mem_deallocateInternalWrites hk ha hw
      · exact head_mem_initPages hm hr.reachable hb
      · have hdealloc : (s.deallocate frame order).alloc = s.alloc.deallocateInternal frame order := by
          rw [FrameState.deallocate, BuddyAllocator.deallocate, if_neg (Nat.not_le.2 hk)]
        exact head_mem_initPages hm (hr.deallocate frame order hl).reachable (hdealloc ▸ hb)

theorem HeaderRun.init_written (h : HeaderRun k memoryMap s writes) :
    ∀ w ∈ BuddyAllocator.new.initWrites k memoryMap, w ∈ writes := by
  induction h with
  | boot => exact fun w hw => hw
  | allocate order _ ih => exact fun w hw => List.mem_append_left _ (ih w hw)
  | deallocate frame order _ _ ih => exact fun w hw => List.mem_append_left _ (ih w hw)

/-- The end of the memory that the boot code maps to itself: 512 pages of 2 MiB. -/
def identityMapEnd : Nat := 512 * 0x200000

/-- The block of a page beyond the mapped memory begins beyond it, too. -/
private theorem head_beyond {b : Nat × Nat} (ho : b.2 < maxOrder) (ha : blockSize b.2 ∣ b.1) {x : Nat}
    (hx : InBlock b x) (hle : identityMapEnd ≤ x) : identityMapEnd ≤ b.1 := by
  by_contra hlt
  have hdvd : blockSize b.2 ∣ identityMapEnd := by
    rw [blockSize_eq]
    exact Nat.pow_dvd_pow 2 (show b.2 + 12 ≤ 30 by unfold maxOrder at ho; omega)
  obtain ⟨q, hq⟩ := ha
  obtain ⟨e, he⟩ := hdvd
  have hpos := BuddyAllocator.blockSize_pos b.2
  have hqe : q < e := by
    by_contra hge
    have := Nat.mul_le_mul_left (blockSize b.2) (Nat.le_of_not_lt hge)
    omega
  have := Nat.mul_le_mul_left (blockSize b.2) (Nat.succ_le_of_lt hqe)
  rw [Nat.mul_succ] at this
  have hend := hx.2
  omega

/-- For a page beyond the mapped memory `init` writes a header there. -/
private theorem init_writes_beyond (hm : ValidMap memoryMap) {n : Nat} (hn : n ∈ initPages k memoryMap)
    (hle : identityMapEnd ≤ n * pageSize) :
    ∃ w ∈ BuddyAllocator.new.initWrites k memoryMap, identityMapEnd ≤ w := by
  obtain ⟨c, h, hc⟩ := FrameState.Reachable.owned hm (s := FrameState.boot k memoryMap) Relation.ReflTransGen.refl
  have hpos : 0 < owners ((FrameState.boot k memoryMap).alloc.blocks ++ []) (n * pageSize) := by
    rw [show ([] : List (Nat × Nat)) = (FrameState.boot k memoryMap).live from rfl, h.owner, hc,
      Nat.mul_div_cancel n (show 0 < pageSize by decide)]
    exact hn
  obtain ⟨b, hb, hx⟩ := owners_pos.1 hpos
  rw [List.append_nil] at hb
  have hbegin := head_beyond (BuddyAllocator.mem_blocks.1 hb).1 (h.aligned b (List.mem_append_left _ hb)) hx hle
  exact ⟨b.1, (within_boot k memoryMap).written b hb, hbegin⟩

/-- All the headers that a run writes lie in mapped memory exactly if all the pages of `init` do. -/
theorem header_writes_mapped_iff (hm : ValidMap memoryMap) (h : HeaderRun k memoryMap s writes) :
    (∀ w ∈ writes, w < identityMapEnd) ↔ ∀ n ∈ initPages k memoryMap, (n + 1) * pageSize ≤ identityMapEnd := by
  have hend : pageSize ∣ identityMapEnd := by decide
  constructor
  · intro hw n hn
    by_contra hgt
    have hle : identityMapEnd ≤ n * pageSize := by
      obtain ⟨e, he⟩ := hend
      rw [he, Nat.mul_comm pageSize] at hgt ⊢
      exact Nat.mul_le_mul_right pageSize (Nat.le_of_lt_succ (Nat.lt_of_mul_lt_mul_right (Nat.lt_of_not_le hgt)))
    obtain ⟨w, hmem, hge⟩ := init_writes_beyond hm hn hle
    exact absurd (hw w (h.init_written w hmem)) (Nat.not_lt.2 hge)
  · intro hp w hw
    have hpage := hp _ (h.inPages hm w hw)
    rw [Nat.succ_mul] at hpage
    have hlt : w < w / pageSize * pageSize + pageSize := Nat.lt_div_mul_add (by decide)
    exact Nat.lt_of_lt_of_le hlt hpage

/-- The theorem at the sample map, whose page lies below 1 GiB. -/
theorem header_writes_mapped_sample :
    (BuddyAllocator.new.initWrites sampleKernel sampleMap).all (· < identityMapEnd) = true := by
  have hlow : ∀ n ∈ initPages sampleKernel sampleMap, (n + 1) * pageSize ≤ identityMapEnd := by
    intro n hn
    obtain ⟨-, -, r, hr, -, -, hend⟩ := hn
    rw [List.mem_singleton.1 hr] at hend
    exact hend.trans (by decide)
  have hmapped := (header_writes_mapped_iff sampleMap_valid .boot).2 hlow
  exact List.all_eq_true.2 fun w hw => decide_eq_true (hmapped w hw)

/-- A machine with one usable page at 1 GiB. -/
def highMap : List MemoryRegion := [⟨0x40000000, 0x40001000, .usable⟩]

theorem highMap_writes_unmapped :
    ¬ ∀ k memoryMap s writes, ValidMap memoryMap → HeaderRun k memoryMap s writes →
      ∀ w ∈ writes, w < identityMapEnd := by
  intro hall
  have hm : ValidMap highMap := ⟨by simp [highMap], by simp [highMap]⟩
  have hn : 0x40000 ∈ initPages sampleKernel highMap :=
    ⟨by decide, by decide, _, List.mem_singleton_self _, rfl, by decide, by decide⟩
  obtain ⟨w, hw, hge⟩ := init_writes_beyond hm hn (by decide)
  exact absurd (hall sampleKernel highMap _ _ hm .boot w hw) (Nat.not_lt.2 hge)

end Runs

end Hammam
