import Hammam.Lib.ByteMem
import Hammam.Mm.FrameInit
import Hammam.Mm.Paging

/-!
# From the boot information to the frame allocator (`main.rs`)

The boot loader describes the memory in a Multiboot2 information block: a list of tags of any kind, among them memory
maps.  `parse_multiboot2_memory_map` collects the entries of the maps in an array of 64 regions, which is what
`BuddyAllocator::init` gets.  `Tags` says what a well-formed block contains, independently of the loops of the parser.
-/

namespace Hammam

open ByteMem

/-! ### The parser -/

/-- `MAX_MEMORY_REGIONS`. -/
def maxMemoryRegions : Nat := 64

def read32 (m : Memory) (a : Nat) : Nat := readLE m 4 a

/-- An entry of a memory map, `Mb2MmapEntry`. -/
structure MapEntry where
  baseAddr : Nat
  length : Nat
  entryType : Nat
  deriving DecidableEq, Repr

def mapEntryAt (m : Memory) (a : Nat) : MapEntry := ⟨read64 m a, read64 m (a + 8), read32 m (a + 16)⟩

def MapEntry.kind (e : MapEntry) : MemoryKind :=
  match e.entryType with
  | 1 => .usable
  | 3 => .acpiReclaimable
  | 4 => .acpiNvs
  | _ => .reserved

def MapEntry.region (e : MapEntry) : MemoryRegion := ⟨e.baseAddr, (e.baseAddr + e.length) % 2 ^ 64, e.kind⟩

/-- The loop over the entries of one map, for at most `room` entries. -/
def entryLoop (m : Memory) (entriesStart entrySize entriesByteCount : Nat) : Nat → Nat → List MemoryRegion
  | 0, _ => []
  | room + 1, offset =>
    if offset + entrySize ≤ entriesByteCount then
      (mapEntryAt m (entriesStart + offset)).region ::
        entryLoop m entriesStart entrySize entriesByteCount room (offset + entrySize)
    else []

/-- `((tag_size + 7) & !7)` in `u32`. -/
def alignedSize (tagSize : Nat) : Nat := (tagSize + 7) % 2 ^ 32 / 8 * 8

/-- The loop over the tags, for at most `fuel` iterations: a tag of size 0 would be read again and again. -/
def tagLoop (m : Memory) (capacity end_ : Nat) : Nat → Nat → List MemoryRegion → Option (List MemoryRegion)
  | 0, _, _ => none
  | fuel + 1, tagPtr, regions =>
    if (tagPtr % 2 ^ 32 + 8) % 2 ^ 32 ≤ end_ then
      let tagType := read32 m tagPtr
      let tagSize := read32 m (tagPtr + 4)
      if tagType = 0 then some regions
      else
        let regions :=
          if tagType = 6 then
            regions ++ entryLoop m (tagPtr + 16) (read32 m (tagPtr + 8)) (tagSize - 16) (capacity - regions.length) 0
          else regions
        tagLoop m capacity end_ fuel (tagPtr + alignedSize tagSize) regions
    else some regions

/-- The part of `regions` that has been filled, for an array of `capacity` regions. -/
def parseMultiboot2MemoryMap (m : Memory) (mbiPtr capacity fuel : Nat) : Option (List MemoryRegion) :=
  let totalSize := read32 m mbiPtr
  tagLoop m capacity ((mbiPtr + totalSize) % 2 ^ 32) fuel ((mbiPtr + 8) % 2 ^ 32) []

/-! ### Well-formed information blocks -/

/-- The entries of a memory map of `size` bytes. -/
def mapEntries (m : Memory) (start entrySize size : Nat) : List MapEntry :=
  (List.range (size / entrySize)).map fun i => mapEntryAt m (start + i * entrySize)

/-- The tags from the address `a` on, up to the terminating one, with the entries of their memory maps.  A tag has at
least 8 bytes and lies below `end_`, and the next tag begins at the next multiple of 8 behind it. -/
inductive Tags (m : Memory) (end_ : Nat) : Nat → List MapEntry → Prop
  | terminator {a : Nat} : a + 8 ≤ end_ → read32 m a = 0 → Tags m end_ a []
  | other {a : Nat} {entries : List MapEntry} : read32 m a ≠ 0 → read32 m a ≠ 6 → 8 ≤ read32 m (a + 4) →
    a + read32 m (a + 4) ≤ end_ → Tags m end_ (a + (read32 m (a + 4) + 7) / 8 * 8) entries → Tags m end_ a entries
  | memoryMap {a : Nat} {entries : List MapEntry} : read32 m a = 6 → 8 ≤ read32 m (a + 4) →
    a + read32 m (a + 4) ≤ end_ → 24 ≤ read32 m (a + 8) →
    Tags m end_ (a + (read32 m (a + 4) + 7) / 8 * 8) entries →
    Tags m end_ a (mapEntries m (a + 16) (read32 m (a + 8)) (read32 m (a + 4) - 16) ++ entries)

/-- A well-formed information block at `mbiPtr` with the given entries in its memory maps. -/
structure BootInfo (m : Memory) (mbiPtr : Nat) (entries : List MapEntry) : Prop where
  ends : mbiPtr + read32 m mbiPtr < 2 ^ 32
  aligned : 8 ∣ mbiPtr
  tags : Tags m (mbiPtr + read32 m mbiPtr) (mbiPtr + 8) entries
  fits : entries.length ≤ maxMemoryRegions
  bounded : ∀ e ∈ entries, e.baseAddr + e.length ≤ 2 ^ 52
  disjoint : (entries.filter (·.entryType = 1)).Pairwise fun e e' =>
    ∀ x, e.baseAddr ≤ x → x < e.baseAddr + e.length → ¬ (e'.baseAddr ≤ x ∧ x < e'.baseAddr + e'.length)

/-- The pages that lie wholly inside an entry of type 1, except page 0 and the pages of the kernel. -/
def usablePages (k : KernelImage) (entries : List MapEntry) : Set Nat :=
  {n | n ≠ 0 ∧ ¬ (k.physStart ≤ n * pageSize ∧ n * pageSize < k.physEnd) ∧
    ∃ e ∈ entries, e.entryType = 1 ∧ e.baseAddr ≤ n * pageSize ∧ (n + 1) * pageSize ≤ e.baseAddr + e.length}

/-! ### What the parser finds -/

theorem entryLoop_eq {m : Memory} {start entrySize size : Nat} (he : 0 < entrySize) {room offset : Nat}
    (hroom : (size - offset) / entrySize ≤ room) :
    entryLoop m start entrySize size room offset =
      (List.range ((size - offset) / entrySize)).map fun i =>
        (mapEntryAt m (start + offset + i * entrySize)).region := by
  induction room generalizing offset with
  | zero =>
    rw [Nat.le_zero.1 hroom]
    rfl
  | succ room ih =>
    rw [entryLoop]
    by_cases hle : offset + entrySize ≤ size
    · have hdiv : (size - offset) / entrySize = (size - (offset + entrySize)) / entrySize + 1 := by
        rw [← Nat.sub_sub]
        exact Nat.div_eq_sub_div he (by omega)
      rw [if_pos hle, hdiv, List.range_succ_eq_map, List.map_cons, List.map_map, ih (by omega), Nat.zero_mul,
        Nat.add_zero]
      refine congrArg (List.cons _) (List.map_congr_left fun i _ => ?_)
      rw [Function.comp, Nat.succ_mul, show start + offset + (i * entrySize + entrySize) =
        start + (offset + entrySize) + i * entrySize by omega]
    · have hdiv : (size - offset) / entrySize = 0 := Nat.div_eq_of_lt (by omega)
      rw [if_neg hle, hdiv]
      rfl

private theorem entryLoop_mapEntries (m : Memory) (start : Nat) {entrySize size room : Nat} (he : 0 < entrySize)
    (hroom : (mapEntries m start entrySize size).length ≤ room) :
    entryLoop m start entrySize size room 0 = (mapEntries m start entrySize size).map MapEntry.region := by
  rw [mapEntries, List.length_map, List.length_range] at hroom
  rw [entryLoop_eq he hroom, mapEntries, List.map_map]
  rfl

private theorem alignedSize_eq {a tagSize : Nat} (h : a + tagSize < 2 ^ 32) (ha : 8 ≤ a) :
    alignedSize tagSize = (tagSize + 7) / 8 * 8 := by
  rw [alignedSize, Nat.mod_eq_of_lt (by omega)]

theorem Tags.le {m : Memory} {end_ a : Nat} {entries : List MapEntry} (h : Tags m end_ a entries) : a + 8 ≤ end_ := by
  cases h with
  | terminator hle _ => exact hle
  | other _ _ hsize hle _ => omega
  | memoryMap _ hsize hle _ _ => omega

/-- On a well-formed list of tags the parser ends, with the entries of the memory maps behind those it had. -/
theorem tagLoop_tags {m : Memory} {end_ a : Nat} {entries : List MapEntry} (h : Tags m end_ a entries)
    (hend : end_ < 2 ^ 32) (ha : 8 ≤ a) {capacity : Nat} {regions : List MemoryRegion}
    (hfit : regions.length + entries.length ≤ capacity) :
    ∃ n, ∀ fuel ≥ n, tagLoop m capacity end_ fuel a regions = some (regions ++ entries.map MapEntry.region) := by
  induction h generalizing regions with
  | terminator hle h0 =>
    refine ⟨1, fun fuel hf => ?_⟩
    obtain ⟨fuel, rfl⟩ := Nat.exists_eq_add_of_le' hf
    rw [tagLoop, if_pos (by omega)]
    simp [h0]
  | @other a entries h0 h6 hsize hle _ ih =>
    obtain ⟨n, hn⟩ := ih (by omega) hfit
    refine ⟨n + 1, fun fuel hf => ?_⟩
    obtain ⟨fuel, rfl⟩ : ∃ f, fuel = f + 1 := Nat.exists_eq_succ_of_ne_zero (by omega)
    rw [tagLoop, if_pos (by omega)]
    simp only [if_neg h0, if_neg h6, alignedSize_eq (show a + read32 m (a + 4) < 2 ^ 32 by omega) ha]
    exact hn fuel (by omega)
  | @memoryMap a entries h6 hsize hle hes _ ih =>
    rw [List.length_append] at hfit
    have hloop : (mapEntries m (a + 16) (read32 m (a + 8)) (read32 m (a + 4) - 16)).length ≤
        capacity - regions.length → _ := entryLoop_mapEntries m (a + 16) (by omega)
    replace hloop := hloop (by omega)
    generalize mapEntries m (a + 16) (read32 m (a + 8)) (read32 m (a + 4) - 16) = found at *
    have hfit' : (regions ++ found.map MapEntry.region).length + entries.length ≤ capacity := by
      rw [List.length_append, List.length_map]
      omega
    obtain ⟨n, hn⟩ := ih (by omega) hfit'
    refine ⟨n + 1, fun fuel hf => ?_⟩
    obtain ⟨fuel, rfl⟩ : ∃ f, fuel = f + 1 := Nat.exists_eq_succ_of_ne_zero (by omega)
    rw [tagLoop, if_pos (by omega)]
    simp only [h6, if_neg (show ¬ (6 = 0) by decide), if_true, hloop,
      alignedSize_eq (show a + read32 m (a + 4) < 2 ^ 32 by omega) ha]
    rw [hn fuel (by omega), List.map_append, List.append_assoc]

/-! ### The pages that are managed -/

/-- The number of free frames is the number of free pages. -/
theorem ncard_pages {s : BuddyAllocator} {c : Nat → Nat} (h : Owned s [] c) :
    {n | FreeAt s (n * pageSize)}.ncard = frames s.blocks := by
  have hmem : ∀ b ∈ s.blocks, ∀ n, PowBlock.Mem n (b.1 / pageSize) b.2 ↔ InBlock b (n * pageSize) := by
    intro b hb n
    have ha : pageSize ∣ b.1 :=
      dvd_trans (Dvd.intro_left _ rfl) (h.aligned b (List.mem_append_left _ hb))
    obtain ⟨q, hq⟩ := ha
    have hpos : 0 < pageSize := by decide
    rw [PowBlock.Mem, InBlock, blockSize, hq, Nat.mul_div_cancel_left q hpos, Nat.mul_comm pageSize q, ← Nat.add_mul,
      Nat.mul_le_mul_right_iff hpos, Nat.mul_lt_mul_right hpos]
  have hcover :
    ∀ n, PowBlock.cover (s.blocks.map fun b => (b.1 / pageSize, b.2)) n = owners s.blocks (n * pageSize) := by
    intro n
    rw [owners, PowBlock.cover, PowBlock.cover, List.countP_map, List.countP_map]
    refine List.countP_congr fun b hb => ?_
    simp only [Function.comp, decide_eq_true_eq, hmem b hb n, mem_span]
  have hset : {n | FreeAt s (n * pageSize)} =
      {n | 0 < PowBlock.cover (s.blocks.map fun b => (b.1 / pageSize, b.2)) n} := by
    ext n
    rw [Set.mem_ofPred_eq, Set.mem_ofPred_eq, hcover, owners_pos, FreeAt]
  have honce : ∀ n, PowBlock.cover (s.blocks.map fun b => (b.1 / pageSize, b.2)) n ≤ 1 := by
    intro n
    have h1 := h.owner (n * pageSize)
    rw [List.append_nil] at h1
    rw [hcover, h1]
    exact h.once _
  rw [hset, (PowBlock.ncard_cover honce).1, List.map_map]
  rfl

theorem kind_usable {e : MapEntry} : e.kind = .usable ↔ e.entryType = 1 := by
  unfold MapEntry.kind
  split <;> simp_all

namespace BootInfo

variable {m : Memory} {mbiPtr : Nat} {entries : List MapEntry}

private theorem region_end (h : BootInfo m mbiPtr entries) {e : MapEntry} (he : e ∈ entries) :
    e.region.end_ = e.baseAddr + e.length := by
  have := h.bounded e he
  exact Nat.mod_eq_of_lt (by omega)

/-- The regions that the parser finds are a valid memory map. -/
theorem validMap (h : BootInfo m mbiPtr entries) : ValidMap (entries.map MapEntry.region) where
  bounded := by
    intro r hr _
    obtain ⟨e, he, rfl⟩ := List.mem_map.1 hr
    rw [h.region_end he]
    exact ⟨Nat.le_add_right _ _, h.bounded e he⟩
  disjoint := by
    have hfilter : (entries.map MapEntry.region).filter (·.kind = .usable) =
        (entries.filter (·.entryType = 1)).map MapEntry.region := by
      rw [List.filter_map]
      refine congrArg (List.map MapEntry.region) (List.filter_congr fun e _ => ?_)
      simp [MapEntry.region, kind_usable]
    rw [hfilter, List.pairwise_map]
    refine h.disjoint.imp_of_mem fun {e e'} he he' hdisj => ?_
    rw [h.region_end (List.mem_of_mem_filter he), h.region_end (List.mem_of_mem_filter he')]
    exact hdisj

theorem initPages_eq (h : BootInfo m mbiPtr entries) (k : KernelImage) :
    initPages k (entries.map MapEntry.region) = usablePages k entries := by
  ext n
  simp only [initPages, usablePages, Set.mem_ofPred_eq, List.mem_map, exists_exists_and_eq_and]
  refine and_congr_right fun _ => and_congr_right fun _ => exists_congr fun e => and_congr_right fun he => ?_
  rw [h.region_end he, show e.region.kind = e.kind from rfl, kind_usable]
  rfl

end BootInfo

/-- On every well-formed information block the parser returns, and after `init` on its result the free pages are the
usable ones, each counted once. -/
theorem boot_memory_managed {m : Memory} {mbiPtr : Nat} {entries : List MapEntry} (h : BootInfo m mbiPtr entries)
    (k : KernelImage) :
    ∃ regions n, (∀ fuel ≥ n, parseMultiboot2MemoryMap m mbiPtr maxMemoryRegions fuel = some regions) ∧
      (∀ x, FreeAt (BuddyAllocator.new.init k regions) x ↔ x / pageSize ∈ usablePages k entries) ∧
      (BuddyAllocator.new.init k regions).totalFrames = (usablePages k entries).ncard ∧
      (BuddyAllocator.new.init k regions).freeFrames = (usablePages k entries).ncard := by
  have hends := h.ends
  have hstart := h.tags.le
  have hfit : ([] : List MemoryRegion).length + entries.length ≤ maxMemoryRegions := by
    rw [List.length_nil, Nat.zero_add]
    exact h.fits
  obtain ⟨n, hn⟩ := tagLoop_tags h.tags hends (by omega) hfit
  refine ⟨entries.map MapEntry.region, n, fun fuel hf => ?_, ?_⟩
  · rw [parseMultiboot2MemoryMap, Nat.mod_eq_of_lt hends, Nat.mod_eq_of_lt (by omega), hn fuel hf, List.nil_append]
  · obtain ⟨c, ho, hc⟩ := FrameState.Reachable.owned h.validMap (k := k) Relation.ReflTransGen.refl
    rw [h.initPages_eq] at hc
    have hfree : ∀ x, FreeAt (BuddyAllocator.new.init k (entries.map MapEntry.region)) x ↔
        x / pageSize ∈ usablePages k entries := by
      intro x
      rw [← hc, ← ho.owner, owners_pos]
      simp only [FrameState.boot, List.append_nil]
      rfl
    have hpages : {n | FreeAt (BuddyAllocator.new.init k (entries.map MapEntry.region)) (n * pageSize)} =
        usablePages k entries := by
      ext n
      rw [Set.mem_ofPred_eq, hfree, Nat.mul_div_cancel n (show 0 < pageSize by decide)]
    have hcard := ncard_pages ho
    refine ⟨hfree, ?_, ?_⟩
    · rw [← hpages]
      exact (ho.total.trans (by rw [show (FrameState.boot k _).live = [] from rfl, List.append_nil])).trans hcard.symm
    · rw [← hpages]
      exact ho.free.trans hcard.symm

/-- An information block at `0x9000` with one memory map of one entry: a usable page at 2 MiB. -/
def sampleInfo : Memory := fun x =>
  if 0x9000 ≤ x then
    [56, 0, 0, 0, 0, 0, 0, 0,
      6, 0, 0, 0, 40, 0, 0, 0, 24, 0, 0, 0, 0, 0, 0, 0,
      0, 0, 0x20, 0, 0, 0, 0, 0, 0, 0x10, 0, 0, 0, 0, 0, 0, 1, 0, 0, 0, 0, 0, 0, 0,
      0, 0, 0, 0, 8, 0, 0, 0].getD (x - 0x9000) 0
  else 0

theorem bootInfo_sample : BootInfo sampleInfo 0x9000 [⟨0x200000, 0x1000, 1⟩] where
  ends := by decide
  aligned := by decide
  tags := by
    have hmap : mapEntries sampleInfo (0x9008 + 16) (read32 sampleInfo (0x9008 + 8))
        (read32 sampleInfo (0x9008 + 4) - 16) ++ [] = [⟨0x200000, 0x1000, 1⟩] := by decide
    rw [← hmap]
    exact .memoryMap (by decide) (by decide) (by decide) (by decide) (.terminator (by decide) (by decide))
  fits := by decide
  bounded := by decide
  disjoint := List.pairwise_singleton _ _

theorem boot_memory_managed_sample :
    ∃ regions n,
      (∀ fuel ≥ n, parseMultiboot2MemoryMap sampleInfo 0x9000 maxMemoryRegions fuel = some regions) ∧
      FreeAt (BuddyAllocator.new.init sampleKernel regions) 0x200000 := by
  obtain ⟨regions, n, hparse, hfree, -, -⟩ := boot_memory_managed bootInfo_sample sampleKernel
  refine ⟨regions, n, hparse, (hfree 0x200000).2
    ⟨by decide, by decide, _, List.mem_singleton_self _, rfl, ?_, ?_⟩⟩ <;>
    decide

end Hammam
