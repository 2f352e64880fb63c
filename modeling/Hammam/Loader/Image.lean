import Hammam.Loader.Isolation
import Hammam.Loader.TwinCalls

/-!
# The segment image

The loader handles one segment after another, and each maps all its pages to new frames, whatever is there already.
So if a segment starts on the page on which an earlier one ends, the bytes of the earlier one on that page are gone:
the page now shows what its new frame held, apart from the bytes of the later segment.

The tables that the calls of `map_page` build are read and written in physical memory (`get_table` is taken to reach
their frames); the bytes of a segment go through the tables that are in force when they are copied.
-/

namespace Hammam

open Fallible

theorem pageNo_eq (v : Nat) : pageNo v = v % 2 ^ 48 / 4096 := by
  rw [pageNo]
  omega

namespace VMem

theorem foldl_forget_of_not_mem {g : VMem} {l : List Nat} {a : Nat} (h : a / 4096 ∉ l) :
    l.foldl forget g a = g a := by
  induction l generalizing g with
  | nil => rfl
  | cons p l ih =>
    rw [List.mem_cons, not_or] at h
    rw [List.foldl_cons, ih h.2]
    exact if_neg h.1

theorem storeBytes_of_not_mem {g : VMem} {v a : Nat} {bytes : List UInt8}
    (h : ∀ i < bytes.length, a ≠ (v + i) % 2 ^ 48) : g.storeBytes v bytes a = g a := by
  induction bytes generalizing g v with
  | nil => rfl
  | cons b bytes ih =>
    rw [storeBytes, ih, store, Function.update_of_ne]
    · exact h 0 (Nat.succ_pos _)
    · intro i hi
      have := h (i + 1) (Nat.succ_lt_succ hi)
      rw [nextAddr]
      omega

theorem storeBytes_of_mem {g : VMem} {v i : Nat} {bytes : List UInt8} (hlen : bytes.length ≤ 2 ^ 48)
    (hi : i < bytes.length) : g.storeBytes v bytes ((v + i) % 2 ^ 48) = bytes[i]? := by
  induction bytes generalizing g v i with
  | nil => exact absurd hi (Nat.not_lt_zero i)
  | cons b bytes ih =>
    rw [List.length_cons] at hlen hi
    rw [storeBytes]
    cases i with
    | zero =>
      rw [storeBytes_of_not_mem, store, Nat.add_zero, Function.update_self, List.getElem?_cons_zero]
      intro i hi
      rw [nextAddr]
      omega
    | succ i =>
      have hnext : (v + (i + 1)) % 2 ^ 48 = (nextAddr v + i) % 2 ^ 48 := by
        rw [nextAddr]
        omega
      rw [hnext, ih (by omega) (by omega), List.getElem?_cons_succ]

end VMem

/-! ### One segment -/

/-- Two canonical addresses differ in bits 0 to 47. -/
theorem canonicalAddr_inj {a b : Nat} (ha : canonicalAddr a) (hb : canonicalAddr b) (h : a % 2 ^ 48 = b % 2 ^ 48) :
    a = b := by
  simp only [canonicalAddr, Bool.or_eq_true, Bool.and_eq_true, decide_eq_true_eq] at ha hb
  omega

namespace ProgramHeader

variable {ph : ProgramHeader} {loadOffset : Nat} {data : List UInt8}

/-- The number of bytes that are written for the segment. -/
def extent (ph : ProgramHeader) : Nat := max ph.fileSize ph.memSize

/-- The byte `i` of the segment: from the file, and zero behind that. -/
def byte (ph : ProgramHeader) (data : List UInt8) (i : Nat) : Option UInt8 :=
  if i < ph.fileSize then data[ph.offset + i]? else some 0

/-- No address of the segment overflows, and its bytes in the file go to its own pages. -/
structure Tidy (ph : ProgramHeader) (loadOffset : Nat) : Prop where
  noWrap : ph.vaddr loadOffset + ph.extent + 0xFFF < 2 ^ 64
  own : ∀ i < ph.fileSize, pageNo (ph.vaddr loadOffset + i) ∈ ph.pages loadOffset

theorem Tidy.of_le (hle : ph.fileSize ≤ ph.memSize) (h : ph.vaddr loadOffset + ph.memSize + 0xFFF < 2 ^ 64) :
    ph.Tidy loadOffset := by
  refine ⟨?_, fun i hi => mem_pages (Nat.lt_of_lt_of_le hi hle)⟩
  rwa [extent, Nat.max_eq_right hle]

theorem Tidy.sane (h : ph.Tidy loadOffset) : ph.Sane loadOffset := by
  have hwrap := h.noWrap
  rw [extent] at hwrap
  exact ⟨by omega, by omega⟩

theorem Tidy.page_mem (h : ph.Tidy loadOffset) {i : Nat} (hi : i < ph.extent) :
    (ph.vaddr loadOffset + i) % 2 ^ 48 / 4096 ∈ ph.pages loadOffset := by
  rw [← pageNo_eq]
  by_cases hf : i < ph.fileSize
  · exact h.own i hf
  · rw [extent] at hi
    exact mem_pages (by omega)

/-- The addresses of a segment that has been loaded are canonical. -/
theorem Loadable.canonicalAddr (hl : ph.Loadable loadOffset data) (ht : ph.Tidy loadOffset) {i : Nat}
    (hi : i < ph.extent) :
    canonicalAddr (ph.vaddr loadOffset + i) := by
  have hwrap := ht.noWrap
  have := hl.canonical i hi
  rwa [Nat.mod_eq_of_lt (by omega)] at this

/-- So there are not too many of them. -/
theorem Loadable.extent_le (hl : ph.Loadable loadOffset data) (ht : ph.Tidy loadOffset) : ph.extent ≤ 2 ^ 48 := by
  refine Classical.byContradiction fun hlt => ?_
  have h0 := hl.canonicalAddr ht (i := 0) (by omega)
  have h1 := hl.canonicalAddr ht (i := 2 ^ 48) (by omega)
  have := canonicalAddr_inj h0 h1 (by omega)
  omega

theorem Loadable.byte_isSome (hl : ph.Loadable loadOffset data) (i : Nat) : ∃ b, ph.byte data i = some b := by
  unfold byte
  split
  · have := (hl.inFile (by omega)).1
    exact ⟨_, List.getElem?_eq_getElem (by omega)⟩
  · exact ⟨0, rfl⟩

end ProgramHeader

namespace VMem

variable {g : VMem} {ph : ProgramHeader} {loadOffset : Nat} {data : List UInt8} {a : Nat}

/-- Copying and clearing write the bytes of the segment only. -/
private theorem fill_of_not_mem (hne : ∀ i < ph.extent, a ≠ (ph.vaddr loadOffset + i) % 2 ^ 48) :
    (g.copySegment data loadOffset ph).clearSegment loadOffset ph a = g a := by
  have hcopy : g.copySegment data loadOffset ph a = g a := by
    unfold copySegment
    split
    · refine storeBytes_of_not_mem fun i hi => hne i ?_
      rw [ProgramHeader.bytes, List.length_take] at hi
      rw [ProgramHeader.extent]
      omega
    · rfl
  unfold clearSegment
  split
  · rw [storeBytes_of_not_mem, hcopy]
    intro i hi
    rw [List.length_replicate] at hi
    rw [Nat.add_assoc]
    refine hne _ ?_
    rw [ProgramHeader.extent]
    omega
  · exact hcopy

/-- A segment leaves the other pages alone. -/
theorem segment_of_not_mem (ht : ph.Tidy loadOffset) (h : a / 4096 ∉ ph.pages loadOffset) :
    g.segment data loadOffset ph a = g a := by
  rw [segment, fill_of_not_mem, foldl_forget_of_not_mem h]
  intro i hi he
  rw [he] at h
  exact h (ht.page_mem hi)

/-- On its own pages only its own bytes are known. -/
theorem segment_of_slack (hp : a / 4096 ∈ ph.pages loadOffset)
    (hne : ∀ i < ph.extent, a ≠ (ph.vaddr loadOffset + i) % 2 ^ 48) : g.segment data loadOffset ph a = none := by
  rw [segment, fill_of_not_mem hne, foldl_forget_of_mem hp]

theorem segment_of_mem (ht : ph.Tidy loadOffset) (hl : ph.Loadable loadOffset data) {i : Nat} (hi : i < ph.extent) :
    g.segment data loadOffset ph ((ph.vaddr loadOffset + i) % 2 ^ 48) = ph.byte data i := by
  have hlen := hl.extent_le ht
  have hextent : ph.extent = max ph.fileSize ph.memSize := rfl
  rw [segment, ProgramHeader.byte]
  by_cases hf : i < ph.fileSize
  · have hbytes : (ph.bytes data).length = ph.fileSize := by
      have := (hl.inFile (by omega)).1
      rw [ProgramHeader.bytes, List.length_take, List.length_drop]
      omega
    have hcopy : ∀ g' : VMem, g'.copySegment data loadOffset ph ((ph.vaddr loadOffset + i) % 2 ^ 48) =
        data[ph.offset + i]? := by
      intro g'
      rw [copySegment, if_pos (by omega), storeBytes_of_mem (by omega) (by omega), ProgramHeader.bytes,
        List.getElem?_take_of_lt hf, List.getElem?_drop]
    rw [if_pos hf, clearSegment]
    split
    · rw [storeBytes_of_not_mem, hcopy]
      intro j hj
      rw [List.length_replicate] at hj
      omega
    · exact hcopy _
  · -- behind the bytes of the file
    rw [if_neg hf, clearSegment, if_pos (by omega),
      show ph.vaddr loadOffset + i = ph.vaddr loadOffset + ph.fileSize + (i - ph.fileSize) by omega,
      storeBytes_of_mem (by rw [List.length_replicate]; omega) (by rw [List.length_replicate]; omega),
      List.getElem?_replicate_of_lt (by omega)]

/-! ### All segments -/

/-- Later segments on other pages. -/
theorem segments_of_not_mem {segs : List ProgramHeader} (ht : ∀ ph ∈ segs, ph.Tidy loadOffset)
    (h : ∀ ph ∈ segs, a / 4096 ∉ ph.pages loadOffset) :
    segs.foldl (fun g ph => g.segment data loadOffset ph) g a = g a := by
  induction segs generalizing g with
  | nil => rfl
  | cons ph segs ih =>
    rw [List.forall_mem_cons] at ht h
    rw [List.foldl_cons, ih ht.2 h.2, segment_of_not_mem ht.1 h.1]

/-- A later segment on the same page. -/
theorem segments_of_slack {segs : List ProgramHeader} (ht : ∀ ph ∈ segs, ph.Tidy loadOffset)
    (hne : ∀ ph ∈ segs, ∀ i < ph.extent, a ≠ (ph.vaddr loadOffset + i) % 2 ^ 48)
    (h : ∃ ph ∈ segs, a / 4096 ∈ ph.pages loadOffset) :
    segs.foldl (fun g ph => g.segment data loadOffset ph) g a = none := by
  induction segs generalizing g with
  | nil =>
    obtain ⟨ph, hph, -⟩ := h
    cases hph
  | cons ph segs ih =>
    rw [List.forall_mem_cons] at ht hne
    rw [List.foldl_cons]
    by_cases hlater : ∃ q ∈ segs, a / 4096 ∈ q.pages loadOffset
    · exact ih ht.2 hne.2 hlater
    · have hnot : ∀ q ∈ segs, a / 4096 ∉ q.pages loadOffset := fun q hq hp => hlater ⟨q, hq, hp⟩
      obtain ⟨q, hq, hp⟩ := h
      obtain rfl | hq := List.mem_cons.1 hq
      · rw [segments_of_not_mem ht.2 hnot, segment_of_slack hp hne.1]
      · exact absurd hp (hnot q hq)

end VMem

namespace ElfFile

variable {elf : ElfFile} {data : List UInt8} {l r : List ProgramHeader} {ph : ProgramHeader} {i : Nat}

/-- A byte whose page is not mapped again. -/
theorem image_of_last (ht : ∀ q ∈ elf.loads, q.Tidy elf.loadOffset) (hl : ph.Loadable elf.loadOffset data)
    (hsplit : elf.loads = l ++ ph :: r) (hi : i < ph.extent)
    (h : ∀ q ∈ r, pageNo (ph.vaddr elf.loadOffset + i) ∉ q.pages elf.loadOffset) :
    elf.image data ((ph.vaddr elf.loadOffset + i) % 2 ^ 48) = ph.byte data i := by
  rw [hsplit] at ht
  have hph : ph.Tidy elf.loadOffset := ht ph (by simp)
  have hr : ∀ q ∈ r, q.Tidy elf.loadOffset := fun q hq => ht q (by simp [hq])
  rw [image, hsplit, List.foldl_append, List.foldl_cons, VMem.segments_of_not_mem hr, VMem.segment_of_mem hph hl hi]
  intro q hq
  rw [← pageNo_eq]
  exact h q hq

/-- A byte whose page is mapped again. -/
theorem image_of_remapped (ht : ∀ q ∈ elf.loads, q.Tidy elf.loadOffset) (hsplit : elf.loads = l ++ ph :: r)
    (hne : ∀ q ∈ r, ∀ j < q.extent, (ph.vaddr elf.loadOffset + i) % 2 ^ 48 ≠ (q.vaddr elf.loadOffset + j) % 2 ^ 48)
    (h : ∃ q ∈ r, pageNo (ph.vaddr elf.loadOffset + i) ∈ q.pages elf.loadOffset) :
    elf.image data ((ph.vaddr elf.loadOffset + i) % 2 ^ 48) = none := by
  have hr : ∀ q ∈ r, q.Tidy elf.loadOffset := fun q hq => ht q (hsplit ▸ by simp [hq])
  rw [image, hsplit, List.foldl_append, List.foldl_cons, VMem.segments_of_slack hr hne]
  rw [← pageNo_eq]
  exact h

end ElfFile

/-! ### The mapping phase -/

namespace ElfFile

variable (elf : ElfFile) (data : List UInt8)

/-- The ranges of the segments are disjoint, no segment is longer in the file than in memory, its bytes lie in the
file, and no address overflows. -/
structure WellFormed : Prop where
  disjoint : elf.loads.Pairwise fun a b => ∀ i < a.memSize, ∀ j < b.memSize, a.virtualAddr + i ≠ b.virtualAddr + j
  sizes : ∀ ph ∈ elf.loads, ph.fileSize ≤ ph.memSize
  inFile : ∀ ph ∈ elf.loads, ph.offset + ph.fileSize ≤ data.length
  noOverflow : ∀ ph ∈ elf.loads, ph.vaddr elf.loadOffset + ph.memSize + 0xFFF < 2 ^ 64

/-- Every byte of every segment reads as in the file, and as zero behind that. -/
def ImageBuilt (s : Machine) : Prop :=
  ∀ ph ∈ elf.loads, ∀ i < ph.memSize, s.readByte (ph.vaddr elf.loadOffset + i) = ph.byte data i

/-- No later segment lies on a page with a byte of an earlier one. -/
def NotRemapped : Prop :=
  ∀ (l : List ProgramHeader) (ph : ProgramHeader) (r : List ProgramHeader), elf.loads = l ++ ph :: r →
    ∀ q ∈ r, ∀ i < ph.memSize, pageNo (ph.vaddr elf.loadOffset + i) ∉ q.pages elf.loadOffset

end ElfFile

section Mapping

variable {checks : Bool} {s s' : Machine} {data : List UInt8} {elf : ElfFile} {l r : List ProgramHeader}
  {ph : ProgramHeader} {i : Nat}

namespace ElfFile.WellFormed

theorem tidy (hw : elf.WellFormed data) (ph : ProgramHeader) (hph : ph ∈ elf.loads) : ph.Tidy elf.loadOffset :=
  .of_le (hw.sizes ph hph) (hw.noOverflow ph hph)

theorem extent_eq (hw : elf.WellFormed data) (hph : ph ∈ elf.loads) : ph.extent = ph.memSize :=
  Nat.max_eq_right (hw.sizes ph hph)

theorem held (hw : elf.WellFormed data) (h : TableInv s)
    (hok : exec (elf.loads.forM (loadSegment checks data elf.loadOffset)) s = (.ok ⟨⟩, s')) :
    Held (fun _ => True) (· ∈ elf.loadPages) s s' (elf.image data) ∧
      ∀ ph ∈ elf.loads, ph.Loadable elf.loadOffset data := by
  have hspec := @loadList_spec checks (fun _ => True) s data elf.loadOffset elf.loads h
    (fun ph hph => (hw.tidy ph hph).sane) (copiesInside_of_le hw.sizes) fun _ _ => trivial
  obtain ⟨held, -, hload⟩ := hspec.of_ok hok
  exact ⟨held, hload⟩

/-- The byte of an earlier segment is no byte of a later one, also in bits 0 to 47 of the address. -/
theorem ne_later (hw : elf.WellFormed data) (hload : ∀ ph ∈ elf.loads, ph.Loadable elf.loadOffset data)
    (hsplit : elf.loads = l ++ ph :: r) (hi : i < ph.memSize) :
    ∀ q ∈ r, ∀ j < q.extent, (ph.vaddr elf.loadOffset + i) % 2 ^ 48 ≠ (q.vaddr elf.loadOffset + j) % 2 ^ 48 := by
  intro q hq j hj he
  have hph : ph ∈ elf.loads := hsplit ▸ by simp
  have hq' : q ∈ elf.loads := hsplit ▸ by simp [hq]
  have hp := hw.disjoint
  rw [hsplit] at hp
  have hdisj := (List.pairwise_cons.1 (List.pairwise_append.1 hp).2.1).1 q hq
  have heq := canonicalAddr_inj ((hload ph hph).canonicalAddr (hw.tidy ph hph) (by rwa [hw.extent_eq hph]))
    ((hload q hq').canonicalAddr (hw.tidy q hq') hj) he
  rw [hw.extent_eq hq'] at hj
  refine hdisj i hi j hj ?_
  rw [ProgramHeader.vaddr, ProgramHeader.vaddr] at heq
  omega

/-- With enough frames a file whose segments can be loaded gets through this phase. -/
theorem returns (hw : elf.WellFormed data) (h : TableInv s)
    (hload : ∀ ph ∈ elf.loads, ph.Loadable elf.loadOffset data)
    (hn : 5 * elf.loadPages.length ≤ s.alloc.freeFrames) :
    ∃ s', exec (elf.loads.forM (loadSegment checks data elf.loadOffset)) s = (.ok ⟨⟩, s') := by
  have hspec := @loadList_spec checks (fun _ => True) s data elf.loadOffset elf.loads h
    (fun ph hph => (hw.tidy ph hph).sane) (copiesInside_of_le hw.sizes) fun _ _ => trivial
  rcases hx : exec (elf.loads.forM (loadSegment checks data elf.loadOffset)) s with ⟨e | a, s'⟩
  · obtain ⟨-, hhalt, hfew⟩ := hspec.of_error hx
    by_cases he : e = .halt
    · obtain ⟨ph, hph, hno⟩ := hhalt he
      exact absurd (hload ph hph) hno
    · have := (hfew he).2
      rw [ElfFile.loadPages] at hn
      omega
  · exact ⟨s', rfl⟩

end ElfFile.WellFormed

theorem ElfFile.notRemapped_of_pairwise (h : elf.loads.Pairwise fun a b => ∀ i < a.memSize,
    pageNo (a.vaddr elf.loadOffset + i) ∉ b.pages elf.loadOffset) : elf.NotRemapped := by
  intro l ph r hsplit q hq
  rw [hsplit] at h
  exact (List.pairwise_cons.1 (List.pairwise_append.1 h).2.1).1 q hq

/-- A segment image whose pages are not mapped twice is built. -/
theorem ElfFile.NotRemapped.imageBuilt (hn : elf.NotRemapped) (hw : elf.WellFormed data) (h : TableInv s)
    (hok : exec (elf.loads.forM (loadSegment checks data elf.loadOffset)) s = (.ok ⟨⟩, s')) :
    elf.ImageBuilt data s' := by
  obtain ⟨held, hload⟩ := hw.held h hok
  intro ph hph i hi
  obtain ⟨l, r, hsplit⟩ := List.append_of_mem hph
  have himage := image_of_last hw.tidy (hload ph hph) hsplit (by rwa [hw.extent_eq hph])
    fun q hq => hn l ph r hsplit q hq i hi
  obtain ⟨b, hb⟩ := (hload ph hph).byte_isSome i
  rw [hb] at himage ⊢
  exact held.readByte_written himage

/-- The byte of a segment whose page is mapped again is lost: it reads as the new frame held it. -/
theorem remapped_stale (hw : elf.WellFormed data) (h : TableInv s)
    (hok : exec (elf.loads.forM (loadSegment checks data elf.loadOffset)) s = (.ok ⟨⟩, s'))
    (hsplit : elf.loads = l ++ ph :: r) (hi : i < ph.memSize)
    (hre : ∃ q ∈ r, pageNo (ph.vaddr elf.loadOffset + i) ∈ q.pages elf.loadOffset) :
    pageNo (ph.vaddr elf.loadOffset + i) ∈ elf.loadPages ∧
      elf.image data ((ph.vaddr elf.loadOffset + i) % 2 ^ 48) = none := by
  obtain ⟨-, hload⟩ := hw.held h hok
  constructor
  · obtain ⟨q, hq, hp⟩ := hre
    exact List.mem_flatMap.2 ⟨q, hsplit ▸ by simp [hq], hp⟩
  · exact ElfFile.image_of_remapped hw.tidy hsplit (hw.ne_later hload hsplit hi) hre

/-- The image of a well formed file is built, whatever the free frames hold, if and only if no page with a byte of a
segment is mapped again for a later one. -/
theorem segment_image_iff (hw : elf.WellFormed data) (h : TableInv s)
    (hok : exec (elf.loads.forM (loadSegment checks data elf.loadOffset)) s = (.ok ⟨⟩, s')) :
    (∀ t t', FreeDiffers 0 s t → exec (elf.loads.forM (loadSegment checks data elf.loadOffset)) t = (.ok ⟨⟩, t') →
      elf.ImageBuilt data t') ↔ elf.NotRemapped := by
  constructor
  · intro hbuilt l ph r hsplit q hq i hi hp
    have hph : ph ∈ elf.loads := hsplit ▸ by simp
    obtain ⟨hpage, hnone⟩ := remapped_stale hw h hok hsplit hi ⟨q, hq, hp⟩
    -- the same phase with other contents of the free frames
    have d := s.disturbed_differs 0
    obtain ⟨t', hok', b⟩ := loadSegments_twin (P := fun _ => True) (d.twin h) h (fun ph hph => (hw.tidy ph hph).sane)
      (ElfFile.copiesInside_of_le hw.sizes) (fun _ _ => trivial) _ s' hok
    obtain ⟨x, hf, -, hl, hr⟩ := b.readByte_stale hpage hnone
    have hsame := (hbuilt s s' (FreeDiffers.refl 0 s) hok ph hph i hi).trans (hbuilt _ t' d hok' ph hph i hi).symm
    rw [hl, hr] at hsame
    exact Machine.disturbed_mem hf (Nat.zero_le _) (Option.some.inj hsame).symm
  · intro hn t t' d hok'
    exact hn.imageBuilt hw ((d.twin h).inv h) hok'

end Mapping

/-! ### Two segments -/

/-- Four bytes of code at 256 MiB and a writable segment at `vaddr`. -/
def twoParts (vaddr : Nat) : ElfFile :=
  ⟨0x10000000, [⟨.load, 0x10000000, 4, 4, 176, false, true⟩, ⟨.load, vaddr, 4, 8, 180, true, false⟩]⟩

def twoPartsFile (vaddr : Nat) : List UInt8 := (twoParts vaddr).encode ++ [0xF3, 0x0F, 0x1E, 0xFA, 1, 2, 3, 4]

private theorem twoPartsFile_length (vaddr : Nat) : (twoPartsFile vaddr).length = 184 := by
  simp [twoPartsFile, twoParts, ElfFile.encode, ProgramHeader.encode, toBytes]

private theorem twoParts_wellFormed (vaddr : Nat) (h : vaddr = 0x10000010 ∨ vaddr = 0x10001000) :
    (twoParts vaddr).WellFormed (twoPartsFile vaddr) := by
  obtain rfl | rfl := h
  · exact ⟨by decide, by decide, by rw [twoPartsFile_length]; decide, by decide⟩
  · exact ⟨by decide, by decide, by rw [twoPartsFile_length]; decide, by decide⟩

private theorem twoParts_loadable (vaddr : Nat) (h : vaddr = 0x10000010 ∨ vaddr = 0x10001000) :
    ∀ ph ∈ (twoParts vaddr).loads, ph.Loadable (twoParts vaddr).loadOffset (twoPartsFile vaddr) := by
  have hreadable :
    ∀ ph ∈ (twoParts vaddr).loads, ph.vaddr (twoParts vaddr).loadOffset + max ph.fileSize ph.memSize ≤ 2 ^ 47 ∧
      ph.offset + ph.fileSize ≤ (twoPartsFile vaddr).length ∧ (twoPartsFile vaddr).length < 2 ^ 64 := by
    rw [twoPartsFile_length]
    obtain rfl | rfl := h
    · decide
    · decide
  intro ph hph
  obtain ⟨h1, h2, h3⟩ := hreadable ph hph
  exact ProgramHeader.Readable.loadable ⟨h1, h2, h3⟩

/-- On pages of their own both segments are there. -/
theorem segment_image_twoPages : ∃ s',
    exec ((twoParts 0x10001000).loads.forM
      (loadSegment true (twoPartsFile 0x10001000) (twoParts 0x10001000).loadOffset)) smallMachine =
        (.ok ⟨⟩, s') ∧ (twoParts 0x10001000).ImageBuilt (twoPartsFile 0x10001000) s' := by
  have hw := twoParts_wellFormed 0x10001000 (Or.inr rfl)
  obtain ⟨s', hok⟩ := hw.returns small_inv (twoParts_loadable _ (Or.inr rfl)) (by rw [small_frames]; decide)
  refine ⟨s', hok, (segment_image_iff hw small_inv hok).2 ?_ _ s' (FreeDiffers.refl 0 _) hok⟩
  exact ElfFile.notRemapped_of_pairwise (by decide)

/-- On one page the code is gone. -/
theorem segment_image_lost : ∃ s',
    exec ((twoParts 0x10000010).loads.forM
      (loadSegment true (twoPartsFile 0x10000010) (twoParts 0x10000010).loadOffset)) smallMachine =
        (.ok ⟨⟩, s') ∧ (twoParts 0x10000010).WellFormed (twoPartsFile 0x10000010) ∧
      ¬ (twoParts 0x10000010).ImageBuilt (twoPartsFile 0x10000010) s' := by
  have hw := twoParts_wellFormed 0x10000010 (Or.inl rfl)
  obtain ⟨s', hok⟩ := hw.returns small_inv (twoParts_loadable _ (Or.inl rfl)) (by rw [small_frames]; decide)
  refine ⟨s', hok, hw, fun hbuilt => ?_⟩
  obtain ⟨held, -⟩ := hw.held small_inv hok
  have hsplit : (twoParts 0x10000010).loads = [] ++ ⟨.load, 0x10000000, 4, 4, 176, false, true⟩ ::
      [⟨.load, 0x10000010, 4, 8, 180, true, false⟩] := rfl
  obtain ⟨hpage, hnone⟩ := remapped_stale (i := 0) hw small_inv hok hsplit (by decide) (by decide)
  obtain ⟨x, hx, hfree, -⟩ := held.own _ hpage
  have hread := hbuilt _ (List.mem_of_mem_head? rfl) 0 (by decide)
  rw [held.readByte_stale hpage hnone hx, small_zero hfree] at hread
  revert hread
  decide

end Hammam
