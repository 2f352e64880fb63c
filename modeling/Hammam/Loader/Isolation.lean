import Hammam.Loader.Process
import Hammam.Lib.SortedMap

/-!
# One address space for all processes

The kernel and all processes share the tables of the boot code.  The kernel accesses its own image, the tables and the
free frames by their physical addresses, which works as long as these are mapped to themselves.  No call of `from_elf`
checks that: it maps the pages that the image asks for, and the user stack, whatever is there already.

A call with an image that keeps off this memory (`Fits`) leaves the identity mapping alone, and changes the address
space of other processes only on the pages that it maps itself.
-/

namespace Hammam

open Fallible

/-! ### The memory of the kernel -/

/-- The kernel accesses `x` by its physical address: it belongs to its image, to a table or to a free frame. -/
def Machine.Accessed (s : Machine) (k : KernelImage) (x : Nat) : Prop :=
  (k.physStart ≤ x ∧ x < k.physEnd) ∨ s.IsTable (x / 4096) ∨ FreeAt s.alloc x

/-- The memory that the kernel accesses by its physical address is mapped to itself. -/
def Machine.Identity (s : Machine) (k : KernelImage) : Prop := ∀ x, s.Accessed k x → s.translate x = some x

/-- The page of `v` lies in a frame that is neither free nor a table. -/
def Machine.Backed (s : Machine) (v : Nat) : Prop :=
  ∃ x, s.translate v = some x ∧ ¬ s.IsTable (x / 4096) ∧ ¬ FreeAt s.alloc x

theorem Fresh.backed {s₀ s : Machine} {v : Nat} (h : Fresh s₀ s v) : s.Backed v := by
  obtain ⟨x, hx, -, ht, hf⟩ := h
  exact ⟨x, hx, ht, hf⟩

namespace Contained

variable {P : Nat → Prop} {s s' : Machine} {k : KernelImage}

theorem accessed (c : Contained P s s') (h : TableInv s) {x : Nat} (hx : s'.Accessed k x) : s.Accessed k x := by
  obtain hx | hx | hx := hx
  · exact Or.inl hx
  · obtain hx | hx := c.new hx
    · exact Or.inr (Or.inl hx)
    · exact Or.inr (Or.inr ((h.sound.freeAt_iff x).1 hx))
  · exact Or.inr (Or.inr (c.free x hx))

theorem identity (c : Contained P s s') (h : TableInv s) (hi : s.Identity k)
    (hP : ∀ x, s.Accessed k x → ¬ P (pageNo x)) : s'.Identity k := by
  intro x hx
  have hx₀ := c.accessed h hx
  obtain he | ⟨hp, -⟩ := c.page x
  · exact he.trans (hi x hx₀)
  · exact absurd hp (hP x hx₀)

/-- A frame in use stays in use, and keeps its contents. -/
theorem used (c : Contained P s s') (h : TableInv s) {x : Nat} (ht : ¬ s.IsTable (x / 4096))
    (hf : ¬ FreeAt s.alloc x) : ¬ s'.IsTable (x / 4096) ∧ ¬ FreeAt s'.alloc x ∧ s'.mem x = s.mem x := by
  have ht' := c.not_table h.sound ht hf
  exact ⟨ht', fun h => hf (c.free x h), c.mem x ht' hf⟩

theorem backed (c : Contained P s s') (h : TableInv s) {v : Nat} (hv : s.Backed v) : s'.Backed v := by
  obtain he | ⟨-, hfresh⟩ := c.page v
  · obtain ⟨x, hx, ht, hf⟩ := hv
    obtain ⟨ht', hf', -⟩ := c.used h ht hf
    exact ⟨x, he.trans hx, ht', hf'⟩
  · exact hfresh.backed

end Contained

/-! ### Calls -/

section Calls

variable {checks : Bool} {parse : List UInt8 → Option ElfFile} {k : KernelImage} {pid : Nat} {s : Machine}
  {data : List UInt8} {elf : ElfFile}

/-- The page `p` is one that a call with this image maps. -/
def MapsPage (parse : List UInt8 → Option ElfFile) (data : List UInt8) (p : Nat) : Prop :=
  ∃ elf, parse data = some elf ∧ p ∈ elf.callPages

/-- The image stays inside its own pages, and the kernel accesses none of these by its physical address. -/
structure Fits (parse : List UInt8 → Option ElfFile) (k : KernelImage) (s : Machine) (data : List UInt8) : Prop where
  sane : ∀ elf, parse data = some elf → elf.Sane data
  apart : ∀ x, s.Accessed k x → ¬ MapsPage parse data (pageNo x)

/-- A call maps the pages of its image to frames of its own; if it fails, it has mapped some of them. -/
theorem fromElf_contained (h : TableInv s) (hs : ∀ elf, parse data = some elf → elf.Sane data) :
    Spec (fromElf checks parse pid data) s
      (fun _ s' => Contained (MapsPage parse data) s s' ∧ ∀ v, MapsPage parse data (pageNo v) → Fresh s s' v)
      (fun _ s' => Contained (MapsPage parse data) s s') := by
  cases hparse : parse data with
  | none =>
    -- nothing has happened yet when the file is rejected
    have hload : load checks parse data = throw (.err .invalidMagic) := by
      unfold load
      rw [hparse]
    unfold fromElf
    rw [hload]
    exact Spec.bind (Spec.mapErr (Spec.throw (Contained.refl h)))
  | some elf =>
    have hpages : ∀ p, p ∈ elf.callPages → MapsPage parse data p := fun p hp => ⟨elf, hparse, hp⟩
    refine (fromElf_spec hparse h (hs elf hparse)).mono ?_ ?_
    · intro _ s' hpost
      obtain ⟨⟨g, -, held⟩, -⟩ := hpost
      refine ⟨held.conf.mono hpages, fun v hv => held.own v ?_⟩
      obtain ⟨elf', hparse', hv⟩ := hv
      rw [hparse, Option.some.injEq] at hparse'
      rwa [hparse']
    · intro _ s' hpost
      obtain ⟨c, -⟩ := hpost
      exact c.mono hpages

/-- A call that returns loses the mapping of every page of the kernel image and of every table that it maps. -/
theorem fromElf_moves (h : TableInv s) (hs : ∀ elf, parse data = some elf → elf.Sane data) {p : Created}
    {s' : Machine} (hok : exec (fromElf checks parse pid data) s = (.ok p, s')) {x : Nat}
    (hx : (k.physStart ≤ x ∧ x < k.physEnd) ∨ s.IsTable (x / 4096)) (hfree : ¬ FreeAt s.alloc x)
    (hmaps : MapsPage parse data (pageNo x)) : s'.Accessed k x ∧ s'.translate x ≠ some x := by
  obtain ⟨c, hfresh⟩ := (fromElf_contained h hs).of_ok hok
  constructor
  · exact hx.imp_right fun hx => Or.inl (c.kept hx)
  · -- the page now lies in a frame that was free
    obtain ⟨y, hy, hyfree, -⟩ := hfresh x hmaps
    rw [hy]
    intro h
    obtain ⟨⟩ := h
    exact hfree hyfree

/-- A plain image is loaded if there are enough frames. -/
theorem fromElf_returns (hparse : parse data = some elf) (h : TableInv s) (hs : elf.Sane data) (hp : elf.Plain data)
    (hn : 5 * elf.callPages.length + 1 ≤ s.alloc.freeFrames) :
    ∃ p s', exec (fromElf checks parse pid data) s = (.ok p, s') ∧ Contained (· ∈ elf.callPages) s s' ∧
      (∀ v, pageNo v ∈ elf.callPages → Fresh s s' v) ∧
      s.alloc.freeFrames ≤ s'.alloc.freeFrames + (5 * elf.callPages.length + 1) := by
  have hspec : Spec (fromElf checks parse pid data) s _ _ := fromElf_spec hparse h hs
  cases hx : exec (fromElf checks parse pid data) s with
  | mk r s' =>
    cases r with
    | ok p =>
      obtain ⟨⟨g, -, held⟩, hn, -⟩ := hspec.of_ok hx
      exact ⟨p, s', rfl, held.conf, held.own, hn⟩
    | error e =>
      obtain ⟨-, hhalt, hfew⟩ := hspec.of_error hx
      by_cases he : e = .halt
      · exact absurd hp.harmless (hhalt he)
      · have := (hfew he).2
        omega

end Calls

/-! ### Runs -/

/-- The runs from `s₀`, with the images of the processes in `PROCESS_TABLE`: calls of `from_elf` that return, each
with an image for which `C` holds, processes that are removed from the table, and writes to memory that is in use.
-/
inductive ExecRun (checks : Bool) (parse : List UInt8 → Option ElfFile) (C : Machine → List UInt8 → Prop)
    (s₀ : Machine) : Machine → SortedMap Nat ElfFile → Prop
  | boot : ExecRun checks parse C s₀ s₀ .empty
  | created {s s' : Machine} {table : SortedMap Nat ElfFile} {pid : Nat} {data : List UInt8} {elf : ElfFile}
    {p : Created} : ExecRun checks parse C s₀ s table → C s data → parse data = some elf →
    exec (fromElf checks parse pid data) s = (.ok p, s') → ExecRun checks parse C s₀ s' (table.insert pid elf)
  | failed {s s' : Machine} {table : SortedMap Nat ElfFile} {pid : Nat} {data : List UInt8} {e : ProcessError} :
    ExecRun checks parse C s₀ s table → C s data →
    exec (fromElf checks parse pid data) s = (.error (.err e), s') → ExecRun checks parse C s₀ s' table
  | reaped {s : Machine} {table : SortedMap Nat ElfFile} (pid : Nat) : ExecRun checks parse C s₀ s table →
    ExecRun checks parse C s₀ s (table.erase pid)
  | write {s : Machine} {table : SortedMap Nat ElfFile} (mem : Memory) : ExecRun checks parse C s₀ s table →
    (∀ x, s.IsTable (x / 4096) ∨ FreeAt s.alloc x → mem x = s.mem x) →
    ExecRun checks parse C s₀ { s with mem := mem } table

/-- What the boot code and the linker script provide: the allocator manages memory below 1 GiB, and the image of the
kernel lies there too and holds the boot tables. -/
structure BootLayout (k : KernelImage) (memoryMap : List MemoryRegion) (fs : FrameState) : Prop where
  map : ValidMap memoryMap
  alloc : FrameState.Reachable k memoryMap fs
  low : ∀ n ∈ initPages k memoryMap, n * pageSize < 2 ^ 30
  image : k.physEnd ≤ 2 ^ 30
  tables : k.physStart ≤ bootPt ∧ bootPt + 3 * 4096 ≤ k.physEnd

namespace BootLayout

variable {k : KernelImage} {memoryMap : List MemoryRegion} {fs : FrameState} {m : Memory} {x : Nat}

theorem freeAt (b : BootLayout k memoryMap fs) (hx : FreeAt fs.alloc x) : x / pageSize ∈ initPages k memoryMap := by
  obtain ⟨c, ho, hc⟩ := b.alloc.owned b.map
  rw [← hc, ← ho.owner, owners_pos]
  obtain ⟨blk, hblk, hin⟩ := hx
  exact ⟨blk, List.mem_append_left _ hblk, hin⟩

theorem accessed_lt (b : BootLayout k memoryMap fs) (hx : (Machine.boot m fs.alloc).Accessed k x) : x < 2 ^ 30 := by
  have himage := b.image
  have htables := b.tables
  obtain hx | hx | hx := hx
  · omega
  · have := isTable_boot hx
    omega
  · have := b.low _ (b.freeAt hx)
    rw [pageSize] at this
    omega

theorem tableInv (b : BootLayout k memoryMap fs) : TableInv (Machine.boot m fs.alloc) := by
  refine tableInv_boot m (b.alloc.sound b.map) fun x hx hboot => ?_
  obtain ⟨-, hkernel, -⟩ := b.freeAt hx
  have htables := b.tables
  have haligned := k.start_aligned
  rw [pageSize] at hkernel haligned
  rw [bootPt] at hboot htables
  apply hkernel
  omega

/-- The boot tables map the memory of the kernel to itself. -/
theorem identity (b : BootLayout k memoryMap fs) : (Machine.boot m fs.alloc).Identity k :=
  fun _ hx => translate_boot m b.tableInv (b.accessed_lt hx)

/-- The same of a machine that is in this state. -/
theorem started (b : BootLayout k memoryMap fs) {s : Machine} (hs : s = Machine.boot m fs.alloc) :
    TableInv s ∧ s.Identity k := by
  subst hs
  exact ⟨b.tableInv, b.identity⟩

/-- No free frame lies in the image. -/
theorem not_image (b : BootLayout k memoryMap fs) (hx : FreeAt fs.alloc x) : ¬ (k.physStart ≤ x ∧ x < k.physEnd) := by
  obtain ⟨-, hkernel, -⟩ := b.freeAt hx
  have hstart := k.start_aligned
  have hend := k.end_aligned
  rw [pageSize] at hkernel hstart hend
  intro himage
  apply hkernel
  omega

end BootLayout

/-- The kernel can reach its memory, and the pages of all processes are backed. -/
structure ExecInv (k : KernelImage) (s : Machine) (table : SortedMap Nat ElfFile) : Prop where
  inv : TableInv s
  identity : s.Identity k
  backed : ∀ {pid elf}, table.get? pid = some elf → ∀ v, pageNo v ∈ elf.callPages → s.Backed v

namespace ExecInv

variable {k : KernelImage} {s s' : Machine} {table : SortedMap Nat ElfFile} {parse : List UInt8 → Option ElfFile}
  {data : List UInt8}

theorem boot {memoryMap : List MemoryRegion} {fs : FrameState} (m : Memory) (b : BootLayout k memoryMap fs) :
    ExecInv k (Machine.boot m fs.alloc) .empty :=
  ⟨b.tableInv, fun _ hx => translate_boot m b.tableInv (b.accessed_lt hx), fun h => nomatch h⟩

/-- A call keeps what there is. -/
theorem call (i : ExecInv k s table) (hf : Fits parse k s data) (c : Contained (MapsPage parse data) s s') :
    ExecInv k s' table :=
  ⟨c.inv, c.identity i.inv i.identity hf.apart, fun hA v hv => c.backed i.inv (i.backed hA v hv)⟩

theorem insert (i : ExecInv k s table) {pid : Nat} {elf : ElfFile}
    (hv : ∀ v, pageNo v ∈ elf.callPages → s.Backed v) : ExecInv k s (table.insert pid elf) := by
  refine ⟨i.inv, i.identity, fun {pid' elf'} hA => ?_⟩
  rcases SortedMap.get?_of_insert hA with ⟨-, rfl⟩ | hA
  · exact hv
  · exact i.backed hA

theorem erase (i : ExecInv k s table) (pid : Nat) : ExecInv k s (table.erase pid) :=
  ⟨i.inv, i.identity, fun hA => i.backed (SortedMap.get?_of_erase hA).2⟩

theorem write (i : ExecInv k s table) (w : Twin s s') : ExecInv k s' table := by
  refine ⟨w.inv i.inv, fun x hx => ?_, fun hA v hv => ?_⟩
  · rw [Machine.Accessed, w.isTable_iff, w.alloc] at hx
    rw [w.translate i.inv]
    exact i.identity x hx
  · obtain ⟨x, hx, ht, hfree⟩ := i.backed hA v hv
    refine ⟨x, (w.translate i.inv v).trans hx, fun h => ht ((w.isTable_iff _).1 h), ?_⟩
    rwa [w.alloc]

end ExecInv

section Run

variable {checks : Bool} {parse : List UInt8 → Option ElfFile} {k : KernelImage} {memoryMap : List MemoryRegion}
  {fs : FrameState} {m : Memory} {s s' : Machine} {table : SortedMap Nat ElfFile}

theorem ExecRun.inv (b : BootLayout k memoryMap fs)
    (hr : ExecRun checks parse (Fits parse k) (Machine.boot m fs.alloc) s table) : ExecInv k s table := by
  induction hr with
  | boot => exact ExecInv.boot m b
  | created _ hf hparse hx ih =>
    obtain ⟨c, hfresh⟩ := (fromElf_contained ih.inv hf.sane).of_ok hx
    exact (ih.call hf c).insert fun v hv => (hfresh v ⟨_, hparse, hv⟩).backed
  | failed _ hf hx ih =>
    have c := (fromElf_contained ih.inv hf.sane).of_error hx
    exact ih.call hf c
  | reaped pid _ ih => exact ih.erase pid
  | write mem _ hmem ih => exact ih.write ⟨rfl, rfl, fun x hx => hmem x (Or.inl hx)⟩

end Run

/-! ### Small images -/

/-- A segment of one page, with no bytes in the file. -/
def clearPage (vaddr : Nat) : ProgramHeader := ⟨.load, vaddr, 0, 0x1000, 0, true, false⟩

/-- A program with one page of cleared memory. -/
def onePage (vaddr : Nat) : ElfFile := ⟨vaddr, [clearPage vaddr]⟩

/-- Its file: the header and one program header. -/
def onePageFile (vaddr : Nat) : List UInt8 :=
  [0x7F, 0x45, 0x4C, 0x46, 2, 1, 1, 0, 0, 0, 0, 0, 0, 0, 0, 0, 2, 0, 0x3E, 0, 1, 0, 0, 0] ++ toBytes vaddr ++
    toBytes 64 ++ toBytes 0 ++ [0, 0, 0, 0, 64, 0, 56, 0, 1, 0, 64, 0, 0, 0, 0, 0] ++
    [1, 0, 0, 0, 6, 0, 0, 0] ++ toBytes 0 ++ toBytes vaddr ++ toBytes vaddr ++ toBytes 0 ++ toBytes 0x1000 ++
    toBytes 0x1000

/-- The parser on the files of programs at 4, 256 and 512 MiB. -/
def onePageParse (data : List UInt8) : Option ElfFile :=
  [0x400000, 0x10000000, 0x20000000].findSome? fun vaddr =>
    if data = onePageFile vaddr then some (onePage vaddr) else none

def SegmentType.encode : SegmentType → UInt8
  | .load => 1
  | .dynamic => 2
  | .other => 0

/-- A program header as it stands in a file. -/
def ProgramHeader.encode (ph : ProgramHeader) : List UInt8 :=
  let flags : UInt8 := 4 + (if ph.isWrite then 2 else 0) + if ph.isExecute then 1 else 0
  [ph.type.encode, 0, 0, 0, flags, 0, 0, 0] ++ toBytes ph.offset ++ toBytes ph.virtualAddr ++
    toBytes ph.virtualAddr ++ toBytes ph.fileSize ++ toBytes ph.memSize ++ toBytes 0x1000

/-- The header of a file and its program headers, fewer than 256. -/
def ElfFile.encode (elf : ElfFile) : List UInt8 :=
  [0x7F, 0x45, 0x4C, 0x46, 2, 1, 1, 0, 0, 0, 0, 0, 0, 0, 0, 0, 2, 0, 0x3E, 0, 1, 0, 0, 0] ++ toBytes elf.entryPoint ++
    toBytes 64 ++ toBytes 0 ++
    [0, 0, 0, 0, 64, 0, 56, 0, UInt8.ofNat elf.programHeaders.length, 0, 64, 0, 0, 0, 0, 0] ++
    elf.programHeaders.flatMap (·.encode)

/-- The parser on a single file. -/
def ElfFile.parseOnly (elf : ElfFile) (file data : List UInt8) : Option ElfFile :=
  if data = file then some elf else none

theorem ElfFile.parseOnly_self (elf : ElfFile) (file : List UInt8) : elf.parseOnly file file = some elf := if_pos rfl

section OnePage

variable {vaddr : Nat}

private theorem onePage_loads (vaddr : Nat) : (onePage vaddr).loads = [clearPage vaddr] := rfl

private theorem onePage_loadOffset (h : 0x1000 ≤ vaddr) : (onePage vaddr).loadOffset = 0 := by
  rw [ElfFile.loadOffset, onePage_loads]
  exact if_neg (Nat.not_lt.2 h)

theorem onePage_loadPages (h : 0x1000 ≤ vaddr) (ha : 4096 ∣ vaddr) : (onePage vaddr).loadPages = [pageNo vaddr] := by
  have hnum : (clearPage vaddr).numPages 0 = 1 := by
    show (vaddr + 0 + 0x1000 + 0xFFF) / 0x1000 - (vaddr + 0) / 0x1000 = 1
    omega
  have hpage : (clearPage vaddr).page 0 0 = pageNo vaddr := by
    show pageNo ((vaddr + 0) / 0x1000 * 0x1000 + 0 * 0x1000) = pageNo vaddr
    congr 1
    omega
  rw [ElfFile.loadPages, onePage_loads, onePage_loadOffset h, List.flatMap_singleton, ProgramHeader.pages, hnum]
  show [(clearPage vaddr).page 0 0] = _
  rw [hpage]

theorem onePage_length (h : 0x1000 ≤ vaddr) (ha : 4096 ∣ vaddr) : (onePage vaddr).callPages.length = 17 := by
  rw [ElfFile.callPages, onePage_loadPages h ha]
  rfl

theorem onePage_sane (h : 0x1000 ≤ vaddr) (hlt : vaddr < 2 ^ 46) (data : List UInt8) : (onePage vaddr).Sane data := by
  refine ⟨fun ph hph => ?_, fun l ph r hl i hi => ?_, Or.inl (onePage_loadOffset h)⟩
  · rw [onePage_loads, List.mem_singleton] at hph
    subst hph
    rw [onePage_loadOffset h]
    exact ⟨show vaddr + 0 + 0x1000 + 0xFFF < 2 ^ 64 by omega, show 0 < 2 ^ 64 by decide⟩
  · have hmem : ph ∈ (onePage vaddr).loads := hl ▸ by simp
    rw [onePage_loads, List.mem_singleton] at hmem
    subst hmem
    exact absurd hi (Nat.not_lt_zero i)

theorem onePage_plain (h : 0x1000 ≤ vaddr) (hlt : vaddr < 2 ^ 46) {data : List UInt8} (hdata : data.length < 2 ^ 64) :
    (onePage vaddr).Plain data := by
  refine ⟨?_, fun ph hph => ?_, rfl⟩
  · rw [onePage_loadOffset h]
    exact show vaddr + 0 < 2 ^ 64 by omega
  · rw [onePage_loads, List.mem_singleton] at hph
    subst hph
    rw [onePage_loadOffset h]
    exact ⟨show vaddr + 0 + max 0 0x1000 ≤ 2 ^ 47 by omega, Nat.zero_le _, hdata⟩

theorem onePageParse_low : onePageParse (onePageFile 0x400000) = some (onePage 0x400000) := by decide

theorem onePageParse_first : onePageParse (onePageFile 0x10000000) = some (onePage 0x10000000) := by decide

private theorem onePageParse_second : onePageParse (onePageFile 0x20000000) = some (onePage 0x20000000) := by decide

theorem small_layout : BootLayout smallKernel smallMap (FrameState.boot smallKernel smallMap) := by
  refine ⟨smallMap_valid, .refl, fun n hn => ?_, by decide, by decide⟩
  obtain ⟨-, -, r, hr, -, -, hlt⟩ := hn
  rw [smallMap, List.mem_singleton] at hr
  subst hr
  have hlt : (n + 1) * 4096 ≤ 0xC00000 := hlt
  rw [pageSize]
  omega

theorem small_accessed {x : Nat} (h : smallMachine.Accessed smallKernel x) : x < 0xC00000 := by
  obtain h | h | h := h
  · exact Nat.lt_trans h.2 (by decide)
  · have := isTable_boot h
    rw [bootPt] at this
    omega
  · exact (small_free h).2

/-- A program above the memory of the small machine keeps off what the kernel accesses. -/
theorem onePage_fits {s : Machine} (hacc : ∀ x, s.Accessed smallKernel x → smallMachine.Accessed smallKernel x)
    (hparse : onePageParse (onePageFile vaddr) = some (onePage vaddr)) (h : 0xC00000 ≤ vaddr) (hlt : vaddr < 2 ^ 46)
    (ha : 4096 ∣ vaddr) : Fits onePageParse smallKernel s (onePageFile vaddr) := by
  constructor
  · intro elf helf
    rw [hparse, Option.some.injEq] at helf
    rw [← helf]
    exact onePage_sane (by omega) hlt _
  · intro x hx hpost
    obtain ⟨elf, helf, hp⟩ := hpost
    have hx := small_accessed (hacc x hx)
    rw [hparse, Option.some.injEq] at helf
    rw [← helf, ElfFile.callPages, onePage_loadPages (by omega) ha, List.mem_append, List.mem_singleton] at hp
    obtain hp | hp := hp
    · rw [pageNo, pageNo] at hp
      omega
    · obtain ⟨i, hi, hp⟩ := List.mem_map.1 hp
      rw [List.mem_range, userStackPages] at hi
      rw [pageNo, pageNo, userStackVaddr] at hp
      omega

/-- A call with the program at `vaddr`. -/
theorem onePage_call {s : Machine} (h : TableInv s) (hn : 86 ≤ s.alloc.freeFrames)
    (hparse : onePageParse (onePageFile vaddr) = some (onePage vaddr)) (h0 : 0x1000 ≤ vaddr) (hlt : vaddr < 2 ^ 46)
    (ha : 4096 ∣ vaddr) (pid : Nat) :
    ∃ p s', exec (fromElf false onePageParse pid (onePageFile vaddr)) s = (.ok p, s') ∧
      Contained (· ∈ (onePage vaddr).callPages) s s' ∧ (∀ v, pageNo v ∈ (onePage vaddr).callPages → Fresh s s' v) ∧
      s.alloc.freeFrames ≤ s'.alloc.freeFrames + 86 := by
  have hlen := onePage_length h0 ha
  have hdata : (onePageFile vaddr).length < 2 ^ 64 := by
    simp [onePageFile, toBytes]
  obtain ⟨p, s', hx, hc, hfresh, hcount⟩ := fromElf_returns (s := s) hparse h (onePage_sane h0 hlt _)
    (onePage_plain h0 hlt hdata) (by rw [hlen]; exact hn)
  rw [hlen] at hcount
  exact ⟨p, s', hx, hc, hfresh, hcount⟩

/-- Two programs on the small machine. -/
private theorem two_programs : ∃ s s',
    ExecRun false onePageParse (Fits onePageParse smallKernel) smallMachine s
      (SortedMap.empty.insert 1 (onePage 0x10000000)) ∧
    Fits onePageParse smallKernel s (onePageFile 0x20000000) ∧
    (∃ p, exec (fromElf false onePageParse 2 (onePageFile 0x20000000)) s = (.ok p, s')) ∧
    (∀ v, pageNo v ∈ (onePage 0x10000000).callPages → Fresh smallMachine s v) ∧
    ∀ v, pageNo v ∈ (onePage 0x20000000).callPages → Fresh s s' v := by
  have hfits := onePage_fits (s := smallMachine) (fun _ h => h) onePageParse_first (by decide) (by decide) (by decide)
  obtain ⟨p, s, hx, hc, hfresh, hcount⟩ := onePage_call small_inv (by rw [small_frames]; decide) onePageParse_first
    (by decide) (by decide) (by decide) 1
  rw [small_frames] at hcount
  obtain ⟨p', s', hx', -, hfresh', -⟩ := onePage_call hc.inv (by omega) onePageParse_second (by decide) (by decide)
    (by decide) 2
  refine ⟨s, s', .created .boot hfits onePageParse_first hx, ?_, ⟨p', hx'⟩, hfresh, hfresh'⟩
  exact onePage_fits (fun x h => hc.accessed small_inv h) onePageParse_second (by decide) (by decide) (by decide)

end OnePage

section Run

variable {checks : Bool} {parse : List UInt8 → Option ElfFile} {k : KernelImage} {memoryMap : List MemoryRegion}
  {fs : FrameState} {m : Memory} {s s' : Machine} {table : SortedMap Nat ElfFile}

/-- In every state of a run in which every image keeps off the memory that the kernel accesses by its physical
address, this memory is mapped to itself. -/
theorem exec_identity (b : BootLayout k memoryMap fs)
    (hr : ExecRun checks parse (Fits parse k) (Machine.boot m fs.alloc) s table) : s.Identity k :=
  (hr.inv b).identity

end Run

/-- The program at 256 MiB leaves the identity mapping of the small machine alone. -/
theorem exec_identity_onePage : ∃ p s,
    exec (fromElf false onePageParse 1 (onePageFile 0x10000000)) smallMachine = (.ok p, s) ∧
      s.Identity smallKernel := by
  have hfits := onePage_fits (s := smallMachine) (fun _ h => h) onePageParse_first (by decide) (by decide) (by decide)
  obtain ⟨p, s, hx, -⟩ := onePage_call small_inv (by rw [small_frames]; decide) onePageParse_first (by decide)
    (by decide) (by decide) 1
  exact ⟨p, s, hx, exec_identity small_layout (.created .boot hfits onePageParse_first hx)⟩

/-- The program at 4 MiB is loaded over the image of the kernel. -/
theorem identity_lost_onePage : ∃ s table,
    ExecRun false onePageParse (fun _ _ => True) smallMachine s table ∧ s.Accessed smallKernel 0x400000 ∧
      s.translate 0x400000 ≠ some 0x400000 := by
  obtain ⟨p, s, hx, -⟩ := onePage_call small_inv (by rw [small_frames]; decide) onePageParse_low (by decide)
    (by decide) (by decide) 1
  have hsane : ∀ elf, onePageParse (onePageFile 0x400000) = some elf → elf.Sane (onePageFile 0x400000) := by
    intro elf helf
    rw [onePageParse_low, Option.some.injEq] at helf
    rw [← helf]
    exact onePage_sane (by decide) (by decide) _
  have hpage : pageNo 0x400000 ∈ (onePage 0x400000).callPages := by decide
  refine ⟨s, _, .created .boot trivial onePageParse_low hx, fromElf_moves small_inv hsane hx (Or.inl (by decide)) ?_
    ⟨_, onePageParse_low, hpage⟩⟩
  intro hfree
  have := small_free hfree
  omega

section Run

variable {checks : Bool} {parse : List UInt8 → Option ElfFile} {k : KernelImage} {memoryMap : List MemoryRegion}
  {fs : FrameState} {m : Memory} {s s' : Machine} {table : SortedMap Nat ElfFile}

/-- A call leaves the frames of the earlier processes alone, and their translations too, except on the pages that it
maps itself: these are moved to frames that were free. -/
theorem exec_isolation (b : BootLayout k memoryMap fs)
    (hr : ExecRun checks parse (Fits parse k) (Machine.boot m fs.alloc) s table) {pid pid' : Nat} {elf : ElfFile}
    (hA : table.get? pid = some elf) {data : List UInt8} (hf : Fits parse k s data)
    {r : Except (Stop ProcessError) Created} (hx : exec (fromElf checks parse pid' data) s = (r, s'))
    {v : Nat} (hv : pageNo v ∈ elf.callPages) :
    ∃ x, s.translate v = some x ∧ s'.mem x = s.mem x ∧
      (s'.translate v = some x ∨ (MapsPage parse data (pageNo v) ∧ Fresh s s' v)) := by
  have i := hr.inv b
  have c : Contained (MapsPage parse data) s s' := by
    have hspec : Spec (fromElf checks parse pid' data) s _ _ := fromElf_contained i.inv hf.sane
    have := Spec.last (hspec.mono (fun _ _ h => h.1) fun _ _ h => h)
    rwa [hx] at this
  obtain ⟨x, hx, ht, hfree⟩ := i.backed hA v hv
  refine ⟨x, hx, (c.used i.inv ht hfree).2.2, ?_⟩
  obtain he | hnew := c.page v
  · exact Or.inl (he.trans hx)
  · exact Or.inr hnew

end Run

/-- The page of the first program is left alone by the second. -/
theorem exec_isolation_onePage : ∃ s s' table x,
    ExecRun false onePageParse (Fits onePageParse smallKernel) smallMachine s table ∧
      table.get? 1 = some (onePage 0x10000000) ∧
      (∃ p, exec (fromElf false onePageParse 2 (onePageFile 0x20000000)) s = (.ok p, s')) ∧
      s.translate 0x10000000 = some x ∧ s'.translate 0x10000000 = some x ∧ s'.mem x = s.mem x := by
  obtain ⟨s, s', hr, hfits, ⟨p, hx⟩, -⟩ := two_programs
  have hA : (SortedMap.empty.insert 1 (onePage 0x10000000)).get? 1 = some (onePage 0x10000000) := rfl
  obtain ⟨x, htr, hmem, hpage⟩ := exec_isolation small_layout hr hA hfits hx (v := 0x10000000) (by decide)
  refine ⟨s, s', _, x, hr, hA, ⟨p, hx⟩, htr, hpage.resolve_right ?_, hmem⟩
  intro h
  obtain ⟨⟨elf, helf, hp⟩, -⟩ := h
  rw [onePageParse_second, Option.some.injEq] at helf
  rw [← helf] at hp
  revert hp
  decide

/-- The stack of the first program is moved by the second. -/
theorem stack_moved_onePage : ∃ s s' table,
    ExecRun false onePageParse (Fits onePageParse smallKernel) smallMachine s table ∧
      table.get? 1 = some (onePage 0x10000000) ∧ pageNo userStackVaddr ∈ (onePage 0x10000000).callPages ∧
      (∃ p, exec (fromElf false onePageParse 2 (onePageFile 0x20000000)) s = (.ok p, s')) ∧
      s'.translate userStackVaddr ≠ s.translate userStackVaddr := by
  obtain ⟨s, s', hr, -, hx, hfirst, hsecond⟩ := two_programs
  have hstack : ∀ vaddr, pageNo userStackVaddr ∈ (onePage vaddr).callPages := fun vaddr =>
    List.mem_append_right _ (by decide)
  refine ⟨s, s', _, hr, rfl, hstack _, hx, ?_⟩
  -- the frame of the first stack is in use when the second is taken from the free ones
  obtain ⟨x, hx, -, -, hused⟩ := hfirst userStackVaddr (hstack _)
  obtain ⟨y, hy, hfree, -⟩ := hsecond userStackVaddr (hstack _)
  rw [hx, hy]
  intro h
  obtain ⟨⟩ := h
  exact hused hfree

end Hammam
