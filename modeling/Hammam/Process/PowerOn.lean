import Hammam.Arch.BootCode
import Hammam.Mm.BlockBounds
import Hammam.Process.Safety

/-!
# From the boot loader to the first process (`boot.rs`, `main.rs`)

The boot loader jumps to the boot code, which builds the tables and calls `_start_multiboot2`.  That parses the
information block, gives the usable memory to the frame allocator, builds the archive, and creates the first process
from it.  What the other modules assume of the machine that they start with holds of the one that the boot code
leaves behind.

The kernel writes to its own image in between, to the descriptor tables, the heap and the statics, which nothing here
reads.  What comes before the parser besides `enable_smep_smap` (the GDT, the PIC, the IDT, NX, SSE and the canary)
writes to registers and ports, and is left out.
-/

namespace Hammam

open ByteMem

/-! ### `_start_multiboot2` -/

section PowerOn

variable (checks : Bool) (parse : List UInt8 → Option ElfFile) (k : KernelImage) (apicMsr : Nat) (heap : Bool)
  (dealduckElf netServerElf : List UInt8)

end PowerOn

/-- What the machine and the boot loader owe to the kernel: a processor with long mode and without SMEP and SMAP, the
image in its place, and behind the address in `EBX` an information block that does not lie in the image, and whose
usable memory lies in the first GiB. -/
structure Loaded (checks : Bool) (p : BootCode.Platform) (c : BootCode.Cpu) (k : KernelImage)
    (entries : List MapEntry) : Prop where
  longMode : p.hasLongMode = true
  smep : (p.cpuid 7).2.1.getLsbD 7 = false
  smap : (p.cpuid 7).2.1.getLsbD 20 = false
  image : BootCode.Image c.mem
  workspace : k.physStart ≤ bootPt
  stack : BootCode.bootStackTop ≤ p.kernelStack.toNat ∧ p.kernelStack.toNat + 64 * 1024 ≤ k.physEnd
  low : k.physEnd ≤ 2 ^ 30
  info : BootInfo c.mem (c.reg32 .rbx).toNat entries
  infoAligned : Multiboot.EntriesAligned checks c.mem (c.reg32 .rbx).toNat maxMemoryRegions
  infoApart : (c.reg32 .rbx).toNat + read32 c.mem (c.reg32 .rbx).toNat ≤ k.physStart ∨
    k.physEnd ≤ (c.reg32 .rbx).toNat
  usable : ∀ n ∈ usablePages k entries, n * pageSize < 2 ^ 30

namespace Loaded

variable {checks : Bool} {p : BootCode.Platform} {c t : BootCode.Cpu} {k : KernelImage} {entries : List MapEntry}

/-- The parser finds the entries of the block, which is still there when `_start_multiboot2` is called. -/
theorem regions (h : Loaded checks p c k entries) (ht : BootCode.HandedOver p c t) :
    ∃ n, ∀ fuel ≥ n, Multiboot.parse? checks t.mem (t.reg32 .rsi).toNat maxMemoryRegions fuel =
      some (entries.map MapEntry.region) := by
  have hmbi : (t.reg32 .rsi).toNat = (c.reg32 .rbx).toNat := by
    rw [BootCode.Cpu.reg32, ht.info, BitVec.setWidth_setWidth_of_le _ (by decide), BitVec.setWidth_eq]
  have hws := h.workspace
  have hst := h.stack
  have hap := h.infoApart
  have hle : bootPt ≤ BootCode.bootStackTop := by decide
  have hsize := h.info.tags.le
  obtain ⟨n, hn⟩ := Multiboot.parse?_bootInfo h.info h.infoAligned
  refine ⟨n, fun fuel hf => ?_⟩
  rw [hmbi, Multiboot.parse?_congr (by omega) fun x h1 h2 => ht.memory x (by omega) (by omega)]
  exact hn fuel hf

theorem layout (h : Loaded checks p c k entries) :
    BootLayout k (entries.map MapEntry.region) (FrameState.boot k (entries.map MapEntry.region)) where
  map := h.info.validMap
  alloc := .refl
  low := by
    rw [h.info.initPages_eq]
    exact h.usable
  image := h.low
  tables := by
    obtain ⟨hpt, -, -, -, -, -, htop⟩ := BootCode.layout
    have hst := h.stack
    refine ⟨h.workspace, ?_⟩
    rw [htop] at hst
    rw [hpt]
    omega

/-- Every usable page is a free frame. -/
theorem freeFrames (h : Loaded checks p c k entries) :
    (FrameState.boot k (entries.map MapEntry.region)).alloc.freeFrames = (usablePages k entries).ncard := by
  obtain ⟨d, ho, hd⟩ := FrameState.Reachable.owned h.info.validMap (k := k) .refl
  rw [h.info.initPages_eq] at hd
  have hpages : {n | FreeAt (FrameState.boot k (entries.map MapEntry.region)).alloc (n * pageSize)} =
      usablePages k entries := by
    ext n
    rw [Set.mem_ofPred_eq, ← Nat.mul_div_cancel n (show 0 < pageSize by decide), ← hd, ← ho.owner, owners_pos]
    rw [Nat.mul_div_cancel n (show 0 < pageSize by decide)]
    simp only [FrameState.boot, List.append_nil]
    rfl
  rw [← hpages]
  exact ho.free.trans (ncard_pages ho).symm

theorem accessed (h : Loaded checks p c k entries) (m : Memory) {x : Nat}
    (hx : (Machine.boot m (FrameState.boot k (entries.map MapEntry.region)).alloc).Accessed k x) :
    (k.physStart ≤ x ∧ x < k.physEnd) ∨ x / pageSize ∈ usablePages k entries := by
  have htables := h.layout.tables
  rcases hx with hx | hx | hx
  · exact Or.inl hx
  · have := isTable_boot hx
    exact Or.inl (by omega)
  · rw [← h.info.initPages_eq k]
    exact Or.inr (h.layout.freeAt hx)

end Loaded

end Hammam
