import Hammam.Loader.Isolation

/-!
# Malformed files

`load` computes with the fields of the program headers and of the dynamic section as they are.  With overflow checks
an addition that overflows panics, and so do a slice that is out of range, a division by a zero `DT_RELAENT` and a
word that is not aligned; an access to an address that is not canonical or not mapped faults; and a page that is
mapped over the kernel is the end of it as well.  `Clean` says which files get through, whatever the state.
-/

namespace Hammam

open Fallible

/-- The page loop visits the pages that hold a byte of the segment, and no others. -/
def ProgramHeader.LoopExact (ph : ProgramHeader) (loadOffset : Nat) : Prop :=
  ∀ p, (∃ j < ph.numPages loadOffset, p = ph.vaddr loadOffset / 0x1000 + j) ↔
    ∃ i < ph.memSize, p = (ph.vaddr loadOffset + i) / 0x1000

/-- The address `x` still leads to the same byte, with the same contents unless it was free or is part of a table. -/
def Machine.Keeps (s s' : Machine) (x : Nat) : Prop :=
  s'.translate x = s.translate x ∧
    ∀ y, s.translate x = some y → ¬ FreeAt s.alloc y → ¬ s'.IsTable (y / 4096) → s'.mem y = s.mem y

/-- `load` returns, with a value or with an error, the page loop of every segment is exact, and the kernel finds its
own memory, at the addresses `kernel`, as it was. -/
structure LoadsCleanly (parse : List UInt8 → Option ElfFile) (data : List UInt8) (kernel : Nat → Prop) (s : Machine) :
    Prop where
  returns : ∀ s', exec (load true parse data) s ≠ (.error .halt, s')
  loops : ∀ elf, parse data = some elf → ∀ ph ∈ elf.loads, ph.LoopExact elf.loadOffset
  kept : ∀ x, kernel x → s.Keeps (exec (load true parse data) s).2 x

namespace ElfFile

variable (elf : ElfFile) (data : List UInt8)

/-- No sum overflows, no range is outside the file, no word is misaligned, no access faults, no empty segment starts
inside a page, and copies and relocations stay on the pages of the segments. -/
structure Clean : Prop where
  segments : ∀ ph ∈ elf.loads, ph.vaddr elf.loadOffset + ph.memSize + 0xFFF < 2 ^ 64
  harmless : elf.Harmless data
  loops : ∀ ph ∈ elf.loads, ph.memSize ≠ 0 ∨ 0x1000 ∣ ph.vaddr elf.loadOffset
  copies : elf.CopiesInside
  relocates : elf.RelocatesInside data

/-- There are frames for the segments up to the first whose end overflows. -/
def EnoughFrames (s : Machine) : Prop :=
  ∀ l, l <+: elf.loads → (∀ ph ∈ l, ph.vaddr elf.loadOffset + ph.memSize + 0xFFF < 2 ^ 64) →
    5 * (l.flatMap (·.pages elf.loadOffset)).length ≤ s.alloc.freeFrames

end ElfFile

section Load

variable {parse : List UInt8 → Option ElfFile} {kernel : Nat → Prop} {s : Machine} {data : List UInt8} {elf : ElfFile}

theorem ElfFile.Clean.sane (hc : elf.Clean data) : elf.Sane data := by
  refine ⟨fun ph hph => ⟨hc.segments ph hph, ?_⟩, hc.copies, hc.relocates⟩
  by_cases hz : 0 < ph.fileSize
  · have := ((hc.harmless.loadable ph hph).inFile hz).2
    omega
  · omega

/-- What a call leaves alone is kept. -/
theorem Contained.keeps {P : Nat → Prop} {s' : Machine} (c : Contained P s s') {x : Nat} (hx : ¬ P (pageNo x)) :
    s.Keeps s' x :=
  ⟨(c.page x).resolve_right fun h => hx h.1, fun y _ hf ht => c.mem y ht hf⟩

/-- If there are frames, a clean file that is mapped over memory in use moves it. -/
theorem LoadsCleanly.apart (hl : LoadsCleanly parse data kernel s) (hparse : parse data = some elf) (h : TableInv s)
    (hn : elf.EnoughFrames s) (hc : elf.Clean data) {x y : Nat} (hx : kernel x) (hy : s.translate x = some y)
    (hused : ¬ FreeAt s.alloc y) : pageNo x ∉ elf.loadPages := by
  intro hpage
  have hfew := hn elf.loads (List.prefix_refl _) hc.segments
  have hspec := @load_spec true parse (fun _ => True) s data elf hparse h hc.sane fun _ _ => trivial
  rcases hrun : exec (load true parse data) s with ⟨e | a, s'⟩
  · obtain ⟨-, -, hshort⟩ := hspec.of_error hrun
    have hne : e ≠ .halt := fun he => hl.returns s' (he ▸ hrun)
    have := (hshort hne).2
    rw [ElfFile.loadPages] at this
    omega
  · obtain ⟨⟨g, -, held⟩, -⟩ := hspec.of_ok hrun
    have hkeep := (hl.kept x hx).1
    rw [hrun, hy] at hkeep
    -- the page now lies in a frame that was free
    obtain ⟨z, hz, hfree, -⟩ := held.own x hpage
    rw [hkeep, Option.some.injEq] at hz
    exact hused (hz ▸ hfree)

end Load

end Hammam
