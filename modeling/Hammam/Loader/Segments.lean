import Hammam.Loader.Contained

/-!
# The segments of a program

The loader maps the pages of each `LOAD` segment to new frames, copies the bytes of the file and clears the rest.  In
terms of what the program sees, a segment forgets its pages and then stores its bytes; the loader does the same to the
frames behind the pages, and nothing else.
-/

namespace Hammam

open Fallible

namespace ProgramHeader

variable (ph : ProgramHeader) (loadOffset : Nat)

/-- The first address of the segment. -/
def vaddr : Nat := ph.virtualAddr + loadOffset

def numPages : Nat := (ph.vaddr loadOffset + ph.memSize + 0xFFF) / 0x1000 - ph.vaddr loadOffset / 0x1000

/-- The `i`-th page of the segment. -/
def page (i : Nat) : Nat := pageNo (ph.vaddr loadOffset / 0x1000 * 0x1000 + i * 0x1000)

def pages : List Nat := (List.range (ph.numPages loadOffset)).map (ph.page loadOffset)

/-- The segment does not wrap around, and `file_size` is a `u64`. -/
structure Sane : Prop where
  noWrap : ph.vaddr loadOffset + ph.memSize + 0xFFF < 2 ^ 64
  size : ph.fileSize < 2 ^ 64

/-- The segment lies in the lower half of the address space and its bytes lie in the file. -/
structure Readable (data : List UInt8) : Prop where
  lower : ph.vaddr loadOffset + max ph.fileSize ph.memSize ≤ 2 ^ 47
  inFile : ph.offset + ph.fileSize ≤ data.length
  small : data.length < 2 ^ 64

/-- The slice of the file is in range, and no access faults. -/
structure Loadable (data : List UInt8) : Prop where
  inFile : 0 < ph.fileSize → ph.offset + ph.fileSize ≤ data.length ∧ ph.offset + ph.fileSize < 2 ^ 64
  canonical : CanonicalRange (ph.vaddr loadOffset) (max ph.fileSize ph.memSize)

theorem Readable.loadable {ph : ProgramHeader} {loadOffset : Nat} {data : List UInt8}
    (h : ph.Readable loadOffset data) :
    ph.Loadable loadOffset data :=
  ⟨fun _ => ⟨h.inFile, Nat.lt_of_le_of_lt h.inFile h.small⟩, canonicalRange_of_le h.lower⟩

/-- The bytes of the segment in the file. -/
def bytes (data : List UInt8) : List UInt8 := (data.drop ph.offset).take ph.fileSize

end ProgramHeader

namespace VMem

def copySegment (g : VMem) (data : List UInt8) (loadOffset : Nat) (ph : ProgramHeader) : VMem :=
  if 0 < ph.fileSize then g.storeBytes (ph.vaddr loadOffset) (ph.bytes data) else g

def clearSegment (g : VMem) (loadOffset : Nat) (ph : ProgramHeader) : VMem :=
  if ph.fileSize < ph.memSize then
    g.storeBytes (ph.vaddr loadOffset + ph.fileSize) (List.replicate (ph.memSize - ph.fileSize) 0)
  else g

/-- What a program sees after one more segment. -/
def segment (g : VMem) (data : List UInt8) (loadOffset : Nat) (ph : ProgramHeader) : VMem :=
  (((ph.pages loadOffset).foldl forget g).copySegment data loadOffset ph).clearSegment loadOffset ph

end VMem

section Segment

variable {checks : Bool} {P Q : Nat → Prop} {s₀ s : Machine} {g : VMem} {data : List UInt8} {loadOffset : Nat}
  {ph : ProgramHeader}

theorem dataSlice_spec {offset len : Nat} (hlen : len < 2 ^ 64) :
    Spec (dataSlice checks data offset len) s
      (fun r s' => r = (data.drop offset).take len ∧ r.length = len ∧ s' = s ∧
        offset + len ≤ data.length ∧ offset + len < 2 ^ 64)
      (fun e s' => e = .halt ∧ s' = s ∧ ¬ (offset + len ≤ data.length ∧ offset + len < 2 ^ 64)) := by
  unfold dataSlice
  refine wrapU64_bind (fun h => ⟨rfl, rfl, by omega⟩) fun _ => ?_
  split
  · rename_i h
    -- a sum that wraps around ends before it starts
    have hsum : (offset + len) % 2 ^ 64 = offset + len := by omega
    refine Spec.pure ⟨?_, ?_, rfl, by omega, by omega⟩
    · rw [hsum, Nat.add_sub_cancel_left]
    · rw [hsum, Nat.add_sub_cancel_left, List.length_take, List.length_drop]
      omega
  · rename_i h
    exact Spec.throw ⟨rfl, rfl, by omega⟩

/-- One page of a segment. -/
theorem mapSegmentPage_spec (h : Held P Q s₀ s g) {startPage i : Nat} (hlt : startPage + i * 0x1000 < 2 ^ 64)
    (hP : P (pageNo (startPage + i * 0x1000))) (flags : PageFlags) :
    Spec (mapSegmentPage checks startPage flags i) s
      (fun _ s' => Held P (fun p => Q p ∨ p = pageNo (startPage + i * 0x1000)) s₀ s'
        (g.forget (pageNo (startPage + i * 0x1000))) ∧ s.alloc.freeFrames ≤ s'.alloc.freeFrames + 5)
      (fun e s' => e ≠ .halt ∧ Aborted P s₀ s' ∧ s.alloc.freeFrames < 5) := by
  unfold mapSegmentPage
  simp only [wrapU64_of_lt hlt, pure_bind]
  exact h.backPage hP flags nofun nofun

/-- All pages of a segment. -/
theorem mapSegmentPages_spec (h : Held P Q s₀ s g) (hs : ph.Sane loadOffset)
    (hP : ∀ p ∈ ph.pages loadOffset, P p) :
    Spec ((List.range (ph.numPages loadOffset)).forM
        (mapSegmentPage checks (ph.vaddr loadOffset / 0x1000 * 0x1000) ph.pageFlags)) s
      (fun _ s' => Held P (fun p => Q p ∨ p ∈ ph.pages loadOffset) s₀ s' ((ph.pages loadOffset).foldl VMem.forget g) ∧
        s.alloc.freeFrames ≤ s'.alloc.freeFrames + 5 * ph.numPages loadOffset)
      (fun e s' => e ≠ .halt ∧ Aborted P s₀ s' ∧ s.alloc.freeFrames < 5 * ph.numPages loadOffset) := by
  have hnum : ph.numPages loadOffset =
      (ph.vaddr loadOffset + ph.memSize + 0xFFF) / 0x1000 - ph.vaddr loadOffset / 0x1000 := rfl
  have hwrap := hs.noWrap
  refine (Spec.forM (I := fun l s' => Held P (fun p => Q p ∨ p ∈ l.map (ph.page loadOffset)) s₀ s'
    ((l.map (ph.page loadOffset)).foldl VMem.forget g) ∧ s.alloc.freeFrames ≤ s'.alloc.freeFrames + 5 * l.length)
    (List.range (ph.numPages loadOffset)) ?_ ?_).mono ?_ fun _ _ h => h
  · intro l i r s₁ hl hpost
    obtain ⟨h₁, hn₁⟩ := hpost
    have hi : i < ph.numPages loadOffset := List.mem_range.1 (hl ▸ by simp)
    have hlen : l.length < ph.numPages loadOffset := by
      have := congrArg List.length hl
      rw [List.length_range, List.length_append, List.length_cons] at this
      omega
    refine (mapSegmentPage_spec h₁ (by omega) (hP _ ?_) _).mono ?_ ?_
    · exact List.mem_map_of_mem (List.mem_range.2 hi)
    · intro _ s₂ hpost
      obtain ⟨h₂, hn₂⟩ := hpost
      refine ⟨?_, by rw [List.length_append, List.length_singleton]; omega⟩
      rw [List.map_append, List.foldl_append]
      refine h₂.congr fun p => ?_
      simp [ProgramHeader.page, or_assoc]
    · intro e s₂ hpost
      obtain ⟨he, hc, hn₂⟩ := hpost
      exact ⟨he, hc, by omega⟩
  · exact ⟨h.congr fun p => by simp, by simp⟩
  · intro _ s' hpost
    obtain ⟨h', hn⟩ := hpost
    rw [List.length_range] at hn
    exact ⟨h', hn⟩

/-- The addresses of a segment lie on its pages. -/
theorem ProgramHeader.mem_pages {a : Nat} (ha : a < ph.memSize) :
    pageNo (ph.vaddr loadOffset + a) ∈ ph.pages loadOffset := by
  have hk : (ph.vaddr loadOffset + a) / 0x1000 - ph.vaddr loadOffset / 0x1000 < ph.numPages loadOffset := by
    rw [numPages]
    omega
  refine List.mem_map.2 ⟨_, List.mem_range.2 hk, ?_⟩
  rw [page, pageNo, pageNo]
  congr 1
  omega

private theorem copySegment_spec (h : Held P (fun p => Q p ∨ p ∈ ph.pages loadOffset) s₀ s g)
    (hs : ph.Sane loadOffset)
    (hin : ∀ i < ph.fileSize, Q (pageNo (ph.vaddr loadOffset + i)) ∨
      pageNo (ph.vaddr loadOffset + i) ∈ ph.pages loadOffset) :
    Spec (copySegment checks data (ph.vaddr loadOffset) ph) s
      (fun _ s' => Held P (fun p => Q p ∨ p ∈ ph.pages loadOffset) s₀ s' (g.copySegment data loadOffset ph) ∧
        Twin s s' ∧ (0 < ph.fileSize → ph.offset + ph.fileSize ≤ data.length ∧ ph.offset + ph.fileSize < 2 ^ 64) ∧
        CanonicalRange (ph.vaddr loadOffset) ph.fileSize)
      (fun e s' => e = .halt ∧ Contained P s₀ s' ∧ ¬ ph.Loadable loadOffset data) := by
  have hwrap := hs.noWrap
  unfold copySegment VMem.copySegment
  split
  · rename_i hpos
    refine Spec.bind ((dataSlice_spec hs.size).mono ?_ ?_)
    · intro src _ hpost
      obtain ⟨hsrc, hlen, rfl, hfile⟩ := hpost
      rw [← ProgramHeader.bytes] at hsrc
      subst hsrc
      refine (Held.storeBytes _ h (by omega) fun i hi => hin i (hlen ▸ hi)).mono ?_ ?_
      · intro _ s' hpost
        obtain ⟨h', w, hr⟩ := hpost
        rw [hlen] at hr
        exact ⟨h', w, fun _ => hfile, hr⟩
      · intro e s' hpost
        obtain ⟨he, hc, hn⟩ := hpost
        rw [hlen] at hn
        exact ⟨he, hc, fun hl => hn (canonicalRange_max.1 hl.canonical).1⟩
    · intro e _ hpost
      obtain ⟨he, rfl, hn⟩ := hpost
      exact ⟨he, h.conf, fun hl => hn (hl.inFile hpos)⟩
  · rename_i hz
    exact Spec.pure ⟨h, Twin.refl s, fun hpos => absurd hpos hz, fun i hi => absurd (Nat.zero_lt_of_lt hi) hz⟩

private theorem clearSegment_spec (data : List UInt8) (h : Held P (fun p => Q p ∨ p ∈ ph.pages loadOffset) s₀ s g)
    (hs : ph.Sane loadOffset) :
    Spec (clearSegment (ph.vaddr loadOffset) ph) s
      (fun _ s' => Held P (fun p => Q p ∨ p ∈ ph.pages loadOffset) s₀ s' (g.clearSegment loadOffset ph) ∧
        Twin s s' ∧
        (ph.fileSize < ph.memSize → CanonicalRange (ph.vaddr loadOffset + ph.fileSize) (ph.memSize - ph.fileSize)))
      (fun e s' => e = .halt ∧ Contained P s₀ s' ∧ ¬ ph.Loadable loadOffset data) := by
  have hwrap := hs.noWrap
  unfold clearSegment VMem.clearSegment
  split
  · rename_i hlt
    rw [Nat.mod_eq_of_lt (by omega)]
    refine (Held.storeBytes _ h (by omega) fun i hi => Or.inr ?_).mono ?_ ?_
    · rw [List.length_replicate] at hi
      rw [Nat.add_assoc]
      exact ProgramHeader.mem_pages (by omega)
    · intro _ s' hpost
      obtain ⟨h', w, hr⟩ := hpost
      rw [List.length_replicate] at hr
      exact ⟨h', w, fun _ => hr⟩
    · intro e s' hpost
      obtain ⟨he, hc, hn⟩ := hpost
      rw [List.length_replicate] at hn
      exact ⟨he, hc, fun hl => hn ((canonicalRange_max.1 hl.canonical).2 hlt)⟩
  · rename_i hge
    exact Spec.pure ⟨h, Twin.refl s, fun hlt => absurd hlt hge⟩

/-- The bytes of the segment are written; a segment that is not loadable stops the kernel here. -/
theorem fillSegment_spec (h : Held P (fun p => Q p ∨ p ∈ ph.pages loadOffset) s₀ s g) (hs : ph.Sane loadOffset)
    (hin : ∀ i < ph.fileSize, Q (pageNo (ph.vaddr loadOffset + i)) ∨
      pageNo (ph.vaddr loadOffset + i) ∈ ph.pages loadOffset) :
    Spec (copySegment checks data (ph.vaddr loadOffset) ph >>= fun _ => clearSegment (ph.vaddr loadOffset) ph) s
      (fun _ s' => Held P (fun p => Q p ∨ p ∈ ph.pages loadOffset) s₀ s'
          ((g.copySegment data loadOffset ph).clearSegment loadOffset ph) ∧ Twin s s' ∧ ph.Loadable loadOffset data)
      (fun e s' => e = .halt ∧ Contained P s₀ s' ∧ ¬ ph.Loadable loadOffset data) := by
  refine Spec.bind ((copySegment_spec h hs hin).mono ?_ fun _ _ h => h)
  intro _ s₁ hpost
  obtain ⟨h₁, w₁, hfile, hcopied⟩ := hpost
  refine (clearSegment_spec data h₁ hs).mono ?_ fun _ _ h => h
  intro _ s₂ hpost
  obtain ⟨h₂, w₂, hcleared⟩ := hpost
  exact ⟨h₂, w₁.trans w₂, hfile, canonicalRange_max.2 ⟨hcopied, hcleared⟩⟩

/-- In a sane segment no sum wraps around. -/
theorem loadSegment_eq (hs : ph.Sane loadOffset) :
    loadSegment checks data loadOffset ph =
      ((List.range (ph.numPages loadOffset)).forM
        (mapSegmentPage checks (ph.vaddr loadOffset / 0x1000 * 0x1000) ph.pageFlags) >>= fun _ =>
      copySegment checks data (ph.vaddr loadOffset) ph >>= fun _ => clearSegment (ph.vaddr loadOffset) ph) := by
  have hwrap := hs.noWrap
  have hspan :
    ((ph.vaddr loadOffset + ph.memSize + 0xFFF) / 0x1000 * 0x1000 - ph.vaddr loadOffset / 0x1000 * 0x1000) /
      0x1000 = ph.numPages loadOffset := by
    rw [ProgramHeader.numPages]
    omega
  unfold loadSegment
  rw [← ProgramHeader.vaddr, wrapU64_of_lt (by omega), pure_bind, wrapU64_of_lt (by omega), pure_bind,
    wrapU64_of_lt hwrap, pure_bind]
  dsimp only
  rw [subU64_of_le (by omega), pure_bind, hspan]

/-- The loop body does to the frames what the segment says. -/
theorem loadSegment_spec (h : Held P Q s₀ s g) (hs : ph.Sane loadOffset)
    (hin : ∀ i < ph.fileSize, Q (pageNo (ph.vaddr loadOffset + i)) ∨
      pageNo (ph.vaddr loadOffset + i) ∈ ph.pages loadOffset)
    (hP : ∀ p ∈ ph.pages loadOffset, P p) :
    Spec (loadSegment checks data loadOffset ph) s
      (fun _ s' => Held P (fun p => Q p ∨ p ∈ ph.pages loadOffset) s₀ s' (g.segment data loadOffset ph) ∧
        s.alloc.freeFrames ≤ s'.alloc.freeFrames + 5 * ph.numPages loadOffset ∧ ph.Loadable loadOffset data)
      (fun e s' => Contained P s₀ s' ∧ (e = .halt → ¬ ph.Loadable loadOffset data) ∧
        (e ≠ .halt → Aborted P s₀ s' ∧ s.alloc.freeFrames < 5 * ph.numPages loadOffset)) := by
  rw [loadSegment_eq hs]
  refine Spec.bind ((mapSegmentPages_spec h hs hP).mono ?_ ?_)
  case refine_2 =>
    intro e s' hpost
    obtain ⟨he, hab, hn⟩ := hpost
    exact ⟨hab.conf, fun h => absurd h he, fun _ => ⟨hab, hn⟩⟩
  intro _ s₁ hpost
  obtain ⟨h₁, hn₁⟩ := hpost
  refine (fillSegment_spec h₁ hs hin).mono ?_ ?_
  · intro _ s₂ hpost
    obtain ⟨h₂, w₂, hload⟩ := hpost
    exact ⟨h₂, by rw [w₂.alloc]; exact hn₁, hload⟩
  · intro e s' hpost
    obtain ⟨he, hc, hn⟩ := hpost
    exact ⟨hc, fun _ => hn, fun h => absurd he h⟩

end Segment

end Hammam
