import Hammam.Loader.Relocations

/-!
# Stale memory

`allocate` does not clear a frame, and neither does `map_page`.  What a program sees of its pages is what the loader
has written there, and on all other bytes what the frame held before: around a segment that does not fill its pages,
and on the whole user stack.
-/

namespace Hammam

open Fallible

/-! ### What a call writes -/

/-- The call writes the byte at `v`, and its page is not mapped again after that. -/
def ElfFile.Written (elf : ElfFile) (data : List UInt8) (v : Nat) : Prop :=
  ∃ g b, elf.relocated data = some g ∧ stackPages.foldl VMem.forget g (v % 2 ^ 48) = some b

/-- A segment has a byte at `v`, and no segment after it maps the page again. -/
def ElfFile.Covered (elf : ElfFile) (v : Nat) : Prop :=
  ∃ l ph r, elf.loads = l ++ ph :: r ∧ (∃ i < ph.extent, (ph.vaddr elf.loadOffset + i) % 2 ^ 48 = v % 2 ^ 48) ∧
    ∀ q ∈ r, pageNo v ∉ q.pages elf.loadOffset

/-- The address that the relocation `i` patches. -/
def VMem.target (g : VMem) (info : RelaInfo) (delta i : Nat) : Option Nat := do
  let rOffset ← g.loadBytes (info.entryVa delta i) 8
  let rInfo ← g.loadBytes ((info.entryVa delta i + 8) % 2 ^ 64) 8
  if fromBytes rInfo % 2 ^ 32 = 8 then some ((fromBytes rOffset + delta) % 2 ^ 64) else none

/-- One of the first `n` relocations patches the byte `a`. -/
def VMem.Patches (pages : List Nat) (info : RelaInfo) (delta : Nat) (g : VMem) (n a : Nat) : Prop :=
  ∃ i < n, ∃ gi va, (List.range i).foldlM (VMem.relocate pages info delta) g = some gi ∧
    gi.target info delta i = some va ∧ ∃ j < 8, (va + j) % 2 ^ 48 = a

/-- The byte at `v` is one of the target of a relocation. -/
def ElfFile.Target (elf : ElfFile) (data : List UInt8) (v : Nat) : Prop :=
  elf.loadOffset ≠ 0 ∧ ∃ info, elf.relaInfo data = some info ∧ info.va ≠ 0 ∧ info.size ≠ 0 ∧ info.ent ≠ 0 ∧
    VMem.Patches elf.loadPages info elf.loadOffset (elf.image data) (info.size / info.ent) (v % 2 ^ 48)

namespace VMem

variable {g g' : VMem} {pages : List Nat} {info : RelaInfo} {delta a : Nat}

theorem storeBytes_isSome_iff {v : Nat} {bytes : List UInt8} :
    (g.storeBytes v bytes a).isSome ↔ (g a).isSome ∨ ∃ i < bytes.length, (v + i) % 2 ^ 48 = a := by
  induction bytes generalizing g v with
  | nil => simp [storeBytes]
  | cons b bytes ih =>
    have hfirst : (g.store v b a).isSome ↔ (g a).isSome ∨ v % 2 ^ 48 = a := by
      unfold store
      by_cases hv : a = v % 2 ^ 48
      · simp [hv]
      · rw [Function.update_of_ne hv]
        exact (or_iff_left (Ne.symm hv)).symm
    have hshift : ∀ i, (nextAddr v + i) % 2 ^ 48 = (v + (i + 1)) % 2 ^ 48 := by
      intro i
      rw [nextAddr]
      omega
    rw [storeBytes, ih, hfirst, or_assoc]
    refine or_congr_right ⟨?_, ?_⟩
    · intro h
      obtain h | ⟨i, hi, he⟩ := h
      · exact ⟨0, Nat.succ_pos _, h⟩
      · exact ⟨i + 1, Nat.succ_lt_succ hi, hshift i ▸ he⟩
    · intro h
      obtain ⟨i, hi, he⟩ := h
      cases i with
      | zero => exact Or.inl he
      | succ i => exact Or.inr ⟨i, Nat.lt_of_succ_lt_succ hi, (hshift i).trans he⟩

/-- After a segment that can be loaded its own bytes are known, and those that were known on other pages. -/
theorem segment_isSome_iff {data : List UInt8} {loadOffset : Nat} {ph : ProgramHeader}
    (hl : ph.Loadable loadOffset data) :
    (g.segment data loadOffset ph a).isSome ↔
      (∃ i < ph.extent, (ph.vaddr loadOffset + i) % 2 ^ 48 = a) ∨
      (a / 4096 ∉ ph.pages loadOffset ∧ (g a).isSome) := by
  have hforget : ((ph.pages loadOffset).foldl forget g a).isSome ↔ a / 4096 ∉ ph.pages loadOffset ∧ (g a).isSome := by
    by_cases hp : a / 4096 ∈ ph.pages loadOffset
    · rw [foldl_forget_of_mem hp]
      simp [hp]
    · rw [foldl_forget_of_not_mem hp]
      simp [hp]
  have hcopy : ∀ f : VMem, (f.copySegment data loadOffset ph a).isSome ↔
      (f a).isSome ∨ ∃ i < ph.fileSize, (ph.vaddr loadOffset + i) % 2 ^ 48 = a := by
    intro f
    unfold copySegment
    split
    · rename_i hpos
      have hlen : (ph.bytes data).length = ph.fileSize := by
        have := (hl.inFile hpos).1
        rw [ProgramHeader.bytes, List.length_take, List.length_drop]
        omega
      rw [storeBytes_isSome_iff, hlen]
    · rename_i hz
      have hnone : ¬ ∃ i < ph.fileSize, (ph.vaddr loadOffset + i) % 2 ^ 48 = a := by
        rintro ⟨_, hi, -⟩
        exact hz (Nat.zero_lt_of_lt hi)
      simp only [hnone, or_false]
  have hclear : ∀ f : VMem, (f.clearSegment loadOffset ph a).isSome ↔
      (f a).isSome ∨ ∃ i < ph.memSize - ph.fileSize, (ph.vaddr loadOffset + (ph.fileSize + i)) % 2 ^ 48 = a := by
    intro f
    unfold clearSegment
    split
    · rw [storeBytes_isSome_iff, List.length_replicate]
      simp only [Nat.add_assoc]
    · rename_i hge
      have hnone : ¬ ∃ i < ph.memSize - ph.fileSize, (ph.vaddr loadOffset + (ph.fileSize + i)) % 2 ^ 48 = a := by
        rintro ⟨_, hi, -⟩
        omega
      simp only [hnone, or_false]
  rw [segment, hclear, hcopy, hforget, or_assoc, or_comm]
  refine or_congr_left ⟨?_, ?_⟩
  · intro h
    obtain ⟨i, hi, he⟩ | ⟨i, hi, he⟩ := h
    · exact ⟨i, Nat.lt_of_lt_of_le hi (Nat.le_max_left _ _), he⟩
    · exact ⟨ph.fileSize + i, by rw [ProgramHeader.extent]; omega, he⟩
  · intro h
    obtain ⟨i, hi, he⟩ := h
    rw [ProgramHeader.extent] at hi
    by_cases hf : i < ph.fileSize
    · exact Or.inl ⟨i, hf, he⟩
    · exact Or.inr ⟨i - ph.fileSize, by omega, by rwa [show ph.fileSize + (i - ph.fileSize) = i by omega]⟩

/-- A relocation forgets nothing, and a relative one makes its target known. -/
theorem relocate_isSome_iff {i : Nat} (hr : g.relocate pages info delta i = some g') :
    (g' a).isSome ↔ (g a).isSome ∨ ∃ va, g.target info delta i = some va ∧ ∃ j < 8, (va + j) % 2 ^ 48 = a := by
  simp only [relocate, Option.bind_eq_bind, Option.bind_eq_some_iff] at hr
  obtain ⟨rOffset, h1, rInfo, h2, rAddend, -, hr⟩ := hr
  unfold target
  rw [h1, h2]
  simp only [Option.bind_eq_bind, Option.bind_some]
  split at hr
  · rename_i htype
    split at hr
    · rw [← Option.some.inj hr, storeBytes_isSome_iff, toBytes_length, if_pos htype]
      simp only [Option.some.injEq, exists_eq_left']
    · cases hr
  · rename_i htype
    rw [← Option.some.inj hr, if_neg htype]
    simp

/-- The loop over the first `n` relocations. -/
theorem relocates_isSome_iff {n : Nat}
    (hr : (List.range n).foldlM (relocate pages info delta) g = some g') :
    (g' a).isSome ↔ (g a).isSome ∨ Patches pages info delta g n a := by
  induction n generalizing g' with
  | zero =>
    rw [← Option.some.inj hr]
    simp [Patches]
  | succ n ih =>
    rw [List.range_succ, List.foldlM_append, Option.bind_eq_bind, Option.bind_eq_some_iff] at hr
    obtain ⟨g₁, hg₁, hr⟩ := hr
    have hr : g₁.relocate pages info delta n = some g' := by simpa using hr
    rw [relocate_isSome_iff hr, ih hg₁, or_assoc]
    refine or_congr_right ⟨?_, ?_⟩
    · intro h
      obtain ⟨i, hi, h⟩ | ⟨va, hva, h⟩ := h
      · exact ⟨i, Nat.lt_succ_of_lt hi, h⟩
      · exact ⟨n, Nat.lt_succ_self n, g₁, va, hg₁, hva, h⟩
    · intro h
      obtain ⟨i, hi, gi, va, hgi, hva, h⟩ := h
      obtain hi | rfl := Nat.lt_succ_iff_lt_or_eq.1 hi
      · exact Or.inl ⟨i, hi, gi, va, hgi, hva, h⟩
      · rw [hg₁, Option.some.injEq] at hgi
        exact Or.inr ⟨va, hgi ▸ hva, h⟩

end VMem

namespace ElfFile

variable {elf : ElfFile} {data : List UInt8} {v : Nat}

/-- What the segments have written: the induction is on the segments from the last one on. -/
theorem image_isSome_iff (hl : ∀ ph ∈ elf.loads, ph.Loadable elf.loadOffset data) :
    (elf.image data (v % 2 ^ 48)).isSome ↔ elf.Covered v := by
  have main : ∀ segs : List ProgramHeader, (∀ ph ∈ segs, ph.Loadable elf.loadOffset data) →
      ((segs.foldl (fun (g : VMem) ph => g.segment data elf.loadOffset ph) (fun _ => none) (v % 2 ^ 48)).isSome ↔
        ∃ l ph r, segs = l ++ ph :: r ∧ (∃ i < ph.extent, (ph.vaddr elf.loadOffset + i) % 2 ^ 48 = v % 2 ^ 48) ∧
          ∀ q ∈ r, pageNo v ∉ q.pages elf.loadOffset) := by
    intro segs
    induction segs using List.reverseRecOn with
    | nil => simp
    | append_singleton segs q ih =>
      intro hsegs
      rw [List.foldl_append, List.foldl_cons, List.foldl_nil,
        VMem.segment_isSome_iff (hsegs q (List.mem_append_right _ (List.mem_singleton_self q))),
        ih fun ph hph => hsegs ph (List.mem_append_left _ hph), ← pageNo_eq]
      constructor
      · intro h
        obtain h | ⟨hq, l, ph, r, rfl, h, hr⟩ := h
        · exact ⟨segs, q, [], rfl, h, nofun⟩
        · refine ⟨l, ph, r ++ [q], by rw [List.append_assoc, List.cons_append], h, fun q' hq' => ?_⟩
          obtain hq' | hq' := List.mem_append.1 hq'
          · exact hr q' hq'
          · exact List.mem_singleton.1 hq' ▸ hq
      · intro h
        obtain ⟨l, ph, r, hsplit, h, hr⟩ := h
        obtain rfl | ⟨r, q', rfl⟩ := r.eq_nil_or_concat
        · obtain ⟨-, hq⟩ := List.append_inj' hsplit rfl
          cases hq
          exact Or.inl h
        · rw [List.concat_eq_append] at hsplit hr
          rw [← List.cons_append, ← List.append_assoc] at hsplit
          obtain ⟨rfl, hq⟩ := List.append_inj' hsplit rfl
          cases hq
          exact Or.inr ⟨hr q (List.mem_append_right _ (List.mem_singleton_self q)), l, ph, r, rfl, h,
            fun q' hq' => hr q' (List.mem_append_left _ hq')⟩
  exact main elf.loads hl

/-- What the relocations have written as well. -/
theorem relocated_isSome_iff {g : VMem} (hl : ∀ ph ∈ elf.loads, ph.Loadable elf.loadOffset data)
    (hr : elf.relocated data = some g) : (g (v % 2 ^ 48)).isSome ↔ elf.Covered v ∨ elf.Target data v := by
  rw [← image_isSome_iff hl]
  unfold relocated at hr
  unfold Target
  split at hr
  · rename_i h0
    rw [← Option.some.inj hr]
    simp [h0]
  · rename_i h0
    split at hr
    · cases hr
    · rename_i info hinfo
      simp only [hinfo, Option.some.injEq, exists_eq_left']
      split at hr
      · rename_i hz
        rw [← Option.some.inj hr]
        have hno : ¬ (info.va ≠ 0 ∧ info.size ≠ 0) := by tauto
        exact (or_iff_left fun h => hno ⟨h.2.1, h.2.2.1⟩).symm
      · rename_i hz
        split at hr
        · cases hr
        · rename_i hent
          rw [VMem.relocates_isSome_iff hr]
          rw [not_or] at hz
          exact or_congr_right ⟨fun h => ⟨h0, hz.1, hz.2, hent, h⟩, fun h => h.2.2.2.2⟩

/-- The bytes that are written and not mapped again. -/
theorem written_iff {g : VMem} (hl : ∀ ph ∈ elf.loads, ph.Loadable elf.loadOffset data)
    (hr : elf.relocated data = some g) :
    elf.Written data v ↔ pageNo v ∉ stackPages ∧ (elf.Covered v ∨ elf.Target data v) := by
  have hw : elf.Written data v ↔ (stackPages.foldl VMem.forget g (v % 2 ^ 48)).isSome := by
    rw [Option.isSome_iff_exists]
    constructor
    · intro h
      obtain ⟨g', b, hg', hb⟩ := h
      rw [hr, Option.some.injEq] at hg'
      exact ⟨b, hg' ▸ hb⟩
    · intro h
      obtain ⟨b, hb⟩ := h
      exact ⟨g, b, hr, hb⟩
  rw [hw, ← relocated_isSome_iff hl hr, pageNo_eq]
  by_cases hs : v % 2 ^ 48 / 4096 ∈ stackPages
  · rw [VMem.foldl_forget_of_mem hs]
    exact iff_of_false (by simp) fun h => h.1 hs
  · rw [VMem.foldl_forget_of_not_mem hs]
    exact (and_iff_right hs).symm

end ElfFile

/-! ### Two states -/

section Stale

variable {checks : Bool} {parse : List UInt8 → Option ElfFile} {pid : Nat} {data : List UInt8} {elf : ElfFile}
  {s s' t t' : Machine} {p p' : Created}

/-- What a call has written does not depend on what the free frames held. -/
theorem written_same (hparse : parse data = some elf) (h : TableInv s) (hs : elf.Sane data) (w : Twin s t)
    (hok : exec (fromElf checks parse pid data) s = (.ok p, s'))
    (hok' : exec (fromElf checks parse pid data) t = (.ok p', t')) {v : Nat} (hv : elf.Written data v) :
    s'.readByte v = t'.readByte v := by
  obtain ⟨g, b, hg, hb⟩ := hv
  have key : ∀ {m m' : Machine} {q : Created}, TableInv m → exec (fromElf checks parse pid data) m = (.ok q, m') →
      m'.readByte v = some b := by
    intro m m' q hm hx
    obtain ⟨⟨g', hg', held⟩, -⟩ := (fromElf_spec hparse hm hs).of_ok hx
    rw [hg, Option.some.injEq] at hg'
    exact held.readByte_written (hg' ▸ hb)
  rw [key h hok, key (w.inv h) hok']

/-- On the other bytes the program reads what was there before: some contents of the free frames show. -/
theorem unwritten_differs (hparse : parse data = some elf) (h : TableInv s) (hs : elf.Sane data)
    (hok : exec (fromElf checks parse pid data) s = (.ok p, s')) :
    ∃ t', exec (fromElf checks parse pid data) (s.disturbed 16) = (.ok p, t') ∧
      ∀ v, pageNo v ∈ elf.callPages → ¬ elf.Written data v → 16 ≤ v % 4096 → s'.readByte v ≠ t'.readByte v := by
  have d := s.disturbed_differs 16
  obtain ⟨t', hok', g, hg, b⟩ := fromElf_twin hparse (d.twin h) h hs p s' hok
  refine ⟨t', hok', fun v hv hno hoff => ?_⟩
  have hnone : stackPages.foldl VMem.forget g (v % 2 ^ 48) = none :=
    Option.eq_none_iff_forall_ne_some.2 fun c hc => hno ⟨g, c, hg, hc⟩
  obtain ⟨x, hf, hmod, hl, hr⟩ := b.readByte_stale hv hnone
  rw [hl, hr]
  intro he
  exact Machine.disturbed_mem hf (by omega) (Option.some.inj he).symm

/-- A byte of the pages of a new process does not depend on what the free frames held if and only if the call has
written it: these are the bytes of the segments and of the targets of relocations, unless their page is mapped again
for a later segment or for the stack.  The first 16 bytes of a frame are left out on the other side, since a free
block has its links there. -/
theorem stale_bytes_exact (hparse : parse data = some elf) (h : TableInv s) (hs : elf.Sane data)
    (hok : exec (fromElf checks parse pid data) s = (.ok p, s')) :
    (∀ t p' t', FreeDiffers 0 s t → exec (fromElf checks parse pid data) t = (.ok p', t') →
      ∀ v, elf.Written data v → s'.readByte v = t'.readByte v) ∧
    (∃ t t', FreeDiffers 16 s t ∧ exec (fromElf checks parse pid data) t = (.ok p, t') ∧
      ∀ v, pageNo v ∈ elf.callPages → ¬ elf.Written data v → 16 ≤ v % 4096 → s'.readByte v ≠ t'.readByte v) ∧
    ∀ v, elf.Written data v ↔ pageNo v ∉ stackPages ∧ (elf.Covered v ∨ elf.Target data v) := by
  obtain ⟨⟨g, hg, -⟩, -, hload⟩ := (fromElf_spec hparse h hs).of_ok hok
  refine ⟨fun t p' t' d hok' v hv => written_same hparse h hs (d.twin h) hok hok' hv, ?_,
    fun v => ElfFile.written_iff hload hg⟩
  obtain ⟨t', hok', hne⟩ := unwritten_differs hparse h hs hok
  exact ⟨_, t', s.disturbed_differs 16, hok', hne⟩

end Stale

/-- The program at 256 MiB on the small machine. -/
private theorem onePage_returns : ∃ p s',
    exec (fromElf false onePageParse 1 (onePageFile 0x10000000)) smallMachine = (.ok p, s') := by
  obtain ⟨p, s', hx, -⟩ := onePage_call small_inv (by rw [small_frames]; decide) onePageParse_first (by decide)
    (by decide) (by decide) 1
  exact ⟨p, s', hx⟩

/-- The byte behind the links on the first page of the stack depends on the free frames, and the first byte of the
program does not. -/
theorem stale_bytes_onePage : ∃ p s' t t',
    FreeDiffers 16 smallMachine t ∧
    exec (fromElf false onePageParse 1 (onePageFile 0x10000000)) smallMachine = (.ok p, s') ∧
    exec (fromElf false onePageParse 1 (onePageFile 0x10000000)) t = (.ok p, t') ∧
    s'.readByte (userStackVaddr + 16) ≠ t'.readByte (userStackVaddr + 16) ∧
    s'.readByte 0x10000000 = t'.readByte 0x10000000 := by
  obtain ⟨p, s', hx⟩ := onePage_returns
  obtain ⟨hsame, ⟨t, t', d, hx', hne⟩, hwritten⟩ :=
    stale_bytes_exact onePageParse_first small_inv (onePage_sane (by decide) (by decide) _) hx
  have hv : pageNo (userStackVaddr + 16) ∈ stackPages := by decide
  refine ⟨p, s', t, t', d, hx, hx',
    hne _ (List.mem_append_right _ hv) (fun hw => ((hwritten _).1 hw).1 hv) (by decide),
    hsame t p t' ⟨d.cr3, d.alloc, fun x hx => d.mem x (hx.imp_right fun h => absurd h (Nat.not_lt_zero _))⟩ hx' _ ?_⟩
  exact (hwritten _).2 ⟨by decide, Or.inl ⟨[], clearPage 0x10000000, [], rfl, ⟨0, by decide, rfl⟩, nofun⟩⟩

/-- Nothing is written to the stack. -/
private theorem not_written_of_stack {elf : ElfFile} {data : List UInt8} {v : Nat} (hv : pageNo v ∈ stackPages) :
    ¬ elf.Written data v := by
  intro h
  obtain ⟨g, b, -, hb⟩ := h
  rw [VMem.foldl_forget_of_mem (by rwa [← pageNo_eq])] at hb
  cases hb

/-- Two small machines whose free frames differ, and the same byte. -/
theorem stale_stack_onePage : ∃ p s' t',
    FreeDiffers 16 smallMachine (smallMachine.disturbed 16) ∧
    exec (fromElf false onePageParse 1 (onePageFile 0x10000000)) smallMachine = (.ok p, s') ∧
    exec (fromElf false onePageParse 1 (onePageFile 0x10000000)) (smallMachine.disturbed 16) = (.ok p, t') ∧
    MapsPage onePageParse (onePageFile 0x10000000) (pageNo (userStackVaddr + 16)) ∧
    s'.readByte (userStackVaddr + 16) ≠ t'.readByte (userStackVaddr + 16) := by
  obtain ⟨p, s', hx⟩ := onePage_returns
  obtain ⟨t', hx', hne⟩ := unwritten_differs onePageParse_first small_inv (onePage_sane (by decide) (by decide) _) hx
  have hv : pageNo (userStackVaddr + 16) ∈ stackPages := by decide
  exact ⟨p, s', t', Machine.disturbed_differs _ _, hx, hx', ⟨_, onePageParse_first, List.mem_append_right _ hv⟩,
    hne _ (List.mem_append_right _ hv) (not_written_of_stack hv) (by decide)⟩

end Hammam
