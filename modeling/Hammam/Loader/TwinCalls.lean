import Hammam.Loader.Process

/-!
# Two calls of `from_elf`

A call decides nothing by the contents of the frames that it takes: a relocation reads bytes that the call itself has
written.  So if a call returns, the same call returns on a machine that differs outside the tables only, and with the
same pages, frames and written bytes.
-/

namespace Hammam

open Fallible

/-- Two calls, which started in `s₀` and `t₀`, have mapped the same pages and have written the same bytes to them. -/
structure Both (P Q : Nat → Prop) (s₀ t₀ s t : Machine) (g : VMem) : Prop where
  twin : Twin s t
  left : Held P Q s₀ s g
  right : Held P Q t₀ t g

/-- The rule for two runs that begin with the same operation. -/
theorem wrapU64_twin {ε β : Type} {checks : Bool} {s t : Machine} {n : Nat} {k : Nat → KernelM ε β}
    {R : β → Machine → Machine → Prop} (hk : Follows (k (n % 2 ^ 64)) (k (n % 2 ^ 64)) s t R) :
    Follows (wrapU64 checks n >>= k) (wrapU64 checks n >>= k) s t R := by
  unfold wrapU64
  split
  · rename_i h
    rw [Nat.mod_eq_of_lt h] at hk
    exact hk
  · split
    · exact Follows.bind Follows.throw
    · exact hk

theorem assertAligned_twin {ε β : Type} {checks : Bool} {s t : Machine} {v : Nat} {k : PUnit → KernelM ε β}
    {R : β → Machine → Machine → Prop} (hk : Follows (k ⟨⟩) (k ⟨⟩) s t R) :
    Follows (assertAligned checks v >>= k) (assertAligned checks v >>= k) s t R := by
  unfold assertAligned
  split
  · exact Follows.bind Follows.throw
  · exact hk

namespace Both

variable {checks : Bool} {P Q : Nat → Prop} {s₀ t₀ s t : Machine} {g : VMem}

theorem start (w : Twin s t) (h : TableInv s) : Both P (fun _ => False) s t s t fun _ => none :=
  ⟨w, Held.start h, Held.start (w.inv h)⟩

theorem congr {Q' : Nat → Prop} (b : Both P Q s₀ t₀ s t g) (hQ : ∀ p, Q' p ↔ Q p) : Both P Q' s₀ t₀ s t g :=
  ⟨b.twin, b.left.congr hQ, b.right.congr hQ⟩

/-- A byte that neither call has written reads as the free frame held it. -/
theorem readByte_stale (b : Both P Q s₀ t₀ s t g) {v : Nat} (hq : Q (pageNo v)) (hb : g (v % 2 ^ 48) = none) :
    ∃ x, FreeAt s₀.alloc x ∧ x % 4096 = v % 4096 ∧ s.readByte v = some (s₀.mem x) ∧
      t.readByte v = some (t₀.mem x) := by
  obtain ⟨x, hx, hf, -⟩ := b.left.own v hq
  have hx' : t.translate v = some x := (b.twin.translate b.left.conf.inv v).trans hx
  exact ⟨x, hf, b.left.conf.inv.translate_mod hx, b.left.readByte_stale hq hb hx, b.right.readByte_stale hq hb hx'⟩

/-- Both take a frame, which is the same. -/
theorem allocateFrame (b : Both P Q s₀ t₀ s t g) :
    Follows (Hammam.allocateFrame 0) (Hammam.allocateFrame 0) s t fun _ s' t' => Both P Q s₀ t₀ s' t' g := by
  refine (b.twin.allocateFrame.and_spec (allocateFrame_spec b.left.conf.inv.sound)
    (allocateFrame_spec b.right.conf.inv.sound)).mono ?_
  intro f _ _ hpost
  obtain ⟨⟨a, -, rfl, rfl⟩, ⟨n, _, rfl, he, ht⟩, n', _, hn, he', ht'⟩ := hpost
  cases he
  cases he'
  exact ⟨⟨b.twin.cr3, rfl, b.twin.mem⟩, b.left.taken ht, b.right.taken ht'⟩

theorem backPage {ε : Type} (b : Both P Q s₀ t₀ s t g) {virt : Nat} (hP : P (pageNo virt)) (flags : PageFlags)
    {f : AllocError → Stop ε} {f' : MapError → Stop ε} (hf : ∀ e, f e ≠ .halt) (hf' : ∀ e, f' e ≠ .halt) :
    Follows (mapErr f (Hammam.allocateFrame 0) >>= fun frame => mapErr f' (Hammam.mapPage virt frame flags))
      (mapErr f (Hammam.allocateFrame 0) >>= fun frame => mapErr f' (Hammam.mapPage virt frame flags)) s t
      fun _ s' t' => Both P (fun p => Q p ∨ p = pageNo virt) s₀ t₀ s' t' (g.forget (pageNo virt)) := by
  have htwin :
    Follows (mapErr f (Hammam.allocateFrame 0) >>= fun frame => mapErr f' (Hammam.mapPage virt frame flags))
      (mapErr f (Hammam.allocateFrame 0) >>= fun frame => mapErr f' (Hammam.mapPage virt frame flags)) s t
      fun _ => Twin := by
    refine Follows.bind (Follows.mapErr (b.allocateFrame.mono fun frame s' t' b' => ?_))
    exact Follows.mapErr (b'.twin.mapPage b'.left.conf.inv virt frame flags)
  refine (htwin.and_spec (b.left.backPage hP flags hf hf') (b.right.backPage hP flags hf hf')).mono ?_
  intro _ s' t' hpost
  obtain ⟨w, h, h'⟩ := hpost
  exact ⟨w, h.1, h'.1⟩

section Accesses

variable {ε : Type}

/-- Both calls write, and `C` decides whether they return. -/
theorem of_specs {x : KernelM ε PUnit} {C : Prop} {E E' : Stop ε → Machine → Prop} (w : Twin s t)
    (hl : Spec x s (fun _ s' => Held P Q s₀ s' g ∧ Twin s s' ∧ C) E)
    (hr : Spec x t (fun _ t' => Held P Q t₀ t' g ∧ Twin t t' ∧ C) E') (hC : ∀ e t', E' e t' → ¬ C) :
    Follows x x s t fun _ s' t' => Both P Q s₀ t₀ s' t' g := by
  refine (Follows.of_spec (c := ⟨⟩) (C := C) (Q := fun s' => Held P Q s₀ s' g ∧ Twin s s')
    (R := fun t' => Held P Q t₀ t' g ∧ Twin t t') (hl.mono ?_ fun _ _ h => h) (hr.mono ?_ hC)).mono ?_
  · intro _ s' hpost
    obtain ⟨h, w', hc⟩ := hpost
    exact ⟨rfl, ⟨h, w'⟩, hc⟩
  · intro _ t' hpost
    obtain ⟨h, w', -⟩ := hpost
    exact ⟨rfl, h, w'⟩
  · intro _ s' t' hpost
    obtain ⟨-, ⟨h, ws⟩, h', wt⟩ := hpost
    exact ⟨(ws.symm.trans w).trans wt, h, h'⟩

theorem storeBytes (b : Both P Q s₀ t₀ s t g) {v : Nat} {bytes : List UInt8} (hv : v < 2 ^ 64)
    (hq : ∀ i, i < bytes.length → Q (pageNo (v + i))) :
    Follows (storeBytes v bytes : KernelM ε PUnit) (Hammam.storeBytes v bytes) s t
      fun _ s' t' => Both P Q s₀ t₀ s' t' (g.storeBytes v bytes) :=
  of_specs b.twin (Held.storeBytes bytes b.left hv hq) (Held.storeBytes bytes b.right hv hq) fun _ _ h => h.2.2

/-- The rule for two runs that begin with the same access. -/
theorem load (b : Both P Q s₀ t₀ s t g) {β : Type} {v n : Nat} {l : List UInt8} {k : List UInt8 → KernelM ε β}
    {R : β → Machine → Machine → Prop} (hv : v < 2 ^ 64) (hl : g.loadBytes v n = some l)
    (hk : Follows (k l) (k l) s t R) :
    Follows (loadBytes v n >>= k) (loadBytes v n >>= k) s t R := by
  refine Follows.bind ((Follows.of_spec (c := l) (C := CanonicalRange v n) (Q := (· = s)) (R := (· = t))
    ((b.left.loadBytes n hv hl).mono (fun _ _ h => h) fun _ _ h => h)
    ((b.right.loadBytes n hv hl).mono (fun _ _ h => ⟨h.1, h.2.1⟩) fun _ _ h => h.2.2)).mono ?_)
  intro _ _ _ hpost
  obtain ⟨rfl, rfl, rfl⟩ := hpost
  exact hk

end Accesses

/-! ### Segments -/

section Segment

variable {data : List UInt8} {loadOffset : Nat} {ph : ProgramHeader}

theorem mapSegmentPages (b : Both P Q s₀ t₀ s t g) (hs : ph.Sane loadOffset) (hP : ∀ p ∈ ph.pages loadOffset, P p) :
    Follows ((List.range (ph.numPages loadOffset)).forM
        (mapSegmentPage checks (ph.vaddr loadOffset / 0x1000 * 0x1000) ph.pageFlags))
      ((List.range (ph.numPages loadOffset)).forM
        (mapSegmentPage checks (ph.vaddr loadOffset / 0x1000 * 0x1000) ph.pageFlags)) s t
      fun _ s' t' => Both P (fun p => Q p ∨ p ∈ ph.pages loadOffset) s₀ t₀ s' t'
        ((ph.pages loadOffset).foldl VMem.forget g) := by
  have hnum : ph.numPages loadOffset =
      (ph.vaddr loadOffset + ph.memSize + 0xFFF) / 0x1000 - ph.vaddr loadOffset / 0x1000 := rfl
  have hwrap := hs.noWrap
  refine Follows.forM (I := fun l s' t' => Both P (fun p => Q p ∨ p ∈ l.map (ph.page loadOffset)) s₀ t₀ s' t'
    ((l.map (ph.page loadOffset)).foldl VMem.forget g)) (List.range (ph.numPages loadOffset)) ?_
    (b.congr fun p => by simp)
  intro l i r s₁ t₁ hl b₁
  have hi : i < ph.numPages loadOffset := List.mem_range.1 (hl ▸ by simp)
  have hlt : ph.vaddr loadOffset / 0x1000 * 0x1000 + i * 0x1000 < 2 ^ 64 := by omega
  unfold mapSegmentPage
  simp only [wrapU64_of_lt hlt, pure_bind]
  refine Follows.mono (b₁.backPage (hP _ (List.mem_map_of_mem (List.mem_range.2 hi))) _ nofun nofun) ?_
  intro _ s₂ t₂ b₂
  rw [List.map_append, List.foldl_append]
  refine b₂.congr fun p => ?_
  simp [ProgramHeader.page, or_assoc]

theorem loadSegment (b : Both P Q s₀ t₀ s t g) (hs : ph.Sane loadOffset)
    (hin : ∀ i < ph.fileSize, Q (pageNo (ph.vaddr loadOffset + i)) ∨
      pageNo (ph.vaddr loadOffset + i) ∈ ph.pages loadOffset)
    (hP : ∀ p ∈ ph.pages loadOffset, P p) :
    Follows (loadSegment checks data loadOffset ph) (Hammam.loadSegment checks data loadOffset ph) s t
      fun _ s' t' => Both P (fun p => Q p ∨ p ∈ ph.pages loadOffset) s₀ t₀ s' t' (g.segment data loadOffset ph) := by
  rw [loadSegment_eq hs]
  refine Follows.bind ((b.mapSegmentPages hs hP).mono ?_)
  intro _ s₁ t₁ b₁
  exact of_specs b₁.twin (fillSegment_spec b₁.left hs hin) (fillSegment_spec b₁.right hs hin) fun _ _ h => h.2.2

end Segment

/-! ### Relocations -/

section Relocate

variable {info : RelaInfo} {delta : Nat} {pages : List Nat} {g' : VMem}

theorem applyRelocation (b : Both P Q s₀ t₀ s t g) (hQ : ∀ p ∈ pages, Q p) {i : Nat}
    (hr : g.relocate pages info delta i = some g') :
    Follows (applyRelocation checks info delta i) (Hammam.applyRelocation checks info delta i) s t
      fun _ s' t' => Both P Q s₀ t₀ s' t' g' := by
  simp only [VMem.relocate, Option.bind_eq_bind, Option.bind_eq_some_iff] at hr
  obtain ⟨rOffset, h1, rInfo, h2, rAddend, h3, hr⟩ := hr
  have hva : ((info.va + delta) % 2 ^ 64 + i * info.ent % 2 ^ 64) % 2 ^ 64 = info.entryVa delta i :=
    (Nat.add_mod _ _ _).symm
  unfold Hammam.applyRelocation
  refine wrapU64_twin (wrapU64_twin (wrapU64_twin ?_))
  rw [hva]
  refine assertAligned_twin (b.load (Nat.mod_lt _ (by decide)) h1 (wrapU64_twin ?_))
  refine assertAligned_twin (b.load (Nat.mod_lt _ (by decide)) h2 (wrapU64_twin ?_))
  refine assertAligned_twin (b.load (Nat.mod_lt _ (by decide)) h3 ?_)
  split at hr
  · rename_i htype
    rw [if_pos htype]
    refine wrapU64_twin (assertAligned_twin ?_)
    split at hr
    · rename_i hin
      cases hr
      refine b.storeBytes (Nat.mod_lt _ (by decide)) fun k hk => hQ _ (hin k ?_)
      rwa [toBytes, List.length_map, List.length_range] at hk
    · cases hr
  · rename_i htype
    rw [if_neg htype]
    cases hr
    exact Follows.pure b

theorem relocationLoop (b : Both P Q s₀ t₀ s t g) (hQ : ∀ p ∈ pages, Q p) {l : List Nat}
    (hr : l.foldlM (VMem.relocate pages info delta) g = some g') :
    Follows (l.forM (Hammam.applyRelocation checks info delta))
      (l.forM (Hammam.applyRelocation checks info delta)) s t
      fun _ s' t' => Both P Q s₀ t₀ s' t' g' := by
  refine (Follows.forM (I := fun p s' t' => ∃ g₁, p.foldlM (VMem.relocate pages info delta) g = some g₁ ∧
    Both P Q s₀ t₀ s' t' g₁) l ?_ ⟨g, rfl, b⟩).mono ?_
  · intro p i q s₁ t₁ hl hpost
    obtain ⟨g₁, hg₁, b₁⟩ := hpost
    rw [hl, List.foldlM_append, hg₁, Option.bind_eq_bind, Option.bind_some, List.foldlM_cons, Option.bind_eq_bind,
      Option.bind_eq_some_iff] at hr
    obtain ⟨g₂, hg₂, -⟩ := hr
    refine (b₁.applyRelocation hQ hg₂).mono fun _ s₂ t₂ b₂ => ⟨g₂, ?_, b₂⟩
    rw [List.foldlM_append, hg₁, Option.bind_eq_bind, Option.bind_some, List.foldlM_cons, hg₂]
    rfl
  · intro _ s' t' hpost
    obtain ⟨g₁, hg₁, b'⟩ := hpost
    rw [hr, Option.some.injEq] at hg₁
    exact hg₁ ▸ b'

end Relocate

end Both

/-! ### Whole calls -/

section Calls

variable {checks : Bool} {parse : List UInt8 → Option ElfFile} {pid : Nat} {P Q : Nat → Prop} {s₀ t₀ s t : Machine}
  {g : VMem} {data : List UInt8} {elf : ElfFile}

/-- The segments of a file are loaded on both machines. -/
theorem loadSegments_twin (w : Twin s t) (h : TableInv s) (hs : ∀ ph ∈ elf.loads, ph.Sane elf.loadOffset)
    (hcopies : elf.CopiesInside) (hP : ∀ p ∈ elf.loadPages, P p) :
    Follows (elf.loads.forM (loadSegment checks data elf.loadOffset))
      (elf.loads.forM (loadSegment checks data elf.loadOffset))
      s t fun _ s' t' => Both P (· ∈ elf.loadPages) s t s' t' (elf.image data) := by
  refine Follows.forM (I := fun l s' t' => Both P (· ∈ l.flatMap (·.pages elf.loadOffset)) s t s' t'
    (l.foldl (fun g ph => g.segment data elf.loadOffset ph) fun _ => none)) elf.loads ?_
    ((Both.start w h).congr fun p => by simp)
  intro l ph r s₁ t₁ hl b₁
  have hmem : ph ∈ elf.loads := hl ▸ by simp
  have hsplit : (l ++ [ph]).flatMap (·.pages elf.loadOffset) =
      l.flatMap (·.pages elf.loadOffset) ++ ph.pages elf.loadOffset := by
    simp
  refine (b₁.loadSegment (hs ph hmem) (fun i hi => ?_) fun p hp => hP p ?_).mono ?_
  · exact List.mem_append.1 (hsplit ▸ hcopies l ph r hl i hi)
  · exact List.mem_flatMap.2 ⟨ph, hmem, hp⟩
  · intro _ s₂ t₂ b₂
    rw [List.foldl_append]
    refine b₂.congr fun p => ?_
    rw [hsplit, List.mem_append]

theorem applyRelocations_twin (hparse : parse data = some elf) (b : Both P Q s₀ t₀ s t (elf.image data))
    (hQ : ∀ p ∈ elf.loadPages, Q p) (hr : elf.RelocatesInside data) :
    Follows (applyRelocations checks parse data elf.loadOffset)
      (applyRelocations checks parse data elf.loadOffset) s t
      fun _ s' t' => ∃ g, elf.relocated data = some g ∧ Both P Q s₀ t₀ s' t' g := by
  unfold applyRelocations
  obtain h0 | hbase := elf.loadOffset_cases
  · rw [if_pos (Or.inl h0)]
    exact Follows.pure ⟨_, if_pos h0, b⟩
  have h0 : elf.loadOffset ≠ 0 := by
    rw [hbase]
    decide
  rw [if_neg (by rw [hbase]; decide)]
  simp only [hparse]
  unfold ElfFile.relocated
  rw [if_neg h0]
  cases hi : elf.relaInfo data with
  | none => exact Follows.throw
  | some info =>
    dsimp only
    split
    · exact Follows.pure ⟨_, rfl, b⟩
    · rename_i hz
      split
      · exact Follows.throw
      · rename_i hent
        obtain ⟨g', hg'⟩ := hr.foldlM_relocate h0 hi hz hent
        exact (b.relocationLoop hQ hg').mono fun _ s' t' b' => ⟨g', hg', b'⟩

theorem load_twin (hparse : parse data = some elf) (w : Twin s t) (h : TableInv s) (hs : elf.Sane data)
    (hP : ∀ p ∈ elf.loadPages, P p) :
    Follows (load checks parse data) (load checks parse data) s t
      fun _ s' t' => ∃ g, elf.relocated data = some g ∧ Both P (· ∈ elf.loadPages) s t s' t' g := by
  unfold load
  simp only [hparse]
  refine wrapU64_twin ?_
  refine Follows.bind ((loadSegments_twin w h hs.segments hs.copies hP).mono fun _ s₁ t₁ b₁ => ?_)
  exact Follows.bind ((applyRelocations_twin hparse b₁ (fun _ h => h) hs.relocates).mono fun _ _ _ h =>
    Follows.pure h)

private theorem mapStack_twin (b : Both P Q s₀ t₀ s t g) (hP : ∀ p ∈ stackPages, P p) :
    Follows ((List.range userStackPages).forM mapStackPage) ((List.range userStackPages).forM mapStackPage) s t
      fun _ s' t' => Both P (fun p => Q p ∨ p ∈ stackPages) s₀ t₀ s' t' (stackPages.foldl VMem.forget g) := by
  let pages := fun l : List Nat => l.map fun i => pageNo (userStackVaddr + i * 0x1000)
  refine Follows.forM (I := fun l s' t' =>
    Both P (fun p => Q p ∨ p ∈ pages l) s₀ t₀ s' t' ((pages l).foldl VMem.forget g))
    (List.range userStackPages) ?_ (b.congr fun p => by simp [pages])
  intro l i r s₁ t₁ hl b₁
  have hi : i < userStackPages := List.mem_range.1 (hl ▸ by simp)
  unfold mapStackPage
  refine Follows.mono (b₁.backPage (hP _ (List.mem_map.2 ⟨i, List.mem_range.2 hi, rfl⟩)) _ nofun nofun) ?_
  intro _ s₂ t₂ b₂
  simp only [pages, List.map_append, List.foldl_append]
  exact b₂.congr fun p => by simp [pages, or_assoc]

/-- A call that returns also returns on a machine that differs outside the tables, and has written the same there. -/
theorem fromElf_twin (hparse : parse data = some elf) (w : Twin s t) (h : TableInv s) (hs : elf.Sane data) :
    Follows (fromElf checks parse pid data) (fromElf checks parse pid data) s t
      fun _ s' t' => ∃ g, elf.relocated data = some g ∧
        Both (· ∈ elf.callPages) (· ∈ elf.callPages) s t s' t' (stackPages.foldl VMem.forget g) := by
  unfold fromElf
  refine Follows.bind (Follows.mapErr ((load_twin (P := (· ∈ elf.callPages)) hparse w h hs
    fun p hp => List.mem_append_left _ hp).mono ?_))
  intro entry s₁ t₁ hpost
  obtain ⟨g, hg, b₁⟩ := hpost
  refine Follows.bind (Follows.mapErr (b₁.allocateFrame.mono ?_))
  intro frame s₂ t₂ b₂
  refine Follows.bind ((mapStack_twin b₂ fun p hp => List.mem_append_right _ hp).mono ?_)
  intro _ s₃ t₃ b₃
  exact Follows.pure ⟨g, hg, b₃.congr fun p => List.mem_append⟩

end Calls

end Hammam
