import Hammam.Loader.Segments

/-!
# A whole call of `from_elf`

After the segments the loader applies the relocations of a position independent program, which read and write the
memory of the program, and `from_elf` maps the user stack.  If the segments are sane and the relocations stay inside
the program, the call is contained in the pages of the segments and of the stack.
-/

namespace Hammam

open Fallible

/-! ### Relocations -/

/-- The address of the `i`-th relocation. -/
def RelaInfo.entryVa (info : RelaInfo) (delta i : Nat) : Nat := (info.va + delta + i * info.ent) % 2 ^ 64

/-- One relocation in terms of what the program sees; `none` if it reads a byte that has not been written or writes
outside the given pages. -/
def VMem.relocate (pages : List Nat) (info : RelaInfo) (delta : Nat) (g : VMem) (i : Nat) : Option VMem := do
  let rOffset ← g.loadBytes (info.entryVa delta i) 8
  let rInfo ← g.loadBytes ((info.entryVa delta i + 8) % 2 ^ 64) 8
  let rAddend ← g.loadBytes ((info.entryVa delta i + 16) % 2 ^ 64) 8
  if fromBytes rInfo % 2 ^ 32 = 8 then
    let targetVa := (fromBytes rOffset + delta) % 2 ^ 64
    if ∀ k < 8, pageNo (targetVa + k) ∈ pages then
      some (g.storeBytes targetVa (toBytes ((fromBytes rAddend + delta) % 2 ^ 64)))
    else none
  else some g

namespace ElfFile

variable (elf : ElfFile) (data : List UInt8)

/-- The pages of all segments. -/
def loadPages : List Nat := elf.loads.flatMap (·.pages elf.loadOffset)

/-- What the program sees after the segments have been loaded. -/
def image : VMem := elf.loads.foldl (fun g ph => g.segment data elf.loadOffset ph) fun _ => none

/-- The relocations read bytes of the program and write to its pages. -/
def RelocatesInside : Prop :=
  elf.loadOffset = 0 ∨ ∀ info, elf.relaInfo data = some info → info.va = 0 ∨ info.size = 0 ∨ info.ent = 0 ∨
    ((List.range (info.size / info.ent)).foldlM (VMem.relocate elf.loadPages info elf.loadOffset)
      (elf.image data)).isSome

end ElfFile

/-- What the relocation `i` needs so that the kernel neither panics nor faults. -/
structure VMem.RelocSafe (g : VMem) (info : RelaInfo) (delta i : Nat) : Prop where
  entry : info.va + delta + i * info.ent + 16 < 2 ^ 64
  aligned : 8 ∣ info.va + delta + i * info.ent
  table : CanonicalRange (info.va + delta + i * info.ent) 24
  target : ∀ rOffset rInfo, g.loadBytes (info.entryVa delta i) 8 = some rOffset →
    g.loadBytes ((info.entryVa delta i + 8) % 2 ^ 64) 8 = some rInfo → fromBytes rInfo % 2 ^ 32 = 8 →
    fromBytes rOffset + delta < 2 ^ 64 ∧ 8 ∣ fromBytes rOffset + delta ∧ CanonicalRange (fromBytes rOffset + delta) 8

/-- The first `n` relocations are safe, each after those before it. -/
def VMem.RelocsSafe (pages : List Nat) (info : RelaInfo) (delta : Nat) (g : VMem) (n : Nat) : Prop :=
  ∀ i < n, ∀ gi, (List.range i).foldlM (VMem.relocate pages info delta) g = some gi → gi.RelocSafe info delta i

namespace ElfFile

variable (elf : ElfFile) (data : List UInt8)

/-- What the program sees after the relocations. -/
def relocated : Option VMem :=
  if elf.loadOffset = 0 then some (elf.image data)
  else
    match elf.relaInfo data with
    | none => none
    | some info =>
      if info.va = 0 ∨ info.size = 0 then some (elf.image data)
      else if info.ent = 0 then none
      else (List.range (info.size / info.ent)).foldlM (VMem.relocate elf.loadPages info elf.loadOffset)
        (elf.image data)

/-- The relocations neither panic nor fault. -/
def RelocationsSafe : Prop :=
  elf.loadOffset = 0 ∨ ∃ info, elf.relaInfo data = some info ∧ (info.va = 0 ∨ info.size = 0 ∨ (info.ent ≠ 0 ∧
    VMem.RelocsSafe elf.loadPages info elf.loadOffset (elf.image data) (info.size / info.ent)))

end ElfFile

section Relocate

variable {checks : Bool} {P Q : Nat → Prop} {s₀ s : Machine} {g g' : VMem} {data : List UInt8} {info : RelaInfo}
  {delta : Nat} {pages : List Nat}

/-- The three words of an entry that does not wrap around. -/
private theorem canonicalRange_entry {i : Nat} (h : info.va + delta + i * info.ent + 16 < 2 ^ 64) :
    CanonicalRange (info.va + delta + i * info.ent) 24 ↔ CanonicalRange (info.entryVa delta i) 8 ∧
      CanonicalRange ((info.entryVa delta i + 8) % 2 ^ 64) 8 ∧
      CanonicalRange ((info.entryVa delta i + 16) % 2 ^ 64) 8 := by
  have heq : info.entryVa delta i = info.va + delta + i * info.ent := Nat.mod_eq_of_lt (by omega)
  rw [show 24 = 8 + (8 + 8) from rfl, canonicalRange_add, canonicalRange_add, Nat.add_assoc _ 8 8, heq,
    Nat.mod_eq_of_lt (by omega), Nat.mod_eq_of_lt (by omega)]

/-- The entry of a safe relocation can be read. -/
private theorem VMem.RelocSafe.words {i : Nat} (hs : g.RelocSafe info delta i) :
    CanonicalRange (info.entryVa delta i) 8 ∧ CanonicalRange ((info.entryVa delta i + 8) % 2 ^ 64) 8 ∧
      CanonicalRange ((info.entryVa delta i + 16) % 2 ^ 64) 8 :=
  (canonicalRange_entry hs.entry).1 hs.table

theorem applyRelocation_spec (h : Held P Q s₀ s g) (hQ : ∀ p ∈ pages, Q p) {i : Nat}
    (hr : g.relocate pages info delta i = some g') :
    Spec (applyRelocation checks info delta i) s
      (fun _ s' => Held P Q s₀ s' g' ∧ Twin s s' ∧ (checks = true → g.RelocSafe info delta i))
      (fun e s' => e = .halt ∧ Contained P s₀ s' ∧ ¬ g.RelocSafe info delta i) := by
  simp only [VMem.relocate, Option.bind_eq_bind, Option.bind_eq_some_iff] at hr
  obtain ⟨rOffset, h1, rInfo, h2, rAddend, h3, hr⟩ := hr
  have hva : ((info.va + delta) % 2 ^ 64 + i * info.ent % 2 ^ 64) % 2 ^ 64 = info.entryVa delta i :=
    (Nat.add_mod _ _ _).symm
  have hvalt : info.entryVa delta i < 2 ^ 64 := Nat.mod_lt _ (by decide)
  have hvale : info.entryVa delta i ≤ info.va + delta + i * info.ent := Nat.mod_le _ _
  have hbase := Nat.mod_le (info.va + delta) (2 ^ 64)
  have hstep := Nat.mod_le (i * info.ent) (2 ^ 64)
  -- an address of the entry that overflows is that of an unsafe relocation
  have hover : info.va + delta + i * info.ent + 16 < 2 ^ 64 ∨
      (Stop.halt : Stop ElfError) = .halt ∧ Contained P s₀ s ∧ ¬ g.RelocSafe info delta i := by
    by_cases he : info.va + delta + i * info.ent + 16 < 2 ^ 64
    · exact Or.inl he
    · exact Or.inr ⟨rfl, h.conf, fun hs => he hs.entry⟩
  unfold applyRelocation
  refine wrapU64_bind (fun hn => hover.resolve_left (by omega)) fun hc1 =>
    wrapU64_bind (fun hn => hover.resolve_left (by omega)) fun hc2 =>
    wrapU64_bind (fun hn => hover.resolve_left (by omega)) fun hc3 => ?_
  rw [hva]
  -- the words of a safe relocation are aligned
  have hoff : ∀ t, 8 ∣ t → (info.entryVa delta i + t) % 2 ^ 64 % 8 ≠ 0 →
      (Stop.halt : Stop ElfError) = .halt ∧ Contained P s₀ s ∧ ¬ g.RelocSafe info delta i := by
    intro t ht hn
    refine ⟨rfl, h.conf, fun hs => hn ?_⟩
    have := hs.aligned
    rw [RelaInfo.entryVa]
    omega
  have hoff0 : info.entryVa delta i % 8 ≠ 0 →
      (Stop.halt : Stop ElfError) = .halt ∧ Contained P s₀ s ∧ ¬ g.RelocSafe info delta i := by
    intro hn
    refine hoff 0 (Nat.dvd_zero 8) ?_
    rwa [Nat.add_zero, Nat.mod_eq_of_lt hvalt]
  refine assertAligned_bind hoff0 fun ha =>
    h.load hvalt h1 (fun hn => ⟨rfl, h.conf, fun hs => hn hs.words.1⟩) fun hr1 =>
    wrapU64_bind (fun hn => hover.resolve_left (by omega)) fun hc4 => ?_
  refine assertAligned_bind (hoff 8 (Nat.dvd_refl 8)) fun _ =>
    h.load (Nat.mod_lt _ (by decide)) h2 (fun hn => ⟨rfl, h.conf, fun hs => hn hs.words.2.1⟩) fun hr2 =>
    wrapU64_bind (fun hn => hover.resolve_left (by omega)) fun hc5 => ?_
  refine assertAligned_bind (hoff 16 (by decide)) fun _ =>
    h.load (Nat.mod_lt _ (by decide)) h3 (fun hn => ⟨rfl, h.conf, fun hs => hn hs.words.2.2⟩) fun hr3 => ?_
  -- with overflow checks the entry is where it should be
  have hentry : checks = true → info.va + delta + i * info.ent + 16 < 2 ^ 64 := by
    intro hc
    have e3 := hc3 hc
    have e5 := hc5 hc
    rw [Nat.mod_eq_of_lt (hc1 hc), Nat.mod_eq_of_lt (hc2 hc)] at e3
    rw [RelaInfo.entryVa, Nat.mod_eq_of_lt e3] at e5
    exact e5
  have haligned : checks = true → 8 ∣ info.va + delta + i * info.ent := by
    intro hc
    have h8 := ha hc
    rw [RelaInfo.entryVa] at h8
    omega
  have htable : checks = true → CanonicalRange (info.va + delta + i * info.ent) 24 :=
    fun hc => (canonicalRange_entry (hentry hc)).2 ⟨hr1, hr2, hr3⟩
  split at hr
  · rename_i htype
    rw [if_pos htype]
    refine wrapU64_bind (fun hn => ⟨rfl, h.conf, fun hs => ?_⟩) fun hc6 => ?_
    · have := (hs.target _ _ h1 h2 htype).1
      omega
    refine assertAligned_bind (fun hn => ⟨rfl, h.conf, fun hs => ?_⟩) fun hc7 => ?_
    · have := (hs.target _ _ h1 h2 htype).2.1
      omega
    split at hr
    · rename_i hin
      cases hr
      have hlen : (toBytes ((fromBytes rAddend + delta) % 2 ^ 64)).length = 8 := by
        rw [toBytes, List.length_map, List.length_range]
      refine (Held.storeBytes (toBytes _) h (Nat.mod_lt _ (by decide)) fun k hk =>
        hQ _ (hin k (hlen ▸ hk))).mono ?_ ?_
      · intro _ s' hpost
        obtain ⟨h', w, hcan⟩ := hpost
        refine ⟨h', w, fun hc => ⟨hentry hc, haligned hc, htable hc, fun rOff rInf e1 e2 _ => ?_⟩⟩
        rw [h1, Option.some.injEq] at e1
        have h8 := hc7 hc
        rw [Nat.mod_eq_of_lt (hc6 hc)] at h8
        rw [hlen, Nat.mod_eq_of_lt (hc6 hc)] at hcan
        rw [← e1]
        exact ⟨hc6 hc, Nat.dvd_of_mod_eq_zero h8, hcan⟩
      · intro e s' hpost
        obtain ⟨he, hc, hn⟩ := hpost
        refine ⟨he, hc, fun hs => hn ?_⟩
        obtain ⟨hlt, -, hcan⟩ := hs.target _ _ h1 h2 htype
        rw [hlen, Nat.mod_eq_of_lt hlt]
        exact hcan
    · cases hr
  · rename_i htype
    rw [if_neg htype]
    cases hr
    refine Spec.pure ⟨h, Twin.refl s, fun hc => ⟨hentry hc, haligned hc, htable hc, fun rOff rInf e1 e2 ht => ?_⟩⟩
    rw [h2, Option.some.injEq] at e2
    rw [← e2] at ht
    exact absurd ht htype

/-- The elements before `i` in a range. -/
private theorem range_split {n i : Nat} {l r : List Nat} (h : List.range n = l ++ i :: r) :
    l = List.range i ∧ i < n := by
  have hlen := congrArg List.length h
  rw [List.length_range, List.length_append, List.length_cons] at hlen
  have hi : i = l.length := by
    have hget := congrArg (fun k => k[l.length]?) h
    simp only [List.getElem?_append_right (Nat.le_refl _), Nat.sub_self, List.getElem?_cons_zero,
      List.getElem?_range (show l.length < n by omega), Option.some.injEq] at hget
    exact hget.symm
  have htake := congrArg (List.take l.length) h
  rw [List.take_left', List.take_range, Nat.min_eq_left (by omega), ← hi] at htake
  · exact ⟨htake.symm, by omega⟩
  · rfl

theorem applyRelocations_loop_spec (h : Held P Q s₀ s g) (hQ : ∀ p ∈ pages, Q p) {n : Nat}
    (hr : (List.range n).foldlM (VMem.relocate pages info delta) g = some g') :
    Spec ((List.range n).forM (applyRelocation checks info delta)) s
      (fun _ s' => Held P Q s₀ s' g' ∧ Twin s s' ∧ (checks = true → VMem.RelocsSafe pages info delta g n))
      (fun e s' => e = .halt ∧ Contained P s₀ s' ∧ ¬ VMem.RelocsSafe pages info delta g n) := by
  refine (Spec.forM (I := fun l s' => ∃ g₁, l.foldlM (VMem.relocate pages info delta) g = some g₁ ∧
    Held P Q s₀ s' g₁ ∧ Twin s s' ∧ (checks = true → VMem.RelocsSafe pages info delta g l.length)) (List.range n)
    ?_ ⟨g, rfl, h, Twin.refl s, fun _ i hi => absurd hi (Nat.not_lt_zero i)⟩).mono ?_ fun _ _ h => h
  · intro l i r s₁ hl hpost
    obtain ⟨g₁, hg₁, h₁, w₁, hs₁⟩ := hpost
    obtain ⟨hrange, hi⟩ := range_split hl
    rw [hl, List.foldlM_append, hg₁, Option.bind_eq_bind, Option.bind_some, List.foldlM_cons, Option.bind_eq_bind,
      Option.bind_eq_some_iff] at hr
    obtain ⟨g₂, hg₂, -⟩ := hr
    refine (applyRelocation_spec h₁ hQ hg₂).mono ?_ ?_
    · intro _ s₂ hpost
      obtain ⟨h₂, w₂, hsafe⟩ := hpost
      refine ⟨g₂, ?_, h₂, w₁.trans w₂, fun hc j hj gj hgj => ?_⟩
      · rw [List.foldlM_append, hg₁, Option.bind_eq_bind, Option.bind_some, List.foldlM_cons, hg₂]
        rfl
      · rw [List.length_append, List.length_singleton] at hj
        have hlen : l.length = i := by rw [hrange, List.length_range]
        obtain hj | rfl : j < l.length ∨ j = i := by omega
        · exact hs₁ hc j hj gj hgj
        · rw [← hrange, hg₁, Option.some.injEq] at hgj
          exact hgj ▸ hsafe hc
    · intro e s₂ hpost
      obtain ⟨he, hc, hn⟩ := hpost
      refine ⟨he, hc, fun hs => hn (hs i hi g₁ ?_)⟩
      rw [← hrange]
      exact hg₁
  · intro _ s' hpost
    obtain ⟨g₁, hg₁, h', w', hs'⟩ := hpost
    rw [hr, Option.some.injEq] at hg₁
    rw [List.length_range] at hs'
    exact ⟨hg₁ ▸ h', w', hs'⟩

end Relocate

/-! ### Loading -/

section Load

variable {checks : Bool} {parse : List UInt8 → Option ElfFile} {P Q : Nat → Prop} {s₀ s : Machine} {g : VMem}
  {data : List UInt8} {elf : ElfFile}

/-- Without a dynamic segment there is nothing to relocate. -/
theorem ElfFile.relocationsSafe_of_static (h : elf.programHeaders.find? (·.type = .dynamic) = none) :
    elf.RelocationsSafe data := by
  refine Or.inr ⟨⟨0, 0, 24⟩, ?_, Or.inl rfl⟩
  rw [relaInfo, h]

theorem ElfFile.loadOffset_cases (elf : ElfFile) : elf.loadOffset = 0 ∨ elf.loadOffset = userBase := by
  unfold loadOffset
  split
  · exact Or.inr rfl
  · exact Or.inl rfl

/-- Relocations that stay inside their pages have a result. -/
theorem ElfFile.RelocatesInside.foldlM_relocate {info : RelaInfo} (hr : elf.RelocatesInside data)
    (h0 : elf.loadOffset ≠ 0) (hi : elf.relaInfo data = some info) (hz : ¬ (info.va = 0 ∨ info.size = 0))
    (hent : info.ent ≠ 0) :
    ∃ g', (List.range (info.size / info.ent)).foldlM (VMem.relocate elf.loadPages info elf.loadOffset)
      (elf.image data) = some g' := by
  rw [← Option.isSome_iff_exists]
  obtain hr | hr := hr
  · exact absurd hr h0
  · have := hr info hi
    tauto

theorem ElfFile.relocationsSafe_iff {info : RelaInfo} (h0 : elf.loadOffset ≠ 0) (hi : elf.relaInfo data = some info) :
    elf.RelocationsSafe data ↔ info.va = 0 ∨ info.size = 0 ∨ (info.ent ≠ 0 ∧
      VMem.RelocsSafe elf.loadPages info elf.loadOffset (elf.image data) (info.size / info.ent)) := by
  constructor
  · intro hs
    obtain hs | ⟨info', hi', hs⟩ := hs
    · exact absurd hs h0
    · rw [hi, Option.some.injEq] at hi'
      exact hi' ▸ hs
  · exact fun hs => Or.inr ⟨info, hi, hs⟩

theorem applyRelocations_spec (hparse : parse data = some elf) (h : Held P Q s₀ s (elf.image data))
    (hQ : ∀ p ∈ elf.loadPages, Q p) (hr : elf.RelocatesInside data) :
    Spec (applyRelocations checks parse data elf.loadOffset) s
      (fun _ s' => (∃ g, elf.relocated data = some g ∧ Held P Q s₀ s' g) ∧ Twin s s' ∧
        (checks = true → elf.RelocationsSafe data))
      (fun e s' => e = .halt ∧ Contained P s₀ s' ∧ ¬ elf.RelocationsSafe data) := by
  unfold applyRelocations
  obtain h0 | h0 := elf.loadOffset_cases
  · rw [if_pos (Or.inl h0)]
    exact Spec.pure ⟨⟨_, if_pos h0, h⟩, Twin.refl s, fun _ => Or.inl h0⟩
  have hne : elf.loadOffset ≠ 0 := by
    rw [h0]
    decide
  rw [if_neg (by rw [h0]; decide)]
  simp only [hparse]
  unfold ElfFile.relocated
  rw [if_neg hne]
  cases hi : elf.relaInfo data with
  | none =>
    refine Spec.throw ⟨rfl, h.conf, fun hs => ?_⟩
    obtain hs | ⟨info, hi', -⟩ := hs
    · exact hne hs
    · rw [hi] at hi'
      cases hi'
  | some info =>
    rw [ElfFile.relocationsSafe_iff hne hi]
    dsimp only
    split
    · rename_i hz
      exact Spec.pure ⟨⟨_, rfl, h⟩, Twin.refl s, fun _ => by tauto⟩
    · rename_i hz
      split
      · rename_i hent
        exact Spec.throw ⟨rfl, h.conf, by tauto⟩
      · rename_i hent
        obtain ⟨g', hg'⟩ := hr.foldlM_relocate hne hi hz hent
        refine (applyRelocations_loop_spec h hQ hg').mono ?_ ?_
        · intro _ s' hpost
          obtain ⟨h', w', hs'⟩ := hpost
          exact ⟨⟨g', hg', h'⟩, w', fun hc => Or.inr (Or.inr ⟨hent, hs' hc⟩)⟩
        · intro e s' hpost
          obtain ⟨he, hc, hn⟩ := hpost
          exact ⟨he, hc, by tauto⟩

/-- A file whose loading cannot halt: the segments can be read, and there is no dynamic segment. -/
structure ElfFile.Plain (elf : ElfFile) (data : List UInt8) : Prop where
  entry : elf.entryPoint + elf.loadOffset < 2 ^ 64
  readable : ∀ ph ∈ elf.loads, ph.Readable elf.loadOffset data
  static : elf.programHeaders.find? (·.type = .dynamic) = none

/-- The entry point does not wrap around, the segments can be loaded, and the relocations are safe. -/
structure ElfFile.Harmless (elf : ElfFile) (data : List UInt8) : Prop where
  entry : elf.entryPoint + elf.loadOffset < 2 ^ 64
  loadable : ∀ ph ∈ elf.loads, ph.Loadable elf.loadOffset data
  relocations : elf.RelocationsSafe data

theorem ElfFile.Plain.harmless (h : elf.Plain data) : elf.Harmless data :=
  ⟨h.entry, fun ph hph => (h.readable ph hph).loadable, relocationsSafe_of_static h.static⟩

/-- The bytes of each segment are copied to pages of this segment or of those before it. -/
def ElfFile.CopiesInside (elf : ElfFile) : Prop :=
  ∀ l ph r, elf.loads = l ++ ph :: r → ∀ i < ph.fileSize,
    pageNo (ph.vaddr elf.loadOffset + i) ∈ (l ++ [ph]).flatMap (·.pages elf.loadOffset)

/-- A segment that is not longer in the file than in memory is copied to its own pages. -/
theorem ElfFile.copiesInside_of_le (h : ∀ ph ∈ elf.loads, ph.fileSize ≤ ph.memSize) : elf.CopiesInside := by
  intro l ph r hl i hi
  have hsize := h ph (hl ▸ by simp)
  exact List.mem_flatMap.2 ⟨ph, by simp, ProgramHeader.mem_pages (Nat.lt_of_lt_of_le hi hsize)⟩

/-- The conditions on a file under which the loader stays inside the pages of the segments. -/
structure ElfFile.Sane (elf : ElfFile) (data : List UInt8) : Prop where
  segments : ∀ ph ∈ elf.loads, ph.Sane elf.loadOffset
  copies : elf.CopiesInside
  relocates : elf.RelocatesInside data

private theorem length_pages (ph : ProgramHeader) (loadOffset : Nat) :
    (ph.pages loadOffset).length = ph.numPages loadOffset := by
  rw [ProgramHeader.pages, List.length_map, List.length_range]

/-- The loop over segments that are copied to pages of their own or of those before them. -/
theorem loadList_spec {loadOffset : Nat} {segs : List ProgramHeader} (h : TableInv s)
    (hs : ∀ ph ∈ segs, ph.Sane loadOffset)
    (hcopies : ∀ l ph r, segs = l ++ ph :: r → ∀ i < ph.fileSize,
      pageNo (ph.vaddr loadOffset + i) ∈ (l ++ [ph]).flatMap (·.pages loadOffset))
    (hP : ∀ p ∈ segs.flatMap (·.pages loadOffset), P p) :
    Spec (segs.forM (loadSegment checks data loadOffset)) s
      (fun _ s' => Held P (· ∈ segs.flatMap (·.pages loadOffset)) s s'
          (segs.foldl (fun g ph => g.segment data loadOffset ph) fun _ => none) ∧
        s.alloc.freeFrames ≤ s'.alloc.freeFrames + 5 * (segs.flatMap (·.pages loadOffset)).length ∧
        ∀ ph ∈ segs, ph.Loadable loadOffset data)
      (fun e s' => Contained P s s' ∧ (e = .halt → ∃ ph ∈ segs, ¬ ph.Loadable loadOffset data) ∧
        (e ≠ .halt → Aborted P s s' ∧ s.alloc.freeFrames < 5 * (segs.flatMap (·.pages loadOffset)).length)) := by
  let pages := fun l : List ProgramHeader => l.flatMap (·.pages loadOffset)
  refine Spec.forM (I := fun l s' =>
    Held P (· ∈ pages l) s s' (l.foldl (fun g ph => g.segment data loadOffset ph) fun _ => none) ∧
      s.alloc.freeFrames ≤ s'.alloc.freeFrames + 5 * (pages l).length ∧ ∀ ph ∈ l,
        ph.Loadable loadOffset data) segs ?_ ?_
  · intro l ph r s₁ hl hpost
    obtain ⟨h₁, hn₁, hload⟩ := hpost
    have hmem : ph ∈ segs := hl ▸ by simp
    have hsplit : pages (l ++ [ph]) = pages l ++ ph.pages loadOffset := by simp [pages]
    have htotal : (pages l).length + ph.numPages loadOffset ≤ (pages segs).length := by
      show _ ≤ (segs.flatMap (·.pages loadOffset)).length
      rw [hl, List.flatMap_append, List.flatMap_cons, List.length_append, List.length_append, length_pages,
        ← Nat.add_assoc]
      exact Nat.le_add_right _ _
    refine (loadSegment_spec h₁ (hs ph hmem) (fun i hi => ?_) fun p hp => hP p ?_).mono ?_ ?_
    · exact List.mem_append.1 (hsplit ▸ hcopies l ph r hl i hi)
    · exact List.mem_flatMap.2 ⟨ph, hmem, hp⟩
    · intro _ s₂ hpost
      obtain ⟨h₂, hn₂, hl₂⟩ := hpost
      refine ⟨?_, ?_, fun ph' hph' => ?_⟩
      · rw [List.foldl_append]
        refine h₂.congr fun p => ?_
        rw [hsplit, List.mem_append]
      · rw [hsplit, List.length_append, length_pages]
        omega
      · obtain hph' | hph' := List.mem_append.1 hph'
        · exact hload ph' hph'
        · exact List.mem_singleton.1 hph' ▸ hl₂
    · intro e s₂ hpost
      obtain ⟨hc, hhalt, hn₂⟩ := hpost
      refine ⟨hc, fun he => ⟨ph, hmem, hhalt he⟩, fun he => ⟨(hn₂ he).1, ?_⟩⟩
      have hfew := (hn₂ he).2
      show _ < 5 * (pages segs).length
      omega
  · exact ⟨(Held.start h).congr fun p => by simp [pages], Nat.le_add_right _ _, nofun⟩

/-- The loop over the segments of a file. -/
theorem loadSegments_spec (h : TableInv s) (hs : elf.Sane data) (hP : ∀ p ∈ elf.loadPages, P p) :
    Spec (elf.loads.forM (loadSegment checks data elf.loadOffset)) s
      (fun _ s' => Held P (· ∈ elf.loadPages) s s' (elf.image data) ∧
        s.alloc.freeFrames ≤ s'.alloc.freeFrames + 5 * elf.loadPages.length ∧
        ∀ ph ∈ elf.loads, ph.Loadable elf.loadOffset data)
      (fun e s' => Contained P s s' ∧ (e = .halt → ∃ ph ∈ elf.loads, ¬ ph.Loadable elf.loadOffset data) ∧
        (e ≠ .halt → Aborted P s s' ∧ s.alloc.freeFrames < 5 * elf.loadPages.length)) :=
  loadList_spec h hs.segments hs.copies hP

theorem load_spec (hparse : parse data = some elf) (h : TableInv s) (hs : elf.Sane data)
    (hP : ∀ p ∈ elf.loadPages, P p) :
    Spec (load checks parse data) s
      (fun _ s' => (∃ g, elf.relocated data = some g ∧ Held P (· ∈ elf.loadPages) s s' g) ∧
        s.alloc.freeFrames ≤ s'.alloc.freeFrames + 5 * elf.loadPages.length ∧
        (∀ ph ∈ elf.loads, ph.Loadable elf.loadOffset data) ∧ (checks = true → elf.Harmless data))
      (fun e s' => Contained P s s' ∧ (e = .halt → ¬ elf.Harmless data) ∧
        (e ≠ .halt → Aborted P s s' ∧ s.alloc.freeFrames < 5 * elf.loadPages.length)) := by
  unfold load
  simp only [hparse]
  refine wrapU64_bind (fun hn => ⟨Contained.refl h, fun _ hh => absurd hh.entry (by omega), nofun⟩) fun hentry => ?_
  refine Spec.bind ((loadSegments_spec h hs hP).mono ?_ ?_)
  case refine_2 =>
    intro e s₁ hpost
    obtain ⟨hc, hhalt, hn⟩ := hpost
    refine ⟨hc, fun he hh => ?_, hn⟩
    obtain ⟨ph, hph, hno⟩ := hhalt he
    exact hno (hh.loadable ph hph)
  intro _ s₁ hpost
  obtain ⟨h₁, hn₁, hload⟩ := hpost
  refine Spec.bind ((applyRelocations_spec hparse h₁ (fun _ h => h) hs.relocates).mono ?_ ?_)
  · intro _ s₂ hpost
    obtain ⟨h₂, w₂, hsafe⟩ := hpost
    exact Spec.pure ⟨h₂, by rw [w₂.alloc]; exact hn₁, hload, fun hc => ⟨hentry hc, hload, hsafe hc⟩⟩
  · intro e s₂ hpost
    obtain ⟨he, hc, hno⟩ := hpost
    exact ⟨hc, fun _ hh => hno hh.relocations, fun hne => absurd he hne⟩

end Load

/-! ### Creating a process -/

/-- The pages of the user stack. -/
def stackPages : List Nat := (List.range userStackPages).map fun i => pageNo (userStackVaddr + i * 0x1000)

/-- The pages that a call maps. -/
def ElfFile.callPages (elf : ElfFile) : List Nat := elf.loadPages ++ stackPages

section FromElf

variable {checks : Bool} {parse : List UInt8 → Option ElfFile} {pid : Nat} {s : Machine} {data : List UInt8}
  {elf : ElfFile}

theorem mapStackPage_spec {P Q : Nat → Prop} {s₀ : Machine} {g : VMem} (h : Held P Q s₀ s g) {i : Nat}
    (hP : P (pageNo (userStackVaddr + i * 0x1000))) :
    Spec (mapStackPage i) s
      (fun _ s' => Held P (fun p => Q p ∨ p = pageNo (userStackVaddr + i * 0x1000)) s₀ s'
        (g.forget (pageNo (userStackVaddr + i * 0x1000))) ∧ s.alloc.freeFrames ≤ s'.alloc.freeFrames + 5)
      (fun e s' => e ≠ .halt ∧ Aborted P s₀ s' ∧ s.alloc.freeFrames < 5) := by
  unfold mapStackPage
  exact h.backPage hP _ nofun nofun

/-- The loop over the pages of the stack. -/
theorem mapStack_spec {P Q : Nat → Prop} {s₀ : Machine} {g : VMem} (h : Held P Q s₀ s g)
    (hP : ∀ p ∈ stackPages, P p) :
    Spec ((List.range userStackPages).forM mapStackPage) s
      (fun _ s' => Held P (fun p => Q p ∨ p ∈ stackPages) s₀ s' (stackPages.foldl VMem.forget g) ∧
        s.alloc.freeFrames ≤ s'.alloc.freeFrames + 5 * stackPages.length)
      (fun e s' => e ≠ .halt ∧ Aborted P s₀ s' ∧ s.alloc.freeFrames < 5 * stackPages.length) := by
  have hlen : stackPages.length = userStackPages := by rw [stackPages, List.length_map, List.length_range]
  let pages := fun l : List Nat => l.map fun i => pageNo (userStackVaddr + i * 0x1000)
  refine (Spec.forM (I := fun l s' => Held P (fun p => Q p ∨ p ∈ pages l) s₀ s' ((pages l).foldl VMem.forget g) ∧
    s.alloc.freeFrames ≤ s'.alloc.freeFrames + 5 * l.length)
    (List.range userStackPages) ?_ ⟨h.congr fun p => by simp [pages], Nat.le_add_right _ _⟩).mono ?_ fun _ _ h => h
  · intro l i r s₁ hl hpost
    obtain ⟨h₁, hn₁⟩ := hpost
    have hi : i < userStackPages := List.mem_range.1 (hl ▸ by simp)
    have hlt : l.length < userStackPages := by
      have := congrArg List.length hl
      rw [List.length_range, List.length_append, List.length_cons] at this
      omega
    refine (mapStackPage_spec h₁ (hP _ (List.mem_map.2 ⟨i, List.mem_range.2 hi, rfl⟩))).mono ?_ ?_
    · intro _ s₂ hpost
      obtain ⟨h₂, hn₂⟩ := hpost
      refine ⟨?_, by rw [List.length_append, List.length_singleton]; omega⟩
      simp only [pages, List.map_append, List.foldl_append]
      exact h₂.congr fun p => by simp [pages, or_assoc]
    · intro e s₂ hpost
      obtain ⟨he, hc, hn₂⟩ := hpost
      exact ⟨he, hc, by omega⟩
  · intro _ s' hpost
    obtain ⟨h', hn⟩ := hpost
    rw [List.length_range, ← hlen] at hn
    exact ⟨h', hn⟩

/-- A call returns with all its pages mapped to frames of its own, or fails; in any case it is contained in its pages.
It halts only on files that are not harmless, and fails only when frames run out. -/
theorem fromElf_spec (hparse : parse data = some elf) (h : TableInv s) (hs : elf.Sane data) :
    Spec (fromElf checks parse pid data) s
      (fun _ s' => (∃ g, elf.relocated data = some g ∧
          Held (· ∈ elf.callPages) (· ∈ elf.callPages) s s' (stackPages.foldl VMem.forget g)) ∧
        s.alloc.freeFrames ≤ s'.alloc.freeFrames + (5 * elf.callPages.length + 1) ∧
        ∀ ph ∈ elf.loads, ph.Loadable elf.loadOffset data)
      (fun e s' => Contained (· ∈ elf.callPages) s s' ∧ (e = .halt → ¬ elf.Harmless data) ∧
        (e ≠ .halt → Aborted (· ∈ elf.callPages) s s' ∧ s.alloc.freeFrames < 5 * elf.callPages.length + 1)) := by
  have hlen : elf.callPages.length = elf.loadPages.length + stackPages.length := List.length_append
  unfold fromElf
  refine Spec.bind (Spec.mapErr ((load_spec (P := (· ∈ elf.callPages)) hparse h hs
    fun p hp => List.mem_append_left _ hp).mono ?_ ?_))
  case refine_2 =>
    intro e s₁ hpost
    obtain ⟨hc, hhalt, hn⟩ := hpost
    have hmap : ∀ {e' : Stop ElfError}, Stop.map (fun _ => ProcessError.elfError) e' = .halt ↔ e' = .halt := by
      intro e'
      cases e' <;> simp [Stop.map]
    refine ⟨hc, fun he => hhalt (hmap.1 he), fun he => ?_⟩
    obtain ⟨hab, hn⟩ := hn fun he' => he (hmap.2 he')
    exact ⟨hab, by omega⟩
  intro entry s₁ hpost
  obtain ⟨⟨g₁, hg₁, h₁⟩, hn₁, hload, -⟩ := hpost
  refine Spec.bind (Spec.mapErr ((allocateFrame_spec h₁.conf.inv.sound).mono ?_ ?_))
  case refine_2 =>
    intro e _ hpost
    obtain ⟨rfl, hz⟩ := hpost
    refine ⟨h₁.conf, nofun, fun _ => ⟨⟨h₁.conf, ?_⟩, by omega⟩⟩
    obtain rfl | hl := h₁.spent
    · exact Or.inr ⟨rfl, hz⟩
    · exact Or.inl hl
  -- the frame of the kernel stack is taken and not mapped
  intro frame _ hpost
  obtain ⟨n, a, -, rfl, ht⟩ := hpost
  have hcount := ht.count
  refine Spec.bind ((mapStack_spec (P := (· ∈ elf.callPages)) (h₁.taken ht)
    fun p hp => List.mem_append_right _ hp).mono ?_ ?_)
  case refine_2 =>
    intro e s₂ hpost
    obtain ⟨he, hab, hn₂⟩ := hpost
    have hn₂ : a.freeFrames < 5 * stackPages.length := hn₂
    exact ⟨hab.conf, fun h => absurd h he, fun _ => ⟨hab, by omega⟩⟩
  intro _ s₂ hpost
  obtain ⟨h₂, hn₂⟩ := hpost
  have hn₂ : a.freeFrames ≤ s₂.alloc.freeFrames + 5 * stackPages.length := hn₂
  exact Spec.pure ⟨⟨g₁, hg₁, h₂.congr fun p => List.mem_append⟩, by omega, hload⟩

end FromElf

end Hammam
