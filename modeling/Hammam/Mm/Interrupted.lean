import Hammam.Mm.BootTables

/-!
# When `map_page` runs out of frames

A call that finds no frame for a table stops where it is.  The tables that it has created so far are linked and empty,
so no address is translated differently, and a second call needs frames only for the tables that are still missing.
What a successful call does to the address space depends on the mappings before it only, so the second call ends where
an uninterrupted one would have ended.

`get_table` is taken to reach the frame of a table in physical memory, wherever the call before it has put the table.
-/

namespace Hammam

open RadixTree PageTableEntry Fallible

/-- The tables with another allocator, of which no free frame is a table. -/
theorem TableInv.setAlloc {s : Machine} (h : TableInv s) {a : BuddyAllocator} (ha : a.Sound)
    (hfree : ∀ x, FreeAt a x → ¬ s.IsTable (x / 4096)) : TableInv { s with alloc := a } := by
  refine ⟨h.tree, h.upper, h.huge, fun {p t} hp ht hf => hfree _ hf ⟨p, hp, ?_⟩, ha⟩
  rw [Nat.mul_div_cancel_left t (by decide)]
  exact ht

/-- Two successful calls from the same mappings give the same translations. -/
theorem Mapped.translate_eq {s₁ s₁' s₂ s₂' : Machine} {virt e : Nat} (m₁ : Mapped s₁ s₁' virt e)
    (m₂ : Mapped s₂ s₂' virt e) (h₁ : TableInv s₁') (h₂ : TableInv s₂')
    (hsame : ∀ v, s₁.mapping v = s₂.mapping v) (v : Nat) :
    s₁'.translate v = s₂'.translate v ∧ s₁'.translateFlags v = s₂'.translateFlags v := by
  rw [Machine.translate_eq h₁.upper, Machine.translate_eq h₂.upper, Machine.translateFlags_eq h₁.upper,
    Machine.translateFlags_eq h₂.upper]
  have hhuge : s₁.InHuge v ↔ s₂.InHuge v := by rw [Machine.InHuge, Machine.InHuge, hsame]
  by_cases hv : path v = path virt
  · have hleaf : s₁'.mapping v = s₂'.mapping v := by
      have e₁ : s₁'.leaf v = s₁'.leaf virt := by rw [Machine.leaf, hv, Machine.leaf]
      have e₂ : s₂'.leaf v = s₂'.leaf virt := by rw [Machine.leaf, hv, Machine.leaf]
      rw [Machine.mapping, Machine.mapping, e₁, e₂, m₁.at_virt, m₂.at_virt]
    rw [hleaf]
    exact ⟨rfl, rfl⟩
  · by_cases hs : (path v).take 3 = (path virt).take 3 ∧ s₁.InHuge v
    · -- both calls split the same 2 MiB page
      obtain ⟨hpre, e₀, j, hm₁⟩ := hs
      have hm₂ : s₂.mapping v = some (e₀, [j]) := by rw [← hsame, hm₁]
      obtain ⟨e₁, h1, hfl₁, had₁⟩ := m₁.split hv hpre hm₁
      obtain ⟨e₂, h2, hfl₂, had₂⟩ := m₂.split hv hpre hm₂
      rw [h1, h2]
      simp only [Option.map_some, had₁, had₂, hfl₁, hfl₂, and_self]
    · rw [m₁.other hv hs, m₂.other hv (by rwa [← hhuge]), hsame]
      exact ⟨rfl, rfl⟩

/-- A call of `map_page` that runs out of frames changes no translation, and every frame it has taken is a table
with no leaf below it.  With a free frame for each table that is still missing the call succeeds when it is
repeated, and its result is that of a call that was not interrupted. -/
theorem map_page_interrupted {m : Memory} {a₀ a : BuddyAllocator} {s s' : Machine} {virt : Nat} {phys : PhysFrame}
    {flags : PageFlags} (ha₀ : a₀.Sound) (hboot : ∀ x, FreeAt a₀ x → ¬ (bootPt ≤ x ∧ x < bootPt + 3 * 4096))
    (hr : Machine.Reachable m a₀ s) (ha : a.Sound) (hfree : ∀ x, FreeAt a x → ¬ s.IsTable (x / 4096))
    (herr : exec (mapPage virt phys flags) { s with alloc := a } = (.error .frameAllocationFailed, s')) :
    (∀ v, s'.translate v = s.translate v ∧ s'.translateFlags v = s.translateFlags v) ∧
      (∀ x, FreeAt a x → ¬ FreeAt s'.alloc x → ∃ q, q.length ≤ 3 ∧ s'.tableAt q = some (x / 4096) ∧
        ∀ v, q <+: path v → s'.mapping v = none) ∧
      ∀ a₁ : BuddyAllocator, a₁.Sound → (∀ x, FreeAt a₁ x → ¬ s'.IsTable (x / 4096)) →
        s'.missing virt ≤ a₁.freeFrames →
        ∃ s₁, exec (mapPage virt phys flags) { s' with alloc := a₁ } = (.ok ⟨⟩, s₁) ∧
          ∀ (a₂ : BuddyAllocator) (s₂ : Machine), a₂.Sound → (∀ x, FreeAt a₂ x → ¬ s.IsTable (x / 4096)) →
            exec (mapPage virt phys flags) { s with alloc := a₂ } = (.ok ⟨⟩, s₂) →
            ∀ v, s₁.translate v = s₂.translate v ∧ s₁.translateFlags v = s₂.translateFlags v := by
  have h : TableInv s := hr.inv ha₀ hboot
  have h₀ := h.setAlloc ha hfree
  obtain ⟨h', -, hprep, -, -⟩ := (mapPage_spec h₀ virt phys flags).of_error herr
  have hmap : ∀ v, s'.mapping v = s.mapping v := hprep.mapping
  refine ⟨fun v => ?_, hprep.taken, fun a₁ ha₁ hfree₁ hn => ?_⟩
  · rw [Machine.translate_eq h'.upper, Machine.translateFlags_eq h'.upper, hmap, ← Machine.translate_eq h.upper,
      ← Machine.translateFlags_eq h.upper]
    exact ⟨rfl, rfl⟩
  · have h₁ := h'.setAlloc ha₁ hfree₁
    obtain ⟨s₁, hok₁⟩ := mapPage_ok_of_missing h₁ virt hn phys flags
    obtain ⟨i₁, -, m₁, -⟩ := (mapPage_spec h₁ virt phys flags).of_ok hok₁
    refine ⟨s₁, hok₁, fun a₂ s₂ ha₂ hfree₂ hok₂ v => ?_⟩
    obtain ⟨i₂, -, m₂, -⟩ := (mapPage_spec (h.setAlloc ha₂ hfree₂) virt phys flags).of_ok hok₂
    exact m₁.translate_eq m₂ i₁ i₂ hmap v

/-- Of the tables on the way to 512 GiB only the PML4 is there. -/
private theorem small_missing : smallMachine.missing 0x8000000000 = 3 := by
  have hfirst : path 0x8000000000 = [1, 0, 0, 0] := by decide
  refine List.countP_eq_length.2 fun k hk => ?_
  rw [Option.isNone_iff_eq_none, Option.eq_none_iff_forall_ne_some]
  intro t ht
  rw [hfirst] at ht
  simp only [List.mem_cons, List.not_mem_nil, or_false] at hk
  obtain rfl | rfl | rfl := hk <;>
    obtain ⟨h, -⟩ | ⟨h, -⟩ | ⟨h, -⟩ := tableAt_boot ht <;> simp at h

theorem sample_apart (x : Nat) (hx : FreeAt (FrameState.boot sampleKernel sampleMap).alloc x) :
    ¬ smallMachine.IsTable (x / 4096) := by
  intro ht
  have h1 := isTable_boot ht
  have h2 := sample_free hx
  rw [bootPt] at h1
  rw [pageSize] at h2
  omega

/-- With the single page of the sample map a call for an address in the second entry of the PML4 creates one table
and stops; with the frames of the small machine it can be repeated. -/
theorem map_page_interrupted_small : ∃ s' s₁,
    exec (mapPage 0x8000000000 ⟨0x900000⟩ .writable)
        { smallMachine with alloc := (FrameState.boot sampleKernel sampleMap).alloc } =
      (.error .frameAllocationFailed, s') ∧
    s'.translate 0x8000000000 = smallMachine.translate 0x8000000000 ∧
    exec (mapPage 0x8000000000 ⟨0x900000⟩ .writable) { s' with alloc := smallMachine.alloc } = (.ok ⟨⟩, s₁) := by
  have hsound : (FrameState.boot sampleKernel sampleMap).alloc.Sound :=
    FrameState.Reachable.sound sampleMap_valid .refl
  have h₀ := small_inv.setAlloc hsound sample_apart
  have hshort : (FrameState.boot sampleKernel sampleMap).alloc.freeFrames < smallMachine.missing 0x8000000000 := by
    rw [small_missing, sample_init]
    decide
  obtain ⟨s', herr⟩ := mapPage_error_of_missing h₀ hshort ⟨0x900000⟩ .writable
  obtain ⟨-, g, -⟩ := (mapPage_spec h₀ _ _ _).of_error herr
  have key :=
    map_page_interrupted (show smallMachine.alloc.Sound from FrameState.Reachable.sound smallMap_valid .refl)
    (fun _ => small_outside) .boot hsound sample_apart herr
  -- the tables are those of the boot code and the page of the sample map
  have hapart : ∀ x, FreeAt smallMachine.alloc x → ¬ s'.IsTable (x / 4096) := by
    intro x hf ht
    obtain ⟨q, hq, ht⟩ := ht
    have hx := small_free hf
    obtain ht | hnew := g.new hq ht
    · have := isTable_boot (x := x) ⟨q, hq, ht⟩
      rw [bootPt] at this
      omega
    · have := sample_free hnew
      rw [pageSize] at this
      omega
  have henough : s'.missing 0x8000000000 ≤ smallMachine.alloc.freeFrames := by
    rw [small_frames]
    exact (s'.missing_le _).trans (by decide)
  obtain ⟨s₁, hok, -⟩ :=
    key.2.2 smallMachine.alloc (FrameState.Reachable.sound smallMap_valid .refl) hapart henough
  exact ⟨s', s₁, herr, (key.1 _).1, hok⟩

end Hammam
