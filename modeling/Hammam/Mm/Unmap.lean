import Hammam.Mm.BootTables

/-!
# What `unmap_page` does

`unmap_page` clears the entry of a page table, and for a page of 4 KiB that is all it should do.  It does not look
for huge pages: inside a 2 MiB page that has not been split it takes the first frame of the page for a page table
and reads, or clears, eight bytes of data.  In every state that `map_page` and `unmap_page` reach from the boot
tables it is exact for the addresses that do not lie in such a page, and for no others.

As in `Paging`, `get_table` is taken to reach the frame in physical memory, also where the frame lies above the first
GiB.
-/

namespace Hammam

open ByteMem RadixTree PageTableEntry Fallible

/-! ### Clearing an entry -/

/-- The entry `i` in the frame `n` has been cleared, whether the frame is a table or not. -/
structure Cleared (s s' : Machine) (n : Nat) (i : Fin 512) : Prop where
  cr3 : s'.cr3 = s.cr3
  alloc : s'.alloc = s.alloc
  view_eq : ∀ u j, view s'.mem u j = if u = n ∧ j = i then 0 else view s.mem u j
  mem_eq : ∀ x, x / 4096 ≠ n → s'.mem x = s.mem x

theorem cleared_setEntry (s : Machine) (n : Nat) (i : Fin 512) :
    Cleared s { s with mem := setEntry s.mem ⟨4096 * n⟩ i 0 } n i :=
  ⟨rfl, rfl, view_setEntry _ _ _ (by decide), fun _ hx => setEntry_of_outside _ _ _ _ hx⟩

namespace Cleared

variable {s s' : Machine} {n : Nat} {i : Fin 512}

theorem root (c : Cleared s s' n i) : s'.root = s.root := by
  rw [Machine.root, c.cr3, Machine.root]

theorem pruned (c : Cleared s s' n i) (u : Nat) (j : Fin 512) :
    view s'.mem u j = view s.mem u j ∨ child (view s'.mem u j) = none := by
  rw [c.view_eq]
  split
  · exact Or.inr child_zero
  · exact Or.inl rfl

theorem tableAt (c : Cleared s s' n i) {p : List (Fin 512)} {t : Nat} (ht : s'.tableAt p = some t) :
    s.tableAt p = some t := by
  unfold Machine.tableAt at ht ⊢
  rw [c.root] at ht
  exact follow_of_pruned c.pruned ht

/-- A present entry is an old one. -/
theorem view_present (c : Cleared s s' n i) {u : Nat} {j : Fin 512} (hp : has (view s'.mem u j) .present) :
    view s'.mem u j = view s.mem u j := by
  rw [c.view_eq] at hp ⊢
  split
  · rename_i h
    rw [if_pos h] at hp
    exact absurd hp not_has_zero
  · rfl

theorem inv (c : Cleared s s' n i) (h : TableInv s) : TableInv s' := by
  constructor
  · rw [c.root]
    exact IsTree.of_pruned h.tree c.pruned
  · intro p t j hp ht hpre
    have he := c.view_present hpre
    rw [he] at hpre ⊢
    exact h.upper j hp (c.tableAt ht) hpre
  · intro p t j hp ht hpre
    have he := c.view_present hpre
    rw [he] at hpre ⊢
    exact h.huge j hp (c.tableAt ht) hpre
  · intro p t hp ht
    rw [c.alloc]
    exact h.apart hp (c.tableAt ht)
  · rw [c.alloc]
    exact h.sound

end Cleared

/-! ### Huge pages -/

theorem inHuge_iff {s : Machine} (h : s.NoHugeUpper) (v : Nat) :
    s.InHuge v ↔ ∃ t, s.tableAt [idx v 39, idx v 30] = some t ∧ has (view s.mem t (idx v 21)) .present ∧
      has (view s.mem t (idx v 21)) .hugePage := by
  constructor
  · intro hv
    obtain ⟨e, j, hm⟩ := hv
    obtain ⟨hp, hh, t, ht, rfl⟩ := Machine.mapping_huge h hm
    exact ⟨t, ht, hp, hh⟩
  · intro hv
    obtain ⟨t, ht, hp, hh⟩ := hv
    refine ⟨_, _, Machine.mapping_of_leaf (p := [idx v 12]) ?_ hp⟩
    have hpath : path v = [idx v 39, idx v 30] ++ [idx v 21, idx v 12] := rfl
    rw [Machine.leaf, hpath, resolve_append ht (List.cons_ne_nil _ _), resolve_stop (child_of_huge hh)]

/-- The way to the page directory of the boot code, which holds the only huge pages. -/
structure BootPaths (s : Machine) : Prop where
  pml4 : s.root = 0x21b
  pdpt : s.tableAt [0] = some 0x21c
  pd : s.tableAt [0, 0] = some 0x21d
  huge : ∀ v, s.InHuge v → idx v 39 = 0 ∧ idx v 30 = 0

/-! ### The walk of `unmap_page` -/

private theorem exec_presentFrame (s : Machine) (t : Nat) (i : Fin 512) :
    exec (presentFrame ⟨4096 * t⟩ i) s =
      if has (view s.mem t i) .present then (.ok ⟨4096 * frameNo (view s.mem t i)⟩, s)
      else (.error .notMapped, s) := by
  unfold presentFrame
  rw [exec_bind, exec_get]
  by_cases hp : has (view s.mem t i) .present
  · have hf : frame (entry s.mem ⟨4096 * t⟩ i) = some _ := frame_of_present hp
    simp only [hf, if_pos hp]
    rfl
  · have hf : frame (entry s.mem ⟨4096 * t⟩ i) = none := frame_of_not_present hp
    simp only [hf, if_neg hp]
    rfl

/-- The frame that the walk takes for the page table of `virt`. -/
def Machine.unmapFrame (s : Machine) (virt : Nat) : Option Nat := do
  let pml4e := view s.mem s.root (idx virt 39)
  let pdpt ← if has pml4e .present then some (frameNo pml4e) else none
  let pdpte := view s.mem pdpt (idx virt 30)
  let pd ← if has pdpte .present then some (frameNo pdpte) else none
  let pde := view s.mem pd (idx virt 21)
  if has pde .present then some (frameNo pde) else none

theorem exec_unmapPage (s : Machine) (virt : Nat) :
    exec (unmapPage virt) s =
      match s.unmapFrame virt with
      | none => (.error .notMapped, s)
      | some n =>
        if has (view s.mem n (idx virt 12)) .present then
          (.ok ⟨4096 * frameNo (view s.mem n (idx virt 12))⟩,
            { s with mem := setEntry s.mem ⟨4096 * n⟩ (idx virt 12) 0 })
        else (.error .notMapped, s) := by
  unfold unmapPage Machine.unmapFrame
  rw [exec_bind, exec_get]
  simp only [Machine.activePml4_eq, pml4Index_eq, pdptIndex_eq, pdIndex_eq, ptIndex_eq, exec_bind, exec_presentFrame,
    Option.bind_eq_bind]
  by_cases h₄ : has (view s.mem s.root (idx virt 39)) .present
  case neg => simp only [if_neg h₄, Option.bind_none]
  simp only [if_pos h₄, Option.bind_some, exec_presentFrame]
  generalize frameNo (view s.mem s.root (idx virt 39)) = t₃
  by_cases h₃ : has (view s.mem t₃ (idx virt 30)) .present
  case neg => simp only [if_neg h₃, Option.bind_none]
  simp only [if_pos h₃, exec_presentFrame]
  generalize frameNo (view s.mem t₃ (idx virt 30)) = t₂
  by_cases h₂ : has (view s.mem t₂ (idx virt 21)) .present
  case neg => simp only [if_neg h₂]
  simp only [if_pos h₂, exec_presentFrame]
  generalize frameNo (view s.mem t₂ (idx virt 21)) = t₁
  by_cases h₁ : has (view s.mem t₁ (idx virt 12)) .present
  · simp only [if_pos h₁, exec_modify, exec_pure]
  · simp only [if_neg h₁]

/-- The walk finds no page table, the page table of `virt`, or the first frame of a 2 MiB page. -/
theorem unmapFrame_cases {s : Machine} (h : s.NoHugeUpper) (virt : Nat) :
    (s.unmapFrame virt = none ∧ s.mapping virt = none) ∨
      (∃ t, s.unmapFrame virt = some t ∧ s.tableAt ((path virt).take 3) = some t) ∨
      ∃ t, s.tableAt [idx virt 39, idx virt 30] = some t ∧ has (view s.mem t (idx virt 21)) .present ∧
        has (view s.mem t (idx virt 21)) .hugePage ∧
        s.unmapFrame virt = some (frameNo (view s.mem t (idx virt 21))) := by
  have hroot : s.tableAt [] = some s.root := rfl
  have hstop : ∀ {e p}, s.leaf virt = some (e, p) → ¬ has e .present → s.mapping virt = none :=
    fun hl he => Machine.mapping_of_not_present hl he
  simp only [Machine.unmapFrame, Machine.leaf, path, Option.bind_eq_bind] at *
  by_cases h₄ : has (view s.mem s.root (idx virt 39)) .present
  case neg =>
    refine Or.inl ⟨by simp only [if_neg h₄, Option.bind_none], hstop (resolve_stop (child_of_not_present h₄)) h₄⟩
  have hc₄ := child_of_present h₄ (h _ (by simp) hroot h₄)
  have ht₃ : s.tableAt ([] ++ [idx virt 39]) = some _ := (follow_snoc hroot).trans hc₄
  rw [resolve_next hc₄] at hstop
  simp only [if_pos h₄, Option.bind_some]
  generalize frameNo (view s.mem s.root (idx virt 39)) = t₃ at *
  by_cases h₃ : has (view s.mem t₃ (idx virt 30)) .present
  case neg =>
    refine Or.inl ⟨by simp only [if_neg h₃, Option.bind_none], hstop (resolve_stop (child_of_not_present h₃)) h₃⟩
  have hc₃ := child_of_present h₃ (h _ (by simp) ht₃ h₃)
  have ht₂ : s.tableAt ([] ++ [idx virt 39] ++ [idx virt 30]) = some _ := (follow_snoc ht₃).trans hc₃
  rw [resolve_next hc₃] at hstop
  simp only [if_pos h₃]
  generalize frameNo (view s.mem t₃ (idx virt 30)) = t₂ at *
  by_cases h₂ : has (view s.mem t₂ (idx virt 21)) .present
  case neg =>
    exact Or.inl ⟨if_neg h₂, hstop (resolve_stop (child_of_not_present h₂)) h₂⟩
  -- the flag that the walk does not look at
  by_cases hh : has (view s.mem t₂ (idx virt 21)) .hugePage
  · exact Or.inr (Or.inr ⟨t₂, ht₂, h₂, hh, if_pos h₂⟩)
  · exact Or.inr (Or.inl ⟨_, if_pos h₂, (follow_snoc ht₂).trans (child_of_present h₂ hh)⟩)

/-! ### Runs -/

/-- The states of the runs from the boot tables in which pages are mapped and unmapped. -/
inductive Machine.Managed (m : Memory) (a : BuddyAllocator) : Machine → Prop
  | boot : Managed m a (Machine.boot m a)
  | mapPage {s : Machine} (virt : Nat) (phys : PhysFrame) (flags : PageFlags) :
    Managed m a s → Managed m a (exec (Hammam.mapPage virt phys flags) s).2
  | unmapPage {s : Machine} (virt : Nat) : Managed m a s → Managed m a (exec (Hammam.unmapPage virt) s).2
  | allocate {s : Machine} : Managed m a s → Managed m a (exec (allocateFrame 0) s).2
  | write {s : Machine} (mem : Memory) : (∀ x, s.IsTable (x / 4096) → mem x = s.mem x) → Managed m a s →
    Managed m a { s with mem := mem }

namespace BootPaths

variable {s s' : Machine}

theorem tableAt_nil (b : BootPaths s) : s.tableAt [] = some 0x21b := congrArg some b.pml4

theorem boot {m : Memory} {a : BuddyAllocator} (h : TableInv (Machine.boot m a)) : BootPaths (Machine.boot m a) := by
  refine ⟨boot_root m a, (tableAt_boot_pd m a).1, (tableAt_boot_pd m a).2, fun v hv => ?_⟩
  obtain ⟨t, ht, -⟩ := (inHuge_iff h.upper v).1 hv
  obtain ⟨h, -⟩ | ⟨h, -⟩ | ⟨h, -⟩ := tableAt_boot ht <;> simp_all

/-- The tables stay where they are, and no huge page comes up. -/
theorem keep (b : BootPaths s) (hcr3 : s'.cr3 = s.cr3)
    (hkept : ∀ {p t}, p.length ≤ 3 → s.tableAt p = some t → s'.tableAt p = some t)
    (hhuge : ∀ v, s'.InHuge v → s.InHuge v) : BootPaths s' := by
  refine ⟨?_, hkept (by simp) b.pdpt, hkept (by simp) b.pd, fun v hv => b.huge v (hhuge v hv)⟩
  rw [Machine.root, hcr3]
  exact b.pml4

/-- Neither of the three tables is a frame that `unmap_page` writes to. -/
theorem cleared (b : BootPaths s) (h : TableInv s) {n : Nat} {i : Fin 512} (c : Cleared s s' n i)
    (hn : n ≠ 0x21b ∧ n ≠ 0x21c ∧ n ≠ 0x21d) : BootPaths s' := by
  have hview : ∀ u, u ≠ n → ∀ j, view s'.mem u j = view s.mem u j := by
    intro u hu j
    rw [c.view_eq, if_neg fun h => hu h.1]
  have hroot : s'.root = 0x21b := c.root.trans b.pml4
  have ht₄ : s'.tableAt [] = some 0x21b := congrArg some hroot
  have ht₃ : s'.tableAt [0] = some 0x21c := by
    have h1 : s.tableAt ([] ++ [0]) = _ := follow_snoc b.tableAt_nil
    have h2 : s'.tableAt ([] ++ [0]) = _ := follow_snoc ht₄
    rw [hview _ (Ne.symm hn.1), ← h1] at h2
    exact h2.trans b.pdpt
  have ht₂ : s'.tableAt [0, 0] = some 0x21d := by
    have h1 : s.tableAt ([0] ++ [0]) = _ := follow_snoc b.pdpt
    have h2 : s'.tableAt ([0] ++ [0]) = _ := follow_snoc ht₃
    rw [hview _ (Ne.symm hn.2.1), ← h1] at h2
    exact h2.trans b.pd
  refine ⟨hroot, ht₃, ht₂, fun v hv => b.huge v ?_⟩
  obtain ⟨t, ht, hp, hh⟩ := (inHuge_iff (c.inv h).upper v).1 hv
  have he := c.view_present hp
  rw [he] at hp hh
  exact (inHuge_iff h.upper v).2 ⟨t, c.tableAt ht, hp, hh⟩

/-- The frame that `unmap_page` takes for a page table is none of the three. -/
theorem unmapFrame_ne (b : BootPaths s) (h : TableInv s) {virt n : Nat} (hn : s.unmapFrame virt = some n) :
    n ≠ 0x21b ∧ n ≠ 0x21c ∧ n ≠ 0x21d := by
  obtain ⟨hnone, -⟩ | ⟨t, ht, hpath⟩ | ⟨t, ht, hp, hh, he⟩ := unmapFrame_cases h.upper virt
  · rw [hnone] at hn
    cases hn
  · -- the page table of `virt` has a path of length 3
    obtain rfl : t = n := Option.some.inj (ht.symm.trans hn)
    have hne : ∀ {p u}, p.length < 3 → s.tableAt p = some u → t ≠ u := by
      intro p u hlt hu he
      subst he
      have := congrArg List.length (h.tree (q := (path virt).take 3) (Nat.le_of_lt hlt) (Nat.le_refl 3) hu hpath)
      have hlen : ((path virt).take 3).length = 3 := rfl
      omega
    exact ⟨hne (by simp) b.tableAt_nil, hne (by simp) b.pdpt, hne (by simp) b.pd⟩
  · -- a 2 MiB page is aligned to its size
    have hdvd := h.huge _ rfl ht hp hh
    obtain rfl : frameNo (view s.mem t (idx virt 21)) = n := Option.some.inj (he.symm.trans hn)
    omega

end BootPaths

namespace Machine.Managed

variable {m : Memory} {a : BuddyAllocator} {s : Machine}

private theorem unmapPage_inv (h : TableInv s) (b : BootPaths s) (virt : Nat) :
    TableInv (exec (Hammam.unmapPage virt) s).2 ∧ BootPaths (exec (Hammam.unmapPage virt) s).2 := by
  rw [exec_unmapPage]
  cases hn : s.unmapFrame virt with
  | none => exact ⟨h, b⟩
  | some n =>
    by_cases hp : has (view s.mem n (idx virt 12)) .present
    · simp only [if_pos hp]
      have c := cleared_setEntry s n (idx virt 12)
      exact ⟨c.inv h, b.cleared h c (b.unmapFrame_ne h hn)⟩
    · simp only [if_neg hp]
      exact ⟨h, b⟩

private theorem mapPage_inv (h : TableInv s) (b : BootPaths s) (virt : Nat) (phys : PhysFrame) (flags : PageFlags) :
    TableInv (exec (Hammam.mapPage virt phys flags) s).2 ∧ BootPaths (exec (Hammam.mapPage virt phys flags) s).2 := by
  refine Spec.last (P := fun s' => TableInv s' ∧ BootPaths s') ((mapPage_spec h virt phys flags).mono ?_ ?_)
  · intro _ s' hpost
    obtain ⟨h', g, hmap, -⟩ := hpost
    refine ⟨h', b.keep g.cr3 g.kept fun v hv => ?_⟩
    by_cases hpath : path v = path virt
    · obtain ⟨e, j, hm⟩ := hv
      have hl : s'.leaf v = s'.leaf virt := by rw [Machine.leaf, hpath, Machine.leaf]
      rw [Machine.mapping, hl, hmap.at_virt, Option.filter_eq_some_iff] at hm
      simp at hm
    · by_cases hs : (path v).take 3 = (path virt).take 3 ∧ s.InHuge v
      · exact hs.2
      · rwa [Machine.InHuge, hmap.other hpath hs] at hv
  · intro _ s' hpost
    obtain ⟨h', g, hprep, -⟩ := hpost
    refine ⟨h', b.keep g.cr3 g.kept fun v hv => ?_⟩
    rwa [Machine.InHuge, hprep.mapping] at hv

theorem inv (ha : a.Sound) (hfree : ∀ x, FreeAt a x → ¬ (bootPt ≤ x ∧ x < bootPt + 3 * 4096))
    (hr : Machine.Managed m a s) : TableInv s ∧ BootPaths s := by
  induction hr with
  | boot =>
    have h := tableInv_boot m ha hfree
    exact ⟨h, BootPaths.boot h⟩
  | mapPage virt phys flags _ ih => exact mapPage_inv ih.1 ih.2 virt phys flags
  | unmapPage virt _ ih => exact unmapPage_inv ih.1 ih.2 virt
  | @allocate s _ ih =>
    obtain ⟨h, b⟩ := ih
    refine Spec.last (P := fun s' => TableInv s' ∧ BootPaths s') ((allocateFrame_spec h.sound).mono ?_ ?_)
    · intro _ _ hpost
      obtain ⟨n, a, -, rfl, ht⟩ := hpost
      exact ⟨TableInv.outside (s := s) (fun _ _ => rfl) rfl h ht.sound fun x hx => ((ht.free x).1 hx).1,
        b.keep rfl (fun _ ht => ht) fun _ hv => hv⟩
    · intro _ _ hpost
      obtain ⟨rfl, -⟩ := hpost
      exact ⟨h, b⟩
  | @write s mem hmem _ ih =>
    obtain ⟨h, b⟩ := ih
    refine ⟨TableInv.outside (s := s) hmem rfl h h.sound fun _ h => h, b.keep rfl (fun hp ht => ?_) fun v hv => ?_⟩
    · rw [@tableAt_outside s { s with mem := mem } hmem rfl _ hp]
      exact ht
    · rwa [Machine.InHuge, Machine.mapping, @leaf_outside s { s with mem := mem } hmem rfl] at hv

end Machine.Managed

/-! ### Exactness -/

/-- `unmap_page(virt)` takes the page of `virt`, and nothing else, out of the address space, or reports that it is not
in it; no memory outside the tables changes. -/
def UnmapExact (s : Machine) (virt : Nat) : Prop :=
  match exec (unmapPage virt) s with
  | (.ok page, s') =>
    s.translate virt = some (page.startAddress + virt % 4096) ∧ s'.translate virt = none ∧
      (∀ v, v / 4096 % 2 ^ 36 ≠ virt / 4096 % 2 ^ 36 → s'.translate v = s.translate v) ∧
      ∀ x, ¬ s.IsTable (x / 4096) → s'.mem x = s.mem x
  | (.error .notMapped, s') => s.translate virt = none ∧ ∀ x, ¬ s.IsTable (x / 4096) → s'.mem x = s.mem x

/-- Inside a huge page the call goes wrong: what it reports as not mapped is mapped, and what it unmaps still is. -/
theorem not_unmapExact {s : Machine} (h : TableInv s) (b : BootPaths s) {virt : Nat} (hv : s.InHuge virt) :
    ¬ UnmapExact s virt := by
  have hmapped : ∀ {s' : Machine}, TableInv s' → s'.InHuge virt → s'.translate virt ≠ none := by
    intro s' h' hv'
    obtain ⟨e, j, hm⟩ := hv'
    rw [Machine.translate_eq h'.upper, hm]
    exact Option.some_ne_none _
  unfold UnmapExact
  rw [exec_unmapPage]
  cases hn : s.unmapFrame virt with
  | none =>
    intro hx
    exact hmapped h hv hx.1
  | some n =>
    by_cases hp : has (view s.mem n (idx virt 12)) .present
    · simp only [if_pos hp]
      have c := cleared_setEntry s n (idx virt 12)
      have hne := b.unmapFrame_ne h hn
      have b' := b.cleared h c hne
      obtain ⟨h39, h30⟩ := b.huge virt hv
      -- the page directory of the boot code is not the frame that was written to
      obtain ⟨t, ht, hpre, hh⟩ := (inHuge_iff h.upper virt).1 hv
      rw [h39, h30, b.pd, Option.some.injEq] at ht
      subst ht
      intro hx
      refine hmapped (c.inv h) ((inHuge_iff (c.inv h).upper virt).2 ⟨0x21d, ?_, ?_⟩) hx.2.1
      · rw [h39, h30]
        exact b'.pd
      · rw [c.view_eq, if_neg fun h => hne.2.2 h.1.symm]
        exact ⟨hpre, hh⟩
    · simp only [if_neg hp]
      intro hx
      exact hmapped h hv hx.1

/-- In every state of every run `unmap_page` is exact for the addresses that do not lie in a 2 MiB page, and for no
others. -/
theorem unmap_exact_iff {m : Memory} {a : BuddyAllocator} {s : Machine} (ha : a.Sound)
    (hfree : ∀ x, FreeAt a x → ¬ (bootPt ≤ x ∧ x < bootPt + 3 * 4096)) (hr : Machine.Managed m a s) (virt : Nat) :
    UnmapExact s virt ↔ ¬ s.InHuge virt := by
  obtain ⟨h, b⟩ := hr.inv ha hfree
  refine ⟨fun hx hv => not_unmapExact h b hv hx, fun hv => ?_⟩
  unfold UnmapExact
  rw [exec_unmapPage]
  obtain ⟨hnone, hm⟩ | ⟨t, ht, hpath⟩ | ⟨t, ht, hp, hh, -⟩ := unmapFrame_cases h.upper virt
  · rw [hnone]
    refine ⟨?_, fun _ _ => rfl⟩
    rw [Machine.translate_eq h.upper, hm, Option.map_none]
  · rw [ht]
    have hsplit : path virt = (path virt).take 3 ++ [idx virt 12] := rfl
    have hleaf : s.leaf virt = some (view s.mem t (idx virt 12), []) := by
      rw [Machine.leaf, hsplit, resolve_append hpath (List.cons_ne_nil _ _), resolve]
    by_cases hp : has (view s.mem t (idx virt 12)) .present
    · simp only [if_pos hp]
      have c := cleared_setEntry s t (idx virt 12)
      have w : Wrote s { s with mem := setEntry s.mem ⟨4096 * t⟩ (idx virt 12) 0 } ((path virt).take 3) t
          (idx virt 12) 0 := ⟨h, rfl, hpath, rfl, rfl, c.view_eq, c.mem_eq⟩
      refine ⟨?_, ?_, fun v hv => ?_, fun x hx => c.mem_eq x fun he => ?_⟩
      · rw [Machine.translate_eq h.upper, Machine.mapping_of_leaf hleaf hp, Option.map_some, leafAddr, if_pos rfl]
      · rw [Machine.translate_eq (c.inv h).upper, Machine.mapping_of_not_present (w.leaf_at rfl) not_has_zero,
          Option.map_none]
      · rw [Machine.translate_eq (c.inv h).upper, Machine.translate_eq h.upper, w.mapping_eq]
        exact fun he => hv (path_eq_iff.1 (he.trans hsplit.symm))
      · exact hx ⟨(path virt).take 3, Nat.le_refl 3, he ▸ hpath⟩
    · simp only [if_neg hp]
      refine ⟨?_, fun _ _ => trivial⟩
      rw [Machine.translate_eq h.upper, Machine.mapping_of_not_present hleaf hp, Option.map_none]
  · exact absurd ((inHuge_iff h.upper virt).2 ⟨t, ht, hp, hh⟩) hv

/-- The theorem at a page that `map_page` has split off its 2 MiB page. -/
theorem unmap_exact_small : ∃ s', exec (mapPage 0x8000000 ⟨0x900000⟩ .writable) smallMachine = (.ok ⟨⟩, s') ∧
    UnmapExact s' 0x8000000 := by
  obtain ⟨s', hs⟩ := mapPage_ok small_inv (by rw [small_frames]; decide) 0x8000000 ⟨0x900000⟩ .writable
  refine ⟨s', hs, ?_⟩
  obtain ⟨h', -, hmap, -⟩ := (mapPage_spec small_inv _ _ _).of_ok hs
  have hr : Machine.Managed (fun _ => 0) smallMachine.alloc s' := by
    have hboot : Machine.Managed (fun _ => 0) smallMachine.alloc smallMachine := .boot
    have := hboot.mapPage 0x8000000 ⟨0x900000⟩ .writable
    rwa [hs] at this
  refine (unmap_exact_iff (FrameState.Reachable.sound smallMap_valid .refl) (fun _ => small_outside) hr _).2 ?_
  intro hv
  obtain ⟨e, j, hm⟩ := hv
  rw [Machine.mapping, hmap.at_virt, Option.filter_eq_some_iff] at hm
  simp at hm

/-- The page at 128 MiB lies in a 2 MiB page of the boot code, with zeros in memory: it is translated, but
`unmap_page` reports that it is not mapped. -/
theorem huge_page_not_unmapped :
    smallMachine.translate 0x8000000 = some 0x8000000 ∧
      exec (unmapPage 0x8000000) smallMachine = (.error .notMapped, smallMachine) ∧
      ¬ UnmapExact smallMachine 0x8000000 := by
  have hleaf := leaf_boot (fun _ => 0) smallMachine.alloc (show 0x8000000 < 2 ^ 30 by decide)
  have hv : smallMachine.InHuge 0x8000000 := ⟨_, _, Machine.mapping_of_leaf hleaf (has_pd _).1⟩
  have hframe : smallMachine.unmapFrame 0x8000000 = some 0x8000 := by
    obtain ⟨-, hm⟩ | ⟨t, -, ht⟩ | ⟨t, ht, -, -, he⟩ := unmapFrame_cases small_inv.upper 0x8000000
    · obtain ⟨e, j, hm'⟩ := hv
      rw [hm] at hm'
      cases hm'
    · obtain ⟨h, -⟩ | ⟨h, -⟩ | ⟨h, -⟩ := tableAt_boot ht <;> simp [path] at h
    · obtain ⟨h, -⟩ | ⟨h, -⟩ | ⟨-, rfl⟩ := tableAt_boot ht
      · cases h
      · simp at h
      · have hview : view smallMachine.mem 0x21d (idx 0x8000000 21) = 0x8000087 :=
          (view_bootTables _ 0x21d _).trans (if_pos rfl)
        rw [he, hview]
        decide
  have hdata : view smallMachine.mem 0x8000 (idx 0x8000000 12) = 0 := by
    refine (view_bootTables _ 0x8000 _).trans ?_
    rw [if_neg (by decide), if_neg (by decide), if_neg (by decide)]
    rfl
  refine ⟨translate_boot _ small_inv (by decide), ?_, not_unmapExact small_inv (BootPaths.boot small_inv) hv⟩
  rw [exec_unmapPage, hframe]
  simp only [hdata, if_neg not_has_zero]

end Hammam
