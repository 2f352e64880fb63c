import Hammam.Mm.MapPage

/-!
# From the boot tables on

The boot code maps the first GiB to itself with 2 MiB pages.  These three tables satisfy the invariant, so every
sequence of `map_page` calls keeps it, and each call that returns `Ok` does to the address space what it says.
-/

namespace Hammam

open ByteMem RadixTree PageTableEntry Fallible

/-! ### The boot tables -/

theorem view_bootTables (m : Memory) (u : Nat) (j : Fin 512) :
    view (bootTables m) u j =
      if u = 0x21d then 0x87 + j.val * 0x200000
      else if u = 0x21c then (if j = 0 then 0x21d007 else 0)
      else if u = 0x21b then (if j = 0 then 0x21c007 else 0)
      else view m u j := by
  have hz : ∀ (m : Memory) (t : Nat), view (zeroTable m ⟨4096 * t⟩) u j = if u = t then 0 else view m u j :=
    fun m t => view_fillTable m t (fun _ _ => by decide) u j
  have hs : ∀ (m : Memory) (t : Nat) {e : Nat}, e < 2 ^ 64 → view (setEntry m ⟨4096 * t⟩ 0 e) u j =
      if u = t ∧ j = 0 then e else view m u j := fun m t _ he => view_setEntry m t 0 he u j
  have hf : ∀ m : Memory, view (fillTable m ⟨4096 * 0x21d⟩ (fun i => 0x87 + i * 0x200000) 512) u j =
      if u = 0x21d then 0x87 + j.val * 0x200000 else view m u j :=
    fun m => view_fillTable m 0x21d (fun i hi => by omega) u j
  show view (fillTable (setEntry (setEntry (zeroTable (zeroTable (zeroTable m ⟨4096 * 0x21b⟩) ⟨4096 * 0x21c⟩)
    ⟨4096 * 0x21d⟩) ⟨4096 * 0x21b⟩ 0 0x21c007) ⟨4096 * 0x21c⟩ 0 0x21d007) ⟨4096 * 0x21d⟩ _ 512) u j = _
  rw [hf, hs _ _ (by decide), hs _ _ (by decide), hz, hz, hz]
  by_cases h1 : u = 0x21d
  · rw [if_pos h1, if_pos h1]
  rw [if_neg h1, if_neg h1]
  by_cases h2 : u = 0x21c
  · by_cases hj : j = 0 <;> simp [h2, hj]
  · by_cases h3 : u = 0x21b
    · by_cases hj : j = 0 <;> simp [h3, hj]
    · simp [h1, h2, h3]

/-- The boot code writes to the three tables only. -/
theorem bootTables_of_outside (m : Memory) {x : Nat} (h1 : x / 4096 ≠ 0x21b) (h2 : x / 4096 ≠ 0x21c)
    (h3 : x / 4096 ≠ 0x21d) : bootTables m x = m x := by
  have hz : ∀ (m : Memory) (t : Nat), x / 4096 ≠ t → zeroTable m ⟨4096 * t⟩ x = m x :=
    fun m t h => fillTable_of_outside m t _ h 512 (Nat.le_refl _)
  have hs : ∀ (m : Memory) (t e : Nat), x / 4096 ≠ t → setEntry m ⟨4096 * t⟩ 0 e x = m x :=
    fun m t e h => setEntry_of_outside m t 0 e h
  show fillTable (setEntry (setEntry (zeroTable (zeroTable (zeroTable m ⟨4096 * 0x21b⟩) ⟨4096 * 0x21c⟩)
    ⟨4096 * 0x21d⟩) ⟨4096 * 0x21b⟩ 0 0x21c007) ⟨4096 * 0x21c⟩ 0 0x21d007) ⟨4096 * 0x21d⟩ _ 512 x = _
  rw [fillTable_of_outside _ _ _ h3 512 (Nat.le_refl _), hs _ _ _ h2, hs _ _ _ h1, hz _ _ h3, hz _ _ h2, hz _ _ h1]

private theorem view_pml4 (m : Memory) (j : Fin 512) :
    view (bootTables m) 0x21b j = if j = 0 then 0x21c007 else 0 := by
  rw [view_bootTables, if_neg (by decide), if_neg (by decide), if_pos rfl]

private theorem view_pdpt (m : Memory) (j : Fin 512) :
    view (bootTables m) 0x21c j = if j = 0 then 0x21d007 else 0 := by
  rw [view_bootTables, if_neg (by decide), if_pos rfl]

private theorem view_pd (m : Memory) (j : Fin 512) : view (bootTables m) 0x21d j = 0x87 + j.val * 0x200000 := by
  rw [view_bootTables, if_pos rfl]

/-- The state in which the boot code leaves the machine, with an allocator. -/
def Machine.boot (m : Memory) (a : BuddyAllocator) : Machine := ⟨bootTables m, bootPt, a⟩

theorem boot_root (m : Memory) (a : BuddyAllocator) : (Machine.boot m a).root = 0x21b := by
  show frameNo bootPt = 0x21b
  decide

/-- The entries of the boot page directory are present huge pages. -/
theorem has_pd (k : Nat) : has (0x87 + k * 0x200000) .present ∧ has (0x87 + k * 0x200000) .hugePage := by
  rw [has_present_iff, has_hugePage_iff]
  omega

/-- The boot tables are the PML4, one PDPT and one page directory. -/
theorem tableAt_boot {m : Memory} {a : BuddyAllocator} {p : List (Fin 512)} {t : Nat}
    (h : (Machine.boot m a).tableAt p = some t) :
    (p = [] ∧ t = 0x21b) ∨ (p = [0] ∧ t = 0x21c) ∨ (p = [0, 0] ∧ t = 0x21d) := by
  have h4 : ∀ i, child (view (bootTables m) 0x21b i) = if i = 0 then some 0x21c else none := by
    intro i
    rw [view_pml4]
    split <;> decide
  have h3 : ∀ i, child (view (bootTables m) 0x21c i) = if i = 0 then some 0x21d else none := by
    intro i
    rw [view_pdpt]
    split <;> decide
  have h2 : ∀ i, child (view (bootTables m) 0x21d i) = none := by
    intro i
    rw [view_pd]
    exact child_of_huge (has_pd _).2
  have h : follow child (view (bootTables m)) 0x21b p = some t := by
    rw [← boot_root m a]
    exact h
  -- each table has one child, under the index 0, and the last one only huge pages
  cases p with
  | nil =>
    rw [follow, Option.some.injEq] at h
    exact Or.inl ⟨rfl, h.symm⟩
  | cons i p =>
    rw [follow, h4] at h
    by_cases hi : i = 0
    case neg => simp [hi] at h
    rw [if_pos hi, Option.bind_some] at h
    cases p with
    | nil =>
      rw [follow, Option.some.injEq] at h
      exact Or.inr (Or.inl ⟨by rw [hi], h.symm⟩)
    | cons j p =>
      rw [follow, h3] at h
      by_cases hj : j = 0
      case neg => simp [hj] at h
      rw [if_pos hj, Option.bind_some] at h
      cases p with
      | nil =>
        rw [follow, Option.some.injEq] at h
        exact Or.inr (Or.inr ⟨by rw [hi, hj], h.symm⟩)
      | cons k p =>
        rw [follow, h2] at h
        cases h

theorem tableAt_boot_pd (m : Memory) (a : BuddyAllocator) :
    (Machine.boot m a).tableAt [0] = some 0x21c ∧ (Machine.boot m a).tableAt [0, 0] = some 0x21d := by
  have h₄ : (Machine.boot m a).tableAt [] = some 0x21b := congrArg some (boot_root m a)
  have h₃ : (Machine.boot m a).tableAt ([] ++ [0]) = some 0x21c := by
    refine (follow_snoc h₄).trans ?_
    show child (view (bootTables m) 0x21b 0) = some 0x21c
    rw [view_pml4]
    decide
  refine ⟨h₃, (follow_snoc h₃).trans ?_⟩
  show child (view (bootTables m) 0x21c 0) = some 0x21d
  rw [view_pdpt]
  decide

/-- The tables of the boot code lie behind each other. -/
theorem isTable_boot {m : Memory} {a : BuddyAllocator} {x : Nat} (h : (Machine.boot m a).IsTable (x / 4096)) :
    bootPt ≤ x ∧ x < bootPt + 3 * 4096 := by
  obtain ⟨p, -, ht⟩ := h
  rw [bootPt]
  obtain ⟨-, h⟩ | ⟨-, h⟩ | ⟨-, h⟩ := tableAt_boot ht <;> omega

theorem tableInv_boot (m : Memory) {a : BuddyAllocator} (ha : a.Sound)
    (hfree : ∀ x, FreeAt a x → ¬ (bootPt ≤ x ∧ x < bootPt + 3 * 4096)) : TableInv (Machine.boot m a) := by
  constructor
  · intro p q t _ _ hp hq
    obtain ⟨rfl, e⟩ | ⟨rfl, e⟩ | ⟨rfl, e⟩ := tableAt_boot hp <;>
      obtain ⟨rfl, e'⟩ | ⟨rfl, e'⟩ | ⟨rfl, e'⟩ := tableAt_boot hq <;> first | rfl | omega
  · intro p t i hp ht hpre
    show ¬ has (view (bootTables m) t i) .hugePage
    obtain ⟨rfl, rfl⟩ | ⟨rfl, rfl⟩ | ⟨rfl, -⟩ := tableAt_boot ht
    · rw [view_pml4]
      split <;> decide
    · rw [view_pdpt]
      split <;> decide
    · simp at hp
  · intro p t i hp ht _ _
    show 512 ∣ frameNo (view (bootTables m) t i)
    obtain ⟨rfl, -⟩ | ⟨rfl, -⟩ | ⟨-, rfl⟩ := tableAt_boot ht
    · simp at hp
    · simp at hp
    · have hi := i.isLt
      rw [view_pd, frameNo]
      omega
  · intro p t _ ht hf
    have := hfree _ hf
    rw [bootPt] at this
    obtain ⟨-, rfl⟩ | ⟨-, rfl⟩ | ⟨-, rfl⟩ := tableAt_boot ht <;> omega
  · exact ha

/-- The boot tables map the first GiB to itself. -/
theorem leaf_boot (m : Memory) (a : BuddyAllocator) {v : Nat} (hv : v < 2 ^ 30) :
    (Machine.boot m a).leaf v = some (0x87 + (idx v 21).val * 0x200000, [idx v 12]) := by
  have h39 : idx v 39 = 0 := Fin.ext (show v / 2 ^ 39 % 512 = 0 by omega)
  have h30 : idx v 30 = 0 := Fin.ext (show v / 2 ^ 30 % 512 = 0 by omega)
  rw [Machine.leaf, boot_root, path, h39, h30]
  show resolve child (view (bootTables m)) 0x21b [0, 0, idx v 21, idx v 12] = _
  rw [resolve_next (f := 0x21c) (by rw [view_pml4]; decide), resolve_next (f := 0x21d) (by rw [view_pdpt]; decide),
    resolve_stop (by rw [view_pd]; exact child_of_huge (has_pd _).2), view_pd]

theorem translate_boot (m : Memory) {a : BuddyAllocator} (h : TableInv (Machine.boot m a)) {v : Nat}
    (hv : v < 2 ^ 30) :
    (Machine.boot m a).translate v = some v := by
  rw [Machine.translate_eq h.upper, Machine.mapping_of_leaf (leaf_boot m a hv) (has_pd _).1, Option.map_some,
    leafAddr, if_neg (List.cons_ne_nil _ _), frameNo]
  show some (4096 * ((0x87 + v / 2 ^ 21 % 512 * 0x200000) / 4096 % 2 ^ 40) + v % 2 ^ 21) = some v
  rw [Option.some.injEq]
  omega

/-! ### Runs -/

/-- The states of the runs from the boot tables: `map_page`, successful or not, and what its callers do in between,
`allocate(0)` and writes outside the tables. -/
inductive Machine.Reachable (m : Memory) (a : BuddyAllocator) : Machine → Prop
  | boot : Reachable m a (Machine.boot m a)
  | mapPage {s : Machine} (virt : Nat) (phys : PhysFrame) (flags : PageFlags) :
    Reachable m a s → Reachable m a (exec (Hammam.mapPage virt phys flags) s).2
  | allocate {s : Machine} : Reachable m a s → Reachable m a (exec (allocateFrame 0) s).2
  | write {s : Machine} (mem : Memory) : (∀ x, s.IsTable (x / 4096) → mem x = s.mem x) → Reachable m a s →
    Reachable m a { s with mem := mem }

theorem Machine.Reachable.inv {m : Memory} {a : BuddyAllocator} {s : Machine} (ha : a.Sound)
    (hfree : ∀ x, FreeAt a x → ¬ (bootPt ≤ x ∧ x < bootPt + 3 * 4096)) (hr : Machine.Reachable m a s) :
    TableInv s := by
  induction hr with
  | boot => exact tableInv_boot m ha hfree
  | @mapPage s virt phys flags _ ih =>
    exact Spec.last ((mapPage_spec ih virt phys flags).mono (fun _ _ h => h.1) fun _ _ h => h.1)
  | @allocate s _ ih =>
    refine Spec.last ((allocateFrame_spec ih.sound).mono ?_ ?_)
    · intro _ _ hpost
      obtain ⟨n, a, -, rfl, ht⟩ := hpost
      exact TableInv.outside (s := s) (fun _ _ => rfl) rfl ih ht.sound fun x hx => ((ht.free x).1 hx).1
    · intro _ _ hpost
      obtain ⟨rfl, -⟩ := hpost
      exact ih
  | @write s mem hmem _ ih => exact TableInv.outside (s := s) hmem rfl ih ih.sound fun _ h => h

/-- The entry `i` of the table `t` refers to the table `u`. -/
def Machine.Refers (s : Machine) (t : Nat) (i : Fin 512) (u : Nat) : Prop :=
  (∃ p, p.length ≤ 2 ∧ s.tableAt p = some t) ∧ child (view s.mem t i) = some u

/-- Every table but the PML4 is referred to by one entry, and the PML4 by none. -/
structure Machine.Hierarchy (s : Machine) : Prop where
  parent : ∀ {u}, s.IsTable u → u ≠ s.root → ∃! r : Nat × Fin 512, s.Refers r.1 r.2 u
  root : ∀ t i, ¬ s.Refers t i s.root

private theorem Machine.Refers.path {s : Machine} {t u : Nat} {i : Fin 512} (h : s.Refers t i u) :
    ∃ p, p.length ≤ 2 ∧ s.tableAt p = some t ∧ s.tableAt (p ++ [i]) = some u := by
  obtain ⟨⟨p, hp, ht⟩, hc⟩ := h
  exact ⟨p, hp, ht, (follow_snoc ht).trans hc⟩

theorem TableInv.hierarchy {s : Machine} (h : TableInv s) : s.Hierarchy := by
  have hlen : ∀ {p : List (Fin 512)} {i}, p.length ≤ 2 → (p ++ [i]).length ≤ 3 := by
    intro p i hp
    rw [List.length_append, List.length_singleton]
    omega
  constructor
  · rintro u ⟨q, hq, hu⟩ hne
    cases q using List.reverseRecOn with
    | nil => exact absurd (Option.some.inj hu).symm hne
    | append_singleton p i =>
      rw [List.length_append, List.length_singleton] at hq
      have hlast := hu
      rw [Machine.tableAt, follow_append, Option.bind_eq_some_iff] at hu
      obtain ⟨t, ht, hc⟩ := hu
      rw [follow, Option.bind_eq_some_iff] at hc
      obtain ⟨u', hc, e⟩ := hc
      rw [follow, Option.some.injEq] at e
      refine ⟨(t, i), ⟨⟨p, by omega, ht⟩, e ▸ hc⟩, ?_⟩
      rintro ⟨t', i'⟩ hr
      obtain ⟨p', hp', ht', hu'⟩ := Machine.Refers.path hr
      -- both entries are the last step of the one path to `u`
      have hpath := h.tree (hlen hp') (hlen (by omega)) hu' hlast
      obtain ⟨hpp, hii⟩ := List.append_inj' hpath rfl
      rw [hpp] at ht'
      rw [Prod.mk.injEq]
      exact ⟨Option.some.inj (ht'.symm.trans ht), List.head_eq_of_cons_eq hii⟩
  · intro t i hr
    obtain ⟨p, hp, -, hu⟩ := hr.path
    have := h.tree (q := []) (hlen hp) (Nat.zero_le _) hu rfl
    exact absurd this (by simp)

/-- After `map_page` has returned `Ok` the page of `virt` is mapped to `phys` with the given flags.  All other pages
are translated as before, and only a 2 MiB page around `virt` loses `HUGE_PAGE`.  The tables are a tree outside the
free frames. -/
theorem map_page_meaning {k : KernelImage} {memoryMap : List MemoryRegion} {fs : FrameState} {m : Memory}
    {s s' : Machine} {virt : Nat} {phys : PhysFrame} {flags : PageFlags} (hm : ValidMap memoryMap)
    (ha : FrameState.Reachable k memoryMap fs)
    (hfree : ∀ x, FreeAt fs.alloc x → ¬ (bootPt ≤ x ∧ x < bootPt + 3 * 4096))
    (hr : Machine.Reachable m fs.alloc s) (hok : exec (mapPage virt phys flags) s = (.ok ⟨⟩, s'))
    (hphys : 4096 ∣ phys.startAddress) (hlt : phys.startAddress < 2 ^ 52) :
    s'.translate virt = some (phys.startAddress + virt % 4096) ∧
      s'.translateFlags virt = some (flags ||| .present) ∧
      (∀ v, v / 4096 % 2 ^ 36 ≠ virt / 4096 % 2 ^ 36 →
        s'.translate v = s.translate v ∧
        (v / 2 ^ 21 % 2 ^ 27 = virt / 2 ^ 21 % 2 ^ 27 ∧ s.InHuge v →
          s'.translateFlags v = (s.translateFlags v).map (·.without .hugePage)) ∧
        (¬ (v / 2 ^ 21 % 2 ^ 27 = virt / 2 ^ 21 % 2 ^ 27 ∧ s.InHuge v) →
          s'.translateFlags v = s.translateFlags v)) ∧
      s'.Hierarchy ∧ ∀ x, FreeAt s'.alloc x → ¬ s'.IsTable (x / 4096) := by
  have h : TableInv s := hr.inv (ha.sound hm) hfree
  obtain ⟨h', -, hmap, -⟩ := (mapPage_spec h virt phys flags).of_ok hok
  obtain ⟨n, hn⟩ := hphys
  obtain rfl : phys = ⟨4096 * n⟩ := by rw [← hn]
  have hn' : 4096 * n < 2 ^ 52 := hlt
  obtain ⟨htr, hfl⟩ := hmap.translate h' (by omega)
  refine ⟨htr, hfl, fun v hv => ?_, h'.hierarchy, ?_⟩
  · have hother := hmap.translate_other h h' hv
    rw [← path_take_eq_iff]
    rw [ne_eq, ← path_eq_iff] at hv
    rw [Machine.translateFlags_eq h'.upper, Machine.translateFlags_eq h.upper]
    -- a page in the same huge page keeps its address and loses the huge bit
    by_cases hs : (path v).take 3 = (path virt).take 3 ∧ s.InHuge v
    · obtain ⟨hpre, e₀, j, hv₀⟩ := hs
      obtain ⟨e', hv', hfl, -⟩ := hmap.split hv hpre hv₀
      rw [hv', hv₀, Option.map_some, Option.map_some, Option.map_some]
      exact ⟨hother, fun _ => congrArg some hfl, fun hno => absurd ⟨hpre, e₀, j, hv₀⟩ hno⟩
    · rw [hmap.other hv hs]
      exact ⟨hother, fun hyes => absurd hyes hs, fun _ => rfl⟩
  · exact fun x hx => h'.not_table_of_free hx

/-- A kernel from 1 MiB to 8 MiB, with the boot tables and the heap in it, and 4 MiB of usable memory behind it. -/
def smallKernel : KernelImage := ⟨0x100000, 0x800000, by decide, Dvd.intro 0x100 rfl, Dvd.intro 0x800 rfl⟩

def smallMap : List MemoryRegion := [⟨0x800000, 0xC00000, .usable⟩]

theorem smallMap_valid : ValidMap smallMap := ⟨by simp [smallMap], by simp [smallMap]⟩

/-- The allocator of the small machine: one block of order 10. -/
def smallAlloc : BuddyAllocator := ⟨Function.update (fun _ => []) 10 [0x800000], 1024, 1024⟩

theorem small_init : (FrameState.boot smallKernel smallMap).alloc = smallAlloc := by
  have h1 : BuddyAllocator.new.init smallKernel smallMap = BuddyAllocator.new.addRange 0x800000 0xC00000 := rfl
  have h2 : BuddyAllocator.new.addRange 0x800000 0xC00000 = smallAlloc.addRange 0xC00000 0xC00000 := by
    rw [BuddyAllocator.addRange]
    simp [pageSize, BuddyAllocator.chooseOrder, maxOrder, BuddyAllocator.deallocateInternal,
      BuddyAllocator.mergeBuddies, BuddyAllocator.new, BuddyAllocator.push, BuddyAllocator.setList, blockSize,
      smallAlloc]
  rw [FrameState.boot, h1, h2, BuddyAllocator.addRange, if_neg (by decide)]

theorem small_free {x : Nat} (hx : FreeAt (FrameState.boot smallKernel smallMap).alloc x) :
    0x800000 ≤ x ∧ x < 0xC00000 := by
  obtain ⟨⟨b, o⟩, hb, hin⟩ := hx
  rw [small_init] at hb
  obtain ⟨-, hb⟩ := BuddyAllocator.mem_blocks.1 hb
  simp only [smallAlloc, Function.update_apply] at hb
  split at hb
  · rename_i ho
    rw [List.mem_singleton] at hb
    rw [InBlock, hb, ho, blockSize, pageSize] at hin
    omega
  · cases hb

theorem small_outside {x : Nat} (hx : FreeAt (FrameState.boot smallKernel smallMap).alloc x) :
    ¬ (bootPt ≤ x ∧ x < bootPt + 3 * 4096) := by
  have := small_free hx
  rw [bootPt]
  omega

/-- The small machine after the boot code. -/
def smallMachine : Machine := Machine.boot (fun _ => 0) (FrameState.boot smallKernel smallMap).alloc

theorem small_inv : TableInv smallMachine :=
  tableInv_boot _ (FrameState.Reachable.sound smallMap_valid .refl) fun _ => small_outside

/-- The free frames of the small machine hold zeros. -/
theorem small_zero {x : Nat} (hx : FreeAt smallMachine.alloc x) : smallMachine.mem x = 0 := by
  have := small_free hx
  exact bootTables_of_outside _ (by omega) (by omega) (by omega)

theorem small_frames : smallMachine.alloc.freeFrames = 1024 := by
  rw [smallMachine, Machine.boot, small_init]
  rfl

/-- The page at 128 MiB is moved to the frame at 9 MiB. -/
theorem map_page_meaning_small : ∃ s',
    exec (mapPage 0x8000123 ⟨0x900000⟩ .writable) smallMachine = (.ok ⟨⟩, s') ∧
      s'.translate 0x8000123 = some 0x900123 := by
  obtain ⟨s', hs⟩ := mapPage_ok small_inv (by rw [small_frames]; decide) 0x8000123 ⟨0x900000⟩ .writable
  refine ⟨s', hs, ?_⟩
  exact (map_page_meaning smallMap_valid .refl (fun _ => small_outside) .boot hs (by decide) (by decide)).1

end Hammam
