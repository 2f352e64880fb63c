import Hammam.Mm.MapPage

/-!
# Machines that differ outside the tables

Mapping a page reads and writes tables only, and it writes the whole of a frame before it links it as a table.  So on
two machines with the same allocator and the same tables it does the same, whatever the rest of the memory holds.
-/

namespace Hammam

open ByteMem RadixTree PageTableEntry Fallible

/-- `t` is `s` up to the memory outside of the tables. -/
structure Twin (s t : Machine) : Prop where
  cr3 : t.cr3 = s.cr3
  alloc : t.alloc = s.alloc
  mem : ∀ x, s.IsTable (x / 4096) → t.mem x = s.mem x

theorem setEntry_congr {m m' : Memory} {table : PhysFrame} {i x : Nat} {e : PageTableEntry} (h : m x = m' x) :
    setEntry m table i e x = setEntry m' table i e x := by
  unfold setEntry write64 store
  rw [h]

/-- A table that has been filled does not depend on what was there. -/
theorem fillTable_congr {m m' : Memory} {n x : Nat} {e : Nat → PageTableEntry} (h : x / 4096 = n ∨ m x = m' x) :
    fillTable m ⟨4096 * n⟩ e 512 x = fillTable m' ⟨4096 * n⟩ e 512 x := by
  have main : ∀ k, (4096 * n ≤ x ∧ x < 4096 * n + 8 * k) ∨ m x = m' x →
      fillTable m ⟨4096 * n⟩ e k x = fillTable m' ⟨4096 * n⟩ e k x := by
    intro k
    induction k with
    | zero =>
      intro h
      obtain h | h := h
      · omega
      · exact h
    | succ k ih =>
      intro h
      by_cases hx : 4096 * n + 8 * k ≤ x ∧ x < 4096 * n + 8 * k + 8
      · -- the byte belongs to the entry that is written last
        exact (store_of_mem _ hx).trans (store_of_mem _ hx).symm
      · exact setEntry_congr (ih (h.imp_left fun h => by omega))
  refine main 512 (h.imp_left fun h => ?_)
  omega

namespace Twin

variable {s t u : Machine}

theorem refl (s : Machine) : Twin s s := ⟨rfl, rfl, fun _ _ => rfl⟩

/-- Both have the same tables. -/
theorem isTable_iff (w : Twin s t) (n : Nat) : t.IsTable n ↔ s.IsTable n := by
  constructor
  · intro h
    obtain ⟨p, hp, he⟩ := h
    exact ⟨p, hp, (tableAt_outside w.mem w.cr3 hp).symm.trans he⟩
  · intro h
    obtain ⟨p, hp, he⟩ := h
    exact ⟨p, hp, (tableAt_outside w.mem w.cr3 hp).trans he⟩

theorem symm (w : Twin s t) : Twin t s :=
  ⟨w.cr3.symm, w.alloc.symm, fun x hx => (w.mem x ((w.isTable_iff _).1 hx)).symm⟩

theorem trans (w : Twin s t) (w' : Twin t u) : Twin s u :=
  ⟨w'.cr3.trans w.cr3, w'.alloc.trans w.alloc, fun x hx => (w'.mem x ((w.isTable_iff _).2 hx)).trans (w.mem x hx)⟩

theorem inv (w : Twin s t) (h : TableInv s) : TableInv t :=
  h.outside w.mem w.cr3 (w.alloc ▸ h.sound) fun x hx => by rwa [w.alloc] at hx

theorem view_eq (w : Twin s t) {u : Nat} (hu : s.IsTable u) (i : Fin 512) : view t.mem u i = view s.mem u i :=
  view_outside w.mem hu i

theorem translate (w : Twin s t) (h : TableInv s) (v : Nat) : t.translate v = s.translate v := by
  rw [Machine.translate_eq (w.inv h).upper, Machine.translate_eq h.upper, Machine.mapping, Machine.mapping,
    leaf_outside w.mem w.cr3]

/-- A new table is filled and linked on both machines. -/
theorem link (w : Twin s t) {p : List (Fin 512)} {u n : Nat} {i : Fin 512} {e : Nat → Nat} {e' : Fin 512 → Nat}
    {v : Nat} {a : BuddyAllocator}
    (l : Linked s ⟨setEntry (fillTable s.mem ⟨4096 * n⟩ e 512) ⟨4096 * u⟩ i v, s.cr3, a⟩ p u i n e') :
    Twin ⟨setEntry (fillTable s.mem ⟨4096 * n⟩ e 512) ⟨4096 * u⟩ i v, s.cr3, a⟩
      ⟨setEntry (fillTable t.mem ⟨4096 * n⟩ e 512) ⟨4096 * u⟩ i v, t.cr3, a⟩ := by
  refine ⟨w.cr3, rfl, fun x hx => setEntry_congr (fillTable_congr ?_)⟩
  obtain ⟨q, hq, hx⟩ := hx
  obtain hx | ⟨-, hx⟩ := (l.tableAt_iff hq).1 hx
  · exact Or.inr (w.mem x ⟨q, hq, hx⟩)
  · exact Or.inl hx

theorem allocateFrame (w : Twin s t) :
    Follows (allocateFrame 0) (allocateFrame 0) s t fun f s' t' => ∃ a, s.alloc.allocate 0 = (.ok f, a) ∧
      s' = { s with alloc := a } ∧ t' = { t with alloc := a } := by
  have e : ∀ m : Machine, exec (Hammam.allocateFrame 0) m =
      ((m.alloc.allocate 0).1, { m with alloc := (m.alloc.allocate 0).2 }) :=
    fun _ => rfl
  intro f s' hx
  rw [e, Prod.mk.injEq] at hx
  obtain ⟨hf, rfl⟩ := hx
  refine ⟨{ t with alloc := (s.alloc.allocate 0).2 }, ?_, _, Prod.ext hf rfl, rfl, rfl⟩
  rw [e, w.alloc, hf]

section Parts

variable {p : List (Fin 512)} {u : Nat} {i : Fin 512}

theorem nextTable (w : Twin s t) (h : TableInv s) (hp : p.length ≤ 2) (hu : s.tableAt p = some u) :
    Follows (nextTable ⟨4096 * u⟩ i) (nextTable ⟨4096 * u⟩ i) s t fun _ => Twin := by
  have hview : entry t.mem ⟨4096 * u⟩ i = entry s.mem ⟨4096 * u⟩ i := w.view_eq ⟨p, by omega, hu⟩ i
  unfold Hammam.nextTable
  refine Follows.get_bind ?_
  rw [hview]
  by_cases hpre : has (view s.mem u i) .present
  · have hf : frame (entry s.mem ⟨4096 * u⟩ i) = some _ := frame_of_present hpre
    simp only [hf]
    exact Follows.pure w
  · have hf : frame (entry s.mem ⟨4096 * u⟩ i) = none := frame_of_not_present hpre
    simp only [hf]
    refine Follows.bind (Follows.mapErr ((w.allocateFrame.and_left (allocateFrame_spec h.sound)).mono ?_))
    intro _ _ _ hpost
    obtain ⟨⟨a, -, rfl, rfl⟩, n, _, rfl, he, htk⟩ := hpost
    cases he
    refine Follows.bind (Follows.modify (Follows.pure ?_))
    exact w.link (linked_fill h hp hu (child_of_not_present hpre) htk (e := fun _ => 0) (fun _ => by decide)
      fun _ _ => not_has_zero)

theorem splitHuge (w : Twin s t) (h : TableInv s) (hp : p.length = 2) (hu : s.tableAt p = some u) :
    Follows (splitHuge ⟨4096 * u⟩ i) (splitHuge ⟨4096 * u⟩ i) s t fun _ => Twin := by
  have hview : entry t.mem ⟨4096 * u⟩ i = entry s.mem ⟨4096 * u⟩ i := w.view_eq ⟨p, by omega, hu⟩ i
  unfold Hammam.splitHuge
  refine Follows.get_bind ?_
  simp only [hview]
  split
  · rename_i hc
    rw [Bool.and_eq_true] at hc
    refine Follows.bind (Follows.mapErr ((w.allocateFrame.and_left (allocateFrame_spec h.sound)).mono ?_))
    intro _ _ _ hpost
    obtain ⟨⟨a, -, rfl, rfl⟩, n, _, rfl, he, htk⟩ := hpost
    cases he
    refine Follows.modify ?_
    exact w.link (linked_fill h (by omega) hu (child_of_huge hc.2) htk (fun j => setFrame_lt
      ⟨(view s.mem u i &&& addrMask) + j * 0x1000⟩ ((flags (view s.mem u i)).without .hugePage)) (by omega))
  · exact Follows.pure w

end Parts

/-- A page is mapped on both machines. -/
theorem mapPage (w : Twin s t) (h : TableInv s) (virt : Nat) (phys : PhysFrame) (flags : PageFlags) :
    Follows (mapPage virt phys flags) (mapPage virt phys flags) s t fun _ => Twin := by
  unfold Hammam.mapPage
  refine Follows.get_bind (Follows.bind ?_)
  have hroot : t.activePml4 = s.activePml4 := by rw [Machine.activePml4, w.cr3, Machine.activePml4]
  rw [hroot, Machine.activePml4_eq, pml4Index_eq, pdptIndex_eq, pdIndex_eq, ptIndex_eq]
  have ht₄ : s.tableAt [] = some s.root := rfl
  refine ((w.nextTable h (by simp) ht₄).and_left
    (nextTable_spec h (by simp) ht₄ (h.upper _ (by simp) ht₄) virt rfl)).mono ?_
  intro _ s₁ t₁ hpost
  obtain ⟨w₁, u₃, rfl, ht₃, h₁, -⟩ := hpost
  refine Follows.bind (((w₁.nextTable h₁ (by simp) ht₃).and_left
    (nextTable_spec h₁ (by simp) ht₃ (h₁.upper _ (by simp) ht₃) virt rfl)).mono ?_)
  intro _ s₂ t₂ hpost
  obtain ⟨w₂, u₂, rfl, ht₂, h₂, -⟩ := hpost
  refine Follows.bind (((w₂.splitHuge h₂ (by simp) ht₂).and_left (splitHuge_spec h₂ (by simp) ht₂ virt rfl)).mono ?_)
  intro _ s₃ t₃ hpost
  obtain ⟨w₃, h₃, g₃, -, hnh, -⟩ := hpost
  have ht₂ := g₃.kept (by simp) ht₂
  refine Follows.bind (((w₃.nextTable h₃ (by simp) ht₂).and_left
    (nextTable_spec h₃ (by simp) ht₂ hnh virt rfl)).mono ?_)
  intro _ s₄ t₄ hpost
  obtain ⟨w₄, u₁, rfl, ht₁, h₄, -⟩ := hpost
  refine Follows.modify ⟨w₄.cr3, w₄.alloc, fun x hx => setEntry_congr (w₄.mem x ?_)⟩
  -- the leaf changes no table
  have l : Wrote s₄ { s₄ with mem := setEntry s₄.mem ⟨4096 * u₁⟩ (idx virt 12) (setFrame phys (flags ||| .present)) }
      _ u₁ (idx virt 12) (setFrame phys (flags ||| .present)) :=
    ⟨h₄, rfl, ht₁, rfl, rfl, view_setEntry _ _ _ (setFrame_lt _ _), fun x hx => setEntry_of_outside _ _ _ _ hx⟩
  obtain ⟨q, hq, hx⟩ := hx
  exact ⟨q, hq, (l.tableAt_eq hq).symm.trans hx⟩

end Twin

/-! ### The contents of free frames -/

/-- `t` is `s` up to the contents of the free frames from the offset `k` on. -/
structure FreeDiffers (k : Nat) (s t : Machine) : Prop where
  cr3 : t.cr3 = s.cr3
  alloc : t.alloc = s.alloc
  mem : ∀ x, ¬ FreeAt s.alloc x ∨ x % 4096 < k → t.mem x = s.mem x

theorem FreeDiffers.refl (k : Nat) (s : Machine) : FreeDiffers k s s := ⟨rfl, rfl, fun _ _ => rfl⟩

theorem FreeDiffers.twin {k : Nat} {s t : Machine} (d : FreeDiffers k s t) (h : TableInv s) : Twin s t :=
  ⟨d.cr3, d.alloc, fun x hx => d.mem x (Or.inl fun hf => h.not_table_of_free hf hx)⟩

/-- Every byte of the free frames from the offset `k` on is another. -/
noncomputable def Machine.disturbed (k : Nat) (s : Machine) : Machine :=
  open Classical in
  { s with mem := fun x => if FreeAt s.alloc x ∧ k ≤ x % 4096 then s.mem x + 1 else s.mem x }

theorem Machine.disturbed_differs (k : Nat) (s : Machine) : FreeDiffers k s (s.disturbed k) := by
  refine ⟨rfl, rfl, fun x hx => if_neg ?_⟩
  intro h
  obtain hx | hx := hx
  · exact hx h.1
  · exact absurd h.2 (Nat.not_le.2 hx)

theorem Machine.disturbed_mem {k : Nat} {s : Machine} {x : Nat} (hf : FreeAt s.alloc x) (hx : k ≤ x % 4096) :
    (s.disturbed k).mem x ≠ s.mem x := by
  have e : (s.disturbed k).mem x = s.mem x + 1 := if_pos ⟨hf, hx⟩
  rw [e]
  intro h
  simp at h

end Hammam
