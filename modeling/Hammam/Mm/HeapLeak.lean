import Hammam.Mm.HeapSafety

/-!
# What comes back to the kernel heap

`alloc_raw` takes the rounded size and the padding out of a hole, and all of it when the remainder is too small for a
header; `dealloc_raw` returns the size before rounding.  The two agree exactly when there is nothing to round, nothing
to pad and nothing too small (`gives_back_iff`), and then a second allocation finds the block it has just returned.
-/

namespace Hammam

open Extent Heap

namespace Heap

/-- The holes of a list are determined by the memory. -/
theorem links_unique {m : Memory} {o : Option Nat} {l l' : List (Nat × Nat)} (h : Links m o l none)
    (h' : Links m o l' none) : l = l' := by
  induction l generalizing o l' with
  | nil =>
    cases l' with
    | nil => rfl
    | cons hole' l' => cases h.symm.trans h'.1
  | cons hole l ih =>
    cases l' with
    | nil => cases h'.symm.trans h.1
    | cons hole' l' =>
      obtain ⟨h1, h2, h3⟩ := h
      obtain ⟨h1', h2', h3'⟩ := h'
      have hfst : hole.1 = hole'.1 := Option.some.inj (h1.symm.trans h1')
      rw [← hfst] at h2' h3'
      rw [ih h3 h3', Prod.ext hfst (h2.symm.trans h2')]

/-- The number of bytes in the holes. -/
def FreeBytes (h : Heap) (t : Nat) : Prop := ∃ holes, h.Holds holes ∧ (holes.map Prod.snd).sum = t

theorem Holds.freeBytes_iff {h : Heap} {holes : List (Nat × Nat)} (hh : h.Holds holes) {t : Nat} :
    h.FreeBytes t ↔ (holes.map Prod.snd).sum = t := by
  constructor
  · intro hf
    obtain ⟨holes', hh', ht⟩ := hf
    rwa [links_unique hh hh']
  · intro ht
    exact ⟨holes, hh, ht⟩

/-- `alloc_raw`, and `dealloc_raw` of what it has returned. -/
def cycle (size align fuel : Nat) (h : Heap) : Option Heap :=
  match h.allocRaw size align fuel with
  | some (some p, h₁) => some (h₁.deallocRaw p size align)
  | _ => none

def cycles (size align fuel : Nat) : Nat → Heap → Option Heap
  | 0, h => some h
  | k + 1, h => (h.cycle size align fuel).bind (cycles size align fuel k)

/-- If `alloc_raw` returns a block, giving it back restores the free bytes, `alloc_raw` succeeds again, and so does
any number of cycles. -/
def GivesBack (h : Heap) (size align : Nat) : Prop :=
  ∀ fuel p h₁, h.allocRaw size align fuel = some (some p, h₁) →
    (∀ t, h.FreeBytes t → (h₁.deallocRaw p size align).FreeBytes t) ∧
    (∃ fuel q h₂, (h₁.deallocRaw p size align).allocRaw size align fuel = some (some q, h₂)) ∧
    ∀ k, ∃ fuel h₂, cycles size align fuel k h = some h₂

/-- The hole needs no padding, the size no rounding, and the remainder is empty or has room for a header. -/
def ExactFit (size align : Nat) (hole : Nat × Nat) : Prop :=
  max align holeAlign ∣ hole.1 ∧ max align holeAlign ∣ max size holeBytes ∧
    (hole.2 = max size holeBytes ∨ max size holeBytes + holeBytes ≤ hole.2)

end Heap

section Layout

variable {size align : Nat}

private theorem roundedSize_eq_iff (hl : ValidLayout size align) :
    roundedSize size align = max size holeBytes ↔ max align holeAlign ∣ max size holeBytes := by
  obtain ⟨k, hk, -⟩ := hl.align_pow
  rw [← pad_eq_zero (hk ▸ Nat.two_pow_pos k), roundedSize]
  omega

/-- The cut and the returned bytes make up the hole exactly when the fit is exact. -/
private theorem cut_sum_iff (hl : ValidLayout size align) {hole : Nat × Nat}
    (hf : fits (roundedSize size align) (max align holeAlign) hole = true) :
    ((cut (roundedSize size align) (max align holeAlign) hole).map Prod.snd).sum + max size holeBytes = hole.2 ↔
      ExactFit size align hole := by
  obtain ⟨k, hk, -⟩ := hl.align_pow
  have hf' : roundedSize size align + pad hole.1 (max align holeAlign) ≤ hole.2 := of_decide_eq_true hf
  have hle : max size holeBytes ≤ roundedSize size align := Nat.le_add_right _ _
  rw [ExactFit, ← pad_eq_zero (hk ▸ Nat.two_pow_pos k), ← roundedSize_eq_iff hl, cut]
  split
  · next hr =>
    simp only [List.map_cons, List.map_nil, List.sum_cons, List.sum_nil]
    unfold holeBytes at *
    omega
  · next hr =>
    simp only [List.map_nil, List.sum_nil]
    unfold holeBytes at *
    omega

end Layout

section Cycles

variable {start n : Nat} (hlt : n < 2 ^ 64) (htop : start + n ≤ 2 ^ 64) {h : Heap} {live : List Allocation}
  {holes : List (Nat × Nat)} {size align : Nat} (hl : ValidLayout size align)

include hlt htop hl

/-- Allocating and giving back puts the returned bytes at the front of what is left. -/
theorem HeapInv.giveBack (hi : HeapInv start n ⟨h, live⟩ holes) {fuel p : Nat} {h₁ : Heap} {holes' : List (Nat × Nat)}
    (hr : h.allocRaw size align fuel = some (some p, h₁))
    (hres : allocHoles (roundedSize size align) (max align holeAlign) holes = some (p, holes')) :
    HeapInv start n ⟨h₁.deallocRaw p size align, live⟩ ((p, max size holeBytes) :: holes') := by
  have h1 := hi.alloc hlt htop hl hr
  rw [hres] at h1
  have h2 := h1.dealloc hlt htop (a := ⟨p, size, align⟩) List.mem_cons_self
  simpa [Allocation.extent] using h2

/-- Once a block has come back to the front, `alloc_raw` finds it there. -/
theorem HeapInv.allocRaw_front {p fuel : Nat} (hi : HeapInv start n ⟨h, live⟩ ((p, max size holeBytes) :: holes))
    (hp : max align holeAlign ∣ p) (hs : max align holeAlign ∣ max size holeBytes) (hfuel : holes.length + 1 < fuel) :
    ∃ h₁, h.allocRaw size align fuel = some (some p, h₁) ∧
      HeapInv start n ⟨h₁.deallocRaw p size align, live⟩ ((p, max size holeBytes) :: holes) := by
  obtain ⟨k, hk, -⟩ := hl.align_pow
  have hpad : pad p (max align holeAlign) = 0 := (pad_eq_zero (hk ▸ Nat.two_pow_pos k)).2 hp
  have hround := (roundedSize_eq_iff hl).2 hs
  have hres : allocHoles (roundedSize size align) (max align holeAlign) ((p, max size holeBytes) :: holes) =
      some (p, holes) := by
    simp [allocHoles, fits, cut, hpad, hround, holeBytes]
  obtain ⟨h₁, hrun, -⟩ := hl.allocRaw_refines hi.holds (hi.good hlt htop)
  have hr := hrun fuel hfuel
  rw [hres] at hr
  exact ⟨h₁, hr, hi.giveBack hlt htop hl hr hres⟩

theorem HeapInv.cycles_front {p fuel : Nat} (hi : HeapInv start n ⟨h, live⟩ ((p, max size holeBytes) :: holes))
    (hp : max align holeAlign ∣ p) (hs : max align holeAlign ∣ max size holeBytes) (hfuel : holes.length + 1 < fuel)
    (k : Nat) : ∃ h₂, cycles size align fuel k h = some h₂ := by
  induction k generalizing h with
  | zero => exact ⟨h, rfl⟩
  | succ k ih =>
    obtain ⟨h₁, ha, hi₁⟩ := hi.allocRaw_front hlt htop hl hp hs hfuel
    obtain ⟨h₂, hcs⟩ := ih hi₁
    exact ⟨h₂, by rw [cycles, cycle, ha]; exact hcs⟩

/-- The free bytes come back exactly when the fit is exact. -/
private theorem HeapInv.freeBytes_iff (hi : HeapInv start n ⟨h, live⟩ holes) {fuel p : Nat} {h₁ : Heap}
    (hr : h.allocRaw size align fuel = some (some p, h₁)) {before after : List (Nat × Nat)} {hole : Nat × Nat}
    (hholes : holes = before ++ hole :: after)
    (hf : fits (roundedSize size align) (max align holeAlign) hole = true)
    (hres : allocHoles (roundedSize size align) (max align holeAlign) holes =
      some (p, before ++ (cut (roundedSize size align) (max align holeAlign) hole ++ after))) :
    (∀ t, h.FreeBytes t → (h₁.deallocRaw p size align).FreeBytes t) ↔ ExactFit size align hole := by
  have hback := (hi.giveBack hlt htop hl hr hres).holds
  rw [← cut_sum_iff hl hf]
  constructor
  · intro hall
    have hsum := (hback.freeBytes_iff).1 (hall _ ((hi.holds.freeBytes_iff).2 rfl))
    simp only [hholes, List.map_cons, List.map_append, List.sum_cons, List.sum_append] at hsum
    omega
  · intro hcut t ht
    have hsum := (hi.holds.freeBytes_iff).1 ht
    refine (hback.freeBytes_iff).2 ?_
    simp only [hholes, List.map_cons, List.map_append, List.sum_cons, List.sum_append] at hsum ⊢
    omega

end Cycles

/-- In every reachable state the bytes of a block come back, and cycles go on for ever, exactly when the first hole
that fits is an exact fit. -/
theorem gives_back_iff {start n : Nat} (hn : holeBytes ≤ n) (hlt : n < 2 ^ 64) (htop : start + n ≤ 2 ^ 64)
    {s : HeapState} (hr : HeapRun start n s) {holes : List (Nat × Nat)} (hh : s.heap.Holds holes) {size align : Nat}
    (hl : ValidLayout size align) :
    s.heap.GivesBack size align ↔
      ∀ hole, holes.find? (fits (roundedSize size align) (max align holeAlign)) = some hole →
        ExactFit size align hole := by
  obtain ⟨holes', hi⟩ := hr.inv hlt htop hn
  cases links_unique hh hi.holds
  obtain ⟨h₁, hrun, hany, -⟩ := hl.allocRaw_refines hi.holds (hi.good hlt htop)
  cases hres : allocHoles (roundedSize size align) (max align holeAlign) holes with
  | none =>
    constructor
    · intro _ hole hfind
      rw [allocHoles_none hres] at hfind
      cases hfind
    · intro _ fuel p h₁ ha
      have heq := hany fuel _ ha
      rw [hres] at heq
      cases heq
  | some res =>
    obtain ⟨p, rest⟩ := res
    obtain ⟨before, hole, after, hsplit, hfind, hf, hp, hrest⟩ := allocHoles_some hres
    have hbytes := fun fuel (ha : s.heap.allocRaw size align fuel = some (some p, h₁)) =>
      hi.freeBytes_iff hlt htop hl ha hsplit hf (hrest ▸ hres)
    rw [hres] at hrun hany
    rw [hfind]
    constructor
    · intro hg hole' heq
      cases heq
      have ha := hrun (holes.length + 1) (Nat.lt_succ_self _)
      exact (hbytes _ ha).1 (hg _ _ _ ha).1
    · intro hex fuel q h' ha
      cases hany fuel _ ha
      have hexact := hex hole rfl
      have hback := hi.giveBack hlt htop hl ha hres
      obtain ⟨k, hk, -⟩ := hl.align_pow
      have hdvd : max align holeAlign ∣ p := hp ▸ dvd_add_pad hole.1 (hk ▸ Nat.two_pow_pos k)
      refine ⟨(hbytes fuel ha).2 hexact, ?_, fun k => ?_⟩
      · obtain ⟨h₂, ha₂, -⟩ := hback.allocRaw_front hlt htop hl hdvd hexact.2.1 (Nat.lt_succ_self _)
        exact ⟨_, p, h₂, ha₂⟩
      · cases k with
        | zero => exact ⟨0, s.heap, rfl⟩
        | succ k =>
          -- the first cycle may cut the hole; the later ones use what it has put at the front
          have ha₁ := hrun (holes.length + rest.length + 2) (by omega)
          obtain ⟨h₂, hcs⟩ := hback.cycles_front hlt htop hl hdvd hexact.2.1
            (show rest.length + 1 < holes.length + rest.length + 2 by omega) k
          exact ⟨_, h₂, by rw [cycles, cycle, ha₁]; exact hcs⟩

/-- The heap as `LockedHeap::init` leaves it, with its 4 MiB at 4 MiB. -/
def freshHeap : Heap := Heap.init (fun _ => 0) 0x400000 0x400000

private theorem freshHeap_inv : HeapInv 0x400000 0x400000 ⟨freshHeap, []⟩ [(0x400000, 0x400000)] :=
  HeapInv.init (by decide) (by decide) _

/-- A size that is a multiple of the alignment goes in circles. -/
theorem freshHeap_gives_back : freshHeap.GivesBack 64 8 := by
  have hl : ValidLayout 64 8 := ⟨⟨3, rfl⟩, by decide⟩
  refine (gives_back_iff (by decide) (by decide) (by decide) (HeapRun.init _) freshHeap_inv.holds hl).2 ?_
  intro hole hfind
  have hfound : [(0x400000, 0x400000)].find? (fits (roundedSize 64 8) (max 8 holeAlign)) =
      some (0x400000, 0x400000) := by decide
  rw [hfound] at hfind
  cases hfind
  exact ⟨by decide, by decide, Or.inr (by decide)⟩

/-- 25 bytes take 32 and give 25 back. -/
theorem freshHeap_leaks :
    HeapRun 0x400000 0x400000 ⟨freshHeap, []⟩ ∧ ValidLayout 25 8 ∧ ¬ freshHeap.GivesBack 25 8 := by
  have hl : ValidLayout 25 8 := ⟨⟨3, rfl⟩, by decide⟩
  refine ⟨HeapRun.init _, hl, fun hg => ?_⟩
  obtain ⟨h₁, hrun, -⟩ := hl.allocRaw_refines freshHeap_inv.holds (freshHeap_inv.good (by decide) (by decide))
  have hres : allocHoles (roundedSize 25 8) (max 8 holeAlign) [(0x400000, 0x400000)] =
      some (0x400000, [(0x400020, 0x3fffe0)]) := by decide
  have ha := hrun 2 (by decide)
  rw [hres] at ha
  have hsplit : [(0x400000, 0x400000)] = [] ++ (0x400000, 0x400000) :: [] := rfl
  have hexact := (freshHeap_inv.freeBytes_iff (by decide) (by decide) hl ha hsplit (by decide) hres).1 (hg _ _ _ ha).1
  exact absurd hexact.2.1 (by decide)

end Hammam
