import Hammam.Mm.Heap

/-!
# The free list of the heap as a list of extents

The holes are extents; `allocHoles` is the first-fit search on their list, and `allocRaw` refines it
(`allocRaw_refines`): on a memory that holds the list it ends, returns the same pointer, leaves a memory that holds
the new list, and writes inside holes only.
-/

namespace Hammam

open ByteMem Extent

namespace Heap

/-! ### Alignment -/

/-- The distance from `x` to the next multiple of `align`. -/
def pad (x align : Nat) : Nat := (align - x % align) % align

theorem pad_lt (x : Nat) {align : Nat} (h : 0 < align) : pad x align < align := Nat.mod_lt _ h

theorem dvd_add_pad (x : Nat) {align : Nat} (h : 0 < align) : align ∣ x + pad x align := by
  have hlt := Nat.mod_lt x h
  have hx := Nat.mod_add_div x align
  unfold pad
  by_cases h0 : x % align = 0
  · rw [h0, Nat.sub_zero, Nat.mod_self, Nat.add_zero]
    exact Nat.dvd_of_mod_eq_zero h0
  · rw [Nat.mod_eq_of_lt (by omega)]
    exact ⟨x / align + 1, by rw [Nat.mul_succ]; omega⟩

theorem pad_eq_zero {x align : Nat} (h : 0 < align) : pad x align = 0 ↔ align ∣ x := by
  constructor
  · intro h0
    have := dvd_add_pad x h
    rwa [h0, Nat.add_zero] at this
  · intro hd
    rw [pad, Nat.mod_eq_zero_of_dvd hd, Nat.sub_zero, Nat.mod_self]

private theorem and_mask {x k : Nat} (hx : x < 2 ^ 64) (hk : k ≤ 64) :
    x &&& (2 ^ 64 - 2 ^ k) = x / 2 ^ k * 2 ^ k := by
  have hmask : 2 ^ 64 - 2 ^ k = (2 ^ (64 - k) - 1) <<< k := by
    rw [Nat.shiftLeft_eq, Nat.sub_mul, Nat.one_mul, ← Nat.pow_add, Nat.sub_add_cancel hk]
  have hround : x / 2 ^ k * 2 ^ k = (x >>> k) <<< k := by rw [Nat.shiftLeft_eq, Nat.shiftRight_eq_div_pow]
  rw [hmask, hround]
  refine Nat.eq_of_testBit_eq fun i => ?_
  rw [Nat.testBit_and, Nat.testBit_shiftLeft, Nat.testBit_shiftLeft, Nat.testBit_shiftRight,
    Nat.testBit_two_pow_sub_one]
  by_cases hi : k ≤ i
  · by_cases h64 : i < 64
    · simp [hi, show i - k < 64 - k by omega]
    · have : x.testBit i = false :=
        Nat.testBit_lt_two_pow (Nat.lt_of_lt_of_le hx (Nat.pow_le_pow_right (by omega) (by omega)))
      simp [hi, this]
  · simp [hi]

private theorem round_eq (x : Nat) {align : Nat} (h : 0 < align) :
    (x + align - 1) / align * align = x + pad x align := by
  obtain ⟨q, hq⟩ := dvd_add_pad x h
  have hlt := pad_lt x h
  have hdiv : (x + align - 1) / align = q := by
    refine Nat.div_eq_of_lt_le ?_ ?_
    · rw [Nat.mul_comm, ← hq]
      omega
    · rw [Nat.succ_mul, Nat.mul_comm, ← hq]
      omega
  rw [hdiv, hq, Nat.mul_comm]

/-- `alignUp` goes to the next multiple, and wraps around at the end of the address space. -/
theorem alignUp_eq {x align k : Nat} (hk : align = 2 ^ k) (hle : k ≤ 64) :
    alignUp x align = (x + pad x align) % 2 ^ 64 := by
  have hpos : 0 < align := hk ▸ Nat.two_pow_pos k
  have hdvd : align ∣ 2 ^ 64 := hk ▸ Nat.pow_dvd_pow 2 hle
  have hmask := and_mask (x := (x + align - 1) % 2 ^ 64) (Nat.mod_lt _ (by decide)) hle
  rw [← hk] at hmask
  rw [alignUp, hmask, ← round_eq x hpos]
  obtain ⟨q, hq⟩ := hdvd
  rw [hq, Nat.mod_mul_right_div_self, Nat.mul_comm align q, Nat.mul_mod_mul_right]

/-! ### The list of holes -/

/-- The least size of a hole for a block of `size` bytes at a multiple of `align`. -/
def fits (size align : Nat) (hole : Nat × Nat) : Bool := size + pad hole.1 align ≤ hole.2

/-- What is left of a hole behind the block; the padding before it and a remainder without room for a header are
lost. -/
def cut (size align : Nat) (hole : Nat × Nat) : List (Nat × Nat) :=
  let p := hole.1 + pad hole.1 align
  let remaining := hole.2 - (size + pad hole.1 align)
  if holeBytes ≤ remaining then [(p + size, remaining)] else []

/-- First fit: the pointer and the holes that are left. -/
def allocHoles (size align : Nat) : List (Nat × Nat) → Option (Nat × List (Nat × Nat))
  | [] => none
  | hole :: holes =>
    if fits size align hole then some (hole.1 + pad hole.1 align, cut size align hole ++ holes)
    else (allocHoles size align holes).map fun r => (r.1, hole :: r.2)

/-- What first fit does, by the hole that it finds. -/
theorem allocHoles_some {size align : Nat} {holes holes' : List (Nat × Nat)} {p : Nat}
    (h : allocHoles size align holes = some (p, holes')) :
    ∃ before hole after, holes = before ++ hole :: after ∧ holes.find? (fits size align) = some hole ∧
      fits size align hole = true ∧ p = hole.1 + pad hole.1 align ∧
      holes' = before ++ (cut size align hole ++ after) := by
  induction holes generalizing holes' with
  | nil => cases h
  | cons hole holes ih =>
    rw [allocHoles] at h
    by_cases hf : fits size align hole = true
    · rw [if_pos hf] at h
      cases h
      exact ⟨[], hole, holes, rfl, List.find?_cons_of_pos hf, hf, rfl, rfl⟩
    · rw [if_neg hf, Option.map_eq_some_iff] at h
      obtain ⟨⟨q, rest⟩, hr, he⟩ := h
      cases he
      obtain ⟨before, found, after, rfl, hfind, hfit, hp, rfl⟩ := ih hr
      exact ⟨hole :: before, found, after, rfl, by rw [List.find?_cons_of_neg hf, hfind], hfit, hp, rfl⟩

theorem allocHoles_none {size align : Nat} {holes : List (Nat × Nat)} (h : allocHoles size align holes = none) :
    holes.find? (fits size align) = none := by
  induction holes with
  | nil => rfl
  | cons hole holes ih =>
    rw [allocHoles] at h
    by_cases hf : fits size align hole = true
    · rw [if_pos hf] at h
      cases h
    · rw [if_neg hf, Option.map_eq_none_iff] at h
      rw [List.find?_cons_of_neg hf, ih h]

/-! ### The list in memory -/

/-- From the pointer `o` the memory links the given holes, up to the pointer `e`. -/
def Links (m : Memory) : Option Nat → List (Nat × Nat) → Option Nat → Prop
  | o, [], e => o = e
  | o, hole :: holes, e => o = some hole.1 ∧ sizeAt m hole.1 = hole.2 ∧ Links m (nextAt m hole.1) holes e

/-- The memory holds the list of holes. -/
def Holds (h : Heap) (holes : List (Nat × Nat)) : Prop := Links h.mem h.head holes none

theorem links_append {m : Memory} {l l' : List (Nat × Nat)} {o e : Option Nat} :
    Links m o (l ++ l') e ↔ ∃ o', Links m o l o' ∧ Links m o' l' e := by
  induction l generalizing o with
  | nil => simp [Links]
  | cons hole l ih =>
    simp only [List.cons_append, Links, ih]
    constructor
    · intro h
      obtain ⟨h1, h2, o', h3, h4⟩ := h
      exact ⟨o', ⟨h1, h2, h3⟩, h4⟩
    · intro h
      obtain ⟨o', ⟨h1, h2, h3⟩, h4⟩ := h
      exact ⟨h1, h2, o', h3, h4⟩

/-- A header is read from its own bytes. -/
theorem links_congr {m m' : Memory} {l : List (Nat × Nat)} {o e : Option Nat} (h : Links m o l e)
    (hm : ∀ hole ∈ l, ∀ x, Contains (hole.1, holeBytes) x → m' x = m x) : Links m' o l e := by
  induction l generalizing o with
  | nil => exact h
  | cons hole l ih =>
    obtain ⟨h1, h2, h3⟩ := h
    have hread : ∀ i, i ≤ 16 → read64 m' (hole.1 + i) = read64 m (hole.1 + i) := by
      intro i hi
      refine readLE_congr fun x hx1 hx2 => hm hole List.mem_cons_self x ?_
      unfold Contains holeBytes
      omega
    have hsize : sizeAt m' hole.1 = sizeAt m hole.1 := hread 0 (by omega)
    have hnext : nextAt m' hole.1 = nextAt m hole.1 := by
      rw [nextAt, nextAt, hread 8 (by omega), hread 16 (by omega)]
    refine ⟨h1, hsize.trans h2, ?_⟩
    rw [hnext]
    exact ih h3 fun hole' hh => hm hole' (List.mem_cons_of_mem hole hh)

/-! ### Writing headers -/

section Headers

variable {m : Memory} {p size : Nat} {v : Option Nat}

theorem setNextAt_outside {x : Nat} (hx : ¬ Contains (p, holeBytes) x) : setNextAt m p v x = m x := by
  unfold Contains holeBytes at hx
  cases v with
  | none => exact store_of_not_mem _ (by omega)
  | some q => exact (store_of_not_mem _ (by omega)).trans (store_of_not_mem _ (by omega))

theorem sizeAt_setNextAt : sizeAt (setNextAt m p v) p = sizeAt m p := by
  cases v with
  | none => exact read64_write64_of_disjoint 0 (by omega)
  | some q =>
    exact (read64_write64_of_disjoint q (by omega)).trans (read64_write64_of_disjoint 1 (by omega))

theorem nextAt_setNextAt (hv : ∀ q, v = some q → q < 2 ^ 64) : nextAt (setNextAt m p v) p = v := by
  unfold nextAt
  cases v with
  | none => rw [setNextAt, read64_write64 m _ (by decide), if_pos rfl]
  | some q =>
    have htag : read64 (setNextAt m p (some q)) (p + 8) = 1 :=
      (read64_write64_of_disjoint q (by omega)).trans (read64_write64 m _ (by decide))
    rw [htag, if_neg (by decide), setNextAt, read64_write64 _ _ (hv q rfl)]

theorem writeHole_outside {x : Nat} (hx : ¬ Contains (p, holeBytes) x) : writeHole m p size v x = m x := by
  rw [writeHole, setNextAt_outside hx]
  unfold Contains holeBytes at hx
  exact store_of_not_mem _ (by omega)

theorem sizeAt_writeHole (hs : size < 2 ^ 64) : sizeAt (writeHole m p size v) p = size :=
  sizeAt_setNextAt.trans (read64_write64 m p hs)

theorem nextAt_writeHole (hv : ∀ q, v = some q → q < 2 ^ 64) : nextAt (writeHole m p size v) p = v :=
  nextAt_setNextAt hv

end Headers

/-! ### Refinement -/

/-- Holes with room for their headers, pairwise disjoint, in the address space. -/
structure GoodHoles (holes : List (Nat × Nat)) : Prop where
  big : ∀ hole ∈ holes, holeBytes ≤ hole.2
  top : ∀ hole ∈ holes, hole.1 + hole.2 ≤ 2 ^ 64 ∧ hole.2 < 2 ^ 64
  apart : holes.Pairwise Apart

theorem GoodHoles.header {holes : List (Nat × Nat)} (h : GoodHoles holes) {hole : Nat × Nat} (hm : hole ∈ holes) :
    Inside (hole.1, holeBytes) hole :=
  ⟨Nat.le_refl _, Nat.add_le_add_left (h.big hole hm) _⟩

theorem GoodHoles.sublist {l l' : List (Nat × Nat)} (h : GoodHoles l) (hs : l'.Sublist l) : GoodHoles l' :=
  ⟨fun hole hm => h.big hole (hs.subset hm), fun hole hm => h.top hole (hs.subset hm), h.apart.sublist hs⟩

/-- The hole before the ones that follow the list `before`. -/
def lastHole (before : List (Nat × Nat)) : Option Nat := before.getLast?.map Prod.fst

theorem next_lastHole {h : Heap} {before : List (Nat × Nat)} {o : Option Nat} (hl : Links h.mem h.head before o) :
    h.next (lastHole before) = o := by
  rcases List.eq_nil_or_concat before with rfl | ⟨l, hole, rfl⟩
  · exact hl
  · rw [List.concat_eq_append] at hl ⊢
    obtain ⟨o', -, -, -, h3⟩ := links_append.1 hl
    have hlast : h.next (lastHole (l ++ [hole])) = nextAt h.mem hole.1 := by simp [lastHole, next]
    exact hlast.trans h3

/-- Changing the last link redirects the list. -/
theorem links_setNext {h : Heap} {before : List (Nat × Nat)} {o v : Option Nat} (hl : Links h.mem h.head before o)
    (hg : GoodHoles before) (hv : ∀ q, v = some q → q < 2 ^ 64) :
    Links (h.setNext v (lastHole before)).mem (h.setNext v (lastHole before)).head before v ∧
      ∀ x, (∀ hole ∈ before, ¬ Contains (hole.1, holeBytes) x) → (h.setNext v (lastHole before)).mem x = h.mem x := by
  rcases List.eq_nil_or_concat before with rfl | ⟨l, hole, rfl⟩
  · exact ⟨rfl, fun _ _ => rfl⟩
  · rw [List.concat_eq_append] at hl hg ⊢
    obtain ⟨o', h1, h2, h3, -⟩ := links_append.1 hl
    have hset : h.setNext v (lastHole (l ++ [hole])) = { h with mem := setNextAt h.mem hole.1 v } := by
      simp [lastHole, setNext]
    have hapart := List.pairwise_append.1 hg.apart
    rw [hset]
    refine ⟨links_append.2 ⟨o', links_congr h1 fun hole' hm x hx => ?_, h2, sizeAt_setNextAt.trans h3, ?_⟩,
      fun x hx => setNextAt_outside (hx hole (by simp))⟩
    · refine setNextAt_outside ?_
      have ha := hapart.2.2 hole' hm hole (List.mem_singleton_self _)
      have ha' := (ha.inside (hg.header (List.mem_append_left _ hm))).symm
      exact ((ha'.inside (hg.header (by simp))).symm).not_contains hx
    · exact nextAt_setNextAt hv

/-- The heap after `alloc_raw` has taken a block out of `hole`, the one that follows `prev`. -/
def takeFrom (h : Heap) (size align : Nat) (hole : Nat × Nat) (prev : Option Nat) : Heap :=
  match cut size align hole with
  | [] => h.setNext (nextAt h.mem hole.1) prev
  | new :: _ => { h with mem := writeHole h.mem new.1 new.2 (nextAt h.mem hole.1) }.setNext (some new.1) prev

/-- One iteration of the loop. -/
theorem allocLoop_step {size align k fuel : Nat} (hk : align = 2 ^ k) (hle : k ≤ 64) (hpos : 0 < size)
    (hsmall : size + align ≤ 2 ^ 64) {h : Heap} {hole : Nat × Nat} {prev : Option Nat}
    (hnext : h.next prev = some hole.1) (hsize : sizeAt h.mem hole.1 = hole.2) (htop : hole.1 + hole.2 ≤ 2 ^ 64)
    (hlt : hole.1 < 2 ^ 64) :
    allocLoop size align (fuel + 1) h prev =
      if fits size align hole then some (some (hole.1 + pad hole.1 align), h.takeFrom size align hole prev)
      else allocLoop size align fuel h (some hole.1) := by
  have halign : 0 < align := hk ▸ Nat.two_pow_pos k
  have hpad := pad_lt hole.1 halign
  have hpadding : ((hole.1 + pad hole.1 align) % 2 ^ 64 + 2 ^ 64 - hole.1) % 2 ^ 64 = pad hole.1 align := by omega
  rw [allocLoop, hnext]
  simp only [alignUp_eq hk hle, hpadding, hsize, Nat.mod_eq_of_lt (show size + pad hole.1 align < 2 ^ 64 by omega)]
  by_cases hf : size + pad hole.1 align ≤ hole.2
  · have haddr : (hole.1 + pad hole.1 align) % 2 ^ 64 = hole.1 + pad hole.1 align := Nat.mod_eq_of_lt (by omega)
    rw [if_pos hf, if_pos (show fits size align hole = true from decide_eq_true hf), haddr, takeFrom, cut]
    by_cases hr : holeBytes ≤ hole.2 - (size + pad hole.1 align)
    · have hnew : (hole.1 + pad hole.1 align + size) % 2 ^ 64 = hole.1 + pad hole.1 align + size := by
        unfold holeBytes at hr
        exact Nat.mod_eq_of_lt (by omega)
      simp only [if_pos hr, hnew]
    · simp only [if_neg hr]
  · rw [if_neg hf, if_neg (show ¬ fits size align hole = true by simpa [fits] using hf)]

theorem cut_inside {size align : Nat} {hole new : Nat × Nat} (hf : fits size align hole = true)
    (hn : new ∈ cut size align hole) :
    new.1 = hole.1 + pad hole.1 align + size ∧ new.1 + new.2 = hole.1 + hole.2 ∧ holeBytes ≤ new.2 := by
  have hf' : size + pad hole.1 align ≤ hole.2 := of_decide_eq_true hf
  unfold cut at hn
  simp only at hn
  split at hn
  · next hr =>
    rw [List.mem_singleton.1 hn]
    exact ⟨rfl, by simp only; omega, hr⟩
  · cases hn

theorem cut_cases (size align : Nat) (hole : Nat × Nat) :
    cut size align hole = [] ∨ ∃ new, cut size align hole = [new] := by
  unfold cut
  simp only
  split
  · exact Or.inr ⟨_, rfl⟩
  · exact Or.inl rfl

/-- The next pointer of a linked hole fits into a word. -/
theorem links_lt {m : Memory} {o : Option Nat} {holes : List (Nat × Nat)} (hl : Links m o holes none)
    (hg : GoodHoles holes) : ∀ q, o = some q → q < 2 ^ 64 := by
  intro q hq
  cases holes with
  | nil =>
    rw [show o = none from hl] at hq
    cases hq
  | cons hole holes =>
    rw [hl.1] at hq
    cases hq
    have htop := (hg.top hole List.mem_cons_self).1
    have hbig := hg.big hole List.mem_cons_self
    unfold holeBytes at hbig
    omega

/-- The headers of the holes before are not in what comes after. -/
private theorem GoodHoles.outside_before {before l : List (Nat × Nat)} (hg : GoodHoles (before ++ l))
    {e e' : Nat × Nat}
    (he : e ∈ l) (hi : Inside e' e) {x : Nat} (hx : Contains e' x) : ∀ b ∈ before, ¬ Contains (b.1, holeBytes) x := by
  intro b hb
  have hapart := (List.pairwise_append.1 hg.apart).2.2 b hb e he
  exact ((hapart.inside (hg.header (List.mem_append_left _ hb))).symm.inside hi).not_contains hx

/-- Outside the holes there are no headers. -/
private theorem GoodHoles.no_header {holes : List (Nat × Nat)} (hg : GoodHoles holes) {x : Nat}
    (hx : ∀ e ∈ holes, ¬ Contains e x) : ∀ b ∈ holes, ¬ Contains (b.1, holeBytes) x := by
  intro b hb hbx
  have hbig := hg.big b hb
  refine hx b hb ?_
  unfold Contains at *
  omega

section Take

variable {h : Heap} {size align : Nat} {before after : List (Nat × Nat)} {hole : Nat × Nat}
  (hh : h.Holds (before ++ hole :: after)) (hg : GoodHoles (before ++ hole :: after))

include hh hg

/-- The hole goes as a whole. -/
private theorem takeFrom_whole (hc : cut size align hole = []) :
    (h.takeFrom size align hole (lastHole before)).Holds (before ++ after) ∧
      ∀ x, (∀ e ∈ before ++ hole :: after, ¬ Contains e x) →
        (h.takeFrom size align hole (lastHole before)).mem x = h.mem x := by
  obtain ⟨o, hb, ho, hs, ha⟩ := links_append.1 hh
  have hgb : GoodHoles before := hg.sublist (List.sublist_append_left _ _)
  have hga : GoodHoles after := hg.sublist ((List.sublist_cons_self hole after).trans (List.sublist_append_right _ _))
  obtain ⟨h1, h2⟩ := links_setNext hb hgb (links_lt ha hga)
  rw [takeFrom, hc]
  refine ⟨links_append.2 ⟨_, h1, links_congr ha fun e he x hx => h2 x ?_⟩, fun x hx => h2 x fun b hb' => ?_⟩
  · exact hg.outside_before (List.mem_cons_of_mem hole he) (hga.header he) hx
  · exact hg.no_header hx b (List.mem_append_left _ hb')

/-- The end of the hole stays, with a header of its own. -/
private theorem takeFrom_cut (hf : fits size align hole = true) {new : Nat × Nat} (hc : cut size align hole = [new]) :
    (h.takeFrom size align hole (lastHole before)).Holds (before ++ new :: after) ∧
      ∀ x, (∀ e ∈ before ++ hole :: after, ¬ Contains e x) →
        (h.takeFrom size align hole (lastHole before)).mem x = h.mem x := by
  obtain ⟨o, hb, ho, hs, ha⟩ := links_append.1 hh
  have hgb : GoodHoles before := hg.sublist (List.sublist_append_left _ _)
  have hga : GoodHoles after := hg.sublist ((List.sublist_cons_self hole after).trans (List.sublist_append_right _ _))
  obtain ⟨-, hap, -⟩ := List.pairwise_append.1 hg.apart
  obtain ⟨hhole, -⟩ := List.pairwise_cons.1 hap
  obtain ⟨hn1, hn2, hn3⟩ := cut_inside hf (hc ▸ List.mem_singleton_self new)
  have hin : Inside (new.1, holeBytes) hole := by
    unfold Inside
    simp only
    omega
  have htop := hg.top hole (by simp)
  have hlt : new.1 < 2 ^ 64 := by
    unfold holeBytes at hn3
    omega
  -- the header is written first; it lies in the hole, so the other headers are as before
  have hmem : ∀ x, ¬ Contains (new.1, holeBytes) x →
      writeHole h.mem new.1 new.2 (nextAt h.mem hole.1) x = h.mem x := fun x => writeHole_outside
  have hrest : Links (writeHole h.mem new.1 new.2 (nextAt h.mem hole.1)) (some new.1) (new :: after) none := by
    refine ⟨rfl, sizeAt_writeHole (by omega), ?_⟩
    rw [nextAt_writeHole (links_lt ha hga)]
    refine links_congr ha fun e he x hx => hmem x ?_
    exact (((hhole e he).inside hin).symm.inside (hga.header he)).not_contains hx
  rw [takeFrom, hc]
  simp only
  generalize writeHole h.mem new.1 new.2 (nextAt h.mem hole.1) = m at hmem hrest ⊢
  have hbefore : Links m h.head before o := by
    refine links_congr hb fun b hb' x hx => hmem x fun hnx => ?_
    exact hg.outside_before List.mem_cons_self hin hnx b hb' hx
  -- then the link before the hole is redirected to it
  obtain ⟨h1, h2⟩ := links_setNext (h := ⟨h.head, m⟩) (v := some new.1) hbefore hgb (by
    intro q hq
    cases hq
    exact hlt)
  refine ⟨links_append.2 ⟨_, h1, links_congr hrest fun e he x hx => h2 x ?_⟩, fun x hx => ?_⟩
  · rcases List.mem_cons.1 he with rfl | he
    · exact hg.outside_before List.mem_cons_self hin hx
    · exact hg.outside_before (List.mem_cons_of_mem hole he) (hga.header he) hx
  · have hb' : ∀ b ∈ before, ¬ Contains (b.1, holeBytes) x := fun b hb' =>
      hg.no_header hx b (List.mem_append_left _ hb')
    refine (h2 x hb').trans (hmem x fun hnx => hx hole (by simp) ?_)
    unfold Inside at hin
    unfold Contains at *
    simp only at hin hnx
    omega

/-- Taking a block out of a hole leaves the list without the hole, with the rest of it in its place, and writes inside
holes only. -/
theorem takeFrom_holds (hf : fits size align hole = true) :
    (h.takeFrom size align hole (lastHole before)).Holds (before ++ (cut size align hole ++ after)) ∧
      ∀ x, (∀ e ∈ before ++ hole :: after, ¬ Contains e x) →
        (h.takeFrom size align hole (lastHole before)).mem x = h.mem x := by
  rcases cut_cases size align hole with hc | ⟨new, hc⟩
  · rw [hc]
    exact takeFrom_whole hh hg hc
  · rw [hc]
    exact takeFrom_cut hh hg hf hc

end Take

/-- The whole search, from the hole after `before` on: it ends once its fuel exceeds the length of the list, and does
what first fit does on the list. -/
theorem allocLoop_refines {size align k fuel : Nat} (hk : align = 2 ^ k) (hle : k ≤ 64) (hpos : 0 < size)
    (hsmall : size + align ≤ 2 ^ 64) {h : Heap} {before holes : List (Nat × Nat)} (hh : h.Holds (before ++ holes))
    (hg : GoodHoles (before ++ holes)) (hfuel : holes.length < fuel) :
    ∃ h', allocLoop size align fuel h (lastHole before) = some ((allocHoles size align holes).map Prod.fst, h') ∧
      h'.Holds (before ++ ((allocHoles size align holes).map Prod.snd).getD holes) ∧
      ∀ x, (∀ e ∈ before ++ holes, ¬ Contains e x) → h'.mem x = h.mem x := by
  induction holes generalizing before fuel with
  | nil =>
    obtain ⟨o, hb, ho⟩ := links_append.1 hh
    obtain ⟨fuel, rfl⟩ : ∃ n, fuel = n + 1 := ⟨fuel - 1, by simp only [List.length_nil] at hfuel; omega⟩
    have hend : h.next (lastHole before) = none := (next_lastHole hb).trans ho
    exact ⟨h, by rw [allocLoop, hend]; rfl, hh, fun _ _ => rfl⟩
  | cons hole holes ih =>
    obtain ⟨o, hb, ho, hs, -⟩ := links_append.1 hh
    obtain ⟨fuel, rfl⟩ : ∃ n, fuel = n + 1 := ⟨fuel - 1, by omega⟩
    have hmem : hole ∈ before ++ hole :: holes := by simp
    have htop := (hg.top hole hmem).1
    have hbig := hg.big hole hmem
    unfold holeBytes at hbig
    rw [allocLoop_step hk hle hpos hsmall ((next_lastHole hb).trans ho) hs htop (by omega), allocHoles]
    by_cases hf : fits size align hole = true
    · rw [if_pos hf, if_pos hf]
      exact ⟨_, rfl, takeFrom_holds hh hg hf⟩
    · -- the hole is too small and becomes the last one before the rest
      have hsplit : before ++ hole :: holes = before ++ [hole] ++ holes := by simp
      rw [hsplit] at hh hg
      obtain ⟨h', h1, h2, h3⟩ := ih hh hg (Nat.lt_of_succ_lt_succ hfuel)
      have hlast : lastHole (before ++ [hole]) = some hole.1 := by simp [lastHole]
      rw [hlast] at h1
      rw [if_neg hf, if_neg hf, hsplit]
      cases hr : allocHoles size align holes with
      | none =>
        rw [hr] at h1 h2
        exact ⟨h', h1, by simpa using h2, h3⟩
      | some r =>
        rw [hr] at h1 h2
        exact ⟨h', h1, by simpa using h2, h3⟩

/-- More fuel does not change a result. -/
theorem allocLoop_mono {size align fuel : Nat} {h : Heap} {prev : Option Nat} {r : Option Nat × Heap}
    (hr : allocLoop size align fuel h prev = some r) (n : Nat) : allocLoop size align (fuel + n) h prev = some r := by
  induction fuel generalizing prev with
  | zero => cases hr
  | succ fuel ih =>
    rw [Nat.succ_add]
    rw [allocLoop] at hr ⊢
    split
    · next hn => rwa [hn] at hr
    · next curr hn =>
      rw [hn] at hr
      simp only at hr ⊢
      split
      · next hfit => rwa [if_pos hfit] at hr
      · next hfit =>
        rw [if_neg hfit] at hr
        exact ih hr

/-- The size of the block that `alloc_raw` takes out of a hole. -/
def roundedSize (size align : Nat) : Nat := max size holeBytes + pad (max size holeBytes) (max align holeAlign)

end Heap

section Layout

variable {size align : Nat}

open Heap

theorem ValidLayout.align_pow (hl : ValidLayout size align) : ∃ k, max align holeAlign = 2 ^ k ∧ k ≤ 63 := by
  obtain ⟨k, hk⟩ := hl.pow
  have hf := hl.fits
  have hlt : k < 64 := by
    refine (Nat.pow_lt_pow_iff_right (a := 2) (by decide)).1 ?_
    rw [← hk]
    omega
  unfold holeAlign
  rcases Nat.le_total align 8 with h8 | h8
  · exact ⟨3, by omega, by omega⟩
  · exact ⟨k, by omega, by omega⟩

/-- A block is at least as large as what was asked for, and leaves room for its padding in the address space. -/
theorem ValidLayout.roundedSize_bounds (hl : ValidLayout size align) :
    max size holeBytes ≤ roundedSize size align ∧ roundedSize size align + max align holeAlign ≤ 2 ^ 64 := by
  obtain ⟨k, hk, hle⟩ := hl.align_pow
  have hf := hl.fits
  have hpos : 0 < max align holeAlign := hk ▸ Nat.two_pow_pos k
  have hpad := pad_lt (max size holeBytes) hpos
  refine ⟨Nat.le_add_right _ _, ?_⟩
  unfold roundedSize
  by_cases h63 : k = 63
  · -- only the empty layout has this alignment
    rw [h63] at hk
    unfold holeAlign at hk
    have hsize : size = 0 := by omega
    rw [holeAlign, hk, hsize]
    decide
  · have h62 : max align holeAlign ≤ 2 ^ 62 := hk ▸ Nat.pow_le_pow_right (by decide) (by omega)
    unfold holeBytes holeAlign at *
    omega

theorem ValidLayout.allocRaw_eq (hl : ValidLayout size align) (h : Heap) (fuel : Nat) :
    h.allocRaw size align fuel = allocLoop (roundedSize size align) (max align holeAlign) fuel h none := by
  obtain ⟨k, hk, hle⟩ := hl.align_pow
  obtain ⟨h1, h2⟩ := hl.roundedSize_bounds
  have hpos : 0 < max align holeAlign := hk ▸ Nat.two_pow_pos k
  have hround : alignUp (max size holeBytes) (max align holeAlign) = roundedSize size align := by
    rw [alignUp_eq hk (by omega)]
    exact Nat.mod_eq_of_lt (by unfold roundedSize at h2; omega)
  rw [allocRaw, hround]

/-- `alloc_raw` on a memory that holds a list of holes is first fit on that list. -/
theorem ValidLayout.allocRaw_refines (hl : ValidLayout size align) {h : Heap} {holes : List (Nat × Nat)}
    (hh : h.Holds holes) (hg : GoodHoles holes) :
    ∃ h', (∀ fuel, holes.length < fuel → h.allocRaw size align fuel =
        some ((allocHoles (roundedSize size align) (max align holeAlign) holes).map Prod.fst, h')) ∧
      (∀ fuel r, h.allocRaw size align fuel = some r →
        r = ((allocHoles (roundedSize size align) (max align holeAlign) holes).map Prod.fst, h')) ∧
      h'.Holds (((allocHoles (roundedSize size align) (max align holeAlign) holes).map Prod.snd).getD holes) ∧
      ∀ x, (∀ e ∈ holes, ¬ Contains e x) → h'.mem x = h.mem x := by
  obtain ⟨k, hk, hle⟩ := hl.align_pow
  obtain ⟨h1, h2⟩ := hl.roundedSize_bounds
  have hpos : 0 < roundedSize size align := by
    unfold holeBytes at h1
    omega
  obtain ⟨h', hrun, hholds, hframe⟩ :=
    allocLoop_refines hk (by omega) hpos h2 (show h.Holds ([] ++ holes) from hh) hg (Nat.lt_succ_self _)
  have hmore : ∀ n, h.allocRaw size align (holes.length.succ + n) =
      some ((allocHoles (roundedSize size align) (max align holeAlign) holes).map Prod.fst, h') := fun n =>
    (hl.allocRaw_eq h _).trans (allocLoop_mono hrun n)
  refine ⟨h', fun fuel hf => ?_, fun fuel r hr => ?_, hholds, hframe⟩
  · have := hmore (fuel - holes.length.succ)
    rwa [Nat.add_sub_cancel' hf] at this
  · rw [hl.allocRaw_eq] at hr
    have hmono := allocLoop_mono hr holes.length.succ
    rw [Nat.add_comm, ← hl.allocRaw_eq, hmore fuel] at hmono
    exact (Option.some.inj hmono).symm

end Layout

end Hammam
