import Hammam.Mm.HoleList

/-!
# Safety of the kernel heap

A block is larger than what `dealloc_raw` gives back: the size is rounded up on the way out only.  What the invariant
keeps apart from the holes is therefore the part that can come back, `max size 24` bytes from the pointer on; the rest
of a block belongs to nobody.
-/

namespace Hammam

open ByteMem Extent Heap

namespace Allocation

/-- The bytes that the owner may use. -/
def bytes (a : Allocation) : Nat × Nat := (a.ptr, a.size)

/-- The bytes that become a hole. -/
def extent (a : Allocation) : Nat × Nat := (a.ptr, max a.size holeBytes)

theorem bytes_inside (a : Allocation) : Inside a.bytes a.extent :=
  ⟨Nat.le_refl _, Nat.add_le_add_left (Nat.le_max_left _ _) _⟩

theorem header_inside (a : Allocation) : Inside (a.ptr, holeBytes) a.extent :=
  ⟨Nat.le_refl _, Nat.add_le_add_left (Nat.le_max_right _ _) _⟩

end Allocation

/-- The invariant of the heap on the `n` bytes from `start` on. -/
structure HeapInv (start n : Nat) (s : HeapState) (holes : List (Nat × Nat)) : Prop where
  holds : s.heap.Holds holes
  big : ∀ hole ∈ holes, holeBytes ≤ hole.2
  inside : ∀ e ∈ holes ++ s.live.map Allocation.extent, Inside e (start, n)
  apart : (holes ++ s.live.map Allocation.extent).Pairwise Apart
  aligned : ∀ a ∈ s.live, a.align ∣ a.ptr

section Preservation

variable {start n : Nat} {s : HeapState} {holes : List (Nat × Nat)}

theorem HeapInv.init (hn : holeBytes ≤ n) (hlt : n < 2 ^ 64) (m : Memory) :
    HeapInv start n ⟨Heap.init m start n, []⟩ [(start, n)] where
  holds := ⟨rfl, sizeAt_writeHole hlt, nextAt_writeHole (by intro q hq; cases hq)⟩
  big := by
    intro hole hm
    rw [List.mem_singleton.1 hm]
    exact hn
  inside := by
    intro e he
    rw [List.mem_singleton.1 he]
    exact ⟨Nat.le_refl _, Nat.le_refl _⟩
  apart := List.pairwise_singleton _ _
  aligned := by
    intro a ha
    cases ha

variable (hlt : n < 2 ^ 64) (htop : start + n ≤ 2 ^ 64)

include hlt htop

theorem HeapInv.good (hi : HeapInv start n s holes) : GoodHoles holes where
  big := hi.big
  top := by
    intro hole hm
    have hin := hi.inside hole (List.mem_append_left _ hm)
    unfold Inside at hin
    simp only at hin
    omega
  apart := hi.apart.sublist (List.sublist_append_left _ _)

omit hlt htop in
theorem HeapInv.hole_apart (hi : HeapInv start n s holes) {hole : Nat × Nat} (hm : hole ∈ holes) {a : Allocation}
    (ha : a ∈ s.live) {e : Nat × Nat} (he : Inside e a.extent) : Apart hole e :=
  (((List.pairwise_append.1 hi.apart).2.2 hole hm _ (List.mem_map_of_mem ha)).symm.inside he).symm

/-- The header of a hole is not part of a live allocation. -/
theorem HeapInv.header_apart (hi : HeapInv start n s holes) {hole : Nat × Nat} (hm : hole ∈ holes) {a : Allocation}
    (ha : a ∈ s.live) {e : Nat × Nat} (he : Inside e a.extent) : Apart (hole.1, holeBytes) e :=
  (hi.hole_apart hm ha he).inside ((hi.good hlt htop).header hm)

omit hlt htop in
/-- What first fit takes out of a hole: the block goes to its owner, the cut remains a hole. -/
private theorem cut_extents {size align : Nat} {hole : Nat × Nat}
    (hf : fits (roundedSize size align) (max align holeAlign) hole = true) :
    (cut (roundedSize size align) (max align holeAlign) hole ++
        [(hole.1 + pad hole.1 (max align holeAlign), max size holeBytes)]).Pairwise Apart ∧
      ∀ e ∈ cut (roundedSize size align) (max align holeAlign) hole ++
        [(hole.1 + pad hole.1 (max align holeAlign), max size holeBytes)], Inside e hole := by
  have hf' : roundedSize size align + pad hole.1 (max align holeAlign) ≤ hole.2 := of_decide_eq_true hf
  have hle : max size holeBytes ≤ roundedSize size align := Nat.le_add_right _ _
  have hblock : Inside (hole.1 + pad hole.1 (max align holeAlign), max size holeBytes) hole := by
    unfold Inside
    simp only
    omega
  rcases cut_cases (roundedSize size align) (max align holeAlign) hole with hc | ⟨new, hc⟩
  · rw [hc]
    refine ⟨List.pairwise_singleton _ _, fun e he => ?_⟩
    rw [List.mem_singleton.1 he]
    exact hblock
  · obtain ⟨h1, h2, -⟩ := cut_inside hf (hc ▸ List.mem_singleton_self new)
    have hnew : Inside new hole := by
      unfold Inside
      omega
    have hapart : Apart new (hole.1 + pad hole.1 (max align holeAlign), max size holeBytes) := by
      unfold Apart
      simp only
      omega
    rw [hc]
    refine ⟨by simpa using hapart, fun e he => ?_⟩
    rcases List.mem_cons.1 he with rfl | he
    · exact hnew
    · rw [List.mem_singleton.1 he]
      exact hblock

omit hlt htop in
private theorem align_dvd {size align : Nat} (hl : ValidLayout size align) (x : Nat) :
    align ∣ x + pad x (max align holeAlign) := by
  obtain ⟨k, hk, -⟩ := hl.align_pow
  obtain ⟨j, hj⟩ := hl.pow
  have hjk : j ≤ k := by
    refine (Nat.pow_le_pow_iff_right (a := 2) (by decide)).1 ?_
    rw [← hj, ← hk]
    exact Nat.le_max_left _ _
  have hdvd : align ∣ max align holeAlign := by
    rw [hk, hj]
    exact Nat.pow_dvd_pow 2 hjk
  exact hdvd.trans (dvd_add_pad x (hk ▸ Nat.two_pow_pos k))

/-- `alloc_raw` keeps the invariant. -/
theorem HeapInv.alloc (hi : HeapInv start n s holes) {size align fuel : Nat} (hl : ValidLayout size align)
    {r : Option Nat} {h : Heap} (hr : s.heap.allocRaw size align fuel = some (r, h)) :
    HeapInv start n ⟨h, (r.toList.map fun p => ⟨p, size, align⟩) ++ s.live⟩
      (((allocHoles (roundedSize size align) (max align holeAlign) holes).map Prod.snd).getD holes) := by
  obtain ⟨h', -, hany, hholds, -⟩ := hl.allocRaw_refines hi.holds (hi.good hlt htop)
  have heq := hany fuel (r, h) hr
  cases hres : allocHoles (roundedSize size align) (max align holeAlign) holes with
  | none =>
    rw [hres] at heq hholds
    cases heq
    exact ⟨hholds, hi.big, hi.inside, hi.apart, hi.aligned⟩
  | some res =>
    obtain ⟨p, holes'⟩ := res
    rw [hres] at heq hholds
    cases heq
    obtain ⟨before, hole, after, rfl, -, hf, rfl, rfl⟩ := allocHoles_some hres
    obtain ⟨hnew, hinside⟩ := cut_extents hf
    have hold : (before ++ hole :: after ++ s.live.map Allocation.extent).Perm
        (hole :: (before ++ after ++ s.live.map Allocation.extent)) := by
      rw [List.append_assoc, List.append_assoc]
      exact List.perm_middle
    -- the block and the cut take the place of the hole
    have hperm : (cut (roundedSize size align) (max align holeAlign) hole ++
          [(hole.1 + pad hole.1 (max align holeAlign), max size holeBytes)] ++
          (before ++ after ++ s.live.map Allocation.extent)).Perm
        (before ++ (cut (roundedSize size align) (max align holeAlign) hole ++ after) ++
          (hole.1 + pad hole.1 (max align holeAlign), max size holeBytes) :: s.live.map Allocation.extent) := by
      rw [List.perm_iff_count]
      intro e
      simp only [List.count_append, List.count_cons, List.count_nil]
      omega
    refine ⟨hholds, ?_, ?_, pairwise_perm (pairwise_cut (pairwise_perm hi.apart hold) hnew hinside) hperm, ?_⟩
    · intro e he
      rcases List.mem_append.1 he with hb | hca
      · exact hi.big e (by simp [hb])
      · rcases List.mem_append.1 hca with hc | ha
        · exact (cut_inside hf hc).2.2
        · exact hi.big e (by simp [ha])
    · intro e he
      rcases List.mem_append.1 (hperm.mem_iff.2 he) with hnew | hother
      · have hh := hi.inside hole (by simp)
        have he' := hinside e hnew
        unfold Inside at *
        omega
      · exact hi.inside e (hold.mem_iff.2 (List.mem_cons_of_mem hole hother))
    · intro a ha
      rcases List.mem_cons.1 ha with rfl | ha
      · exact align_dvd hl hole.1
      · exact hi.aligned a ha

/-- `dealloc_raw` of a live pointer keeps the invariant. -/
theorem HeapInv.dealloc (hi : HeapInv start n s holes) {a : Allocation} (ha : a ∈ s.live) :
    HeapInv start n ⟨s.heap.deallocRaw a.ptr a.size a.align, s.live.erase a⟩ (a.extent :: holes) := by
  have hperm : (holes ++ s.live.map Allocation.extent).Perm
      (a.extent :: holes ++ (s.live.erase a).map Allocation.extent) :=
    (((List.perm_cons_erase ha).map _).append_left holes).trans List.perm_middle
  have hbound := hi.inside a.extent (List.mem_append_right _ (List.mem_map_of_mem ha))
  have hsize : max a.size holeBytes < 2 ^ 64 := by
    unfold Inside Allocation.extent at hbound
    simp only at hbound
    omega
  refine ⟨⟨rfl, sizeAt_writeHole hsize, ?_⟩, ?_, ?_, pairwise_perm hi.apart hperm, ?_⟩
  · have hhead := links_lt hi.holds (hi.good hlt htop)
    show Links (writeHole s.heap.mem a.ptr (max a.size holeBytes) s.heap.head)
      (nextAt (writeHole s.heap.mem a.ptr (max a.size holeBytes) s.heap.head) a.ptr) holes none
    rw [nextAt_writeHole hhead]
    refine links_congr hi.holds fun hole hm x hx => writeHole_outside ?_
    exact (hi.header_apart hlt htop hm ha a.header_inside).not_contains hx
  · intro hole hm
    rcases List.mem_cons.1 hm with rfl | hm
    · exact Nat.le_max_right _ _
    · exact hi.big hole hm
  · intro e he
    exact hi.inside e (hperm.mem_iff.2 he)
  · intro b hb
    exact hi.aligned b (List.mem_of_mem_erase hb)

/-- The owners' writes keep the invariant. -/
theorem HeapInv.write (hi : HeapInv start n s holes) {m : Memory}
    (hm : ∀ x, (∀ a ∈ s.live, ¬ Contains a.bytes x) → m x = s.heap.mem x) :
    HeapInv start n ⟨{ s.heap with mem := m }, s.live⟩ holes := by
  refine ⟨links_congr hi.holds fun hole hh x hx => hm x fun a ha => ?_, hi.big, hi.inside, hi.apart, hi.aligned⟩
  exact (hi.header_apart hlt htop hh ha a.bytes_inside).not_contains hx

/-- The invariant holds in every run. -/
theorem HeapRun.inv (hn : holeBytes ≤ n) (hr : HeapRun start n s) : ∃ holes, HeapInv start n s holes := by
  induction hr with
  | init m => exact ⟨_, HeapInv.init hn hlt m⟩
  | alloc _ hl ha ih =>
    obtain ⟨holes, hi⟩ := ih
    exact ⟨_, hi.alloc hlt htop hl ha⟩
  | dealloc _ ha ih =>
    obtain ⟨holes, hi⟩ := ih
    exact ⟨_, hi.dealloc hlt htop ha⟩
  | write _ hm ih =>
    obtain ⟨holes, hi⟩ := ih
    exact ⟨holes, hi.write hlt htop hm⟩

end Preservation

/-! ### The safety of the heap -/

/-- What a heap on the `n` bytes from `start` on promises in a state whose free list consists of `holes`. -/
structure HeapSafe (start n : Nat) (s : HeapState) (holes : List (Nat × Nat)) : Prop where
  /-- The list is finite: following it from the head visits these holes and ends. -/
  finite : s.heap.Holds holes
  acyclic : (holes.map Prod.fst).Nodup
  big : ∀ hole ∈ holes, holeBytes ≤ hole.2
  aligned : ∀ a ∈ s.live, a.align ∣ a.ptr
  inside : ∀ e ∈ holes ++ s.live.map Allocation.bytes, Inside e (start, n)
  apart : (holes ++ s.live.map Allocation.bytes).Pairwise Apart
  /-- `alloc_raw` ends, and its writes touch no live allocation. -/
  alloc : ∀ size align, ValidLayout size align → ∃ r h, (∀ fuel, holes.length < fuel →
    s.heap.allocRaw size align fuel = some (r, h)) ∧ ∀ a ∈ s.live, ∀ x, Contains a.bytes x → h.mem x = s.heap.mem x
  /-- Those of `dealloc_raw` touch no other live allocation. -/
  dealloc : ∀ a ∈ s.live, ∀ b ∈ s.live.erase a, ∀ x, Contains b.bytes x →
    (s.heap.deallocRaw a.ptr a.size a.align).mem x = s.heap.mem x

private theorem nodup_starts {holes : List (Nat × Nat)} (hg : GoodHoles holes) : (holes.map Prod.fst).Nodup := by
  rw [List.nodup_iff_pairwise_ne, List.pairwise_map]
  refine hg.apart.imp_of_mem fun {e f} he hf hap heq => ?_
  have h1 := hg.big e he
  have h2 := hg.big f hf
  unfold Apart at hap
  unfold holeBytes at h1 h2
  omega

private theorem bytes_apart {holes : List (Nat × Nat)} {live : List Allocation}
    (h : (holes ++ live.map Allocation.extent).Pairwise Apart) :
    (holes ++ live.map Allocation.bytes).Pairwise Apart := by
  obtain ⟨h1, h2, h3⟩ := List.pairwise_append.1 h
  rw [List.pairwise_map] at h2
  refine List.pairwise_append.2 ⟨h1, List.pairwise_map.2 (h2.imp fun {a b} hab => ?_), fun e he f hf => ?_⟩
  · exact ((hab.inside a.bytes_inside).symm.inside b.bytes_inside).symm
  · obtain ⟨a, ha, rfl⟩ := List.mem_map.1 hf
    exact ((h3 e he _ (List.mem_map_of_mem ha)).symm.inside a.bytes_inside).symm

/-- In every state of every run on a region with room for a header, whatever its alignment, the heap is safe. -/
theorem heap_safety {start n : Nat} (hn : holeBytes ≤ n) (hlt : n < 2 ^ 64) (htop : start + n ≤ 2 ^ 64)
    {s : HeapState} (hr : HeapRun start n s) : ∃ holes, HeapSafe start n s holes := by
  obtain ⟨holes, hi⟩ := hr.inv hlt htop hn
  have hg := hi.good hlt htop
  refine ⟨holes, hi.holds, nodup_starts hg, hi.big, hi.aligned, ?_, bytes_apart hi.apart, ?_, ?_⟩
  · intro e he
    rcases List.mem_append.1 he with hh | hl
    · exact hi.inside e (List.mem_append_left _ hh)
    · obtain ⟨a, ha, rfl⟩ := List.mem_map.1 hl
      have hin := hi.inside a.extent (List.mem_append_right _ (List.mem_map_of_mem ha))
      have hb := a.bytes_inside
      unfold Inside at *
      omega
  · intro size align hl
    obtain ⟨h, hrun, -, -, hframe⟩ := hl.allocRaw_refines hi.holds hg
    refine ⟨_, h, hrun, fun a ha x hx => hframe x fun hole hm => ?_⟩
    exact (hi.hole_apart hm ha a.bytes_inside).symm.not_contains hx
  · intro a ha b hb x hx
    have hperm := (List.perm_cons_erase ha).map Allocation.extent
    have hap := List.pairwise_cons.1 (pairwise_perm (List.pairwise_append.1 hi.apart).2.1 hperm)
    have hab : Apart a.extent b.extent := hap.1 _ (List.mem_map_of_mem hb)
    exact writeHole_outside (((hab.inside a.header_inside).symm.inside b.bytes_inside).not_contains hx)

private theorem oddStart_alloc :
    ((Heap.init (fun _ => 0) 3 200).allocRaw 25 16 2).map Prod.fst = some (some 16) := by
  decide +kernel

/-- A region that is not aligned: the first block lies behind the padding. -/
theorem heap_safety_oddStart : ∃ s, HeapRun 3 200 s ∧ s.live = [⟨16, 25, 16⟩] ∧ ∃ holes, HeapSafe 3 200 s holes := by
  obtain ⟨r, hr, hp⟩ := Option.map_eq_some_iff.1 oddStart_alloc
  obtain ⟨p, h⟩ := r
  cases hp
  have hinit : HeapRun 3 200 _ := HeapRun.init fun _ => 0
  have hrun := hinit.alloc ⟨⟨4, rfl⟩, by decide⟩ hr
  exact ⟨_, hrun, rfl, heap_safety (by decide) (by decide) (by decide) hrun⟩

end Hammam
