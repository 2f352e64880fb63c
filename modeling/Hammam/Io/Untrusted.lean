import Mathlib.Data.List.TakeWhile
import Hammam.Io.Ring

/-!
# Submission rings with arbitrary counters (`process_sq`)

The header of the submission ring lies in memory that user space can write.  The loop of `process_sq` runs from `head`
to `tail` without a look at the number of entries: it stops early only at a slot outside of the slice.
-/

namespace Hammam

open WrapRing

/-- The slots whose submissions one call of `process_sq` executes, in order. -/
def executedSlots (sq : RingHeader) (sqEntries : List SqEntry) : List Nat :=
  if _ : sq.isEmpty then []
  else
    match sqEntries[sq.pop.2.index sq.pop.1]? with
    | none => []
    | some _ => sq.pop.2.index sq.pop.1 :: executedSlots sq.pop.2 sqEntries
termination_by sq.len.toNat
decreasing_by exact len_pop (by assumption)

/-- The completions are those of the executed slots. -/
theorem processSq_eq_foldl (sq : RingHeader) (sqEntries : List SqEntry) (cq : RingHeader) (cqEntries : List CqEntry) :
    (processSq sq sqEntries cq cqEntries).2 =
      ((executedSlots sq sqEntries).filterMap (sqEntries[·]?)).foldl (fun p sqe => postCompletion p.1 p.2 sqe)
        (cq, cqEntries) := by
  fun_induction processSq sq sqEntries cq cqEntries with
  | case1 sq cq cqEntries hempty => rw [executedSlots, dif_pos hempty, List.filterMap_nil, List.foldl_nil]
  | case2 sq cq cqEntries hempty hnone =>
    rw [executedSlots, dif_neg hempty, hnone]
    rfl
  | case3 sq cq cqEntries hempty sqe hsome posted ih =>
    rw [executedSlots, dif_neg hempty]
    simp only [hsome]
    rw [List.filterMap_cons_some hsome, List.foldl_cons]
    exact ih

section Sized

variable {sq : RingHeader} {sqEntries : List SqEntry}

private theorem index_pop (hsq : sq.Sized) : sq.pop.2.index sq.pop.1 = sq.head.toNat % sq.entries.toNat := by
  have h := hsq.index sq.head.toNat
  rwa [UInt32.ofNat_toNat] at h

private theorem len_succ (h : ¬ sq.isEmpty = true) : sq.len.toNat = sq.pop.2.len.toNat + 1 := by
  have hne : sq.len.toNat ≠ 0 := by
    intro h0
    apply h
    rw [RingHeader.isEmpty, beq_iff_eq, ← UInt32.toNat_inj, h0]
    rfl
  have h1 := sq.tail.toNat_lt
  have h2 := sq.head.toNat_lt
  simp only [RingHeader.len, RingHeader.pop, UInt32.toNat_sub, UInt32.toNat_add] at *
  have : (1 : UInt32).toNat = 1 := rfl
  omega

private theorem window_pop (hsq : sq.Sized) (n : Nat) :
    window id sq.entries.toNat (sq.head + 1).toNat n = window id sq.entries.toNat (sq.head.toNat + 1) n := by
  obtain ⟨k, hk, he, -⟩ := hsq
  rw [UInt32.toNat_add, he]
  exact window_mod (Nat.pow_dvd_pow 2 (by omega)) id _ n

/-- The loop goes through the slots from `head` to `tail`, up to the first one outside of the slice. -/
theorem executedSlots_eq (hsq : sq.Sized) :
    executedSlots sq sqEntries =
      (window id sq.entries.toNat sq.head.toNat sq.len.toNat).takeWhile fun i => i < sqEntries.length := by
  fun_induction executedSlots sq sqEntries with
  | case1 sq hempty =>
    have h0 : sq.len = 0 := by simpa [RingHeader.isEmpty] using hempty
    rw [h0]
    rfl
  | case2 sq hempty hnone =>
    rw [index_pop hsq, List.getElem?_eq_none_iff] at hnone
    rw [len_succ hempty, window_succ, List.takeWhile_cons_of_neg]
    simpa using hnone
  | case3 sq hempty sqe hsome ih =>
    have hlt := (List.getElem?_eq_some_iff.1 hsome).1
    rw [index_pop hsq] at hlt ⊢
    rw [ih hsq, len_succ hempty, window_succ, List.takeWhile_cons_of_pos (by simpa using hlt)]
    show _ = id _ :: _
    rw [← window_pop hsq]
    rfl

private theorem nodup_window {c a n : Nat} (h : n ≤ c) : (window id c a n).Nodup := by
  refine List.Nodup.map_on (fun i hi j hj hij => ?_) List.nodup_range
  rw [List.mem_range] at hi hj
  have := slot_injOn (a := a) (by omega) (by omega) (by omega) (by omega) hij
  omega

/-- Every slot comes up in a whole turn. -/
private theorem mem_window {c a i n : Nat} (hi : i < c) (hn : c ≤ n) : i ∈ window id c a n := by
  have hr : a % c < c := Nat.mod_lt _ (by omega)
  have ha := Nat.div_add_mod a c
  rw [window, List.mem_map]
  by_cases hle : a % c ≤ i
  · refine ⟨i - a % c, List.mem_range.2 (by omega), ?_⟩
    rw [show a + (i - a % c) = c * (a / c) + i by omega, id, Nat.mul_add_mod, Nat.mod_eq_of_lt hi]
  · refine ⟨i + c - a % c, List.mem_range.2 (by omega), ?_⟩
    have hsum : a + (i + c - a % c) = c * (a / c + 1) + i := by
      rw [Nat.mul_succ]
      omega
    rw [hsum, id, Nat.mul_add_mod, Nat.mod_eq_of_lt hi]

/-- The executed slots are the first `k` ones. -/
private theorem takeWhile_window (c a n : Nat) (p : Nat → Bool) :
    ∃ k ≤ n, (window id c a n).takeWhile p = window id c a k := by
  have hpre := List.takeWhile_prefix p (l := window id c a n)
  have hlen := hpre.length_le
  rw [length_window] at hlen
  refine ⟨_, hlen, (List.prefix_iff_eq_take.1 hpre).trans ?_⟩
  generalize ((window id c a n).takeWhile p).length = k at hlen
  rw [window, ← List.map_take, List.take_range, Nat.min_eq_left hlen, window]

/-- No slot of the ring is outside of a slice that is as long. -/
private theorem takeWhile_window_self {c size : Nat} (hpos : 0 < c) (h : c ≤ size) (a n : Nat) :
    (window id c a n).takeWhile (fun i => i < size) = window id c a n := by
  rw [List.takeWhile_eq_self_iff]
  intro i hi
  obtain ⟨j, -, rfl⟩ := List.mem_map.1 hi
  have hlt : (a + j) % c < c := Nat.mod_lt _ hpos
  simp only [id, decide_eq_true_eq]
  omega

private theorem executedSlots_bounded_iff (hsq : sq.Sized) :
    ((executedSlots sq sqEntries).length ≤ sq.entries.toNat ∧ (executedSlots sq sqEntries).Nodup) ↔
      sq.len ≤ sq.entries ∨ sqEntries.length < sq.entries.toNat := by
  rw [executedSlots_eq hsq, UInt32.le_iff_toNat_le]
  have hpos := hsq.entries_pos
  generalize sq.entries.toNat = c at *
  generalize sq.len.toNat = n
  generalize sq.head.toNat = a
  generalize sqEntries.length = size
  obtain ⟨k, hk, hwin⟩ := takeWhile_window c a n fun i => i < size
  have hbounded : ((window id c a k).length ≤ c ∧ (window id c a k).Nodup) ↔ k ≤ c := by
    rw [length_window]
    exact ⟨fun h => h.1, fun h => ⟨h, nodup_window h⟩⟩
  rw [hwin, hbounded]
  constructor
  · intro hkc
    by_cases hsize : size < c
    · exact .inr hsize
    · have hlen := congrArg List.length ((takeWhile_window_self hpos (Nat.le_of_not_lt hsize) a n).symm.trans hwin)
      rw [length_window, length_window] at hlen
      omega
  · rintro (hn | hsize)
    · omega
    · refine Nat.le_of_not_lt fun hck => ?_
      have hmem : size ∈ window id c a k := mem_window hsize (by omega)
      rw [← hwin] at hmem
      have := List.mem_takeWhile_imp hmem
      simp at this

/-- A call executes every slot at most once, and at most as many as there are, exactly if `tail` is at most `entries`
ahead of `head`, or the slice is shorter than the ring, in which case the loop stops at its end. -/
theorem processSq_bounded_iff (hsq : sq.Sized) (cq : RingHeader) (cqEntries : List CqEntry) :
    (processSq sq sqEntries cq cqEntries).2 =
        ((executedSlots sq sqEntries).filterMap (sqEntries[·]?)).foldl (fun p sqe => postCompletion p.1 p.2 sqe)
          (cq, cqEntries) ∧
      (((executedSlots sq sqEntries).length ≤ sq.entries.toNat ∧ (executedSlots sq sqEntries).Nodup) ↔
        sq.len ≤ sq.entries ∨ sqEntries.length < sq.entries.toNat) :=
  ⟨processSq_eq_foldl sq sqEntries cq cqEntries, executedSlots_bounded_iff hsq⟩

end Sized

/-- Two pending submissions across the wrap of the counters. -/
theorem processSq_bounded_iff_wrap :
    (executedSlots ⟨0xFFFFFFFF, 1, 1, 2⟩ [⟨opNop, 0, 9⟩, ⟨opWrite, 5, 8⟩]).Nodup :=
  ((@processSq_bounded_iff ⟨0xFFFFFFFF, 1, 1, 2⟩ [⟨opNop, 0, 9⟩, ⟨opWrite, 5, 8⟩] ⟨1, by decide, by decide, by decide⟩
    (.new 2) []).2.2 (.inl (by decide))).2

/-- With `tail` three ahead of `head` in a ring of two entries, slot 0 is executed twice. -/
theorem executedSlots_twice :
    let sq : RingHeader := ⟨0, 3, 1, 2⟩
    let slots := executedSlots sq [⟨opNop, 0, 9⟩, ⟨opWrite, 5, 8⟩]
    sq.Sized ∧ slots = [0, 1, 0] ∧ ¬ (slots.length ≤ sq.entries.toNat ∧ slots.Nodup) := by
  intro sq slots
  have hsized : sq.Sized := ⟨1, by decide, by decide, by decide⟩
  have hslots : slots = [0, 1, 0] := by
    rw [show slots = _ from executedSlots_eq hsized]
    decide
  refine ⟨hsized, hslots, ?_⟩
  rw [hslots]
  decide

end Hammam
