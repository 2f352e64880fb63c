import Mathlib.Algebra.Order.Ring.Nat
import Mathlib.Data.List.Basic
import Mathlib.Data.List.Induction
import Mathlib.Logic.Function.Basic

/-!
# Copying bytes in user space (`net-server/src/main.rs`, `posix-compat/src/lib.rs`)

Pointers are addresses of 64 bits, and `add` is addition modulo `2 ^ 64`.  `memmove` copies from the end if the
source lies below the destination.  `strncpy` pads with zeros behind the end of the string, by a pointer that has
already been advanced.
-/

namespace Hammam

namespace Userspace

abbrev Ptr := BitVec 64

/-- `p.add(i)`. -/
def Ptr.add (p : Ptr) (i : Nat) : Ptr := p + BitVec.ofNat 64 i

theorem Ptr.add_zero (p : Ptr) : Ptr.add p 0 = p := BitVec.add_zero p

theorem Ptr.add_add (p : Ptr) (i j : Nat) : Ptr.add (Ptr.add p i) j = Ptr.add p (i + j) := by
  simp only [Ptr.add, BitVec.ofNat_add, BitVec.add_assoc]

theorem Ptr.toNat_add {p : Ptr} {i : Nat} (h : p.toNat + i < 2 ^ 64) : (Ptr.add p i).toNat = p.toNat + i := by
  rw [Ptr.add, BitVec.toNat_add, BitVec.toNat_ofNat, Nat.add_mod_mod, Nat.mod_eq_of_lt h]

theorem Ptr.add_inj {p : Ptr} {i j : Nat} (hi : i < 2 ^ 64) (hj : j < 2 ^ 64) (h : Ptr.add p i = Ptr.add p j) :
    i = j := by
  have he := congrArg BitVec.toNat (BitVec.add_right_inj p |>.1 h)
  rwa [BitVec.toNat_ofNat, BitVec.toNat_ofNat, Nat.mod_eq_of_lt hi, Nat.mod_eq_of_lt hj] at he

/-! ### memmove -/

/-- One turn of either loop. -/
def copyByte (dest src : Ptr) (m : Ptr → UInt8) (i : Nat) : Ptr → UInt8 :=
  Function.update m (dest.add i) (m (src.add i))

/-- `memmove`: the pointer that is returned and the memory afterwards. -/
def memmove (m : Ptr → UInt8) (dest src : Ptr) (n : Nat) : Ptr × (Ptr → UInt8) :=
  (dest, if src < dest then (List.range n).reverse.foldl (copyByte dest src) m
    else (List.range n).foldl (copyByte dest src) m)

section Memmove

variable {m : Ptr → UInt8} {dest src : Ptr} {n : Nat}

/-- A loop that does not read what it has written before copies the bytes of its indices and no others. -/
private theorem foldl_copyByte {l : List Nat} (hl : ∀ i ∈ l, i < 2 ^ 64)
    (hsafe : l.Pairwise fun j i => dest.add j ≠ src.add i) :
    (∀ i ∈ l, l.foldl (copyByte dest src) m (dest.add i) = m (src.add i)) ∧
      ∀ x, (∀ i ∈ l, x ≠ dest.add i) → l.foldl (copyByte dest src) m x = m x := by
  induction l using List.reverseRecOn with
  | nil => simp
  | append_singleton l i ih =>
    rw [List.pairwise_append] at hsafe
    obtain ⟨hcopied, hframe⟩ := ih (fun j hj => hl j (by simp [hj])) hsafe.1
    -- the source of this turn has not been written
    have hsrc : l.foldl (copyByte dest src) m (src.add i) = m (src.add i) :=
      hframe _ fun j hj => (hsafe.2.2 j hj i (by simp)).symm
    rw [List.foldl_append, List.foldl_cons, List.foldl_nil, copyByte, hsrc]
    constructor
    · intro j hj
      by_cases hij : j = i
      · rw [hij, Function.update_self]
      · have hmem : j ∈ l := by simpa [hij] using hj
        rw [Function.update_of_ne, hcopied j hmem]
        intro he
        exact hij (Ptr.add_inj (hl j hj) (hl i (by simp)) he)
    · intro x hx
      rw [Function.update_of_ne (hx i (by simp)), hframe x fun j hj => hx j (by simp [hj])]

private theorem memmove_loop (hd : dest.toNat + n ≤ 2 ^ 64) (hs : src.toNat + n ≤ 2 ^ 64) :
    ∃ l : List Nat, (memmove m dest src n).2 = l.foldl (copyByte dest src) m ∧ (∀ i, i ∈ l ↔ i < n) ∧
      l.Pairwise fun j i => dest.add j ≠ src.add i := by
  have hne : ∀ {i j}, i < n → j < n → dest.toNat + j ≠ src.toNat + i → dest.add j ≠ src.add i := by
    intro i j hi hj hij he
    have := congrArg BitVec.toNat he
    rw [Ptr.toNat_add (by omega), Ptr.toNat_add (by omega)] at this
    exact hij this
  unfold memmove
  by_cases hlt : src < dest
  · have hlt' : src.toNat < dest.toNat := BitVec.lt_def.1 hlt
    refine ⟨(List.range n).reverse, if_pos hlt, by simp, ?_⟩
    rw [List.pairwise_reverse]
    refine List.pairwise_lt_range.imp_of_mem fun {i j} hi hj hij => hne (List.mem_range.1 hi) (List.mem_range.1 hj) ?_
    omega
  · have hle : dest.toNat ≤ src.toNat := Nat.le_of_not_lt fun h => hlt (BitVec.lt_def.2 h)
    refine ⟨List.range n, if_neg hlt, by simp, ?_⟩
    refine List.pairwise_lt_range.imp_of_mem fun {j i} hj hi hji => hne (List.mem_range.1 hi) (List.mem_range.1 hj) ?_
    omega

/-- For ranges that do not wrap around, however they overlap, the destination gets what the source held before, and
nothing else changes. -/
theorem memmove_correct (hd : dest.toNat + n ≤ 2 ^ 64) (hs : src.toNat + n ≤ 2 ^ 64) :
    (memmove m dest src n).1 = dest ∧
      (∀ i < n, (memmove m dest src n).2 (dest.add i) = m (src.add i)) ∧
      ∀ x : Ptr, x.toNat < dest.toNat ∨ dest.toNat + n ≤ x.toNat → (memmove m dest src n).2 x = m x := by
  obtain ⟨l, hl, hmem, hsafe⟩ := memmove_loop (m := m) hd hs
  obtain ⟨hcopied, hframe⟩ := foldl_copyByte (m := m) (fun i hi => by have := (hmem i).1 hi; omega) hsafe
  refine ⟨rfl, fun i hi => ?_, fun x hx => ?_⟩
  · rw [hl, hcopied i ((hmem i).2 hi)]
  · rw [hl, hframe x]
    intro i hi he
    have hi' := (hmem i).1 hi
    rw [he, Ptr.toNat_add (by omega)] at hx
    omega

end Memmove

/-- Four bytes are moved up by one. -/
theorem memmove_correct_overlap :
    (memmove (fun p => UInt8.ofNat p.toNat) 0x1001 0x1000 4).2 (Ptr.add 0x1001 3) = 3 :=
  (@memmove_correct (fun p => UInt8.ofNat p.toNat) 0x1001 0x1000 4 (by decide) (by decide)).2.1 3 (by decide)

/-! ### strncpy -/

/-- Memory, with the addresses that have been read and written so far. -/
structure Trace where
  mem : Ptr → UInt8
  reads : List Ptr
  writes : List Ptr

namespace Trace

def start (m : Ptr → UInt8) : Trace := ⟨m, [], []⟩

def read (t : Trace) (p : Ptr) : UInt8 × Trace := (t.mem p, { t with reads := p :: t.reads })

def write (t : Trace) (p : Ptr) (b : UInt8) : Trace :=
  { t with mem := Function.update t.mem p b, writes := p :: t.writes }

end Trace

/-- The loop that pads with zeros behind the byte `i`, which is at `ptrDest`. -/
def padLoop (n i : Nat) (ptrDest : Ptr) (t : Trace) : Trace :=
  (List.range' (i + 1) (n - (i + 1))).foldl (fun t j => t.write (ptrDest.add (j - i)) 0) t

def strncpyLoop (n i : Nat) (ptrSrc ptrDest : Ptr) (t : Trace) : Trace :=
  if i < n then
    let c := (t.read ptrSrc).1
    let t := (t.read ptrSrc).2.write ptrDest c
    if c = 0 then padLoop n i ptrDest t else strncpyLoop n (i + 1) (ptrSrc.add 1) (ptrDest.add 1) t
  else t
termination_by n - i

/-- `strncpy`: the pointer that is returned and the memory afterwards. -/
def strncpy (t : Trace) (dest src : Ptr) (n : Nat) : Ptr × Trace :=
  if dest = 0 ∨ src = 0 then (dest, t) else (dest, strncpyLoop n 0 src dest t)

/-- The index of the first NUL in the string at `src`, `n` if none occurs before. -/
def firstNul (m : Ptr → UInt8) (src : Ptr) (n : Nat) : Nat := (List.range n).findIdx fun i => m (src.add i) = 0

/-- The bytes of `dest` with an index in `l` have been written, each with the value of `f`, and no others. -/
structure Filled (m : Ptr → UInt8) (dest : Ptr) (l : List Nat) (f : Nat → UInt8) (t : Trace) : Prop where
  done : ∀ i ∈ l, t.mem (dest.add i) = f i
  frame : ∀ x, (∀ i ∈ l, x ≠ dest.add i) → t.mem x = m x
  writes : ∀ a ∈ t.writes, ∃ i ∈ l, a = dest.add i

namespace Filled

variable {m : Ptr → UInt8} {dest : Ptr} {l : List Nat} {f : Nat → UInt8} {t : Trace}

theorem start (m : Ptr → UInt8) (dest : Ptr) (f : Nat → UInt8) : Filled m dest [] f (.start m) := by
  refine ⟨by simp, fun _ _ => rfl, by simp [Trace.start]⟩

theorem read (h : Filled m dest l f t) (p : Ptr) : Filled m dest l f (t.read p).2 := ⟨h.done, h.frame, h.writes⟩

/-- One more byte is written. -/
theorem write (h : Filled m dest l f t) (hl : ∀ j ∈ l, j < 2 ^ 64) {i : Nat} (hi : i < 2 ^ 64) :
    Filled m dest (l ++ [i]) f (t.write (dest.add i) (f i)) := by
  refine ⟨?_, ?_, ?_⟩
  · intro j hj
    simp only [Trace.write]
    by_cases hij : j = i
    · rw [hij, Function.update_self]
    · have hmem : j ∈ l := by simpa [hij] using hj
      rw [Function.update_of_ne, h.done j hmem]
      intro he
      exact hij (Ptr.add_inj (hl j hmem) hi he)
  · intro x hx
    simp only [Trace.write]
    rw [Function.update_of_ne (hx i (by simp)), h.frame x fun j hj => hx j (by simp [hj])]
  · intro a ha
    rcases List.mem_cons.1 ha with rfl | ha
    · exact ⟨i, by simp, rfl⟩
    · obtain ⟨j, hj, rfl⟩ := h.writes a ha
      exact ⟨j, by simp [hj], rfl⟩

/-- A whole list of bytes is written, `f` being the constant `b` on it. -/
theorem foldl_write (h : Filled m dest l f t) (hl : ∀ j ∈ l, j < 2 ^ 64) (b : UInt8) {l' : List Nat}
    (hl' : ∀ j ∈ l', j < 2 ^ 64 ∧ f j = b) :
    Filled m dest (l ++ l') f (l'.foldl (fun t j => t.write (dest.add j) b) t) := by
  induction l' generalizing l t with
  | nil => simpa using h
  | cons i l' ih =>
    have hi := hl' i (by simp)
    have hw := h.write hl hi.1
    rw [hi.2] at hw
    have hli : ∀ j ∈ l ++ [i], j < 2 ^ 64 := by
      intro j hj
      rcases List.mem_append.1 hj with hj | hj
      · exact hl j hj
      · simpa using (List.mem_singleton.1 hj) ▸ hi.1
    simpa using ih hw hli fun j hj => hl' j (by simp [hj])

end Filled

section Strncpy

variable {m : Ptr → UInt8} {dest src : Ptr} {n : Nat}

theorem firstNul_le : firstNul m src n ≤ n := by
  have h : firstNul m src n ≤ (List.range n).length := List.findIdx_le_length
  rwa [List.length_range] at h

theorem ne_zero_of_lt_firstNul {i : Nat} (h : i < firstNul m src n) : m (src.add i) ≠ 0 := by
  simpa using List.not_of_lt_findIdx h

theorem eq_zero_at_firstNul (h : firstNul m src n < n) : m (src.add (firstNul m src n)) = 0 := by
  unfold firstNul at h ⊢
  have hlt := Nat.lt_of_lt_of_eq h List.length_range.symm
  simpa using List.findIdx_getElem (w := hlt)

/-- The byte of the destination that `strncpy` is to write. -/
def copiedOrZero (m : Ptr → UInt8) (src : Ptr) (n i : Nat) : UInt8 :=
  if i < firstNul m src n then m (src.add i) else 0

/-- Up to the first NUL this is the byte of the source. -/
theorem copiedOrZero_eq {i : Nat} (hi : i ≤ firstNul m src n) (hin : i < n) :
    copiedOrZero m src n i = m (src.add i) := by
  unfold copiedOrZero
  split
  · rfl
  · have he : i = firstNul m src n := by omega
    rw [he]
    exact (eq_zero_at_firstNul (he ▸ hin)).symm

theorem padLoop_reads (i : Nat) (p : Ptr) (t : Trace) : (padLoop n i p t).reads = t.reads := by
  unfold padLoop
  generalize List.range' (i + 1) (n - (i + 1)) = l
  induction l generalizing t with
  | nil => rfl
  | cons j l ih => exact ih _

/-- The pointer of the padding loop stands at the NUL, and `j - i` leads to the byte `j`. -/
private theorem padLoop_filled (hn : n < 2 ^ 64) {i : Nat} {t : Trace}
    (h : Filled m dest (List.range (i + 1)) (copiedOrZero m src n) t) (hk : firstNul m src n ≤ i) (hin : i < n) :
    Filled m dest (List.range n) (copiedOrZero m src n) (padLoop n i (dest.add i) t) := by
  have hrange : List.range (i + 1) ++ List.range' (i + 1) (n - (i + 1)) = List.range n := by
    have hsum : i + 1 + (n - (i + 1)) = n := by omega
    have happ := List.range'_append_1 (s := 0) (m := i + 1) (n := n - (i + 1))
    rwa [Nat.zero_add, hsum, ← List.range_eq_range', ← List.range_eq_range'] at happ
  have hpad : padLoop n i (dest.add i) t =
      (List.range' (i + 1) (n - (i + 1))).foldl (fun t j => t.write (dest.add j) 0) t := by
    unfold padLoop
    refine List.foldl_ext _ _ _ fun t j hj => ?_
    have hij : i + 1 ≤ j := (List.mem_range'_1.1 hj).1
    rw [Ptr.add_add]
    congr 2
    omega
  rw [hpad, ← hrange]
  refine h.foldl_write (fun j hj => ?_) 0 fun j hj => ?_
  · have := List.mem_range.1 hj
    omega
  · have := List.mem_range'_1.1 hj
    exact ⟨by omega, if_neg (by omega)⟩

/-- Invariant of the loop: `i` bytes have been copied and no more than these have been read. -/
private theorem strncpyLoop_filled (hn : n < 2 ^ 64)
    (hsep : ∀ i < n, ∀ j ≤ firstNul m src n, j < n → dest.add i ≠ src.add j) {i : Nat} {t : Trace}
    (h : Filled m dest (List.range i) (copiedOrZero m src n) t) (hi : i ≤ firstNul m src n)
    (hr : ∀ a ∈ t.reads, ∃ j ≤ firstNul m src n, j < n ∧ a = src.add j) :
    Filled m dest (List.range n) (copiedOrZero m src n) (strncpyLoop n i (src.add i) (dest.add i) t) ∧
      ∀ a ∈ (strncpyLoop n i (src.add i) (dest.add i) t).reads, ∃ j ≤ firstNul m src n, j < n ∧ a = src.add j := by
  have hin' := Nat.le_trans hi firstNul_le
  induction hd : n - i generalizing i t with
  | zero =>
    have hin : i = n := by omega
    rw [strncpyLoop, if_neg (by omega)]
    exact ⟨hin ▸ h, hr⟩
  | succ d ih =>
    have hin : i < n := by omega
    -- the byte read is still the one of the beginning
    have hc : t.mem (src.add i) = m (src.add i) :=
      h.frame _ fun j hj => (hsep j (by have := List.mem_range.1 hj; omega) i hi hin).symm
    have hw : Filled m dest (List.range (i + 1)) (copiedOrZero m src n)
        ((t.read (src.add i)).2.write (dest.add i) (m (src.add i))) := by
      have := (h.read (src.add i)).write (fun j hj => by have := List.mem_range.1 hj; omega) (Nat.lt_trans hin hn)
      rwa [← List.range_succ, copiedOrZero_eq hi hin] at this
    have hr' : ∀ a ∈ ((t.read (src.add i)).2.write (dest.add i) (m (src.add i))).reads,
        ∃ j ≤ firstNul m src n, j < n ∧ a = src.add j := by
      intro a ha
      rcases List.mem_cons.1 ha with rfl | ha
      · exact ⟨i, hi, hin, rfl⟩
      · exact hr a ha
    rw [strncpyLoop, if_pos hin]
    simp only [Trace.read, hc] at hw hr' ⊢
    by_cases h0 : m (src.add i) = 0
    · rw [if_pos h0]
      have hk : firstNul m src n ≤ i := Nat.le_of_not_lt fun hlt => ne_zero_of_lt_firstNul hlt h0
      exact ⟨padLoop_filled hn hw hk hin, by rwa [padLoop_reads]⟩
    · rw [if_neg h0, Ptr.add_add, Ptr.add_add]
      have hlt : i < firstNul m src n := by
        refine Nat.lt_of_le_of_ne hi fun he => h0 ?_
        rw [he]
        exact eq_zero_at_firstNul (he ▸ hin)
      exact ih hw hlt hr' (by omega) (by omega)

/-- The bytes before the first NUL are copied and all others are zero.  Nothing else is written, and no byte behind
the NUL is read. -/
theorem strncpy_exact (hn : n < 2 ^ 64) (hdest : dest ≠ 0) (hsrc : src ≠ 0)
    (hsep : ∀ i < n, ∀ j ≤ firstNul m src n, j < n → dest.add i ≠ src.add j) :
    (strncpy (.start m) dest src n).1 = dest ∧
      (∀ i < firstNul m src n, (strncpy (.start m) dest src n).2.mem (dest.add i) = m (src.add i)) ∧
      (∀ i, firstNul m src n ≤ i → i < n → (strncpy (.start m) dest src n).2.mem (dest.add i) = 0) ∧
      (∀ a ∈ (strncpy (.start m) dest src n).2.writes, ∃ i < n, a = dest.add i) ∧
      (∀ x, (∀ i < n, x ≠ dest.add i) → (strncpy (.start m) dest src n).2.mem x = m x) ∧
      ∀ a ∈ (strncpy (.start m) dest src n).2.reads, ∃ j ≤ min (firstNul m src n) (n - 1), j < n ∧ a = src.add j := by
  have hloop := strncpyLoop_filled (i := 0) hn hsep (Filled.start m dest _) (Nat.zero_le _)
    fun a ha => absurd ha List.not_mem_nil
  rw [Ptr.add_zero, Ptr.add_zero] at hloop
  obtain ⟨hfilled, hreads⟩ := hloop
  have hrun : strncpy (.start m) dest src n = (dest, strncpyLoop n 0 src dest (.start m)) :=
    if_neg (by rintro (h | h) <;> contradiction)
  rw [hrun]
  refine ⟨rfl, fun i hi => ?_, fun i hi hin => ?_, fun a ha => ?_, fun x hx => ?_, fun a ha => ?_⟩
  · have hin : i < n := Nat.lt_of_lt_of_le hi firstNul_le
    rw [hfilled.done i (List.mem_range.2 hin), copiedOrZero_eq (Nat.le_of_lt hi) hin]
  · rw [hfilled.done i (List.mem_range.2 hin), copiedOrZero, if_neg (by omega)]
  · simpa using hfilled.writes a ha
  · exact hfilled.frame x fun i hi => hx i (List.mem_range.1 hi)
  · obtain ⟨j, hj, hjn, rfl⟩ := hreads a ha
    exact ⟨j, by omega, hjn, rfl⟩

end Strncpy

/-- Two bytes and a NUL into a destination of five. -/
theorem strncpy_exact_padded :
    (strncpy (.start fun p => if p.toNat < 0x1002 then 7 else 0) 0x2000 0x1000 5).2.mem (Ptr.add 0x2000 3) = 0 :=
  (@strncpy_exact (fun p => if p.toNat < 0x1002 then 7 else 0) 0x2000 0x1000 5 (by decide) (by decide) (by decide)
    (by decide +kernel)).2.2.1 3 (by decide +kernel) (by decide)

end Userspace

end Hammam
