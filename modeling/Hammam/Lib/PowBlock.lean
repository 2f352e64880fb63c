import Mathlib.Data.Nat.Bitwise
import Mathlib.Data.List.Basic
import Mathlib.Data.List.Pairwise
import Mathlib.Data.Set.Card
import Mathlib.Data.Set.Lattice
import Mathlib.Algebra.Order.Ring.Nat
import Mathlib.Algebra.BigOperators.Group.List.Basic
import Mathlib.Order.Interval.Finset.Nat
import Mathlib.Tactic.Ring

/-!
# Aligned blocks of power-of-two size

A block is a pair `(a, e)`: the `2 ^ e` cells `a, …, a + 2 ^ e - 1`, with `2 ^ e ∣ a`.  Two such blocks are nested
or disjoint, the buddy of a block is the other half of the block one size up, and a set of cells has at most one
decomposition into blocks of sizes `lo, …, hi` in which no block below size `hi` lies beside its buddy
(`Canonical.unique`).

A list of blocks covers a cell as often as the cell lies in a block of the list (`cover`).  Splitting and merging
blocks do not change `cover`, and a list that covers no cell twice is pairwise disjoint and as large as its blocks
together.
-/

namespace PowBlock

/-! ### Cells of a block -/

/-- The cell `x` lies in the block of size `2 ^ e` at `a`. -/
def Mem (x a e : Nat) : Prop := a ≤ x ∧ x < a + 2 ^ e

instance (x a e : Nat) : Decidable (Mem x a e) := inferInstanceAs (Decidable (_ ∧ _))

theorem mem_base (a e : Nat) : Mem a a e := ⟨Nat.le_refl a, Nat.lt_add_of_pos_right (Nat.two_pow_pos e)⟩

theorem mem_iff_div {x a e : Nat} (h : 2 ^ e ∣ a) : Mem x a e ↔ x / 2 ^ e = a / 2 ^ e := by
  obtain ⟨q, rfl⟩ := h
  have hpos := Nat.two_pow_pos e
  rw [Nat.mul_div_cancel_left q hpos, Nat.div_eq_iff hpos, Mem]
  have : 2 ^ e * q = q * 2 ^ e := Nat.mul_comm _ _
  omega

theorem dvd_of_le {a e f : Nat} (h : 2 ^ f ∣ a) (hef : e ≤ f) : 2 ^ e ∣ a :=
  (Nat.pow_dvd_pow 2 hef).trans h

/-- A cell of an aligned block determines the block. -/
theorem base_eq {x a b e : Nat} (ha : 2 ^ e ∣ a) (hb : 2 ^ e ∣ b) (hxa : Mem x a e) (hxb : Mem x b e) :
    a = b := by
  have h : a / 2 ^ e = b / 2 ^ e := ((mem_iff_div ha).1 hxa).symm.trans ((mem_iff_div hb).1 hxb)
  rw [← Nat.div_mul_cancel ha, h, Nat.div_mul_cancel hb]

/-- Two aligned blocks with a common cell: the smaller one lies in the larger one. -/
theorem mem_of_mem {x y a b e f : Nat} (ha : 2 ^ e ∣ a) (hb : 2 ^ f ∣ b) (hef : e ≤ f) (hxa : Mem x a e)
    (hxb : Mem x b f) (hy : Mem y a e) : Mem y b f := by
  rw [mem_iff_div ha] at hxa hy
  rw [mem_iff_div hb] at hxb ⊢
  obtain ⟨d, rfl⟩ := Nat.exists_eq_add_of_le hef
  rw [Nat.pow_add, ← Nat.div_div_eq_div_mul] at hxb ⊢
  rw [hy, ← hxa]
  exact hxb

theorem mem_succ {x a e : Nat} : Mem x a (e + 1) ↔ Mem x a e ∨ Mem x (a + 2 ^ e) e := by
  unfold Mem
  rw [Nat.pow_succ]
  omega

theorem not_mem_both {x a e : Nat} (h : Mem x a e) : ¬ Mem x (a + 2 ^ e) e := by
  unfold Mem at *
  omega

/-! ### Buddies -/

/-- The other half of the block one size up. -/
def buddy (a e : Nat) : Nat := a ^^^ 2 ^ e

private theorem xor_one (q : Nat) : q ^^^ 1 = if q % 2 = 0 then q + 1 else q - 1 := by
  split
  · rename_i h
    exact Nat.xor_one_of_even (Nat.even_iff.2 h)
  · rename_i h
    exact Nat.xor_one_of_odd (Nat.odd_iff.2 (by omega))

private theorem buddy_mul (q e : Nat) : buddy (2 ^ e * q) e = 2 ^ e * (q ^^^ 1) := by
  have h := Nat.shiftLeft_xor_distrib (i := e) (a := q) (b := 1)
  simp only [Nat.shiftLeft_eq, Nat.one_mul] at h
  rw [buddy, Nat.mul_comm, ← h, Nat.mul_comm]

/-- The lower half: the buddy follows the block. -/
theorem buddy_of_dvd {a e : Nat} (h : 2 ^ (e + 1) ∣ a) : buddy a e = a + 2 ^ e := by
  obtain ⟨q, rfl⟩ := h
  have e1 : 2 ^ (e + 1) * q = 2 ^ e * (2 * q) := by ring
  rw [e1, buddy_mul, xor_one, if_pos (by omega)]
  ring

/-- The upper half: the buddy precedes the block. -/
theorem buddy_of_not_dvd {a e : Nat} (h : 2 ^ e ∣ a) (h' : ¬ 2 ^ (e + 1) ∣ a) :
    buddy a e + 2 ^ e = a ∧ 2 ^ (e + 1) ∣ buddy a e := by
  obtain ⟨q, rfl⟩ := h
  have hq : q % 2 ≠ 0 := by
    intro h0
    apply h'
    rw [Nat.pow_succ]
    exact Nat.mul_dvd_mul_left _ (Nat.dvd_of_mod_eq_zero h0)
  obtain ⟨r, rfl⟩ : ∃ r, q = 2 * r + 1 := ⟨q / 2, by omega⟩
  rw [buddy_mul, xor_one, if_neg hq]
  refine ⟨?_, ?_⟩
  · rw [Nat.add_sub_cancel]
    ring
  · rw [Nat.add_sub_cancel, Nat.pow_succ]
    exact Nat.mul_dvd_mul_left _ (Dvd.intro _ rfl)

theorem buddy_buddy (a e : Nat) : buddy (buddy a e) e = a := by
  rw [buddy, buddy, Nat.xor_assoc, Nat.xor_self, Nat.xor_zero]

/-- A block and its buddy are the halves of the block one size up, at the smaller of the two bases. -/
theorem min_buddy {a e : Nat} (h : 2 ^ e ∣ a) :
    2 ^ (e + 1) ∣ min a (buddy a e) ∧
      (min a (buddy a e) = a ∧ buddy a e = a + 2 ^ e ∨
        min a (buddy a e) = buddy a e ∧ a = buddy a e + 2 ^ e) := by
  by_cases h' : 2 ^ (e + 1) ∣ a
  · have hb := buddy_of_dvd h'
    have hm : min a (buddy a e) = a := by omega
    rw [hm]
    exact ⟨h', Or.inl ⟨rfl, hb⟩⟩
  · obtain ⟨hb, hd⟩ := buddy_of_not_dvd h h'
    have hm : min a (buddy a e) = buddy a e := by omega
    rw [hm]
    exact ⟨hd, Or.inr ⟨rfl, hb.symm⟩⟩

theorem mem_parent {a e : Nat} (h : 2 ^ e ∣ a) : Mem a (min a (buddy a e)) (e + 1) := by
  rcases (min_buddy h).2 with ⟨hc, -⟩ | ⟨hc, hc'⟩
  · rw [hc]
    exact mem_base _ _
  · rw [hc, mem_succ, ← hc']
    exact Or.inr (mem_base _ _)

/-! ### Canonical decompositions -/

/-- A family of blocks (`D e a`: the block of size `2 ^ e` at `a` belongs to the family) of sizes between `lo` and
`hi`, pairwise disjoint, in which no block below the top size lies beside its buddy. -/
structure Canonical (lo hi : Nat) (D : Nat → Nat → Prop) : Prop where
  size : ∀ {e a}, D e a → lo ≤ e ∧ e ≤ hi
  aligned : ∀ {e a}, D e a → 2 ^ e ∣ a
  disjoint : ∀ {e a f b x}, D e a → D f b → Mem x a e → Mem x b f → e = f ∧ a = b
  no_buddy : ∀ {e a}, D e a → e < hi → ¬ D e (buddy a e)

/-- The cells of a family. -/
def cells (D : Nat → Nat → Prop) : Set Nat := {x | ∃ e a, D e a ∧ Mem x a e}

section Canonical

variable {lo hi : Nat} {D D' : Nat → Nat → Prop}

/-- An aligned block filled by a canonical family lies in one block of the family. -/
private theorem Canonical.exists_above (h : Canonical lo hi D) :
    ∀ (d a : Nat), lo + d ≤ hi → 2 ^ (lo + d) ∣ a → (∀ x, Mem x a (lo + d) → x ∈ cells D) →
      ∃ f b, D f b ∧ lo + d ≤ f ∧ Mem a b f := by
  intro d
  induction d with
  | zero =>
    intro a _ _ hU
    obtain ⟨f, b, hD, hm⟩ := hU a (mem_base a _)
    exact ⟨f, b, hD, (h.size hD).1, hm⟩
  | succ d ih =>
    intro a hd ha hU
    have ha' : 2 ^ (lo + d) ∣ a := dvd_of_le ha (by omega)
    have hup : 2 ^ (lo + d) ∣ a + 2 ^ (lo + d) := (Nat.dvd_add_right ha').2 (dvd_refl _)
    obtain ⟨f, b, hD, hf, hm⟩ := ih a (by omega) ha' (fun x hx => hU x (mem_succ.2 (Or.inl hx)))
    obtain ⟨f', b', hD', hf', hm'⟩ := ih (a + 2 ^ (lo + d)) (by omega) hup
      (fun x hx => hU x (mem_succ.2 (Or.inr hx)))
    by_cases h1 : lo + d = f
    · subst h1
      have hab : b = a := base_eq (h.aligned hD) ha' (mem_base b _) (by
        rw [mem_iff_div (h.aligned hD)] at hm
        rw [mem_iff_div ha', hm])
      subst hab
      by_cases h2 : lo + d = f'
      · subst h2
        have hb' : b' = b + 2 ^ (lo + d) := base_eq (h.aligned hD') hup hm' (mem_base _ _)
        rw [hb', ← buddy_of_dvd (e := lo + d) ha] at hD'
        exact absurd hD' (h.no_buddy hD (by omega))
      · refine ⟨f', b', hD', by omega, ?_⟩
        exact mem_of_mem ha (h.aligned hD') (by omega) (mem_succ.2 (Or.inr (mem_base _ _))) hm' (mem_base b _)
    · exact ⟨f, b, hD, by omega, hm⟩

theorem Canonical.exists_block (h : Canonical lo hi D) {e a : Nat} (hlo : lo ≤ e) (hhi : e ≤ hi) (ha : 2 ^ e ∣ a)
    (hU : ∀ x, Mem x a e → x ∈ cells D) : ∃ f b, D f b ∧ e ≤ f ∧ Mem a b f := by
  have key := h.exists_above (e - lo) a
  rw [show lo + (e - lo) = e by omega] at key
  exact key hhi ha hU

/-- The blocks of a canonical family are the aligned blocks that fit and whose parent does not. -/
private theorem Canonical.iff_maximal (h : Canonical lo hi D) (e a : Nat) :
    D e a ↔ (lo ≤ e ∧ e ≤ hi) ∧ 2 ^ e ∣ a ∧ (∀ x, Mem x a e → x ∈ cells D) ∧
      (e < hi → ¬ ∀ x, Mem x (min a (buddy a e)) (e + 1) → x ∈ cells D) := by
  constructor
  · intro hD
    refine ⟨h.size hD, h.aligned hD, fun x hx => ⟨e, a, hD, hx⟩, fun he hU => ?_⟩
    obtain ⟨hlo, -⟩ := h.size hD
    obtain ⟨hd, -⟩ := min_buddy (h.aligned hD)
    -- were the parent full, a larger block would cover it, and meet `a` as well
    obtain ⟨f, b, hD', hf, hm⟩ := h.exists_block (by omega) he hd hU
    have := (h.disjoint hD hD' (mem_base a e)
      (mem_of_mem hd (h.aligned hD') (by omega) (mem_base _ _) hm (mem_parent (h.aligned hD)))).1
    omega
  · intro hfull
    obtain ⟨⟨hlo, hhi⟩, ha, hU, hmax⟩ := hfull
    obtain ⟨f, b, hD, hf, hm⟩ := h.exists_block hlo hhi ha hU
    rcases Nat.eq_or_lt_of_le hf with rfl | hlt
    · rwa [← base_eq (h.aligned hD) ha hm (mem_base a e)]
    · obtain ⟨hd, -⟩ := min_buddy ha
      refine absurd (fun x hx => ?_) (hmax (by have := (h.size hD).2; omega))
      exact ⟨f, b, hD, mem_of_mem hd (h.aligned hD) (by omega) (mem_parent ha) hm hx⟩

/-- A set of cells has at most one canonical decomposition. -/
theorem Canonical.unique (h : Canonical lo hi D) (h' : Canonical lo hi D') (hU : cells D = cells D')
    (e a : Nat) : D e a ↔ D' e a := by
  rw [h.iff_maximal, h'.iff_maximal, hU]

end Canonical

/-! ### Lists of blocks -/

/-- How many blocks of the list contain the cell `x`; a block is listed as `(base, exponent)`. -/
def cover (l : List (Nat × Nat)) (x : Nat) : Nat := l.countP fun b => Mem x b.1 b.2

@[simp] theorem cover_nil (x : Nat) : cover [] x = 0 := rfl

@[simp] theorem cover_cons (b : Nat × Nat) (l : List (Nat × Nat)) (x : Nat) :
    cover (b :: l) x = cover l x + if Mem x b.1 b.2 then 1 else 0 := by
  simp [cover, List.countP_cons]

@[simp] theorem cover_append (l l' : List (Nat × Nat)) (x : Nat) :
    cover (l ++ l') x = cover l x + cover l' x := by
  simp [cover, List.countP_append]

theorem cover_perm {l l' : List (Nat × Nat)} (h : l.Perm l') (x : Nat) : cover l x = cover l' x :=
  h.countP_eq _

theorem cover_pos {l : List (Nat × Nat)} {x : Nat} : 0 < cover l x ↔ ∃ b ∈ l, Mem x b.1 b.2 := by
  simp [cover, List.countP_pos_iff]

/-- Splitting a block into its halves, or merging them, covers the same cells. -/
theorem cover_halves (a e x : Nat) (l : List (Nat × Nat)) :
    cover ((a, e) :: (a + 2 ^ e, e) :: l) x = cover ((a, e + 1) :: l) x := by
  simp only [cover_cons, Nat.add_assoc, Nat.add_left_cancel_iff]
  by_cases h1 : Mem x a e
  · simp [h1, not_mem_both h1, mem_succ]
  · by_cases h2 : Mem x (a + 2 ^ e) e <;> simp [h1, h2, mem_succ]

/-- Two listed blocks have no common cell. -/
def Apart (b c : Nat × Nat) : Prop := ∀ x, Mem x b.1 b.2 → ¬ Mem x c.1 c.2

instance : Std.Symm Apart := ⟨fun _ _ h x hc hb => h x hb hc⟩

/-- A list that covers no cell twice is pairwise disjoint. -/
theorem pairwise_apart {l : List (Nat × Nat)} (h : ∀ x, cover l x ≤ 1) : l.Pairwise Apart := by
  induction l with
  | nil => exact List.Pairwise.nil
  | cons b l ih =>
    refine List.pairwise_cons.2 ⟨fun c hc x hb hxc => ?_, ih fun x => ?_⟩
    · have h1 := h x
      have h2 : 0 < cover l x := cover_pos.2 ⟨c, hc, hxc⟩
      rw [cover_cons, if_pos hb] at h1
      omega
    · have := h x
      rw [cover_cons] at this
      omega

/-- In a list that covers no cell twice, a cell lies in one block only. -/
theorem eq_of_mem_both {l : List (Nat × Nat)} (h : ∀ x, cover l x ≤ 1) {b c : Nat × Nat} (hb : b ∈ l)
    (hc : c ∈ l) {x : Nat} (hxb : Mem x b.1 b.2) (hxc : Mem x c.1 c.2) : b = c := by
  by_contra hne
  exact (pairwise_apart h).forall hb hc hne x hxb hxc

theorem nodup_of_cover {l : List (Nat × Nat)} (h : ∀ x, cover l x ≤ 1) : l.Nodup :=
  (pairwise_apart h).imp fun {b _} hbc (e : b = _) => hbc b.1 (mem_base _ _) (e ▸ mem_base _ _)

private theorem setOf_mem (a e : Nat) : {x | Mem x a e} = (Finset.Ico a (a + 2 ^ e) : Set Nat) := by
  ext x
  simp [Mem]

/-- The number of cells that a list covers, if it covers none twice. -/
theorem ncard_cover {l : List (Nat × Nat)} (h : ∀ x, cover l x ≤ 1) :
    {x | 0 < cover l x}.ncard = (l.map fun b => 2 ^ b.2).sum ∧ {x | 0 < cover l x}.Finite := by
  induction l with
  | nil => simp
  | cons b l ih =>
    obtain ⟨hcard, hfin⟩ := ih fun x => by
      have := h x
      rw [cover_cons] at this
      omega
    have hunion : {x | 0 < cover (b :: l) x} = {x | Mem x b.1 b.2} ∪ {x | 0 < cover l x} := by
      ext x
      by_cases hx : Mem x b.1 b.2 <;> simp [hx]
    have hdisj : Disjoint {x | Mem x b.1 b.2} {x | 0 < cover l x} := by
      refine Set.disjoint_left.2 fun x hx hpos => ?_
      have hle := h x
      have hx' : Mem x b.1 b.2 := hx
      have hpos' : 0 < cover l x := hpos
      rw [cover_cons, if_pos hx'] at hle
      omega
    have hblock : {x | Mem x b.1 b.2}.Finite := by
      rw [setOf_mem]
      exact Finset.finite_toSet _
    refine ⟨?_, hunion ▸ hblock.union hfin⟩
    rw [hunion, Set.ncard_union_eq hdisj hblock hfin, hcard, setOf_mem, Set.ncard_coe_finset, Nat.card_Ico,
      List.map_cons, List.sum_cons, Nat.add_sub_cancel_left]

end PowBlock
