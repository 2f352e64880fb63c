import Mathlib.Tactic.IntervalCases
import Hammam.Lib.RadixTree
import Hammam.Mm.Paging

/-!
# Walks through the page tables

The tables are a radix tree: the table in frame `4096 * n` is named `n`, its entries are numbered by `Fin 512`, and
an entry leads to a table when it is present and not a huge page.  `translate` and `translate_flags` read off the
entry at which the walk along the four indices of an address ends.
-/

namespace Hammam

open ByteMem RadixTree PageTableEntry

/-! ### Bits -/

theorem and_addrMask (e : Nat) : e &&& addrMask = 4096 * (e / 4096 % 2 ^ 40) := by
  have h1 : e / 4096 % 2 ^ 40 = (e >>> 12) &&& (2 ^ 40 - 1) := by
    rw [Nat.and_two_pow_sub_one_eq_mod, Nat.shiftRight_eq_div_pow]
  have h2 : addrMask = (2 ^ 40 - 1) <<< 12 := by decide
  rw [h1, h2, Nat.mul_comm, show 4096 = 2 ^ 12 by rfl, ← Nat.shiftLeft_eq]
  apply Nat.eq_of_testBit_eq
  intro i
  simp only [Nat.testBit_and, Nat.testBit_shiftLeft, Nat.testBit_shiftRight]
  by_cases hi : i ≥ 12
  · simp [hi, show 12 + (i - 12) = i by omega]
  · simp [hi]

private theorem and_low (v w : Nat) : v &&& (2 ^ w - 1) = v % 2 ^ w := Nat.and_two_pow_sub_one_eq_mod v w

theorem and_page (v : Nat) : v &&& 0xFFF = v % 4096 := and_low v 12

theorem and_hugePage (v : Nat) : v &&& 0x001FFFFF = v % 2 ^ 21 := and_low v 21

theorem index_eq (v w : Nat) : (v >>> w) &&& 0x1FF = v / 2 ^ w % 512 := by
  rw [Nat.shiftRight_eq_div_pow]
  exact and_low _ 9

namespace PageFlags

theorem ext_bits {f g : PageFlags} (h : f.bits = g.bits) : f = g := by
  cases f
  cases g
  cases h
  rfl

theorem bits_or (f g : PageFlags) : (f ||| g).bits = f.bits ||| g.bits := rfl

/-- Membership of a single flag is a bit. -/
theorem contains_iff {f g : PageFlags} {b : Nat} (hg : g.bits = 2 ^ b) : f.contains g = f.bits.testBit b := by
  rw [contains, hg]
  by_cases h : f.bits.testBit b
  · rw [h, beq_iff_eq]
    apply Nat.eq_of_testBit_eq
    intro i
    rw [Nat.testBit_and, Nat.testBit_two_pow]
    by_cases hi : b = i
    · simp [← hi, h]
    · simp [hi]
  · rw [Bool.not_eq_true] at h
    rw [h, beq_eq_false_iff_ne]
    intro e
    have := congrArg (fun n => Nat.testBit n b) e
    simp [h] at this

theorem contains_present (f : PageFlags) : f.contains .present = f.bits.testBit 0 := contains_iff rfl

theorem or_present (f : PageFlags) : (f ||| present).contains .present = true := by
  rw [contains_present, bits_or, Nat.testBit_or]
  simp [present]

theorem bits_without (f g : PageFlags) : (f.without g).bits = f.bits &&& (pageFlagsAll ^^^ g.bits) := by
  show f.bits &&& (pageFlagsAll ^^^ g.bits) &&& pageFlagsAll = _
  rw [Nat.and_right_comm, f.named]

theorem without_present (f : PageFlags) : (f.without .hugePage).contains .present = f.contains .present := by
  rw [contains_present, contains_present, bits_without, Nat.testBit_and,
    show (pageFlagsAll ^^^ hugePage.bits).testBit 0 = true by decide, Bool.and_true]

end PageFlags

/-- A flag of an entry is one of its bits. -/
theorem has_iff {g : PageFlags} {b : Nat} (hg : g.bits = 2 ^ b) (hb : pageFlagsAll.testBit b = true) (e : Nat) :
    has e g ↔ e / 2 ^ b % 2 = 1 := by
  rw [has, PageFlags.contains_iff hg]
  show (e &&& pageFlagsAll).testBit b = true ↔ _
  rw [Nat.testBit_and, hb, Bool.and_true, Nat.testBit_eq_decide_div_mod_eq, decide_eq_true_eq]

theorem has_present_iff (e : Nat) : has e .present ↔ e % 2 = 1 := by
  rw [has_iff (b := 0) rfl (by decide), Nat.pow_zero, Nat.div_one]

theorem has_hugePage_iff (e : Nat) : has e .hugePage ↔ e / 128 % 2 = 1 := has_iff (b := 7) rfl (by decide) e

section Entries

variable (frame : PhysFrame) (fl : PageFlags)

theorem flags_setFrame : flags (setFrame frame fl) = fl := by
  apply PageFlags.ext_bits
  show ((frame.startAddress &&& addrMask) ||| fl.bits) &&& pageFlagsAll = fl.bits
  rw [Nat.and_or_distrib_right, Nat.and_assoc, show addrMask &&& pageFlagsAll = 0 by decide, Nat.and_zero,
    Nat.zero_or, fl.named]

theorem addr_setFrame : setFrame frame fl &&& addrMask = frame.startAddress &&& addrMask := by
  have h : fl.bits &&& addrMask = 0 := by
    rw [← fl.named, Nat.and_assoc, show pageFlagsAll &&& addrMask = 0 by decide, Nat.and_zero]
  rw [setFrame, Nat.and_or_distrib_right, Nat.and_assoc, Nat.and_self, h, Nat.or_zero]

theorem setFrame_lt : setFrame frame fl < 2 ^ 64 := by
  apply Nat.or_lt_two_pow
  · exact Nat.lt_of_le_of_lt Nat.and_le_right (by decide)
  · rw [← fl.named]
    exact Nat.lt_of_le_of_lt Nat.and_le_right (by decide)

theorem has_setFrame (g : PageFlags) : has (setFrame frame fl) g = fl.contains g := by
  rw [has, flags_setFrame]

end Entries

/-- The number of the frame that an entry points to. -/
def frameNo (e : Nat) : Nat := e / 4096 % 2 ^ 40

theorem frame_of_present {e : Nat} (h : has e .present) : frame e = some ⟨4096 * frameNo e⟩ := by
  rw [frame, if_pos h, and_addrMask, frameNo]

theorem frame_of_not_present {e : Nat} (h : ¬ has e .present) : frame e = none := if_neg h

theorem frameNo_setFrame {n : Nat} (hn : n < 2 ^ 40) (fl : PageFlags) : frameNo (setFrame ⟨4096 * n⟩ fl) = n := by
  have h := addr_setFrame ⟨4096 * n⟩ fl
  rw [and_addrMask, and_addrMask, Nat.mul_div_cancel_left n (by decide), Nat.mod_eq_of_lt hn] at h
  exact Nat.eq_of_mul_eq_mul_left (by decide) h

theorem frameNo_lt (e : Nat) : frameNo e < 2 ^ 40 := Nat.mod_lt _ (by decide)

theorem not_has_zero : ¬ has 0 .present := by decide

/-! ### The tree of tables -/

/-- The table that an entry leads to. -/
def child (e : Nat) : Option Nat := if has e .present && !has e .hugePage then some (frameNo e) else none

theorem child_eq_some {e n : Nat} : child e = some n ↔ has e .present ∧ ¬ has e .hugePage ∧ frameNo e = n := by
  rw [child]
  split <;> rename_i h
  · simp only [Bool.and_eq_true, Bool.not_eq_true'] at h
    simp [h.1, h.2]
  · simp only [Bool.and_eq_true, Bool.not_eq_true', not_and, Bool.not_eq_false] at h
    simp only [reduceCtorEq, false_iff, not_and]
    intro hp hh
    exact absurd (h hp) hh

theorem child_setFrame_table {n : Nat} (hn : n < 2 ^ 40) : child (setFrame ⟨4096 * n⟩ tableFlags) = some n := by
  rw [child_eq_some, has_setFrame, has_setFrame, frameNo_setFrame hn]
  exact ⟨by decide, by decide, rfl⟩

theorem child_zero : child 0 = none := by decide

/-- The entries of all tables. -/
def view (m : Memory) (t : Nat) (i : Fin 512) : Nat := entry m ⟨4096 * t⟩ i

theorem view_setEntry (m : Memory) (t : Nat) (i : Fin 512) {e : Nat} (he : e < 2 ^ 64) (u : Nat) (j : Fin 512) :
    view (setEntry m ⟨4096 * t⟩ i e) u j = if u = t ∧ j = i then e else view m u j := by
  have hi := i.isLt
  have hj := j.isLt
  unfold view entry setEntry
  by_cases h : u = t ∧ j = i
  · rw [if_pos h, h.1, h.2]
    exact read64_write64 m _ he
  · rw [if_neg h]
    apply read64_write64_of_disjoint
    rw [Fin.ext_iff] at h
    show 4096 * u + 8 * j.val + 8 ≤ 4096 * t + 8 * i.val ∨ 4096 * t + 8 * i.val + 8 ≤ 4096 * u + 8 * j.val
    omega

theorem view_fillTable (m : Memory) (t : Nat) {e : Nat → Nat} (he : ∀ j < 512, e j < 2 ^ 64) (u : Nat)
    (j : Fin 512) : view (fillTable m ⟨4096 * t⟩ e 512) u j = if u = t then e j else view m u j := by
  have main : ∀ n ≤ 512, view (fillTable m ⟨4096 * t⟩ e n) u j = if u = t ∧ j.val < n then e j else view m u j := by
    intro n
    induction n with
    | zero => simp [fillTable]
    | succ n ih =>
      intro hn
      rw [fillTable, view_setEntry _ _ ⟨n, hn⟩ (he n hn), ih (by omega)]
      by_cases hj : j = ⟨n, hn⟩
      · rw [hj]
        by_cases hu : u = t <;> simp [hu]
      · have hjn : j.val ≠ n := fun h => hj (Fin.ext h)
        rw [if_neg fun h => hj h.2]
        exact if_congr (by omega) rfl rfl
  rw [main 512 (Nat.le_refl _)]
  exact if_congr (and_iff_left j.isLt) rfl rfl

/-- Bytes outside the table stay. -/
theorem setEntry_of_outside (m : Memory) (t : Nat) (i : Fin 512) (e : Nat) {x : Nat} (hx : x / 4096 ≠ t) :
    setEntry m ⟨4096 * t⟩ i e x = m x := by
  apply store_of_not_mem
  have hi := i.isLt
  show ¬ (4096 * t + 8 * i.val ≤ x ∧ x < 4096 * t + 8 * i.val + 8)
  omega

theorem fillTable_of_outside (m : Memory) (t : Nat) (e : Nat → Nat) {x : Nat} (hx : x / 4096 ≠ t) :
    ∀ n ≤ 512, fillTable m ⟨4096 * t⟩ e n x = m x := by
  intro n
  induction n with
  | zero => exact fun _ => rfl
  | succ n ih =>
    intro hn
    rw [fillTable, setEntry_of_outside _ _ ⟨n, hn⟩ _ hx, ih (by omega)]

/-- The frame number of the active PML4. -/
def Machine.root (s : Machine) : Nat := frameNo s.cr3

theorem Machine.activePml4_eq (s : Machine) : s.activePml4 = ⟨4096 * s.root⟩ := by
  rw [activePml4, and_addrMask, root, frameNo]

/-- The index of an address into a table whose entries span `2 ^ w` bytes. -/
def idx (v w : Nat) : Fin 512 := ⟨v / 2 ^ w % 512, Nat.mod_lt _ (by decide)⟩

/-- The four indices of an address. -/
def path (v : Nat) : List (Fin 512) := [idx v 39, idx v 30, idx v 21, idx v 12]

/-- The table at the end of a path from the PML4. -/
def Machine.tableAt (s : Machine) (p : List (Fin 512)) : Option Nat := follow child (view s.mem) s.root p

/-- The entry at which the walk for an address ends, with the indices that were not used. -/
def Machine.leaf (s : Machine) (v : Nat) : Option (Nat × List (Fin 512)) :=
  resolve child (view s.mem) s.root (path v)

/-- The leaf of an address, if it is present. -/
def Machine.mapping (s : Machine) (v : Nat) : Option (Nat × List (Fin 512)) :=
  (s.leaf v).filter fun l => has l.1 .present

/-- The address to which a leaf takes `v`: a page of 4 KiB, or one of 2 MiB when an index was not used. -/
def leafAddr (v : Nat) (l : Nat × List (Fin 512)) : Nat :=
  4096 * frameNo l.1 + v % if l.2 = [] then 4096 else 2 ^ 21

/-- No present entry of the PML4 or of a PDPT is a huge page. -/
def Machine.NoHugeUpper (s : Machine) : Prop :=
  ∀ {p t} i, p.length ≤ 1 → s.tableAt p = some t → has (view s.mem t i) .present → ¬ has (view s.mem t i) .hugePage

theorem child_of_not_present {e : Nat} (h : ¬ has e .present) : child e = none := by
  rw [child, if_neg]
  simp [h]

theorem child_of_huge {e : Nat} (h : has e .hugePage) : child e = none := by
  rw [child, if_neg]
  simp [h]

theorem child_of_present {e : Nat} (h : has e .present) (hh : ¬ has e .hugePage) : child e = some (frameNo e) :=
  child_eq_some.2 ⟨h, hh, rfl⟩

theorem entry_idx (m : Memory) (t v w : Nat) : entry m ⟨4096 * t⟩ (v / 2 ^ w % 512) = view m t (idx v w) :=
  congrArg (entry m ⟨4096 * t⟩) (show v / 2 ^ w % 512 = (idx v w).val from rfl)

/-- `translate_flags` finds the leaf that the processor finds. -/
theorem Machine.translateFlags_eq_hwLeaf (s : Machine) (v : Nat) :
    s.translateFlags v = (s.hwLeaf v).map fun l => flags l.1 := by
  simp only [translateFlags, hwLeaf, Option.bind_eq_bind]
  cases frame (entry s.mem s.activePml4 (pml4Index v)) with
  | none => rfl
  | some pdptFrame =>
    simp only [Option.bind_some]
    cases frame (entry s.mem pdptFrame (pdptIndex v)) with
    | none => rfl
    | some pdFrame =>
      simp only [Option.bind_some]
      split
      · rfl
      · cases frame (entry s.mem pdFrame (pdIndex v)) with
        | none => rfl
        | some ptFrame =>
          simp only [Option.bind_some]
          split
          · rfl
          · split <;> rfl

/-- How a walk ends: at an entry that is not present, at a 2 MiB page, or at an entry of a page table. -/
private theorem Machine.walk_cases {s : Machine} (h : s.NoHugeUpper) (v : Nat) :
    (∃ e p, s.leaf v = some (e, p) ∧ ¬ has e .present ∧ s.translate v = none ∧ s.hwLeaf v = none) ∨
      (∃ e i, s.leaf v = some (e, [i]) ∧ has e .present ∧ s.translate v = some (4096 * frameNo e + v % 2 ^ 21) ∧
        s.hwLeaf v = some (e, 21) ∧ has e .hugePage ∧
        ∃ t, s.tableAt [idx v 39, idx v 30] = some t ∧ view s.mem t (idx v 21) = e) ∨
      ∃ e, s.leaf v = some (e, []) ∧ has e .present ∧ s.translate v = some (4096 * frameNo e + v % 4096) ∧
        s.hwLeaf v = some (e, 12) := by
  have hroot : s.tableAt [] = some s.root := rfl
  simp only [leaf, path, translate, hwLeaf, activePml4_eq, pml4Index, pdptIndex, pdIndex, ptIndex, index_eq,
    and_page, and_hugePage, entry_idx]
  -- level by level: an entry that is not present ends the walk, a present one leads to the next table
  by_cases h₄ : has (view s.mem s.root (idx v 39)) .present
  case neg =>
    refine Or.inl ⟨_, _, resolve_stop (child_of_not_present h₄), h₄, ?_, ?_⟩ <;> simp [frame_of_not_present h₄]
  have hc₄ := child_of_present h₄ (h _ (by simp) hroot h₄)
  have ht₃ : s.tableAt ([] ++ [idx v 39]) = some _ := (follow_snoc hroot).trans hc₄
  rw [resolve_next hc₄, frame_of_present h₄]
  generalize frameNo (view s.mem s.root (idx v 39)) = t₃ at ht₃
  simp only [Option.bind_eq_bind, Option.bind_some, entry_idx]
  by_cases h₃ : has (view s.mem t₃ (idx v 30)) .present
  case neg =>
    refine Or.inl ⟨_, _, resolve_stop (child_of_not_present h₃), h₃, ?_, ?_⟩ <;> simp [frame_of_not_present h₃]
  have hh₃ := h _ (by simp) ht₃ h₃
  have hc₃ := child_of_present h₃ hh₃
  have ht₂ : s.tableAt ([] ++ [idx v 39] ++ [idx v 30]) = some _ := (follow_snoc ht₃).trans hc₃
  rw [resolve_next hc₃, frame_of_present h₃]
  generalize frameNo (view s.mem t₃ (idx v 30)) = t₂ at ht₂
  simp only [Option.bind_some, if_neg hh₃, entry_idx]
  by_cases h₂ : has (view s.mem t₂ (idx v 21)) .present
  case neg =>
    refine Or.inl ⟨_, _, resolve_stop (child_of_not_present h₂), h₂, ?_, ?_⟩ <;> simp [frame_of_not_present h₂]
  rw [frame_of_present h₂]
  simp only [Option.bind_some]
  -- only here may a huge page end it
  by_cases hh₂ : has (view s.mem t₂ (idx v 21)) .hugePage
  · refine Or.inr (Or.inl ⟨_, _, resolve_stop (child_of_huge hh₂), h₂, ?_, ?_, hh₂, t₂, ht₂, rfl⟩) <;> rw [if_pos hh₂]
  rw [resolve_next (child_of_present h₂ hh₂), if_neg hh₂, if_neg hh₂]
  generalize frameNo (view s.mem t₂ (idx v 21)) = t₁
  simp only [entry_idx, resolve]
  by_cases h₁ : has (view s.mem t₁ (idx v 12)) .present
  · refine Or.inr (Or.inr ⟨_, rfl, h₁, ?_, if_pos h₁⟩)
    rw [frame_of_present h₁, Option.bind_some]
  · refine Or.inl ⟨_, _, rfl, h₁, ?_, if_neg h₁⟩
    rw [frame_of_not_present h₁, Option.bind_none]

theorem Machine.mapping_of_leaf {s : Machine} {v e : Nat} {p : List (Fin 512)} (hl : s.leaf v = some (e, p))
    (he : has e .present) : s.mapping v = some (e, p) := by
  rw [mapping, hl]
  simp [he]

theorem Machine.mapping_of_not_present {s : Machine} {v e : Nat} {p : List (Fin 512)} (hl : s.leaf v = some (e, p))
    (he : ¬ has e .present) : s.mapping v = none := by
  rw [mapping, hl]
  simp [he]

/-- A mapping with an index left is a 2 MiB page of the page directory on the way. -/
theorem Machine.mapping_huge {s : Machine} (h : s.NoHugeUpper) {v e : Nat} {j : Fin 512}
    (hm : s.mapping v = some (e, [j])) :
    has e .present ∧ has e .hugePage ∧ ∃ t, s.tableAt [idx v 39, idx v 30] = some t ∧
      view s.mem t (idx v 21) = e := by
  obtain ⟨e', p, hl, he, -⟩ | ⟨e', i, hl, he, -, -, hh, ht⟩ | ⟨e', hl, he, -⟩ := s.walk_cases h v
  · rw [mapping_of_not_present hl he] at hm
    cases hm
  · rw [mapping_of_leaf hl he] at hm
    cases hm
    exact ⟨he, hh, ht⟩
  · rw [mapping_of_leaf hl he] at hm
    cases hm

theorem Machine.translate_eq {s : Machine} (h : s.NoHugeUpper) (v : Nat) :
    s.translate v = (s.mapping v).map (leafAddr v) := by
  obtain ⟨e, p, hl, he, ht, -⟩ | ⟨e, i, hl, he, ht, -⟩ | ⟨e, hl, he, ht, -⟩ := s.walk_cases h v
  · rw [ht, mapping_of_not_present hl he, Option.map_none]
  · rw [ht, mapping_of_leaf hl he, Option.map_some, leafAddr, if_neg (List.cons_ne_nil _ _)]
  · rw [ht, mapping_of_leaf hl he, Option.map_some, leafAddr, if_pos rfl]

theorem Machine.translateFlags_eq {s : Machine} (h : s.NoHugeUpper) (v : Nat) :
    s.translateFlags v = (s.mapping v).map fun l => flags l.1 := by
  rw [translateFlags_eq_hwLeaf]
  obtain ⟨e, p, hl, he, -, ht⟩ | ⟨e, i, hl, he, -, ht, -⟩ | ⟨e, hl, he, -, ht⟩ := s.walk_cases h v
  · rw [ht, mapping_of_not_present hl he, Option.map_none, Option.map_none]
  · rw [ht, mapping_of_leaf hl he, Option.map_some, Option.map_some]
  · rw [ht, mapping_of_leaf hl he, Option.map_some, Option.map_some]

/-- Without pages of 1 GiB and with 2 MiB pages aligned, `translate` is what the processor does. -/
theorem Machine.hwTranslate_eq {s : Machine} (h : s.NoHugeUpper)
    (hal : ∀ {p t} i, p.length = 2 → s.tableAt p = some t → has (view s.mem t i) .present →
      has (view s.mem t i) .hugePage → 512 ∣ frameNo (view s.mem t i)) (v : Nat) :
    s.hwTranslate v = s.translate v := by
  unfold hwTranslate
  obtain ⟨e, p, -, -, htr, hw⟩ | ⟨e, i, -, he, htr, hw, hh, t, ht, rfl⟩ | ⟨e, -, -, htr, hw⟩ := s.walk_cases h v
  · rw [hw, htr, Option.map_none]
  · have := hal (idx v 21) rfl ht he hh
    rw [hw, htr, Option.map_some, and_addrMask, ← frameNo, Option.some.injEq]
    show 4096 * frameNo (view s.mem t (idx v 21)) / 2 ^ 21 * 2 ^ 21 + v % 2 ^ 21 = _
    omega
  · rw [hw, htr, Option.map_some, and_addrMask, ← frameNo, Option.some.injEq]
    show 4096 * frameNo e / 2 ^ 12 * 2 ^ 12 + v % 2 ^ 12 = _
    omega

/-! ### Paths and pages -/

theorem path_eq_iff {v w : Nat} : path v = path w ↔ v / 4096 % 2 ^ 36 = w / 4096 % 2 ^ 36 := by
  simp only [path, idx, List.cons.injEq, Fin.mk.injEq, and_true]
  omega

theorem path_take_eq_iff {v w : Nat} :
    (path v).take 3 = (path w).take 3 ↔ v / 2 ^ 21 % 2 ^ 27 = w / 2 ^ 21 % 2 ^ 27 := by
  simp only [path, idx, List.take, List.cons.injEq, Fin.mk.injEq, and_true]
  omega

/-- The indices of an address are those of its page. -/
theorem index_page (v : Nat) :
    pml4Index (v / 4096 * 4096) = pml4Index v ∧ pdptIndex (v / 4096 * 4096) = pdptIndex v ∧
      pdIndex (v / 4096 * 4096) = pdIndex v ∧ ptIndex (v / 4096 * 4096) = ptIndex v := by
  simp only [pml4Index, pdptIndex, pdIndex, ptIndex, index_eq]
  omega

/-- The leaf is that of the page. -/
theorem Machine.hwLeaf_page (s : Machine) (v : Nat) : s.hwLeaf (v / 4096 * 4096) = s.hwLeaf v := by
  obtain ⟨h1, h2, h3, h4⟩ := index_page v
  rw [hwLeaf, h1, h2, h3, h4, ← hwLeaf]

end Hammam
