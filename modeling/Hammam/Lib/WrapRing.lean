import Mathlib.Data.Nat.ModEq
import Mathlib.Data.List.Nodup

/-!
# Rings with wrapping counters

Two counters run freely and are stored modulo `m`; the slot of a position is its value modulo the number `c` of slots,
and `c` divides `m`.  The stored counters determine the occupancy and the slots of the pending positions.  `window`
lists the contents of the slots from a position on.
-/

namespace WrapRing

variable {α : Type} {c m : Nat}

/-- The difference of the stored counters is the occupancy. -/
theorem sub_mod {a b : Nat} (hab : a ≤ b) (hlt : b < a + m) : (m - a % m + b % m) % m = b - a := by
  obtain ⟨d, rfl⟩ := Nat.exists_eq_add_of_le hab
  have hd : d < m := by omega
  have ha : a % m < m := Nat.mod_lt _ (by omega)
  rw [Nat.add_sub_cancel_left, Nat.add_mod a d, Nat.mod_eq_of_lt hd]
  by_cases hs : a % m + d < m
  · rw [Nat.mod_eq_of_lt hs, show m - a % m + (a % m + d) = d + m by omega, Nat.add_mod_right, Nat.mod_eq_of_lt hd]
  · have hw : (a % m + d) % m = a % m + d - m := by
      rw [Nat.mod_eq_sub_mod (by omega), Nat.mod_eq_of_lt (by omega)]
    rw [hw, show m - a % m + (a % m + d - m) = d by omega, Nat.mod_eq_of_lt hd]

/-- Fewer than `c` consecutive positions have different slots. -/
theorem slot_injOn {a b b' : Nat} (hb : a ≤ b) (hlt : b < a + c) (hb' : a ≤ b') (hlt' : b' < a + c)
    (h : b % c = b' % c) : b = b' := by
  obtain ⟨d, rfl⟩ := Nat.exists_eq_add_of_le hb
  obtain ⟨d', rfl⟩ := Nat.exists_eq_add_of_le hb'
  have hmod : d ≡ d' [MOD c] := Nat.ModEq.add_left_cancel' a h
  rw [Nat.ModEq, Nat.mod_eq_of_lt (by omega), Nat.mod_eq_of_lt (by omega)] at hmod
  rw [hmod]

/-- The contents of `n` slots from the position `a` on. -/
def window (f : Nat → α) (c a n : Nat) : List α := (List.range n).map fun i => f ((a + i) % c)

@[simp] theorem length_window (f : Nat → α) (a n : Nat) : (window f c a n).length = n := by
  rw [window, List.length_map, List.length_range]

@[simp] theorem window_zero (f : Nat → α) (a : Nat) : window f c a 0 = [] := rfl

theorem window_succ (f : Nat → α) (a n : Nat) : window f c a (n + 1) = f (a % c) :: window f c (a + 1) n := by
  rw [window, window, List.range_succ_eq_map, List.map_cons, List.map_map, Nat.add_zero]
  congr 1
  refine List.map_congr_left fun i _ => ?_
  rw [Function.comp, show a + (i + 1) = a + 1 + i by omega]

theorem window_snoc (f : Nat → α) (a n : Nat) : window f c a (n + 1) = window f c a n ++ [f ((a + n) % c)] := by
  rw [window, List.range_succ, List.map_append, List.map_singleton]
  rfl

theorem window_congr {f g : Nat → α} {a n : Nat} (h : ∀ i < n, f ((a + i) % c) = g ((a + i) % c)) :
    window f c a n = window g c a n :=
  List.map_congr_left fun i hi => h i (List.mem_range.1 hi)

/-- The position may be stored modulo `m`. -/
theorem window_mod (hm : c ∣ m) (f : Nat → α) (a n : Nat) : window f c (a % m) n = window f c a n := by
  refine List.map_congr_left fun i _ => ?_
  rw [Nat.add_mod, Nat.mod_mod_of_dvd _ hm, ← Nat.add_mod]

/-- A write to the next free slot appends to the window. -/
theorem window_write {f g : Nat → α} {a n : Nat} {x : α} (hn : n < c) (hx : g ((a + n) % c) = x)
    (hother : ∀ i, i ≠ (a + n) % c → g i = f i) : window g c a (n + 1) = window f c a n ++ [x] := by
  rw [window_snoc, hx]
  congr 1
  refine window_congr fun i hi => hother _ fun h => ?_
  have := slot_injOn (a := a) (by omega) (by omega) (by omega) (by omega) h
  omega

end WrapRing
