import Mathlib.Algebra.Order.Ring.Nat

/-!
# Memory of bytes

A memory is a function from addresses to bytes.  Every write is a `store` of some bytes over an interval, and numbers
are read and written in little-endian order.
-/

namespace ByteMem

/-- The memory in which the `n` bytes from `a` on are those of `f`. -/
def store (m : Nat → UInt8) (a n : Nat) (f : Nat → UInt8) : Nat → UInt8 :=
  fun x => if a ≤ x ∧ x < a + n then f (x - a) else m x

/-- The number in the `n` bytes from `a` on. -/
def readLE (m : Nat → UInt8) : Nat → Nat → Nat
  | 0, _ => 0
  | n + 1, a => (m a).toNat + 256 * readLE m n (a + 1)

/-- The bytes of a number. -/
def bytesLE (v i : Nat) : UInt8 := UInt8.ofNat (v / 256 ^ i)

def read64 (m : Nat → UInt8) (a : Nat) : Nat := readLE m 8 a

def write64 (m : Nat → UInt8) (a v : Nat) : Nat → UInt8 := store m a 8 (bytesLE v)

variable {m m' : Nat → UInt8} {a n x : Nat}

theorem store_of_mem (f : Nat → UInt8) (h : a ≤ x ∧ x < a + n) : store m a n f x = f (x - a) := if_pos h

theorem store_of_not_mem (f : Nat → UInt8) (h : ¬ (a ≤ x ∧ x < a + n)) : store m a n f x = m x := if_neg h

theorem readLE_congr (h : ∀ x, a ≤ x → x < a + n → m x = m' x) : readLE m n a = readLE m' n a := by
  induction n generalizing a with
  | zero => rfl
  | succ n ih =>
    rw [readLE, readLE, h a (by omega) (by omega), ih fun x h1 h2 => h x (by omega) (by omega)]

theorem readLE_lt (m : Nat → UInt8) (n a : Nat) : readLE m n a < 256 ^ n := by
  induction n generalizing a with
  | zero => exact Nat.one_pos
  | succ n ih =>
    have := ih (a + 1)
    have := (m a).toNat_lt
    rw [readLE, Nat.pow_succ]
    omega

/-- A number is read back as it was written, up to the width. -/
theorem readLE_bytesLE (m : Nat → UInt8) (n a v : Nat) (h : ∀ i, i < n → m (a + i) = bytesLE v i) :
    readLE m n a = v % 256 ^ n := by
  induction n generalizing a v with
  | zero => rw [Nat.pow_zero, Nat.mod_one]; rfl
  | succ n ih =>
    have h0 : (m a).toNat = v % 256 := by
      have := h 0 (by omega)
      rw [Nat.add_zero, bytesLE, Nat.pow_zero, Nat.div_one] at this
      rw [this, UInt8.toNat_ofNat']
    have hrec : readLE m n (a + 1) = v / 256 % 256 ^ n := by
      refine ih (a + 1) (v / 256) fun i hi => ?_
      have := h (i + 1) (by omega)
      rw [show a + 1 + i = a + (i + 1) by omega, this, bytesLE, bytesLE, Nat.div_div_eq_div_mul, Nat.pow_succ']
    rw [readLE, h0, hrec, Nat.pow_succ', Nat.mod_mul]

theorem read64_write64 (m : Nat → UInt8) (a : Nat) {v : Nat} (h : v < 2 ^ 64) : read64 (write64 m a v) a = v := by
  have e : readLE (write64 m a v) 8 a = v % 256 ^ 8 := by
    refine readLE_bytesLE _ 8 a v fun i hi => ?_
    rw [write64, store_of_mem _ ⟨by omega, by omega⟩, Nat.add_sub_cancel_left]
  exact e.trans (Nat.mod_eq_of_lt h)

/-- A store does not change the words outside it. -/
theorem read64_store (f : Nat → UInt8) {b : Nat} (h : b + 8 ≤ a ∨ a + n ≤ b) :
    read64 (store m a n f) b = read64 m b := by
  refine readLE_congr fun x h1 h2 => ?_
  exact store_of_not_mem f (by omega)

theorem read64_write64_of_disjoint (v : Nat) {b : Nat} (h : b + 8 ≤ a ∨ a + 8 ≤ b) :
    read64 (write64 m a v) b = read64 m b :=
  read64_store _ h

end ByteMem
