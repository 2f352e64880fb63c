import Mathlib.Data.List.Pairwise
import Mathlib.Data.List.Perm.Basic

/-!
# Extents

An extent `(a, n)` is the interval of the `n` cells from `a` on.  A list of pairwise disjoint extents stays so when
one of them is replaced by disjoint parts of it, which is what happens when a piece of free memory is cut.
-/

namespace Extent

/-- The cell `x` lies in the extent. -/
def Contains (e : Nat × Nat) (x : Nat) : Prop := e.1 ≤ x ∧ x < e.1 + e.2

/-- Two extents do not overlap. -/
def Apart (e f : Nat × Nat) : Prop := e.1 + e.2 ≤ f.1 ∨ f.1 + f.2 ≤ e.1

/-- The first extent is part of the second one. -/
def Inside (e f : Nat × Nat) : Prop := f.1 ≤ e.1 ∧ e.1 + e.2 ≤ f.1 + f.2

variable {e e' f : Nat × Nat} {x : Nat}

instance : DecidableRel Apart := fun _ _ => inferInstanceAs (Decidable (_ ∨ _))

theorem Apart.symm (h : Apart e f) : Apart f e := Or.symm h

instance : Std.Symm Apart := ⟨fun _ _ h => h.symm⟩

theorem Apart.inside (h : Apart e f) (hi : Inside e' e) : Apart e' f := by
  unfold Apart Inside at *
  omega

theorem Apart.not_contains (h : Apart e f) (hx : Contains e x) : ¬ Contains f x := by
  unfold Apart Contains at *
  omega

/-- An extent may be replaced by disjoint parts of it. -/
theorem pairwise_cut {l new : List (Nat × Nat)} (h : (e :: l).Pairwise Apart) (hn : new.Pairwise Apart)
    (hin : ∀ f ∈ new, Inside f e) : (new ++ l).Pairwise Apart := by
  obtain ⟨he, hl⟩ := List.pairwise_cons.1 h
  exact List.pairwise_append.2 ⟨hn, hl, fun f hf g hg => (he g hg).inside (hin f hf)⟩

theorem pairwise_perm {l l' : List (Nat × Nat)} (h : l.Pairwise Apart) (hp : l.Perm l') : l'.Pairwise Apart :=
  (hp.pairwise_iff Apart.symm).1 h

end Extent
