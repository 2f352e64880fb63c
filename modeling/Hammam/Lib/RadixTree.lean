import Mathlib.Data.List.Basic

/-!
# Radix trees in a heap of tables

A table `t : F` has an entry `h t i : E` for every index, and an entry may point to a child table.  `follow` walks
along a path of indices, `resolve` walks as far as there are children and returns the entry at which it stops with
the rest of the path.  The tables within depth `n` form a tree when no table is reached by two paths (`IsTree`).
Updates of a tree are described by the entries that they change: a walk that reads none of these is not affected
(`follow_congr`, `resolve_congr`).
-/

namespace RadixTree

variable {F I E : Type} (child : E → Option F)

/-- The table at the end of a path. -/
def follow (h : F → I → E) : F → List I → Option F
  | t, [] => some t
  | t, i :: p => (child (h t i)).bind fun t' => follow h t' p

/-- The entry at which a walk ends, and the rest of the path. -/
def resolve (h : F → I → E) : F → List I → Option (E × List I)
  | _, [] => none
  | t, [i] => some (h t i, [])
  | t, i :: j :: p =>
    match child (h t i) with
    | none => some (h t i, j :: p)
    | some t' => resolve h t' (j :: p)

/-- No table is reached by two paths of length at most `n`. -/
def IsTree (n : Nat) (h : F → I → E) (root : F) : Prop :=
  ∀ {p q t}, p.length ≤ n → q.length ≤ n → follow child h root p = some t → follow child h root q = some t → p = q

variable {child} {h h' : F → I → E} {root t f : F} {n : Nat}

theorem follow_append (t : F) (p q : List I) :
    follow child h t (p ++ q) = (follow child h t p).bind fun t' => follow child h t' q := by
  induction p generalizing t with
  | nil => rfl
  | cons i p ih =>
    rw [List.cons_append, follow, follow]
    cases child (h t i) with
    | none => rfl
    | some t' => exact ih t'

theorem follow_snoc {p : List I} {i : I} (hp : follow child h root p = some t) :
    follow child h root (p ++ [i]) = child (h t i) := by
  rw [follow_append, hp]
  cases hc : child (h t i) <;> simp [follow, hc]

/-- A walk depends only on the entries that it reads. -/
theorem follow_congr (p : List I)
    (hr : ∀ q j r u, p = q ++ j :: r → follow child h root q = some u → h' u j = h u j) :
    follow child h' root p = follow child h root p := by
  induction p generalizing root with
  | nil => rfl
  | cons i p ih =>
    rw [follow, follow, hr [] i p root rfl rfl]
    cases hc : child (h root i) with
    | none => rfl
    | some t' =>
      refine ih fun q j r u hp hu => hr (i :: q) j r u (by rw [hp, List.cons_append]) ?_
      rw [follow, hc]
      exact hu

theorem resolve_congr (p : List I)
    (hr : ∀ q j r u, p = q ++ j :: r → follow child h root q = some u → h' u j = h u j) :
    resolve child h' root p = resolve child h root p := by
  induction p generalizing root with
  | nil => rfl
  | cons i p ih =>
    have hi : h' root i = h root i := hr [] i p root rfl rfl
    cases p with
    | nil => rw [resolve, resolve, hi]
    | cons j p =>
      rw [resolve, resolve, hi]
      cases hc : child (h root i) with
      | none => rfl
      | some t' =>
        refine ih fun q k r u hp hu => hr (i :: q) k r u (by rw [hp, List.cons_append]) ?_
        rw [follow, hc]
        exact hu

theorem resolve_stop {i j : I} {p : List I} (hc : child (h t i) = none) :
    resolve child h t (i :: j :: p) = some (h t i, j :: p) := by
  rw [resolve, hc]

theorem resolve_next {i j : I} {p : List I} (hc : child (h t i) = some f) :
    resolve child h t (i :: j :: p) = resolve child h f (j :: p) := by
  rw [resolve, hc]

/-- A walk along a path that can be followed goes on from its end. -/
theorem resolve_append {p r : List I} (hp : follow child h root p = some t) (hr : r ≠ []) :
    resolve child h root (p ++ r) = resolve child h t r := by
  induction p generalizing root with
  | nil =>
    rw [follow, Option.some.injEq] at hp
    rw [List.nil_append, hp]
  | cons i p ih =>
    rw [follow, Option.bind_eq_some_iff] at hp
    obtain ⟨t', hc, hp⟩ := hp
    obtain ⟨j, q, e⟩ := List.exists_cons_of_ne_nil (show p ++ r ≠ [] by simp [hr])
    rw [List.cons_append, e, resolve, hc, ← e]
    exact ih hp

/-! ### Updates -/

/-- A walk in a tree reads the entry `i` of the table at `p` only on the way through `p ++ [i]`. -/
theorem reads_of_tree (ht : IsTree child n h root) {p : List I} {i : I} (hn : p.length ≤ n)
    (hp : follow child h root p = some t) {q r : List I} {j : I} {u : F} (hq : q.length ≤ n)
    (hu : follow child h root q = some u) (hno : ¬ (p ++ [i]) <+: (q ++ j :: r)) : ¬ (u = t ∧ j = i) := by
  intro h
  obtain ⟨rfl, rfl⟩ := h
  have e : q = p := ht hq hn hu hp
  exact hno ⟨r, by rw [e]; simp⟩

/-- The entry `i` of the table at `p` changes, and nothing else but the entries of tables outside the tree, those that
meet `S`. -/
structure Changed (child : E → Option F) (n : Nat) (h h' : F → I → E) (root : F) (S : F → Prop) (t : F) (p : List I)
    (i : I) : Prop where
  tree : IsTree child n h root
  depth : p.length ≤ n
  at_path : follow child h root p = some t
  fresh : ∀ {q u}, q.length ≤ n → follow child h root q = some u → ¬ S u
  same : ∀ {u} j, ¬ S u → ¬ (u = t ∧ j = i) → h' u j = h u j

namespace Changed

variable {S : F → Prop} {p q : List I} {i : I}

theorem agree (c : Changed child n h h' root S t p i) {r : List I} {j : I} {u : F} (hq : q.length ≤ n)
    (hu : follow child h root q = some u) (hno : ¬ (p ++ [i]) <+: (q ++ j :: r)) : h' u j = h u j :=
  c.same j (c.fresh hq hu) (reads_of_tree c.tree c.depth c.at_path hq hu hno)

/-- Walks that do not pass through the changed entry are the same. -/
theorem follow_eq (c : Changed child n h h' root S t p i) (hq : q.length ≤ n + 1) (hno : ¬ (p ++ [i]) <+: q) :
    follow child h' root q = follow child h root q := by
  refine follow_congr q fun q' j r u hqe hu => ?_
  subst hqe
  rw [List.length_append, List.length_cons] at hq
  exact c.agree (by omega) hu hno

theorem resolve_eq (c : Changed child n h h' root S t p i) (hq : q.length ≤ n + 1) (hno : ¬ (p ++ [i]) <+: q) :
    resolve child h' root q = resolve child h root q := by
  refine resolve_congr q fun q' j r u hqe hu => ?_
  subst hqe
  rw [List.length_append, List.length_cons] at hq
  exact c.agree (by omega) hu hno

theorem follow_path (c : Changed child n h h' root S t p i) : follow child h' root p = some t := by
  rw [c.follow_eq (Nat.le_succ_of_le c.depth), c.at_path]
  intro hp
  have := hp.length_le
  rw [List.length_append, List.length_singleton] at this
  omega

/-- A changed entry of a lowest table is no way to a table. -/
theorem follow_leaf (c : Changed child n h h' root S t p i) (hp : p.length = n) (hq : q.length ≤ n) :
    follow child h' root q = follow child h root q := by
  refine c.follow_eq (by omega) fun hpre => ?_
  have := hpre.length_le
  rw [List.length_append, List.length_singleton] at this
  omega

theorem tree_leaf (c : Changed child n h h' root S t p i) (hp : p.length = n) : IsTree child n h' root := by
  intro q q' u hq hq' hu hu'
  rw [c.follow_leaf hp hq] at hu
  rw [c.follow_leaf hp hq'] at hu'
  exact c.tree hq hq' hu hu'

/-- A new table under an entry without a child: it is reached by one path, and the others stay. -/
theorem follow_link (c : Changed child n h h' root S t p i) {f : F} (hp : p.length < n) (hnone : child (h t i) = none)
    (hf : child (h' t i) = some f) (hempty : p.length + 1 < n → ∀ j, child (h' f j) = none) (hq : q.length ≤ n)
    {u : F} :
    follow child h' root q = some u ↔ follow child h root q = some u ∨ (q = p ++ [i] ∧ u = f) := by
  by_cases hpre : (p ++ [i]) <+: q
  · obtain ⟨r, rfl⟩ := hpre
    have hold : follow child h root (p ++ [i] ++ r) = none := by
      rw [follow_append, follow_snoc c.at_path, hnone]
      rfl
    have hnew : follow child h' root (p ++ [i] ++ r) = follow child h' f r := by
      rw [follow_append, follow_snoc c.follow_path, hf]
      rfl
    rw [hold, hnew]
    cases r with
    | nil => simp [follow, eq_comm]
    | cons j r =>
      rw [follow, hempty (by simp at hq; omega) j]
      simp
  · rw [c.follow_eq (by omega) hpre]
    refine (or_iff_left ?_).symm
    intro h
    obtain ⟨rfl, -⟩ := h
    exact hpre (List.prefix_refl _)

theorem tree_link (c : Changed child n h h' root S t p i) {f : F} (hp : p.length < n) (hnone : child (h t i) = none)
    (hf : child (h' t i) = some f) (hempty : p.length + 1 < n → ∀ j, child (h' f j) = none) (hS : S f) :
    IsTree child n h' root := by
  intro q q' u hq hq' hu hu'
  rw [c.follow_link hp hnone hf hempty hq] at hu
  rw [c.follow_link hp hnone hf hempty hq'] at hu'
  obtain hu | ⟨rfl, e⟩ := hu <;> obtain hu' | ⟨rfl, e'⟩ := hu'
  · exact c.tree hq hq' hu hu'
  · exact absurd (e' ▸ hS) (c.fresh hq hu)
  · exact absurd (e ▸ hS) (c.fresh hq' hu')
  · rfl

end Changed

/-- Without some of the links no new table is reached. -/
theorem follow_of_pruned {p : List I} (hsub : ∀ u j, h' u j = h u j ∨ child (h' u j) = none)
    (hp : follow child h' root p = some t) : follow child h root p = some t := by
  induction p generalizing root with
  | nil => exact hp
  | cons i p ih =>
    rw [follow, Option.bind_eq_some_iff] at hp
    obtain ⟨u, hc, hp⟩ := hp
    obtain he | he := hsub root i
    · rw [follow, ← he, hc]
      exact ih hp
    · rw [he] at hc
      cases hc

theorem IsTree.of_pruned (ht : IsTree child n h root) (hsub : ∀ u j, h' u j = h u j ∨ child (h' u j) = none) :
    IsTree child n h' root := fun hp hq hu hv => ht hp hq (follow_of_pruned hsub hu) (follow_of_pruned hsub hv)

/-- Writes outside the tree change no walk. -/
theorem resolve_outside {p : List I} (hp : p.length ≤ n + 1)
    (hsame : ∀ q u, q.length ≤ n → follow child h root q = some u → ∀ j, h' u j = h u j) :
    resolve child h' root p = resolve child h root p := by
  refine resolve_congr p fun q j r u hpe hu => hsame q u ?_ hu j
  subst hpe
  rw [List.length_append, List.length_cons] at hp
  omega

theorem follow_outside {p : List I} (hp : p.length ≤ n + 1)
    (hsame : ∀ q u, q.length ≤ n → follow child h root q = some u → ∀ j, h' u j = h u j) :
    follow child h' root p = follow child h root p := by
  refine follow_congr p fun q j r u hpe hu => hsame q u ?_ hu j
  subst hpe
  rw [List.length_append, List.length_cons] at hp
  omega

end RadixTree
