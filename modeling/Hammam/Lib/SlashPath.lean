import Mathlib.Data.List.Basic
import Mathlib.Data.List.Induction
import Mathlib.Order.Basic

/-!
# Paths over a separator

A path is a list in which a separator divides parts.  `parts` reads the non-empty parts of a path, `join` writes a
list of parts with a separator before each, and `canonical` is the form of an absolute path: `join`, or the
separator alone for the root.  `squeeze` drops repeated separators; what is left is canonical up to a separator at
either end.
-/

namespace SlashPath

variable {α : Type} {sep : α}

/-- The parts `cs`, each after a separator. -/
def join (sep : α) (cs : List (List α)) : List α := cs.flatMap (sep :: ·)

/-- Parts that can be written and read back. -/
def Valid (sep : α) (cs : List (List α)) : Prop := ∀ c ∈ cs, c ≠ [] ∧ sep ∉ c

theorem valid_nil : Valid sep [] := fun _ h => absurd h List.not_mem_nil

@[simp] theorem join_nil : join sep [] = [] := rfl

@[simp] theorem join_cons (c : List α) (cs : List (List α)) : join sep (c :: cs) = sep :: (c ++ join sep cs) := rfl

theorem join_append (cs ds : List (List α)) : join sep (cs ++ ds) = join sep cs ++ join sep ds :=
  List.flatMap_append

theorem join_snoc (cs : List (List α)) (c : List α) : join sep (cs ++ [c]) = join sep cs ++ sep :: c := by
  rw [join_append, join_cons, join_nil, List.append_nil]

theorem Valid.cons {c : List α} {cs : List (List α)} (h : Valid sep (c :: cs)) : (c ≠ [] ∧ sep ∉ c) ∧ Valid sep cs :=
  List.forall_mem_cons.1 h

theorem Valid.snoc {c : List α} {cs : List (List α)} (h : Valid sep cs) (hc : c ≠ []) (hs : sep ∉ c) :
    Valid sep (cs ++ [c]) := by
  intro d hd
  rcases List.mem_append.1 hd with hd | hd
  · exact h d hd
  · rw [List.mem_singleton.1 hd]
    exact ⟨hc, hs⟩

theorem Valid.mono {cs ds : List (List α)} (h : Valid sep ds) (hp : cs <+: ds) : Valid sep cs :=
  fun c hc => h c (hp.subset hc)

/-- A path of valid parts does not end in a separator. -/
theorem getLast?_join {cs : List (List α)} (h : Valid sep cs) : (join sep cs).getLast? ≠ some sep := by
  induction cs using List.reverseRecOn with
  | nil => simp
  | append_singleton cs c _ =>
    obtain ⟨hc, hs⟩ := h c (by simp)
    rw [join_snoc, List.getLast?_append_cons, List.getLast?_cons_of_ne_nil hc]
    exact fun e => hs (List.mem_of_getLast? e)

variable [DecidableEq α]

/-- The non-empty parts of `p` between the separators. -/
def parts (sep : α) (p : List α) : List (List α) := (p.splitOn sep).filter (· ≠ [])

/-- The absolute path with the parts `cs`. -/
def canonical (sep : α) (cs : List (List α)) : List α := if cs = [] then [sep] else join sep cs

/-- Drop the separators that follow another one; `prev` says that the last element was one. -/
def squeeze (sep : α) : Bool → List α → List α
  | _, [] => []
  | prev, x :: xs =>
    if x = sep then (if prev then squeeze sep true xs else sep :: squeeze sep true xs) else x :: squeeze sep false xs

/-! ### Writing and reading parts -/

@[simp] theorem parts_nil : parts sep [] = [] := by
  simp [parts]

theorem parts_append_sep (a b : List α) : parts sep (a ++ sep :: b) = parts sep a ++ parts sep b := by
  rw [parts, List.splitOn_append_cons_self, List.filter_append]
  rfl

@[simp] theorem parts_cons_sep (b : List α) : parts sep (sep :: b) = parts sep b :=
  parts_append_sep [] b

theorem parts_of_not_mem {c : List α} (hc : c ≠ []) (h : sep ∉ c) : parts sep c = [c] := by
  rw [parts, List.splitOn_eq_singleton h]
  simp [hc]

theorem parts_join {cs : List (List α)} (h : Valid sep cs) : parts sep (join sep cs) = cs := by
  induction cs with
  | nil => exact parts_nil
  | cons c cs ih =>
    obtain ⟨⟨hc, hs⟩, hcs⟩ := h.cons
    rw [join_cons, parts_cons_sep]
    cases cs with
    | nil => rw [join_nil, List.append_nil, parts_of_not_mem hc hs]
    | cons d ds =>
      have e := ih hcs
      rw [join_cons, parts_cons_sep] at e
      rw [join_cons, parts_append_sep, parts_of_not_mem hc hs, e]
      rfl

theorem parts_canonical {cs : List (List α)} (h : Valid sep cs) : parts sep (canonical sep cs) = cs := by
  unfold canonical
  split
  · rename_i e
    rw [e, parts_cons_sep, parts_nil]
  · exact parts_join h

theorem canonical_injective {cs ds : List (List α)} (hc : Valid sep cs) (hd : Valid sep ds)
    (h : canonical sep cs = canonical sep ds) : cs = ds := by
  rw [← parts_canonical hc, ← parts_canonical hd, h]

theorem valid_parts (p : List α) : Valid sep (parts sep p) := by
  intro c hc
  obtain ⟨hmem, hne⟩ := List.mem_filter.1 hc
  refine ⟨by simpa using hne, ?_⟩
  clear hc hne
  induction p generalizing c with
  | nil =>
    rw [List.splitOn_nil, List.mem_singleton] at hmem
    rw [hmem]
    exact List.not_mem_nil
  | cons x xs ih =>
    rw [List.splitOn_cons_eq_if_modifyHead] at hmem
    split at hmem
    · rcases List.mem_cons.1 hmem with rfl | h
      · exact List.not_mem_nil
      · exact ih c h
    · rename_i hx
      obtain ⟨h, t, e⟩ := List.exists_cons_of_ne_nil (List.splitOn_ne_nil sep xs)
      rw [e, List.modifyHead_cons] at hmem
      rcases List.mem_cons.1 hmem with rfl | hm
      · have := ih h (by rw [e]; exact List.mem_cons_self)
        intro hs
        rcases List.mem_cons.1 hs with rfl | hs
        · simp at hx
        · exact this hs
      · exact ih c (by rw [e]; exact List.mem_cons_of_mem _ hm)

/-! ### Squeezing separators -/

/-- The separator at the end of a path, if there is one. -/
def trail (sep : α) (p : List α) : List α := if p.getLast? = some sep then [sep] else []

theorem trail_cons (x : α) {p : List α} (h : p ≠ []) : trail sep (x :: p) = trail sep p := by
  rw [trail, trail, List.getLast?_cons_of_ne_nil h]

theorem eq_sep_of_parts_nil {x : α} {xs : List α} (h : parts sep (x :: xs) = []) : x = sep := by
  by_contra hx
  rw [parts, List.splitOn_cons_eq_if_modifyHead, if_neg (by simpa using hx)] at h
  obtain ⟨y, t, e⟩ := List.exists_cons_of_ne_nil (List.splitOn_ne_nil sep xs)
  rw [e] at h
  simp at h

theorem trail_of_parts_nil {p : List α} (h : parts sep p = []) : trail sep (sep :: p) = [sep] := by
  induction p with
  | nil => simp [trail]
  | cons x xs ih =>
    have hx := eq_sep_of_parts_nil h
    rw [trail_cons _ (List.cons_ne_nil _ _), hx]
    rw [hx, parts_cons_sep] at h
    exact ih h

theorem squeeze_false_of_ne {x : α} (xs : List α) (h : x ≠ sep) :
    squeeze sep false (x :: xs) = squeeze sep true (x :: xs) := by
  simp [squeeze, h]

/-- After a separator, squeezing leaves the parts with single separators between them. -/
theorem squeeze_true (p : List α) :
    squeeze sep true p = if parts sep p = [] then [] else (join sep (parts sep p)).tail ++ trail sep p := by
  -- a separator behind a component consumes two symbols, so the induction is on the length
  induction hn : p.length using Nat.strongRecOn generalizing p with
  | _ n ih =>
  subst hn
  cases p with
  | nil => simp [squeeze]
  | cons x q =>
    by_cases hx : x = sep
    · subst hx
      have e : squeeze x true (x :: q) = squeeze x true q := by simp [squeeze]
      rw [e, parts_cons_sep, ih q.length (by simp) q rfl]
      split
      · rfl
      · rename_i hne
        rw [trail_cons]
        intro he
        subst he
        exact hne parts_nil
    · have e : squeeze sep true (x :: q) = x :: squeeze sep false q := by simp [squeeze, hx]
      rw [e]
      cases q with
      | nil =>
        have hp : parts sep [x] = [[x]] := parts_of_not_mem (by simp) (by simpa using Ne.symm hx)
        simp [squeeze, hp, trail, hx]
      | cons y r =>
        by_cases hy : y = sep
        · subst hy
          have hp : parts y (x :: y :: r) = [x] :: parts y r := by
            rw [show x :: y :: r = [x] ++ y :: r from rfl, parts_append_sep,
              parts_of_not_mem (by simp) (by simpa using Ne.symm hx)]
            rfl
          have hs : squeeze y false (y :: r) = y :: squeeze y true r := by simp [squeeze]
          rw [hs, hp, if_neg (List.cons_ne_nil _ _), ih r.length (by simp only [List.length_cons]; omega) r rfl,
            trail_cons x (List.cons_ne_nil _ _)]
          by_cases hr : parts y r = []
          · rw [if_pos hr, hr, trail_of_parts_nil hr]
            simp
          · rw [if_neg hr, trail_cons y (by rintro rfl; exact hr parts_nil)]
            obtain ⟨c, cs, hc⟩ := List.exists_cons_of_ne_nil hr
            simp [hc]
        · obtain ⟨h, t, hsplit⟩ := List.exists_cons_of_ne_nil (List.splitOn_ne_nil sep r)
          have hq : parts sep (y :: r) = (y :: h) :: t.filter (· ≠ []) := by
            rw [parts, List.splitOn_cons_eq_if_modifyHead, if_neg (by simpa using hy), hsplit]
            simp
          have hp : parts sep (x :: y :: r) = (x :: y :: h) :: t.filter (· ≠ []) := by
            rw [parts, List.splitOn_cons_eq_if_modifyHead, if_neg (by simpa using hx),
              List.splitOn_cons_eq_if_modifyHead, if_neg (by simpa using hy), hsplit]
            simp
          rw [squeeze_false_of_ne r hy, ih (y :: r).length (by simp) (y :: r) rfl, hq, hp,
            if_neg (List.cons_ne_nil _ _), if_neg (List.cons_ne_nil _ _), trail_cons x (List.cons_ne_nil _ _)]
          simp

theorem squeeze_false (p : List α) :
    squeeze sep false p = if parts sep p = [] then p.take 1
      else (if p.head? = some sep then join sep (parts sep p) else (join sep (parts sep p)).tail) ++ trail sep p := by
  cases p with
  | nil => simp [squeeze]
  | cons x q =>
    by_cases hx : x = sep
    · subst hx
      have e : squeeze x false (x :: q) = x :: squeeze x true q := by simp [squeeze]
      rw [e, parts_cons_sep, squeeze_true]
      by_cases hq : parts x q = []
      · simp [hq]
      · rw [if_neg hq, if_neg hq, trail_cons x (by rintro rfl; exact hq parts_nil)]
        obtain ⟨c, cs, hc⟩ := List.exists_cons_of_ne_nil hq
        simp [hc]
    · have hne : parts sep (x :: q) ≠ [] := fun h => hx (eq_sep_of_parts_nil h)
      rw [squeeze_false_of_ne q hx, squeeze_true, if_neg hne, if_neg hne]
      simp [hx]

/-- Removing the separator at the end. -/
theorem trim_trail {x p : List α} (hne : x ≠ []) (hlast : x.getLast? ≠ some sep) :
    (if (x ++ trail sep p).length > 1 ∧ (x ++ trail sep p).getLast? = some sep then (x ++ trail sep p).dropLast
      else x ++ trail sep p) = x := by
  unfold trail
  split
  · have h1 : 0 < x.length := List.length_pos_iff.2 hne
    rw [if_pos ⟨by simp; omega, by simp⟩, List.dropLast_concat]
  · rw [List.append_nil, if_neg fun h => hlast h.2]

end SlashPath
