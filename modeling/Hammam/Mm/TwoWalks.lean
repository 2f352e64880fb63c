import Hammam.Mm.UserPtr

/-!
# The two walks and the validators

`translate` and `translate_flags` are written out separately, and `validate_user_slice` trusts the one and its
variant for writing the other.  The walks end at the same entry unless that is a page of 1 GiB: `translate` takes
such a page for a page directory, and reads its contents as entries.  Both walks are constant on a page, so a range
is validated exactly by its pages.

Both walks read their entries in physical memory: `get_table` is taken to reach the frame that it is given.
-/

namespace Hammam

open ByteMem RadixTree PageTableEntry

/-! ### Agreement -/

/-- The walks both end or both fail, and the address is the one that the leaf of the flags gives. -/
def Machine.WalksAgree (s : Machine) (v : Nat) : Prop :=
  ((s.translate v).isSome ↔ (s.translateFlags v).isSome) ∧
    ∀ x fl, s.translate v = some x → s.translateFlags v = some fl →
      ∃ e w, s.hwLeaf v = some (e, w) ∧ fl = flags e ∧ x = (e &&& addrMask) / 2 ^ w * 2 ^ w + v % 2 ^ w

/-- The contents of the frame `t` happen to be entries of a page directory that lead from `v` to `x`. -/
def Machine.LooksLikeDirectory (s : Machine) (t v x : Nat) : Prop :=
  has (view s.mem t (idx v 21)) .present ∧
    if has (view s.mem t (idx v 21)) .hugePage then 4096 * frameNo (view s.mem t (idx v 21)) + v % 2 ^ 21 = x
    else has (view s.mem (frameNo (view s.mem t (idx v 21))) (idx v 12)) .present ∧
      4096 * frameNo (view s.mem (frameNo (view s.mem t (idx v 21))) (idx v 12)) + v % 4096 = x

/-- The walk for `v` does not end at a page of 1 GiB, except where its contents look like a directory, and a 2 MiB
page has the bits 12 to 20 of its entry clear. -/
def Machine.WalkRegular (s : Machine) (v : Nat) : Prop :=
  ∀ e w, s.hwLeaf v = some (e, w) →
    (w = 21 → 512 ∣ frameNo e) ∧
    (w = 30 → s.LooksLikeDirectory (frameNo e) v (4096 * frameNo e / 2 ^ 30 * 2 ^ 30 + v % 2 ^ 30))

/-- The last two levels of `translate`. -/
private theorem directory_walk (s : Machine) (t v x : Nat) :
    ((frame (view s.mem t (idx v 21))).bind fun ptFrame =>
      if has (view s.mem t (idx v 21)) .hugePage then some (ptFrame.startAddress + v % 2 ^ 21)
      else (frame (entry s.mem ptFrame (v / 2 ^ 12 % 512))).bind fun page => some (page.startAddress + v % 4096)) =
      some x ↔ s.LooksLikeDirectory t v x := by
  unfold Machine.LooksLikeDirectory
  by_cases h₂ : has (view s.mem t (idx v 21)) .present
  case neg => simp [frame_of_not_present h₂, h₂]
  rw [frame_of_present h₂, Option.bind_some]
  by_cases hh₂ : has (view s.mem t (idx v 21)) .hugePage
  · rw [if_pos hh₂, if_pos hh₂, Option.some.injEq]
    simp [h₂]
  · rw [if_neg hh₂, if_neg hh₂, entry_idx]
    generalize frameNo (view s.mem t (idx v 21)) = t₁
    by_cases h₁ : has (view s.mem t₁ (idx v 12)) .present
    · rw [frame_of_present h₁, Option.bind_some, Option.some.injEq]
      simp [h₁, h₂]
    · simp [frame_of_not_present h₁, h₁]

/-- How the two walks end. -/
private theorem Machine.two_walks (s : Machine) (v : Nat) :
    (s.hwLeaf v = none ∧ s.translate v = none) ∨
      (∃ e, s.hwLeaf v = some (e, 12) ∧ s.translate v = some (4096 * frameNo e + v % 4096)) ∨
      (∃ e, s.hwLeaf v = some (e, 21) ∧ s.translate v = some (4096 * frameNo e + v % 2 ^ 21)) ∨
      ∃ e, s.hwLeaf v = some (e, 30) ∧ ∀ x, s.translate v = some x ↔ s.LooksLikeDirectory (frameNo e) v x := by
  simp only [translate, hwLeaf, activePml4_eq, pml4Index, pdptIndex, pdIndex, ptIndex, index_eq, and_page,
    and_hugePage, entry_idx]
  by_cases h₄ : has (view s.mem s.root (idx v 39)) .present
  case neg => exact Or.inl (by simp [frame_of_not_present h₄])
  rw [frame_of_present h₄]
  generalize frameNo (view s.mem s.root (idx v 39)) = t₃
  simp only [Option.bind_eq_bind, Option.bind_some, entry_idx]
  by_cases h₃ : has (view s.mem t₃ (idx v 30)) .present
  case neg => exact Or.inl (by simp [frame_of_not_present h₃])
  rw [frame_of_present h₃]
  simp only [Option.bind_some, entry_idx]
  by_cases hh₃ : has (view s.mem t₃ (idx v 30)) .hugePage
  · exact Or.inr (Or.inr (Or.inr ⟨_, if_pos hh₃, directory_walk s _ v⟩))
  rw [if_neg hh₃]
  generalize frameNo (view s.mem t₃ (idx v 30)) = t₂
  by_cases h₂ : has (view s.mem t₂ (idx v 21)) .present
  case neg => exact Or.inl (by simp [frame_of_not_present h₂])
  rw [frame_of_present h₂]
  simp only [Option.bind_some, entry_idx]
  by_cases hh₂ : has (view s.mem t₂ (idx v 21)) .hugePage
  · exact Or.inr (Or.inr (Or.inl ⟨_, if_pos hh₂, if_pos hh₂⟩))
  rw [if_neg hh₂, if_neg hh₂]
  generalize frameNo (view s.mem t₂ (idx v 21)) = t₁
  by_cases h₁ : has (view s.mem t₁ (idx v 12)) .present
  · exact Or.inr (Or.inl ⟨_, if_pos h₁, by rw [frame_of_present h₁, Option.bind_some]⟩)
  · exact Or.inl ⟨if_neg h₁, by rw [frame_of_not_present h₁, Option.bind_none]⟩

/-- When both walks find something, they agree if the address is that of the leaf. -/
private theorem Machine.walksAgree_iff {s : Machine} {v e w : Nat} (hw : s.hwLeaf v = some (e, w)) :
    s.WalksAgree v ↔ s.translate v = some (4096 * frameNo e / 2 ^ w * 2 ^ w + v % 2 ^ w) := by
  have hfl : s.translateFlags v = some (flags e) := by rw [translateFlags_eq_hwLeaf, hw, Option.map_some]
  unfold WalksAgree
  rw [hfl, hw]
  constructor
  · intro h
    obtain ⟨x, hx⟩ := Option.isSome_iff_exists.1 (h.1.2 rfl)
    obtain ⟨e', w', he, -, rfl⟩ := h.2 x _ hx rfl
    cases he
    rw [hx, and_addrMask, ← frameNo]
  · intro h
    refine ⟨by simp [h], fun x fl hx hf => ⟨e, w, rfl, (Option.some.inj hf).symm, ?_⟩⟩
    rw [h, Option.some.injEq] at hx
    rw [← hx, and_addrMask, ← frameNo]

/-- The two walks agree at `v` if and only if the walk for `v` is regular. -/
theorem walks_agree_iff (s : Machine) (v : Nat) : s.WalksAgree v ↔ s.WalkRegular v := by
  obtain ⟨hw, ht⟩ | ⟨e, hw, ht⟩ | ⟨e, hw, ht⟩ | ⟨e, hw, ht⟩ := s.two_walks v
  · constructor
    · intro _ e w he
      rw [hw] at he
      cases he
    · intro _
      refine ⟨?_, fun x fl hx => ?_⟩
      · rw [Machine.translateFlags_eq_hwLeaf, hw, ht]
        rfl
      · rw [ht] at hx
        cases hx
  · rw [Machine.walksAgree_iff hw, ht]
    constructor
    · intro _ e' w he
      rw [hw] at he
      cases he
      exact ⟨nofun, nofun⟩
    · intro _
      rw [Option.some.injEq]
      omega
  · rw [Machine.walksAgree_iff hw, ht, Option.some.injEq]
    constructor
    · intro h e' w he
      rw [hw] at he
      cases he
      exact ⟨fun _ => by omega, nofun⟩
    · intro h
      have := (h e 21 hw).1 rfl
      omega
  · rw [Machine.walksAgree_iff hw, ht]
    constructor
    · intro h e' w he
      rw [hw] at he
      cases he
      exact ⟨nofun, fun _ => h⟩
    · intro h
      exact (h e 30 hw).2 rfl

/-- The PML4 in frame 1, a PDPT in frame 2 and the first GiB mapped to the second. -/
def gigabyteMachine : Machine :=
  ⟨setEntry (setEntry (fun _ => 0) ⟨0x1000⟩ 0 0x2007) ⟨0x2000⟩ 0 0x40000087, 0x1000, smallAlloc⟩

/-- `translate` finds nothing in a page of 1 GiB that is cleared, where `translate_flags` and the processor do. -/
theorem walks_disagree_gigabyte :
    gigabyteMachine.translate 0x1234 = none ∧ (gigabyteMachine.translateFlags 0x1234).isSome ∧
      gigabyteMachine.hwTranslate 0x1234 = some 0x40001234 ∧ ¬ gigabyteMachine.WalksAgree 0x1234 := by
  have ht : gigabyteMachine.translate 0x1234 = none := by decide
  have hf : (gigabyteMachine.translateFlags 0x1234).isSome := by decide
  refine ⟨ht, hf, by decide, fun h => ?_⟩
  have := h.1.2 hf
  rw [ht] at this
  cases this

/-! ### Validation -/

/-- The loop over the pages on `u64`, of which at most `fuel` rounds are run; `none` is an overflow, or a loop that
has not ended. -/
def checkPagesU64 (check : Nat → Except UserPtrError Unit) : Nat → Nat → Nat → Option (Except UserPtrError Unit)
  | 0, _, _ => none
  | fuel + 1, page, lastPage =>
    if page ≤ lastPage then
      match check page with
      | .error e => some (.error e)
      | .ok _ => if page + 0x1000 < 2 ^ 64 then checkPagesU64 check fuel (page + 0x1000) lastPage else none
    else some (.ok ())

/-- Below the last page of `u64` the loop is the one on natural numbers. -/
theorem checkPagesU64_eq (check : Nat → Except UserPtrError Unit) {lastPage : Nat}
    (hlast : lastPage + 0x1000 < 2 ^ 64)
    (fuel : Nat) : ∀ page, lastPage + 1 ≤ page + fuel * 0x1000 →
      checkPagesU64 check (fuel + 1) page lastPage = some (checkPages check page lastPage) := by
  induction fuel with
  | zero =>
    intro page hfuel
    have hgt : ¬ page ≤ lastPage := by omega
    rw [checkPagesU64, checkPages, if_neg hgt, if_neg hgt]
    rfl
  | succ fuel ih =>
    intro page hfuel
    rw [checkPagesU64, checkPages]
    by_cases hle : page ≤ lastPage
    · rw [if_pos hle, if_pos hle]
      cases check page with
      | error e => rfl
      | ok u =>
        have hnext : page + 0x1000 < 2 ^ 64 := by omega
        have hrec := ih (page + 0x1000) (by omega)
        exact (if_pos hnext).trans (hrec.trans
          (congrArg some (pure_bind u fun _ => checkPages check _ lastPage).symm))
    · rw [if_neg hle, if_neg hle]
      rfl

/-- `translate` finds something at an address if it does at the start of the page. -/
theorem Machine.translate_page_isSome (s : Machine) (v : Nat) :
    (s.translate (v / 4096 * 4096)).isSome ↔ (s.translate v).isSome := by
  obtain ⟨h1, h2, h3, h4⟩ := index_page v
  rw [translate, translate, h1, h2, h3, h4]
  simp only [Option.bind_eq_bind]
  cases frame (entry s.mem s.activePml4 (pml4Index v)) with
  | none => rfl
  | some pdptFrame =>
    simp only [Option.bind_some]
    cases frame (entry s.mem pdptFrame (pdptIndex v)) with
    | none => rfl
    | some pdFrame =>
      simp only [Option.bind_some]
      cases frame (entry s.mem pdFrame (pdIndex v)) with
      | none => rfl
      | some ptFrame =>
        simp only [Option.bind_some]
        split
        · rfl
        · cases frame (entry s.mem ptFrame (ptIndex v)) <;> rfl

/-- The leaf of an address is writable if `translate_flags` says so. -/
private theorem leafHas_writable_iff (s : Machine) (a : Nat) :
    s.LeafHas a .writable ↔ ∃ fl, s.translateFlags a = some fl ∧ fl.contains .writable := by
  rw [Machine.translateFlags_eq_hwLeaf, Machine.LeafHas]
  constructor
  · intro h
    obtain ⟨l, hl, hw⟩ := h
    exact ⟨_, by rw [hl, Option.map_some], hw⟩
  · intro h
    obtain ⟨fl, hfl, hw⟩ := h
    obtain ⟨l, hl, rfl⟩ := Option.map_eq_some_iff.1 hfl
    exact ⟨l, hl, hw⟩

/-- The ranges that a validator accepts, from those that are not empty. -/
private theorem accepted_iff {check : Nat → Except UserPtrError Unit} {A : Nat → Prop} {ptr len : Nat}
    (hok : 0 < len → ∀ r, validateSlice check ptr len = .ok r ↔ r = (ptr, len) ∧ ptr ≠ 0 ∧ ptr + len ≤ userMax ∧
      ∀ a, ptr ≤ a → a < ptr + len → A a) :
    (∃ r, validateSlice check ptr len = .ok r) ↔ ptr ≠ 0 ∧ (len = 0 ∨
      (ptr + len < 2 ^ 64 ∧ ptr + len ≤ userMax ∧ ∀ a, ptr ≤ a → a < ptr + len → A a)) := by
  have hmax : userMax < 2 ^ 64 := by decide
  obtain rfl | hlen := Nat.eq_zero_or_pos len
  · unfold validateSlice
    by_cases h0 : ptr = 0
    · simp [h0]
    · simp [h0]
  · constructor
    · intro h
      obtain ⟨r, hr⟩ := h
      obtain ⟨-, h0, hle, hall⟩ := (hok hlen r).1 hr
      exact ⟨h0, Or.inr ⟨by omega, hle, hall⟩⟩
    · intro h
      obtain ⟨h0, rfl | ⟨-, hle, hall⟩⟩ := h
      · omega
      · exact ⟨_, (hok hlen _).2 ⟨rfl, h0, hle, hall⟩⟩

/-- A range is accepted if it does not start at 0 and is empty, or ends at or below `USER_MAX` and every byte of it is
mapped, for the variant for writing with `WRITABLE`; nothing else is.  On such ranges the loop over the pages ends
without an overflow. -/
theorem user_range_validation_exact (s : Machine) (ptr len : Nat) :
    ((∃ r, s.validateUserSlice ptr len = .ok r) ↔ ptr ≠ 0 ∧ (len = 0 ∨
      (ptr + len < 2 ^ 64 ∧ ptr + len ≤ userMax ∧ ∀ a, ptr ≤ a → a < ptr + len → (s.translate a).isSome))) ∧
    ((∃ r, s.validateUserSliceMut ptr len = .ok r) ↔ ptr ≠ 0 ∧ (len = 0 ∨
      (ptr + len < 2 ^ 64 ∧ ptr + len ≤ userMax ∧ ∀ a, ptr ≤ a → a < ptr + len →
        ∃ fl, s.translateFlags a = some fl ∧ fl.contains .writable))) ∧
    (0 < len → ptr + len ≤ userMax → ∀ check, ∃ fuel,
      checkPagesU64 check fuel (ptr / 0x1000 * 0x1000) ((ptr + len - 1) / 0x1000 * 0x1000) =
        some (checkPages check (ptr / 0x1000 * 0x1000) ((ptr + len - 1) / 0x1000 * 0x1000))) := by
  refine ⟨accepted_iff fun hlen r => ?_, accepted_iff fun hlen r => ?_,
    fun hlen hle check => ⟨len / 0x1000 + 2 + 1, ?_⟩⟩
  · refine (Machine.validateUserSlice_ok hlen).trans ?_
    simp only [Option.ne_none_iff_isSome, s.translate_page_isSome]
  · refine (Machine.validateUserSliceMut_ok hlen).trans ?_
    simp only [leafHas_writable_iff]
  · rw [userMax] at hle
    exact checkPagesU64_eq check (by omega) _ _ (by omega)

end Hammam
