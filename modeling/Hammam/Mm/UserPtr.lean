import Hammam.Mm.BootTables

/-!
# User pointers (`mm/userptr.rs`, `sys_write`)

A system call receives a pointer and a length from user space.  `validate_user_slice` looks up every page of the slice
with `translate`, and the variant for writing asks `translate_flags` for `WRITABLE`; neither asks for
`USER_ACCESSIBLE`.  The slice is then read by the processor, in ring 0 and through its own walk of the tables, which
unlike `translate` knows pages of 1 GiB.
-/

namespace Hammam

open ByteMem RadixTree PageTableEntry Fallible

/-! ### Slices -/

/-- The bytes of a slice in order. -/
def Machine.readSlice (s : Machine) (ptr : Nat) : Nat → Option (List UInt8)
  | 0 => some []
  | n + 1 => do
    let b ← s.readByte ptr
    let rest ← s.readSlice (ptr + 1) n
    some (b :: rest)

/-! ### Validation -/

inductive UserPtrError where
  | badAddress
  | notMapped
  | notWritable
  | overflowDetected
  deriving DecidableEq, Repr

/-- `USER_MAX`. -/
def userMax : Nat := 0x0000800000000000

/-- The loop over the pages of a slice. -/
def checkPages (check : Nat → Except UserPtrError Unit) (page lastPage : Nat) : Except UserPtrError Unit :=
  if page ≤ lastPage then do
    check page
    checkPages check (page + 0x1000) lastPage
  else pure ()
termination_by lastPage + 1 - page

/-- The two functions differ in what they check of a page.  The slice is returned as its address and its length; the
lines that they log name the arguments only. -/
def validateSlice (check : Nat → Except UserPtrError Unit) (ptr len : Nat) : Except UserPtrError (Nat × Nat) :=
  if ptr = 0 then .error .badAddress
  else if len = 0 then .ok (ptr, 0)
  else if 2 ^ 64 ≤ ptr + len then .error .badAddress
  else if userMax < ptr + len then .error .badAddress
  else do
    checkPages check (ptr / 0x1000 * 0x1000) ((ptr + len - 1) / 0x1000 * 0x1000)
    pure (ptr, len)

def Machine.validateUserSlice (s : Machine) : Nat → Nat → Except UserPtrError (Nat × Nat) :=
  validateSlice fun page =>
    match s.translate page with
    | some _ => .ok ()
    | none => .error .notMapped

def Machine.validateUserSliceMut (s : Machine) : Nat → Nat → Except UserPtrError (Nat × Nat) :=
  validateSlice fun page =>
    match s.translateFlags page with
    | some flags => if flags.contains .writable then .ok () else .error .notWritable
    | none => .error .notMapped

/-- `b"[USERSPACE] "`. -/
def userspacePrefix : List UInt8 := [91, 85, 83, 69, 82, 83, 80, 65, 67, 69, 93, 32]

/-- `sys_write`: the returned number and the bytes that are written to the serial port, `none` after a page fault.
A length that passes validation is at most `2 ^ 47`, so `len as i64` is `len`. -/
def Machine.sysWrite (s : Machine) (fd bufPtr len : Nat) : Option (Int × List UInt8) :=
  if fd ≠ 1 then some (-9, [])
  else
    match s.validateUserSlice bufPtr len with
    | .error _ => some (-14, [])
    | .ok (ptr, n) => do
      let slice ← s.readSlice ptr n
      some (len, userspacePrefix ++ slice)

/-! ### What a successful validation says -/

section Slices

variable {check : Nat → Except UserPtrError Unit} {s : Machine} {ptr len : Nat}

private theorem ok_bind {α β : Type} {x : Except UserPtrError α} {f : α → Except UserPtrError β} {b : β} :
    (x >>= f) = .ok b ↔ ∃ a, x = .ok a ∧ f a = .ok b := by
  cases x with
  | ok a => exact ⟨fun h => ⟨a, rfl, h⟩, fun ⟨_, h, hf⟩ => by cases h; exact hf⟩
  | error e => exact ⟨fun h => (nomatch h), fun ⟨_, h, _⟩ => (nomatch h)⟩

private theorem checkPages_ok {last : Nat} (page : Nat) :
    checkPages check page last = .ok () ↔ ∀ k, page + k * 0x1000 ≤ last → check (page + k * 0x1000) = .ok () := by
  induction page using checkPages.induct last with
  | case1 page hle ih =>
    rw [checkPages, if_pos hle, ok_bind]
    constructor
    · rintro ⟨_, h0, h⟩ k hk
      cases k with
      | zero => simpa using h0
      | succ k =>
        have := ih.1 h k (by omega)
        rwa [show page + 0x1000 + k * 0x1000 = page + (k + 1) * 0x1000 by omega] at this
    · intro h
      refine ⟨(), by simpa using h 0 (by omega), ih.2 fun k hk => ?_⟩
      rw [show page + 0x1000 + k * 0x1000 = page + (k + 1) * 0x1000 by omega]
      exact h (k + 1) (by omega)
  | case2 page hgt =>
    rw [checkPages, if_neg hgt]
    refine ⟨fun _ k hk => ?_, fun _ => rfl⟩
    omega

/-- A slice that is accepted ends below `USER_MAX`, and the page of each of its bytes has been checked. -/
theorem validateSlice_ok {r : Nat × Nat} (hlen : 0 < len) :
    validateSlice check ptr len = .ok r ↔ r = (ptr, len) ∧ ptr ≠ 0 ∧ ptr + len ≤ userMax ∧
      ∀ a, ptr ≤ a → a < ptr + len → check (a / 4096 * 4096) = .ok () := by
  have hmax : userMax < 2 ^ 64 := by decide
  unfold validateSlice
  by_cases h0 : ptr = 0
  · simp [h0]
  rw [if_neg h0, if_neg (by omega)]
  by_cases h1 : userMax < ptr + len
  · have hno : ¬ ptr + len ≤ userMax := by omega
    by_cases h2 : 2 ^ 64 ≤ ptr + len
    · rw [if_pos h2]
      simp [hno]
    · rw [if_neg h2, if_pos h1]
      simp [hno]
  rw [if_neg (by omega), if_neg h1, ok_bind]
  -- the pages of the loop are the pages of the bytes
  have hpages : (∀ k, ptr / 0x1000 * 0x1000 + k * 0x1000 ≤ (ptr + len - 1) / 0x1000 * 0x1000 →
      check (ptr / 0x1000 * 0x1000 + k * 0x1000) = .ok ()) ↔
      ∀ a, ptr ≤ a → a < ptr + len → check (a / 4096 * 4096) = .ok () := by
    constructor
    · intro h a h1 h2
      have := h (a / 4096 - ptr / 4096) (by omega)
      rwa [show ptr / 0x1000 * 0x1000 + (a / 4096 - ptr / 4096) * 0x1000 = a / 4096 * 4096 by omega] at this
    · intro h k hk
      have := h (max ptr (ptr / 0x1000 * 0x1000 + k * 0x1000)) (by omega) (by omega)
      rwa [show max ptr (ptr / 0x1000 * 0x1000 + k * 0x1000) / 4096 * 4096 =
        ptr / 0x1000 * 0x1000 + k * 0x1000 by omega] at this
  rw [← hpages]
  constructor
  · intro h
    obtain ⟨_, h, e⟩ := h
    cases e
    exact ⟨rfl, h0, by omega, (checkPages_ok _).1 h⟩
  · intro h
    obtain ⟨rfl, -, -, h⟩ := h
    exact ⟨(), (checkPages_ok _).2 h, rfl⟩

/-! ### Safety of slices -/

/-- The leaf entry of `v` is present and carries `f`. -/
def Machine.LeafHas (s : Machine) (v : Nat) (f : PageFlags) : Prop := ∃ l, s.hwLeaf v = some l ∧ has l.1 f

/-- Every byte lies below `USER_MAX`, on a page that user space may read. -/
def Machine.SliceSafe (s : Machine) (ptr len : Nat) : Prop :=
  ∀ a, ptr ≤ a → a < ptr + len → a < userMax ∧ s.LeafHas a .userAccessible

/-- Every byte lies below `USER_MAX`, on a page that user space may write. -/
def Machine.SliceSafeMut (s : Machine) (ptr len : Nat) : Prop :=
  ∀ a, ptr ≤ a → a < ptr + len → a < userMax ∧ s.LeafHas a .userAccessible ∧ s.LeafHas a .writable

/-- The same page tables, and the same contents of the pages that user space may read. -/
structure SameUser (s s' : Machine) : Prop where
  translate : ∀ v, s'.translate v = s.translate v
  hwLeaf : ∀ v, s'.hwLeaf v = s.hwLeaf v
  mem : ∀ v x, s.LeafHas v .userAccessible → s.hwTranslate v = some x → s'.mem x = s.mem x

/-- What `sys_write(1, ptr, len)` does depends on the tables and on user-accessible contents only. -/
def Machine.WriteIndependent (s : Machine) (ptr len : Nat) : Prop :=
  ∀ s', SameUser s s' → s'.sysWrite 1 ptr len = s.sysWrite 1 ptr len

/-- No page below `USER_MAX` is reserved for the kernel: a page that `translate` resolves, or whose leaf is writable,
has a leaf with `USER_ACCESSIBLE`. -/
structure Machine.NoKernelPage (s : Machine) : Prop where
  mapped : ∀ page, 4096 ∣ page → page < userMax → s.translate page ≠ none → s.LeafHas page .userAccessible
  writable : ∀ page, 4096 ∣ page → page < userMax → s.LeafHas page .writable → s.LeafHas page .userAccessible

theorem Machine.leafHas_page {v : Nat} {f : PageFlags} : s.LeafHas (v / 4096 * 4096) f ↔ s.LeafHas v f := by
  unfold LeafHas
  rw [hwLeaf_page]

theorem Machine.validateUserSlice_ok {r : Nat × Nat} (hlen : 0 < len) :
    s.validateUserSlice ptr len = .ok r ↔ r = (ptr, len) ∧ ptr ≠ 0 ∧ ptr + len ≤ userMax ∧
      ∀ a, ptr ≤ a → a < ptr + len → s.translate (a / 4096 * 4096) ≠ none := by
  have hcheck : ∀ page, (match s.translate page with
      | some _ => Except.ok ()
      | none => Except.error UserPtrError.notMapped) = .ok () ↔ s.translate page ≠ none := by
    intro page
    cases s.translate page <;> simp
  rw [validateUserSlice, validateSlice_ok hlen]
  simp only [hcheck]

theorem Machine.validateUserSliceMut_ok {r : Nat × Nat} (hlen : 0 < len) :
    s.validateUserSliceMut ptr len = .ok r ↔ r = (ptr, len) ∧ ptr ≠ 0 ∧ ptr + len ≤ userMax ∧
      ∀ a, ptr ≤ a → a < ptr + len → s.LeafHas a .writable := by
  have hcheck : ∀ page, (match s.translateFlags page with
      | some flags => if flags.contains .writable then Except.ok () else Except.error UserPtrError.notWritable
      | none => Except.error UserPtrError.notMapped) = .ok () ↔ s.LeafHas page .writable := by
    intro page
    rw [LeafHas, translateFlags_eq_hwLeaf]
    cases s.hwLeaf page with
    | none => simp
    | some l =>
      simp only [Option.map_some, Option.some.injEq, exists_eq_left', has]
      split <;> simp [*]
  rw [validateUserSliceMut, validateSlice_ok hlen]
  simp only [hcheck, leafHas_page]

/-- The leaf of every page that the slice meets carries `USER_ACCESSIBLE`. -/
def Machine.SliceOnUserPages (s : Machine) (ptr len : Nat) : Prop :=
  ∀ page, 4096 ∣ page → ptr < page + 4096 → page < ptr + len → s.LeafHas page .userAccessible

private theorem bytes_onUserPages (hlen : 0 < len) :
    (∀ a, ptr ≤ a → a < ptr + len → s.LeafHas a .userAccessible) ↔ s.SliceOnUserPages ptr len := by
  constructor
  · intro h page hd h1 h2
    have hb := h (max ptr page) (by omega) (by omega)
    rwa [← Machine.leafHas_page, show max ptr page / 4096 * 4096 = page by omega] at hb
  · intro h a h1 h2
    rw [← Machine.leafHas_page]
    exact h _ (Dvd.intro_left _ rfl) (by omega) (by omega)

/-- A slice that has been accepted is safe exactly if its pages are those of user space. -/
theorem Machine.sliceSafe_iff (hlen : 0 < len) (hok : ∃ r, s.validateUserSlice ptr len = .ok r) :
    s.SliceSafe ptr len ↔ s.SliceOnUserPages ptr len := by
  obtain ⟨r, hr⟩ := hok
  obtain ⟨-, -, hmax, -⟩ := (validateUserSlice_ok hlen).1 hr
  rw [← bytes_onUserPages hlen]
  exact ⟨fun h a h1 h2 => (h a h1 h2).2, fun h a h1 h2 => ⟨by omega, h a h1 h2⟩⟩

theorem Machine.sliceSafeMut_iff (hlen : 0 < len) (hok : ∃ r, s.validateUserSliceMut ptr len = .ok r) :
    s.SliceSafeMut ptr len ↔ s.SliceOnUserPages ptr len := by
  obtain ⟨r, hr⟩ := hok
  obtain ⟨-, -, hmax, hall⟩ := (validateUserSliceMut_ok hlen).1 hr
  rw [← bytes_onUserPages hlen]
  exact ⟨fun h a h1 h2 => (h a h1 h2).2.1, fun h a h1 h2 => ⟨by omega, h a h1 h2, hall a h1 h2⟩⟩

/-- A slice on user-accessible pages is read without a fault, and the bytes are theirs. -/
private theorem readSlice_congr {s' : Machine} (h : SameUser s s') (n : Nat) :
    ∀ ptr, (∀ a, ptr ≤ a → a < ptr + n → s.LeafHas a .userAccessible) → s'.readSlice ptr n = s.readSlice ptr n := by
  induction n with
  | zero => exact fun _ _ => rfl
  | succ n ih =>
    intro ptr hsafe
    have htr : s'.hwTranslate ptr = s.hwTranslate ptr := by
      rw [Machine.hwTranslate, h.hwLeaf, Machine.hwTranslate]
    have hbyte : s'.readByte ptr = s.readByte ptr := by
      rw [Machine.readByte, Machine.readByte, htr]
      cases hx : s.hwTranslate ptr with
      | none => rfl
      | some x => rw [Option.map_some, Option.map_some, h.mem ptr x (hsafe ptr (by omega) (by omega)) hx]
    rw [Machine.readSlice, Machine.readSlice, hbyte, ih (ptr + 1) fun a h1 h2 => hsafe a (by omega) (by omega)]

/-- The slices that pass validation are safe, and `sys_write` reveals nothing of the kernel's pages, for all pointers
and lengths if and only if the tables have no page below `USER_MAX` that is reserved for the kernel. -/
theorem user_slices_safe_iff (s : Machine) :
    (∀ ptr len,
      (0 < len → (∃ r, s.validateUserSlice ptr len = .ok r) → s.SliceSafe ptr len) ∧
      (0 < len → (∃ r, s.validateUserSliceMut ptr len = .ok r) → s.SliceSafeMut ptr len) ∧
      s.WriteIndependent ptr len) ↔ s.NoKernelPage := by
  constructor
  · intro h
    have hpage : ∀ page a : Nat, 4096 ∣ page → page + 1 ≤ a → a < page + 1 + 1 → a / 4096 * 4096 = page := by omega
    constructor
    · intro page hd hlt htr
      -- one byte of the page, but not address 0, which is refused
      have hok : s.validateUserSlice (page + 1) 1 = .ok (page + 1, 1) := by
        refine (Machine.validateUserSlice_ok Nat.one_pos).2 ⟨rfl, by omega, ?_, fun a h1 h2 => ?_⟩
        · rw [userMax] at hlt ⊢
          omega
        · rw [hpage page a hd h1 h2]
          exact htr
      have := ((h _ 1).1 Nat.one_pos ⟨_, hok⟩ (page + 1) (Nat.le_refl _) (Nat.lt_succ_self _)).2
      rwa [← Machine.leafHas_page, hpage page _ hd (Nat.le_refl _) (Nat.lt_succ_self _)] at this
    · intro page hd hlt hw
      have hok : s.validateUserSliceMut (page + 1) 1 = .ok (page + 1, 1) := by
        refine (Machine.validateUserSliceMut_ok Nat.one_pos).2 ⟨rfl, by omega, ?_, fun a h1 h2 => ?_⟩
        · rw [userMax] at hlt ⊢
          omega
        · rw [← Machine.leafHas_page, hpage page a hd h1 h2]
          exact hw
      have := ((h _ 1).2.1 Nat.one_pos ⟨_, hok⟩ (page + 1) (Nat.le_refl _) (Nat.lt_succ_self _)).2.1
      rwa [← Machine.leafHas_page, hpage page _ hd (Nat.le_refl _) (Nat.lt_succ_self _)] at this
  · intro h ptr len
    have hread : 0 < len → (∃ r, s.validateUserSlice ptr len = .ok r) → s.SliceSafe ptr len := by
      intro hlen hok
      refine (Machine.sliceSafe_iff hlen hok).2 fun page hd h1 h2 => ?_
      obtain ⟨r, hr⟩ := hok
      obtain ⟨-, -, hmax, hall⟩ := (Machine.validateUserSlice_ok hlen).1 hr
      have hpage := hall (max ptr page) (by omega) (by omega)
      rw [show max ptr page / 4096 * 4096 = page by omega] at hpage
      exact h.mapped page hd (by omega) hpage
    refine ⟨hread, ?_, ?_⟩
    · intro hlen hok
      refine (Machine.sliceSafeMut_iff hlen hok).2 fun page hd h1 h2 => ?_
      obtain ⟨r, hr⟩ := hok
      obtain ⟨-, -, hmax, hall⟩ := (Machine.validateUserSliceMut_ok hlen).1 hr
      have hpage := hall (max ptr page) (by omega) (by omega)
      rw [← Machine.leafHas_page, show max ptr page / 4096 * 4096 = page by omega] at hpage
      exact h.writable page hd (by omega) hpage
    · intro s' hs
      have hval : s'.validateUserSlice ptr len = s.validateUserSlice ptr len := by
        simp only [Machine.validateUserSlice, hs.translate]
      unfold Machine.sysWrite
      rw [if_neg (not_not.2 rfl), if_neg (not_not.2 rfl), hval]
      cases hv : s.validateUserSlice ptr len with
      | error e => rfl
      | ok r =>
        obtain ⟨p, n⟩ := r
        by_cases hlen : 0 < len
        · obtain ⟨e, -⟩ := (Machine.validateUserSlice_ok hlen).1 hv
          cases e
          have hsafe := hread hlen ⟨_, hv⟩
          simp only [readSlice_congr hs len ptr fun a h1 h2 => (hsafe a h1 h2).2]
        · obtain rfl : len = 0 := by omega
          have hn : n = 0 := by
            unfold Machine.validateUserSlice validateSlice at hv
            split at hv
            · cases hv
            · rw [if_pos rfl] at hv
              cases hv
              rfl
          simp only [hn, Machine.readSlice]

/-- The page of the local APIC is mapped as `apic.rs` does it, for the kernel only; user space may name it. -/
theorem apic_page_accepted : ∃ s,
    exec (mapPage 0xFEE00000 ⟨0xFEE00000⟩ (PageFlags.present ||| PageFlags.writable)) smallMachine = (.ok ⟨⟩, s) ∧
      s.validateUserSlice 0xFEE00000 4 = .ok (0xFEE00000, 4) ∧
      s.validateUserSliceMut 0xFEE00000 4 = .ok (0xFEE00000, 4) ∧ ¬ s.SliceSafe 0xFEE00000 4 := by
  obtain ⟨s, hs⟩ := mapPage_ok small_inv (by rw [small_frames]; decide) 0xFEE00000 ⟨0xFEE00000⟩
    (PageFlags.present ||| PageFlags.writable)
  obtain ⟨h', -, hmap, -⟩ := (mapPage_spec small_inv _ _ _).of_ok hs
  obtain ⟨htr, hfl⟩ := hmap.translate (n := 0xFEE00) h' (by decide)
  rw [Machine.translateFlags_eq_hwLeaf, Option.map_eq_some_iff] at hfl
  obtain ⟨l, hl, hfl⟩ := hfl
  have hpage : ∀ a, 0xFEE00000 ≤ a → a < 0xFEE00000 + 4 → a / 4096 * 4096 = 0xFEE00000 := by omega
  have hhas : ∀ f, has l.1 f = (PageFlags.present ||| PageFlags.writable ||| PageFlags.present).contains f := by
    intro f
    rw [has, hfl]
  refine ⟨s, hs, ?_, ?_, ?_⟩
  · refine (Machine.validateUserSlice_ok (by decide)).2 ⟨rfl, by decide, by decide, fun a h1 h2 => ?_⟩
    rw [hpage a h1 h2, htr]
    exact Option.some_ne_none _
  · refine (Machine.validateUserSliceMut_ok (by decide)).2 ⟨rfl, by decide, by decide, fun a h1 h2 => ?_⟩
    rw [← Machine.leafHas_page, hpage a h1 h2]
    refine ⟨l, hl, ?_⟩
    rw [hhas]
    decide
  · intro hsafe
    obtain ⟨l', hl', hu⟩ := (hsafe 0xFEE00000 (Nat.le_refl _) (by decide)).2
    rw [hl, Option.some.injEq] at hl'
    rw [← hl', hhas] at hu
    revert hu
    decide

end Slices

end Hammam
