import Hammam.Mm.Multiboot

/-!
# Bounds of the Multiboot2 parser (`parse_multiboot2_memory_map`)

`parse?` has no value where the parser reads outside of the information block `lo .. hi` or where a sum overflows,
and runs out of fuel where it does not end.  A build with debug assertions (`checks`) also panics where a null
pointer or one that is not aligned is dereferenced.  All sizes come from the block, and the only check is whether
eight more bytes fit: the parser is right on exactly those blocks whose tags and entries, as far as they are
reached, are in order.
-/

namespace Hammam

open ByteMem

namespace Multiboot

/-! ### The parser with its faults -/

/-- The address `a` can be dereferenced as a pointer to a type of the given alignment. -/
def Deref (checks : Bool) (align a : Nat) : Prop := checks = true → a ≠ 0 ∧ align ∣ a

instance (checks : Bool) (align a : Nat) : Decidable (Deref checks align a) :=
  inferInstanceAs (Decidable (checks = true → a ≠ 0 ∧ align ∣ a))

section Parser

variable (checks : Bool) (m : Memory) (lo hi : Nat)

def deref? (align a : Nat) : Option Unit := if Deref checks align a then some () else none

/-- A read of `n` bytes. -/
def read? (n a : Nat) : Option Nat := if lo ≤ a ∧ a + n ≤ hi then some (readLE m n a) else none

/-- The region of an entry. -/
def region? (a : Nat) : Option MemoryRegion := do
  deref? checks 8 a
  let entryType ← read? m lo hi 4 (a + 16)
  let baseAddr ← read? m lo hi 8 a
  let length ← read? m lo hi 8 (a + 8)
  if baseAddr + length < 2 ^ 64 then some (MapEntry.region ⟨baseAddr, length, entryType⟩) else none

def entryLoop? (entriesStart entrySize entriesByteCount : Nat) : Nat → Nat → Option (List MemoryRegion)
  | 0, _ => some []
  | room + 1, offset =>
    if offset + entrySize ≤ entriesByteCount then do
      let region ← region? checks m lo hi (entriesStart + offset)
      let regions ← entryLoop? entriesStart entrySize entriesByteCount room (offset + entrySize)
      some (region :: regions)
    else some []

/-- The regions of a tag, of which there is room for some. -/
def tagRegions? (tagType tagPtr room : Nat) : Option (List MemoryRegion) :=
  if tagType = 6 then do
    deref? checks 4 tagPtr
    let entrySize ← read? m lo hi 4 (tagPtr + 8)
    let tagSize ← read? m lo hi 4 (tagPtr + 4)
    entryLoop? checks m lo hi (tagPtr + 16) entrySize (tagSize - 16) room 0
  else some []

def tagLoop? (capacity : Nat) : Nat → Nat → List MemoryRegion → Option (List MemoryRegion)
  | 0, _, _ => none
  | fuel + 1, tagPtr, regions =>
    if tagPtr % 2 ^ 32 + 8 ≥ 2 ^ 32 then none
    else if tagPtr % 2 ^ 32 + 8 ≤ hi then do
      deref? checks 4 tagPtr
      let tagType ← read? m lo hi 4 tagPtr
      if tagType = 0 then some regions
      else
        let found ← tagRegions? checks m lo hi tagType tagPtr (capacity - regions.length)
        let tagSize ← read? m lo hi 4 (tagPtr + 4)
        if tagSize + 7 ≥ 2 ^ 32 then none
        else tagLoop? capacity fuel (tagPtr + (tagSize + 7) / 8 * 8) (regions ++ found)
    else some regions

end Parser

/-- `parse_multiboot2_memory_map`. -/
def parse? (checks : Bool) (m : Memory) (mbiPtr capacity fuel : Nat) : Option (List MemoryRegion) := do
  deref? checks 4 mbiPtr
  -- the size is itself a field of the block
  let totalSize ← read? m mbiPtr (mbiPtr + read32 m mbiPtr) 4 mbiPtr
  if mbiPtr + totalSize ≥ 2 ^ 32 then none
  else if mbiPtr + 8 ≥ 2 ^ 32 then none
  else tagLoop? checks m mbiPtr (mbiPtr + totalSize) capacity fuel (mbiPtr + 8) []

/-! ### What the block must contain -/

section Block

variable (checks : Bool) (m : Memory) (hi : Nat)

/-- The number of entries that are read.  Entries of size 0 are read until there is no room any more. -/
def entriesRead (entrySize size room : Nat) : Nat := if entrySize = 0 then room else min (size / entrySize) room

def tagEntries (a room : Nat) : Nat :=
  if read32 m a = 6 then entriesRead (read32 m (a + 8)) (read32 m (a + 4) - 16) room else 0

/-- An entry inside the block, at an address that can be dereferenced, whose end is not beyond `2 ^ 64`. -/
def EntryOk (a : Nat) : Prop := Deref checks 8 a ∧ a + 20 ≤ hi ∧ read64 m a + read64 m (a + 8) < 2 ^ 64

/-- A tag inside the block, of a size that leads on to another one, with entries that are in order. -/
structure TagOk (a room : Nat) : Prop where
  deref : Deref checks 4 a
  inside : a + 8 ≤ hi
  size_pos : read32 m a ≠ 0 → 0 < read32 m (a + 4)
  size_lt : read32 m a ≠ 0 → read32 m (a + 4) + 7 < 2 ^ 32
  entry_size : read32 m a = 6 → a + 12 ≤ hi
  entries : ∀ i < tagEntries m a room, EntryOk checks m hi (a + 16 + i * read32 m (a + 8))

/-- From the tag at `a`, with `n` regions found before it, the parser comes to the address `b` with `k` regions. -/
inductive Reached (capacity : Nat) : Nat → Nat → Nat → Nat → Prop
  | here (a n : Nat) : Reached capacity a n a n
  | after {a n b k : Nat} : a % 2 ^ 32 + 8 ≤ hi → read32 m a ≠ 0 →
    Reached capacity (a + (read32 m (a + 4) + 7) / 8 * 8) (n + tagEntries m a (capacity - n)) b k →
    Reached capacity a n b k

/-- At every address where a tag is looked for, eight bytes do not reach beyond the addresses of 32 bits; if they fit,
as addresses of 32 bits, then there is a tag in order. -/
def InOrder (capacity a n : Nat) : Prop :=
  ∀ b k, Reached m hi capacity a n b k →
    b % 2 ^ 32 + 8 < 2 ^ 32 ∧ (b % 2 ^ 32 + 8 ≤ hi → TagOk checks m hi b (capacity - k))

end Block

/-! ### Entries -/

variable {checks : Bool} {m : Memory} {lo hi : Nat}

private theorem deref?_eq_some {align a : Nat} {u : Unit} :
    deref? checks align a = some u ↔ Deref checks align a := by
  unfold deref?
  split
  · next h => simp [h]
  · next h => simp [h]

private theorem deref?_eq {align a : Nat} (h : Deref checks align a) : deref? checks align a = some () := if_pos h

private theorem read?_eq_some {n a v : Nat} :
    read? m lo hi n a = some v ↔ (lo ≤ a ∧ a + n ≤ hi) ∧ readLE m n a = v := by
  unfold read?
  split
  · next h => simp [h]
  · next h => simp [h]

private theorem read?_eq {n a : Nat} (h : lo ≤ a ∧ a + n ≤ hi) : read? m lo hi n a = some (readLE m n a) := if_pos h

theorem region?_eq_some {a : Nat} (hlo : lo ≤ a) {r : MemoryRegion} :
    region? checks m lo hi a = some r ↔ EntryOk checks m hi a ∧ (mapEntryAt m a).region = r := by
  constructor
  · intro h
    simp only [region?, Option.bind_eq_bind, Option.bind_eq_some_iff, read?_eq_some, deref?_eq_some] at h
    obtain ⟨_, hderef, _, ⟨hin, rfl⟩, _, ⟨-, rfl⟩, _, ⟨-, rfl⟩, h⟩ := h
    split at h
    · next hlt => exact ⟨⟨hderef, by omega, hlt⟩, Option.some.inj h⟩
    · cases h
  · rintro ⟨⟨hderef, hin, hlt⟩, rfl⟩
    have hlt' : readLE m 8 a + readLE m 8 (a + 8) < 2 ^ 64 := hlt
    rw [region?, deref?_eq hderef, read?_eq (by omega), read?_eq (by omega), read?_eq (by omega)]
    simp only [Option.bind_eq_bind, Option.bind_some, if_pos hlt']
    rfl

theorem region_start_le {a : Nat} (h : EntryOk checks m hi a) :
    (mapEntryAt m a).region.start ≤ (mapEntryAt m a).region.end_ := by
  have hend : (mapEntryAt m a).region.end_ = read64 m a + read64 m (a + 8) := Nat.mod_eq_of_lt h.2.2
  rw [hend]
  exact Nat.le_add_right _ _

/-- The number of entries from an offset on. -/
private def entriesFrom (entrySize size room offset : Nat) : Nat :=
  if entrySize = 0 then room else min ((size - offset) / entrySize) room

private theorem entriesFrom_succ {entrySize size room offset : Nat} (h0 : entrySize = 0 → offset = 0) :
    entriesFrom entrySize size (room + 1) offset =
      if offset + entrySize ≤ size then entriesFrom entrySize size room (offset + entrySize) + 1 else 0 := by
  unfold entriesFrom
  by_cases he : entrySize = 0
  · rw [if_pos he, if_pos he, if_pos (by have := h0 he; omega)]
  · rw [if_neg he, if_neg he]
    by_cases hle : offset + entrySize ≤ size
    · have hdiv : (size - offset) / entrySize = (size - (offset + entrySize)) / entrySize + 1 := by
        rw [← Nat.sub_sub]
        exact Nat.div_eq_sub_div (by omega) (by omega)
      rw [if_pos hle, hdiv]
      omega
    · rw [if_neg hle, Nat.div_eq_of_lt (by omega), Nat.zero_min]

private theorem forall_entries_succ {P : Nat → Prop} {start offset entrySize n : Nat} :
    (∀ i < n + 1, P (start + offset + i * entrySize)) ↔
      P (start + offset) ∧ ∀ i < n, P (start + (offset + entrySize) + i * entrySize) := by
  have hshift : ∀ i, start + offset + (i + 1) * entrySize = start + (offset + entrySize) + i * entrySize := by
    intro i
    rw [Nat.succ_mul]
    omega
  constructor
  · intro h
    refine ⟨by simpa using h 0 (by omega), fun i hi => ?_⟩
    rw [← hshift]
    exact h (i + 1) (by omega)
  · rintro ⟨hfirst, hrest⟩ i hi
    cases i with
    | zero => simpa using hfirst
    | succ i =>
      rw [hshift]
      exact hrest i (by omega)

/-- The entries of a map are read exactly if they are in order. -/
private theorem entryLoop?_spec {start entrySize size room offset : Nat} (hlo : lo ≤ start)
    (h0 : entrySize = 0 → offset = 0) :
    (∀ l, entryLoop? checks m lo hi start entrySize size room offset = some l →
      (∀ i < entriesFrom entrySize size room offset, EntryOk checks m hi (start + offset + i * entrySize)) ∧
        l.length = entriesFrom entrySize size room offset ∧ ∀ r ∈ l, r.start ≤ r.end_) ∧
    ((∀ i < entriesFrom entrySize size room offset, EntryOk checks m hi (start + offset + i * entrySize)) →
      ∃ l, entryLoop? checks m lo hi start entrySize size room offset = some l) := by
  induction room generalizing offset with
  | zero =>
    have hnone : entriesFrom entrySize size 0 offset = 0 := by
      unfold entriesFrom
      split
      · rfl
      · exact Nat.min_zero _
    rw [hnone, entryLoop?]
    refine ⟨fun l hl => ?_, fun _ => ⟨[], rfl⟩⟩
    cases hl
    simp
  | succ room ih =>
    rw [entriesFrom_succ h0, entryLoop?]
    by_cases hle : offset + entrySize ≤ size
    · obtain ⟨hsound, hcomplete⟩ := @ih (offset + entrySize) fun he => by rw [h0 he, he]
      rw [if_pos hle, if_pos hle, forall_entries_succ]
      refine ⟨fun l hl => ?_, fun hok => ?_⟩
      · have hlo' : lo ≤ start + offset := by omega
        simp only [Option.bind_eq_bind, Option.bind_eq_some_iff, region?_eq_some hlo'] at hl
        obtain ⟨_, ⟨hfirst, rfl⟩, rest, hrest, hl⟩ := hl
        obtain ⟨hok, hlen, hvalid⟩ := hsound rest hrest
        cases hl
        refine ⟨⟨hfirst, hok⟩, by rw [List.length_cons, hlen], fun r hr => ?_⟩
        rcases List.mem_cons.1 hr with rfl | hr
        · exact region_start_le hfirst
        · exact hvalid r hr
      · obtain ⟨rest, hrest⟩ := hcomplete hok.2
        rw [(region?_eq_some (by omega)).2 ⟨hok.1, rfl⟩, hrest]
        exact ⟨_, rfl⟩
    · rw [if_neg hle, if_neg hle]
      refine ⟨fun l hl => ?_, fun _ => ⟨[], rfl⟩⟩
      cases hl
      simp

/-! ### Tags -/

private theorem tagRegions?_spec {a room : Nat} (hlo : lo ≤ a) (hderef : Deref checks 4 a) :
    (∀ l, tagRegions? checks m lo hi (read32 m a) a room = some l →
      (read32 m a = 6 → a + 12 ≤ hi) ∧
        (∀ i < tagEntries m a room, EntryOk checks m hi (a + 16 + i * read32 m (a + 8))) ∧
        l.length = tagEntries m a room ∧ ∀ r ∈ l, r.start ≤ r.end_) ∧
    ((read32 m a = 6 → a + 12 ≤ hi) →
      (∀ i < tagEntries m a room, EntryOk checks m hi (a + 16 + i * read32 m (a + 8))) →
      ∃ l, tagRegions? checks m lo hi (read32 m a) a room = some l) := by
  unfold tagRegions? tagEntries
  by_cases h6 : read32 m a = 6
  · have hloop :=
      @entryLoop?_spec checks m lo hi (a + 16) (read32 m (a + 8)) (read32 m (a + 4) - 16) room 0 (by omega)
      fun _ => rfl
    have hcount : entriesFrom (read32 m (a + 8)) (read32 m (a + 4) - 16) room 0 =
        entriesRead (read32 m (a + 8)) (read32 m (a + 4) - 16) room := rfl
    rw [hcount] at hloop
    simp only [h6, if_true, true_implies]
    obtain ⟨hsound, hcomplete⟩ := hloop
    refine ⟨fun l hl => ?_, fun hsize hok => ?_⟩
    · simp only [Option.bind_eq_bind, Option.bind_eq_some_iff, read?_eq_some] at hl
      obtain ⟨_, -, _, ⟨hread, rfl⟩, _, ⟨-, rfl⟩, hl⟩ := hl
      exact ⟨by omega, hsound l hl⟩
    · rw [deref?_eq hderef, read?_eq (by omega), read?_eq (by omega)]
      exact hcomplete hok
  · simp only [h6, if_false]
    refine ⟨fun l hl => ?_, fun _ _ => ⟨[], rfl⟩⟩
    cases hl
    simp

/-- What one iteration can do. -/
private theorem tagLoop?_succ {capacity fuel a : Nat} {regions r : List MemoryRegion} :
    tagLoop? checks m lo hi capacity (fuel + 1) a regions = some r ↔
      a % 2 ^ 32 + 8 < 2 ^ 32 ∧
        (hi < a % 2 ^ 32 + 8 ∧ regions = r ∨
          a % 2 ^ 32 + 8 ≤ hi ∧ Deref checks 4 a ∧ lo ≤ a ∧ a + 4 ≤ hi ∧ read32 m a = 0 ∧ regions = r ∨
          a % 2 ^ 32 + 8 ≤ hi ∧ Deref checks 4 a ∧ lo ≤ a ∧ a + 8 ≤ hi ∧ read32 m a ≠ 0 ∧
            read32 m (a + 4) + 7 < 2 ^ 32 ∧ ∃ found,
              tagRegions? checks m lo hi (read32 m a) a (capacity - regions.length) = some found ∧
              tagLoop? checks m lo hi capacity fuel (a + (read32 m (a + 4) + 7) / 8 * 8) (regions ++ found) =
                some r) := by
  have hread : ∀ b, readLE m 4 b = read32 m b := fun _ => rfl
  rw [tagLoop?]
  constructor
  · intro h
    split at h
    · cases h
    next hover =>
    refine ⟨Nat.lt_of_not_le hover, ?_⟩
    split at h
    · next hcheck =>
      simp only [Option.bind_eq_bind, Option.bind_eq_some_iff, read?_eq_some, deref?_eq_some] at h
      obtain ⟨_, hderef, _, ⟨hin, rfl⟩, h⟩ := h
      split at h
      · next h0 => exact .inr (.inl ⟨hcheck, hderef, hin.1, hin.2, h0, Option.some.inj h⟩)
      · next h0 =>
        simp only [Option.bind_eq_some_iff, read?_eq_some] at h
        obtain ⟨found, hfound, _, ⟨hsize, rfl⟩, h⟩ := h
        split at h
        · cases h
        · next hlt =>
          exact .inr (.inr ⟨hcheck, hderef, hin.1, by omega, h0, Nat.lt_of_not_le hlt, found, hfound, h⟩)
    · next hcheck => exact .inl ⟨Nat.lt_of_not_le hcheck, Option.some.inj h⟩
  · rintro ⟨hover, ⟨hlt, rfl⟩ | ⟨hcheck, hderef, hlo, hin, h0, rfl⟩ |
      ⟨hcheck, hderef, hlo, hin, h0, hsize, found, hfound, hrest⟩⟩
    · rw [if_neg (Nat.not_le.2 hover), if_neg (Nat.not_le.2 hlt)]
    · rw [if_neg (Nat.not_le.2 hover), if_pos hcheck, deref?_eq hderef, read?_eq ⟨hlo, hin⟩]
      simp only [Option.bind_eq_bind, Option.bind_some, hread, h0, if_true]
    · rw [if_neg (Nat.not_le.2 hover), if_pos hcheck, deref?_eq hderef, read?_eq (by omega), read?_eq (by omega)]
      simp only [Option.bind_eq_bind, Option.bind_some, hread, h0, if_false, hfound, if_neg (Nat.not_le.2 hsize),
        hrest]

/-- A tag of size 0 is read again and again. -/
private theorem tagLoop?_stuck {capacity a : Nat} (hcheck : a % 2 ^ 32 + 8 ≤ hi) (htype : read32 m a ≠ 0)
    (hsize : read32 m (a + 4) = 0) (fuel : Nat) (regions : List MemoryRegion) :
    tagLoop? checks m lo hi capacity fuel a regions = none := by
  induction fuel generalizing regions with
  | zero => rfl
  | succ fuel ih =>
    refine Option.eq_none_iff_forall_ne_some.2 fun r hr => ?_
    obtain ⟨-, ⟨hlt, -⟩ | ⟨-, -, -, -, h0, -⟩ | ⟨-, -, -, -, -, -, found, -, hrest⟩⟩ := tagLoop?_succ.1 hr
    · omega
    · exact htype h0
    · rw [hsize, show (0 + 7) / 8 * 8 = 0 from rfl, Nat.add_zero, ih] at hrest
      cases hrest

private theorem tagEntries_le (a room : Nat) : tagEntries m a room ≤ room := by
  unfold tagEntries entriesRead
  split
  · split
    · exact Nat.le_refl _
    · exact Nat.min_le_right _ _
  · exact Nat.zero_le _

/-- If the loop returns, then everything that it came to was in order. -/
private theorem inOrder_of_tagLoop? (hhi : hi < 2 ^ 32) {capacity fuel a : Nat} {regions r : List MemoryRegion}
    (h : tagLoop? checks m lo hi capacity fuel a regions = some r) :
    InOrder checks m hi capacity a regions.length := by
  induction fuel generalizing a regions with
  | zero => cases h
  | succ fuel ih =>
    obtain ⟨hover, ⟨hlt, -⟩ | ⟨hcheck, hderef, hlo, hin, h0, -⟩ |
      ⟨hcheck, hderef, hlo, hin, h0, hsize, found, hfound, hrest⟩⟩ := tagLoop?_succ.1 h
    · -- there is no further tag
      rintro b k (_ | ⟨hc, -, -⟩)
      · exact ⟨hover, fun hc => by omega⟩
      · omega
    · rintro b k (_ | ⟨-, hne, -⟩)
      · have hmod : a % 2 ^ 32 = a := Nat.mod_eq_of_lt (by omega)
        refine ⟨hover, fun hc => ⟨hderef, by omega, fun hne => absurd h0 hne, fun hne => absurd h0 hne, ?_, ?_⟩⟩
        · intro h6
          omega
        · intro i hi
          rw [tagEntries, if_neg (by omega)] at hi
          omega
      · exact absurd h0 hne
    · obtain ⟨h12, hentries, hlen, -⟩ := (tagRegions?_spec hlo hderef).1 found hfound
      have hpos : 0 < read32 m (a + 4) := by
        refine Nat.pos_of_ne_zero fun hz => ?_
        rw [tagLoop?_stuck hcheck h0 hz] at h
        cases h
      rintro b k (_ | ⟨-, -, hreach⟩)
      · exact ⟨hover, fun _ => ⟨hderef, hin, fun _ => hpos, fun _ => hsize, h12, hentries⟩⟩
      · have := ih hrest
        rw [List.length_append, hlen] at this
        exact this b k hreach

/-- The regions that are returned. -/
private theorem tagLoop?_valid {capacity fuel a : Nat} {regions r : List MemoryRegion}
    (h : tagLoop? checks m lo hi capacity fuel a regions = some r) (hlen : regions.length ≤ capacity)
    (hvalid : ∀ x ∈ regions, x.start ≤ x.end_) : r.length ≤ capacity ∧ ∀ x ∈ r, x.start ≤ x.end_ := by
  induction fuel generalizing a regions with
  | zero => cases h
  | succ fuel ih =>
    obtain ⟨-, ⟨-, rfl⟩ | ⟨-, -, -, -, -, rfl⟩ | ⟨-, hderef, hlo, -, -, -, found, hfound, hrest⟩⟩ := tagLoop?_succ.1 h
    · exact ⟨hlen, hvalid⟩
    · exact ⟨hlen, hvalid⟩
    · obtain ⟨-, -, hcount, hfound⟩ := (tagRegions?_spec hlo hderef).1 found hfound
      have hle := @tagEntries_le m a (capacity - regions.length)
      refine ih hrest (by rw [List.length_append]; omega) fun x hx => ?_
      rcases List.mem_append.1 hx with hx | hx
      · exact hvalid x hx
      · exact hfound x hx

/-- If everything is in order, then the loop returns: every tag brings it further on in the block. -/
private theorem tagLoop?_returns {capacity a : Nat} {regions : List MemoryRegion} (hlo : lo ≤ a)
    (h : InOrder checks m hi capacity a regions.length) :
    ∃ r n, ∀ fuel ≥ n, tagLoop? checks m lo hi capacity fuel a regions = some r := by
  induction hd : hi - a using Nat.strongRecOn generalizing a regions with
  | ind d ih =>
    obtain ⟨hover, htag⟩ := h a regions.length (.here _ _)
    by_cases hcheck : a % 2 ^ 32 + 8 ≤ hi
    · obtain ⟨hderef, hin, hpos, hsize, h12, hentries⟩ := htag hcheck
      by_cases h0 : read32 m a = 0
      · refine ⟨regions, 1, fun fuel hf => ?_⟩
        obtain ⟨fuel, rfl⟩ := Nat.exists_eq_add_of_le' hf
        exact tagLoop?_succ.2 ⟨hover, .inr (.inl ⟨hcheck, hderef, hlo, by omega, h0, rfl⟩)⟩
      · obtain ⟨found, hfound⟩ := (tagRegions?_spec hlo hderef).2 h12 hentries
        obtain ⟨-, -, hcount, -⟩ := (tagRegions?_spec hlo hderef).1 found hfound
        have hnext : InOrder checks m hi capacity (a + (read32 m (a + 4) + 7) / 8 * 8) (regions ++ found).length := by
          rw [List.length_append, hcount]
          exact fun b k hb => h b k (.after hcheck h0 hb)
        have hmore := hpos h0
        obtain ⟨r, n, hr⟩ := ih _ (by omega) (by omega) hnext rfl
        refine ⟨r, n + 1, fun fuel hf => ?_⟩
        obtain ⟨fuel, rfl⟩ : ∃ f, fuel = f + 1 := Nat.exists_eq_succ_of_ne_zero (by omega)
        exact tagLoop?_succ.2
          ⟨hover, .inr (.inr ⟨hcheck, hderef, hlo, hin, h0, hsize h0, found, hfound, hr fuel (by omega)⟩)⟩
    · refine ⟨regions, 1, fun fuel hf => ?_⟩
      obtain ⟨fuel, rfl⟩ := Nat.exists_eq_add_of_le' hf
      exact tagLoop?_succ.2 ⟨hover, .inl ⟨Nat.lt_of_not_le hcheck, rfl⟩⟩

/-! ### The whole parser -/

private theorem entryLoop_of_entryLoop? {start entrySize size room offset : Nat} (hlo : lo ≤ start)
    {l : List MemoryRegion} (h : entryLoop? checks m lo hi start entrySize size room offset = some l) :
    entryLoop m start entrySize size room offset = l := by
  induction room generalizing offset l with
  | zero =>
    cases h
    rfl
  | succ room ih =>
    rw [entryLoop?] at h
    rw [entryLoop]
    split at h
    · next hle =>
      simp only [Option.bind_eq_bind, Option.bind_eq_some_iff,
        region?_eq_some (show lo ≤ start + offset by omega)] at h
      obtain ⟨_, ⟨-, rfl⟩, rest, hrest, h⟩ := h
      cases h
      rw [if_pos hle, ih hrest]
    · next hle =>
      cases h
      exact if_neg hle

private theorem tagLoop_of_tagLoop? {capacity fuel a : Nat} {regions r : List MemoryRegion}
    (h : tagLoop? checks m lo hi capacity fuel a regions = some r) :
    tagLoop m capacity hi fuel a regions = some r := by
  induction fuel generalizing a regions with
  | zero => cases h
  | succ fuel ih =>
    obtain ⟨hover, hstep⟩ := tagLoop?_succ.1 h
    have hmod : (a % 2 ^ 32 + 8) % 2 ^ 32 = a % 2 ^ 32 + 8 := Nat.mod_eq_of_lt hover
    rw [tagLoop, hmod]
    rcases hstep with ⟨hlt, rfl⟩ | ⟨hcheck, -, -, -, h0, rfl⟩ | ⟨hcheck, -, hlo, -, h0, hsize, found, hfound, hrest⟩
    · exact if_neg (Nat.not_le.2 hlt)
    · rw [if_pos hcheck]
      exact if_pos h0
    · rw [if_pos hcheck]
      refine (if_neg h0).trans ?_
      have hnext : alignedSize (read32 m (a + 4)) = (read32 m (a + 4) + 7) / 8 * 8 := by
        rw [alignedSize, Nat.mod_eq_of_lt hsize]
      have hregions : (if read32 m a = 6 then regions ++ entryLoop m (a + 16) (read32 m (a + 8))
          (read32 m (a + 4) - 16) (capacity - regions.length) 0 else regions) = regions ++ found := by
        unfold tagRegions? at hfound
        split at hfound
        · next h6 =>
          simp only [Option.bind_eq_bind, Option.bind_eq_some_iff, read?_eq_some] at hfound
          obtain ⟨_, -, _, ⟨-, rfl⟩, _, ⟨-, rfl⟩, hfound⟩ := hfound
          rw [if_pos h6]
          exact congrArg (regions ++ ·) (entryLoop_of_entryLoop? (by omega) hfound)
        · next h6 =>
          cases hfound
          rw [if_neg h6, List.append_nil]
      simp only [hnext, hregions]
      exact ih hrest

/-- What `parse?` returns is what the parser returns. -/
theorem parse?_refines {mbiPtr capacity fuel : Nat} {regions : List MemoryRegion}
    (h : parse? checks m mbiPtr capacity fuel = some regions) :
    parseMultiboot2MemoryMap m mbiPtr capacity fuel = some regions := by
  simp only [parse?, Option.bind_eq_bind, Option.bind_eq_some_iff, read?_eq_some] at h
  obtain ⟨_, -, _, ⟨-, rfl⟩, h⟩ := h
  split at h
  · cases h
  next hend =>
  split at h
  · cases h
  next hfirst =>
  have hend' : mbiPtr + read32 m mbiPtr < 2 ^ 32 := Nat.lt_of_not_le hend
  rw [parseMultiboot2MemoryMap]
  simp only [Nat.mod_eq_of_lt hend', Nat.mod_eq_of_lt (Nat.lt_of_not_le hfirst)]
  exact tagLoop_of_tagLoop? h

/-! ### Well-formed blocks -/

/-- What a build with debug assertions asks of a well-formed block in addition: it does not begin at 0, and its
entries have sizes that are multiples of 8, as far as the parser comes to them. -/
def EntriesAligned (checks : Bool) (m : Memory) (mbiPtr capacity : Nat) : Prop :=
  checks = true → mbiPtr ≠ 0 ∧ ∀ a n, Reached m (mbiPtr + read32 m mbiPtr) capacity (mbiPtr + 8) 0 a n →
    read32 m a = 6 → 8 ∣ read32 m (a + 8)

/-- The parser comes only to the tags of the block. -/
theorem Tags.reached {capacity a n b k : Nat} {entries : List MapEntry} (ht : Tags m hi a entries)
    (hr : Reached m hi capacity a n b k) (h8 : 8 ≤ a) (ha : 8 ∣ a) :
    8 ≤ b ∧ 8 ∣ b ∧ ∃ rest, Tags m hi b rest ∧ ∀ e ∈ rest, e ∈ entries := by
  induction hr generalizing entries with
  | here a n => exact ⟨h8, ha, entries, ht, fun _ he => he⟩
  | after hc hne _ ih =>
    cases ht with
    | terminator _ h0 => exact absurd h0 hne
    | other _ _ _ _ ht => exact ih ht (by omega) (by omega)
    | memoryMap _ _ _ _ ht =>
      obtain ⟨h1, h2, rest, hrest, hsub⟩ := ih ht (by omega) (by omega)
      exact ⟨h1, h2, rest, hrest, fun e he => List.mem_append_right _ (hsub e he)⟩

theorem Tags.tagOk {a room : Nat} {entries : List MapEntry} (ht : Tags m hi a entries) (hhi : hi < 2 ^ 32)
    (h8 : 8 ≤ a) (ha : 8 ∣ a) (hbounded : ∀ e ∈ entries, e.baseAddr + e.length ≤ 2 ^ 52)
    (hes : checks = true → read32 m a = 6 → 8 ∣ read32 m (a + 8)) : TagOk checks m hi a room := by
  have hderef : Deref checks 4 a := fun _ => ⟨by omega, Nat.dvd_trans (by decide) ha⟩
  have hle := ht.le
  cases ht with
  | terminator _ h0 =>
    refine ⟨hderef, hle, fun h => absurd h0 h, fun h => absurd h0 h, fun h6 => by omega, fun i hi => ?_⟩
    rw [tagEntries, if_neg (by omega)] at hi
    omega
  | other h0 h6 hsize hend _ =>
    refine ⟨hderef, hle, fun _ => by omega, fun _ => by omega, fun h => absurd h h6, fun i hi => ?_⟩
    rw [tagEntries, if_neg h6] at hi
    omega
  | @memoryMap _ rest h6 hsize hend h24 ht =>
    have hnext := ht.le
    refine ⟨hderef, hle, fun _ => by omega, fun _ => by omega, fun _ => by omega, fun i hi => ?_⟩
    rw [tagEntries, if_pos h6, entriesRead, if_neg (by omega)] at hi
    have hcount : i < (read32 m (a + 4) - 16) / read32 m (a + 8) := (Nat.lt_min.1 hi).1
    have hroom : (i + 1) * read32 m (a + 8) ≤ read32 m (a + 4) - 16 := (Nat.le_div_iff_mul_le (by omega)).1 hcount
    rw [Nat.succ_mul] at hroom
    refine ⟨fun hc => ⟨by omega, ?_⟩, by omega, ?_⟩
    · have := Nat.dvd_mul_left_of_dvd (hes hc h6) i
      omega
    · have hmem := hbounded (mapEntryAt m (a + 16 + i * read32 m (a + 8)))
        (List.mem_append_left _ (List.mem_map.2 ⟨i, List.mem_range.2 hcount, rfl⟩))
      exact Nat.lt_of_le_of_lt hmem (by decide)

/-- On a well-formed block the parser ends with the entries of the block. -/
theorem parse?_bootInfo {mbiPtr : Nat} {entries : List MapEntry} (hb : BootInfo m mbiPtr entries)
    (ha : EntriesAligned checks m mbiPtr maxMemoryRegions) : ∃ n, ∀ fuel ≥ n,
      parse? checks m mbiPtr maxMemoryRegions fuel = some (entries.map MapEntry.region) := by
  have hends := hb.ends
  have hle := hb.tags.le
  have haligned := hb.aligned
  have horder : InOrder checks m (mbiPtr + read32 m mbiPtr) maxMemoryRegions (mbiPtr + 8) 0 := by
    intro a n hr
    obtain ⟨h8, hdvd, rest, ht, hsub⟩ := Tags.reached hb.tags hr (by omega) (by omega)
    have hin := ht.le
    exact ⟨by omega, fun _ => Tags.tagOk ht hends h8 hdvd (fun e he => hb.bounded e (hsub e he)) fun hc h6 =>
      (ha hc).2 a n hr h6⟩
  obtain ⟨r, n, hr⟩ :=
    @tagLoop?_returns checks m mbiPtr _ maxMemoryRegions (mbiPtr + 8) [] (Nat.le_add_right _ _) horder
  have hfits : ([] : List MemoryRegion).length + entries.length ≤ maxMemoryRegions := by
    rw [List.length_nil, Nat.zero_add]
    exact hb.fits
  obtain ⟨n', hr'⟩ := tagLoop_tags hb.tags hends (by omega) hfits
  -- the loop without faults finds the entries
  have hsame : r = entries.map MapEntry.region := by
    have h := tagLoop_of_tagLoop? (hr (max n n') (Nat.le_max_left _ _))
    rw [hr' _ (Nat.le_max_right _ _), List.nil_append] at h
    exact (Option.some.inj h).symm
  refine ⟨n, fun fuel hf => ?_⟩
  rw [parse?, deref?_eq fun hc => ⟨(ha hc).1, Nat.dvd_trans (by decide) haligned⟩, read?_eq (by omega)]
  simp only [Option.bind_eq_bind, Option.bind_some]
  rw [← hsame, ← hr fuel hf]
  exact (if_neg (Nat.not_le.2 hends)).trans (if_neg (by omega))

/-! ### The parser looks at the block only -/

section Congr

variable {m' : Memory}

theorem read?_congr (h : ∀ x, lo ≤ x → x < hi → m' x = m x) (n a : Nat) : read? m' lo hi n a = read? m lo hi n a := by
  unfold read?
  split
  · rename_i hin
    rw [readLE_congr fun x h1 h2 => h x (by omega) (by omega)]
  · rfl

theorem entryLoop?_congr (h : ∀ x, lo ≤ x → x < hi → m' x = m x) (start entrySize size room offset : Nat) :
    entryLoop? checks m' lo hi start entrySize size room offset =
      entryLoop? checks m lo hi start entrySize size room offset := by
  induction room generalizing offset with
  | zero => rfl
  | succ room ih => simp only [entryLoop?, region?, read?_congr h, ih]

theorem tagLoop?_congr (h : ∀ x, lo ≤ x → x < hi → m' x = m x) (capacity fuel a : Nat) (regions : List MemoryRegion) :
    tagLoop? checks m' lo hi capacity fuel a regions = tagLoop? checks m lo hi capacity fuel a regions := by
  induction fuel generalizing a regions with
  | zero => rfl
  | succ fuel ih => simp only [tagLoop?, tagRegions?, read?_congr h, entryLoop?_congr h, ih]

/-- Only the bytes of the block count. -/
theorem parse?_congr {mbiPtr : Nat} (h4 : 4 ≤ read32 m mbiPtr)
    (h : ∀ x, mbiPtr ≤ x → x < mbiPtr + read32 m mbiPtr → m' x = m x) (capacity fuel : Nat) :
    parse? checks m' mbiPtr capacity fuel = parse? checks m mbiPtr capacity fuel := by
  have hsize : read32 m' mbiPtr = read32 m mbiPtr := readLE_congr fun x h1 h2 => h x h1 (by omega)
  have hread : readLE m' 4 mbiPtr = readLE m 4 mbiPtr := hsize
  unfold parse?
  rw [hsize, read?, read?, hread]
  split
  · simp only [Option.bind_eq_bind, Option.bind_some]
    rw [show readLE m 4 mbiPtr = read32 m mbiPtr from rfl]
    simp only [tagLoop?_congr h]
  · rfl

end Congr

/-- The parser ends, reads inside the block only, at addresses that can be dereferenced, and computes no sum that
overflows, exactly if its pointer can be dereferenced, the block has at least the four bytes of its size, ends below
`2 ^ 32`, and its tags are in order as far as they are reached.  Then it returns at most as many regions as there is
room for, none of which ends before it starts. -/
theorem parse?_returns_iff (checks : Bool) (m : Memory) (mbiPtr capacity : Nat) :
    (∃ regions n, (∀ fuel ≥ n, parse? checks m mbiPtr capacity fuel = some regions) ∧ regions.length ≤ capacity ∧
        ∀ r ∈ regions, r.start ≤ r.end_) ↔
      Deref checks 4 mbiPtr ∧ 4 ≤ read32 m mbiPtr ∧ mbiPtr + read32 m mbiPtr < 2 ^ 32 ∧ mbiPtr + 8 < 2 ^ 32 ∧
        InOrder checks m (mbiPtr + read32 m mbiPtr) capacity (mbiPtr + 8) 0 := by
  have hparse :
    ∀ fuel, Deref checks 4 mbiPtr → 4 ≤ read32 m mbiPtr → mbiPtr + read32 m mbiPtr < 2 ^ 32 → mbiPtr + 8 < 2 ^ 32 →
      parse? checks m mbiPtr capacity fuel =
        tagLoop? checks m mbiPtr (mbiPtr + read32 m mbiPtr) capacity fuel (mbiPtr + 8) [] := by
    intro fuel hderef h4 hend hfirst
    rw [parse?, deref?_eq hderef, read?_eq (by omega)]
    simp only [Option.bind_eq_bind, Option.bind_some]
    exact (if_neg (Nat.not_le.2 hend)).trans (if_neg (Nat.not_le.2 hfirst))
  constructor
  · rintro ⟨regions, n, hrun, -, -⟩
    have hr := hrun n (Nat.le_refl n)
    have h := hr
    simp only [parse?, Option.bind_eq_bind, Option.bind_eq_some_iff, read?_eq_some, deref?_eq_some] at h
    obtain ⟨_, hderef, _, ⟨hin, rfl⟩, h⟩ := h
    split at h
    · cases h
    next hend =>
    split at h
    · cases h
    next hfirst =>
    have hend' : mbiPtr + read32 m mbiPtr < 2 ^ 32 := Nat.lt_of_not_le hend
    exact ⟨hderef, by omega, hend', by omega, inOrder_of_tagLoop? hend' h⟩
  · rintro ⟨hderef, h4, hend, hfirst, horder⟩
    obtain ⟨r, n, hr⟩ :=
      @tagLoop?_returns checks m mbiPtr _ capacity (mbiPtr + 8) [] (Nat.le_add_right mbiPtr 8) horder
    have hvalid := tagLoop?_valid (hr n (Nat.le_refl n)) (Nat.zero_le _) fun x hx => absurd hx List.not_mem_nil
    refine ⟨r, n, fun fuel hf => ?_, hvalid⟩
    rw [hparse fuel hderef h4 hend hfirst, hr fuel hf]

example : parse? true sampleInfo 0x9000 maxMemoryRegions 3 = some [⟨0x200000, 0x201000, .usable⟩] := by decide

/-- A block of 24 bytes at `0x9000` whose first tag has size 0. -/
def stuckInfo : Memory := fun x => if x = 0x9000 then 24 else if x = 0x9008 then 1 else 0

/-- The parser reads this tag for ever. -/
theorem parse?_stuckInfo :
    ¬ ∃ (fuel : Nat) (regions : List MemoryRegion),
      parse? true stuckInfo 0x9000 maxMemoryRegions fuel = some regions := by
  rintro ⟨fuel, regions, h⟩
  have htotal : read? stuckInfo 0x9000 (0x9000 + read32 stuckInfo 0x9000) 4 0x9000 = some 24 := by decide
  have hnone : parse? true stuckInfo 0x9000 maxMemoryRegions fuel = none := by
    rw [parse?, deref?_eq (by decide), htotal]
    exact tagLoop?_stuck (by decide) (by decide) (by decide) fuel []
  rw [hnone] at h
  cases h

end Multiboot

end Hammam
