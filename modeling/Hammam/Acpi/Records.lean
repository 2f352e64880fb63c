import Mathlib.Data.List.Basic
import Mathlib.Data.List.Infix

/-!
# The entries of the MADT (`LocalApicIter`, `IoApicIter`)

The entries area holds records, each with its type in the first byte and its own length in the second one.  The two
iterators pass over all records and decode those of their type.  The area is a list of bytes here (`entries_ptr` and
`len`), of which an iterator keeps the offset; a read outside of the area has no value.
-/

namespace Hammam

namespace Acpi

/-! ### The iterators -/

/-- A number in little-endian order. -/
def leNat : List UInt8 → Nat
  | [] => 0
  | b :: l => b.toNat + 256 * leNat l

/-- `read_u8`. -/
def areaU8 (area : List UInt8) (pos : Nat) : Option UInt8 := area[pos]?

/-- `read_u32`. -/
def areaU32 (area : List UInt8) (pos : Nat) : Option Nat :=
  if pos + 4 ≤ area.length then some (leNat ((area.drop pos).take 4)) else none

structure LocalApic where
  processorId : UInt8
  apicId : UInt8
  flags : Nat
  deriving DecidableEq, Repr

structure IoApic where
  ioApicId : UInt8
  address : Nat
  globalSystemInterruptBase : Nat
  deriving DecidableEq, Repr

variable {α : Type}

/-- The loop of `next`, for the records of one type that have at least `minLen` bytes: the item and the new offset. -/
def iterNext (type : UInt8) (minLen : Nat) (read : List UInt8 → Nat → Option α) (area : List UInt8) (offset : Nat) :
    Option (Option α × Nat) :=
  if offset + 2 ≤ area.length then
    match areaU8 area offset, areaU8 area (offset + 1) with
    | some entryType, some entryLen =>
      if entryLen.toNat < 2 ∨ area.length < offset + entryLen.toNat then some (none, offset)
      else if entryType ≠ type then iterNext type minLen read area (offset + entryLen.toNat)
      else if entryLen.toNat < minLen then iterNext type minLen read area (offset + entryLen.toNat)
      else (read area offset).map fun x => (some x, offset + entryLen.toNat)
    | _, _ => none
  else some (none, offset)
termination_by area.length - offset

def LocalApic.read (area : List UInt8) (entry : Nat) : Option LocalApic := do
  return ⟨← areaU8 area (entry + 2), ← areaU8 area (entry + 3), ← areaU32 area (entry + 4)⟩

def IoApic.read (area : List UInt8) (entry : Nat) : Option IoApic := do
  return ⟨← areaU8 area (entry + 2), ← areaU32 area (entry + 4), ← areaU32 area (entry + 8)⟩

/-- `LocalApicIter::next`. -/
def LocalApic.next : List UInt8 → Nat → Option (Option LocalApic × Nat) := iterNext 0 8 LocalApic.read

/-- `IoApicIter::next`. -/
def IoApic.next : List UInt8 → Nat → Option (Option IoApic × Nat) := iterNext 1 12 IoApic.read

/-- All items of an iterator, which is asked at most `fuel` times, and the offset at which it stops. -/
def collect (next : Nat → Option (Option α × Nat)) : Nat → Nat → Option (List α × Nat)
  | 0, _ => none
  | fuel + 1, offset =>
    match next offset with
    | none => none
    | some (none, offset) => some ([], offset)
    | some (some x, offset) => (collect next fuel offset).map fun p => (x :: p.1, p.2)

/-- `local_apics()`, collected. -/
def localApics (area : List UInt8) (fuel : Nat) : Option (List LocalApic × Nat) :=
  collect (LocalApic.next area) fuel 0

/-- `io_apics()`, collected. -/
def ioApics (area : List UInt8) (fuel : Nat) : Option (List IoApic × Nat) := collect (IoApic.next area) fuel 0

/-! ### Records -/

/-- A record has at least two bytes, the second of which is its length. -/
def IsRecord (r : List UInt8) : Prop := ∃ type len rest, r = type :: len :: rest ∧ len.toNat = r.length

/-- The records of the longest prefix of `area` that consists of records. -/
structure LongestRecords (area : List UInt8) (recs : List (List UInt8)) : Prop where
  records : ∀ r ∈ recs, IsRecord r
  begins : recs.flatten <+: area
  longest : ∀ recs' : List (List UInt8), (∀ r ∈ recs', IsRecord r) → recs'.flatten <+: area → recs' <+: recs

/-- A record is decoded if it has the right type and at least `minLen` bytes. -/
def pick (type : UInt8) (minLen : Nat) (decode : List UInt8 → α) (r : List UInt8) : Option α :=
  if r.head? = some type ∧ minLen ≤ r.length then some (decode r) else none

def LocalApic.decode (r : List UInt8) : LocalApic := ⟨r.getD 2 0, r.getD 3 0, leNat ((r.drop 4).take 4)⟩

def IoApic.decode (r : List UInt8) : IoApic := ⟨r.getD 2 0, leNat ((r.drop 4).take 4), leNat ((r.drop 8).take 4)⟩

theorem IsRecord.two_le {r : List UInt8} (h : IsRecord r) : 2 ≤ r.length := by
  obtain ⟨type, len, rest, rfl, -⟩ := h
  simp

/-- A list begins with one record at most. -/
theorem IsRecord.eq_of_append {r r' l l' : List UInt8} (h : IsRecord r) (h' : IsRecord r') (he : r ++ l = r' ++ l') :
    r = r' ∧ l = l' := by
  obtain ⟨type, len, rest, rfl, hlen⟩ := h
  obtain ⟨type', len', rest', rfl, hlen'⟩ := h'
  have h2 := he
  simp only [List.cons_append, List.cons.injEq] at h2
  rw [h2.2.1] at hlen
  exact List.append_inj he (hlen.symm.trans hlen')

/-- The records from the beginning of an area on, up to a rest that begins with none. -/
theorem exists_records (area : List UInt8) : ∃ (recs : List (List UInt8)) (rest : List UInt8),
    area = recs.flatten ++ rest ∧ (∀ r ∈ recs, IsRecord r) ∧ ∀ r, IsRecord r → ¬ r <+: rest := by
  induction hn : area.length using Nat.strongRecOn generalizing area with
  | ind n ih =>
    by_cases hex : ∃ r, IsRecord r ∧ r <+: area
    · obtain ⟨r, hr, area', rfl⟩ := hex
      have hlt : area'.length < n := by
        have := hr.two_le
        rw [← hn, List.length_append]
        omega
      obtain ⟨recs, rest, rfl, hrecs, hrest⟩ := ih _ hlt area' rfl
      refine ⟨r :: recs, rest, by simp, ?_, hrest⟩
      simpa [hr] using hrecs
    · refine ⟨[], area, rfl, by simp, fun r hr hpre => hex ⟨r, hr, hpre⟩⟩

private theorem length_le_flatten {recs : List (List UInt8)} (hrecs : ∀ r ∈ recs, IsRecord r) :
    recs.length ≤ recs.flatten.length := by
  induction recs with
  | nil => simp
  | cons r recs ih =>
    have h2 := (hrecs r (by simp)).two_le
    have htail := ih fun r hr => hrecs r (by simp [hr])
    simp only [List.length_cons, List.flatten_cons, List.length_append]
    omega

theorem longestRecords_of_rest {recs : List (List UInt8)} {rest : List UInt8} (hrecs : ∀ r ∈ recs, IsRecord r)
    (hrest : ∀ r, IsRecord r → ¬ r <+: rest) : LongestRecords (recs.flatten ++ rest) recs := by
  refine ⟨hrecs, List.prefix_append _ _, ?_⟩
  induction recs with
  | nil =>
    intro recs' hrecs' hpre
    cases recs' with
    | nil => exact List.prefix_rfl
    | cons r recs' =>
      rw [List.flatten_cons] at hpre
      exact absurd ((List.prefix_append _ _).trans hpre) (hrest r (hrecs' r (by simp)))
  | cons r recs ih =>
    intro recs' hrecs' hpre
    cases recs' with
    | nil => exact List.nil_prefix
    | cons r' recs' =>
      obtain ⟨l, hl⟩ := hpre
      simp only [List.flatten_cons, List.append_assoc] at hl
      obtain ⟨rfl, htail⟩ := (hrecs' r' (by simp)).eq_of_append (hrecs r (by simp)) hl
      rw [List.cons_prefix_cons]
      refine ⟨rfl, ih (fun r hr => hrecs r (by simp [hr])) recs' (fun r hr => hrecs' r (by simp [hr])) ⟨l, ?_⟩⟩
      rw [htail]

/-! ### What an iterator yields -/

section Iterate

variable {type : UInt8} {minLen : Nat} {read : List UInt8 → Nat → Option α} {decode : List UInt8 → α}

private theorem areaU8_append (pre l : List UInt8) (i : Nat) : areaU8 (pre ++ l) (pre.length + i) = l[i]? := by
  rw [areaU8, List.getElem?_append_right (by omega), Nat.add_sub_cancel_left]

private theorem iterNext_stop {pre rest : List UInt8} (hrest : ∀ r, IsRecord r → ¬ r <+: rest) :
    iterNext type minLen read (pre ++ rest) pre.length = some (none, pre.length) := by
  rw [iterNext]
  match rest with
  | [] => rw [if_neg (by simp)]
  | [_] => rw [if_neg (by simp)]
  | entryType :: entryLen :: rest =>
    have h0 := areaU8_append pre (entryType :: entryLen :: rest) 0
    have h1 := areaU8_append pre (entryType :: entryLen :: rest) 1
    rw [Nat.add_zero] at h0
    rw [if_pos (by simp), h0, h1]
    -- a length that fits would make a record
    refine if_pos (Classical.byContradiction fun hfit => ?_)
    simp only [List.length_append, List.length_cons, not_or, Nat.not_lt] at hfit
    obtain ⟨k, hk⟩ := Nat.exists_eq_add_of_le hfit.1
    refine hrest (entryType :: entryLen :: rest.take k) ⟨_, _, _, rfl, ?_⟩ ⟨rest.drop k, by simp⟩
    simp only [List.length_cons, List.length_take]
    omega

private theorem iterNext_record {r : List UInt8} (hr : IsRecord r) (pre rest : List UInt8) :
    iterNext type minLen read (pre ++ (r ++ rest)) pre.length =
      if r.head? = some type ∧ minLen ≤ r.length then
        (read (pre ++ (r ++ rest)) pre.length).map fun x => (some x, pre.length + r.length)
      else iterNext type minLen read (pre ++ (r ++ rest)) (pre.length + r.length) := by
  have h2 := hr.two_le
  obtain ⟨entryType, entryLen, tail, he, hlen⟩ := hr
  have h0 : areaU8 (pre ++ (r ++ rest)) pre.length = some entryType := by
    have hfirst := areaU8_append pre (r ++ rest) 0
    rw [Nat.add_zero] at hfirst
    rw [hfirst, he]
    rfl
  have h1 : areaU8 (pre ++ (r ++ rest)) (pre.length + 1) = some entryLen := by
    rw [areaU8_append, he]
    rfl
  have hhead : r.head? = some entryType := by
    rw [he]
    rfl
  rw [iterNext, if_pos (by simp only [List.length_append]; omega), h0, h1]
  simp only [hlen, hhead, Option.some_inj]
  rw [if_neg (by simp only [List.length_append]; omega)]
  by_cases ht : entryType = type
  · by_cases hm : minLen ≤ r.length
    · simp [ht, hm, Nat.not_lt.2 hm]
    · simp [ht, hm, Nat.lt_of_not_le hm]
  · simp [ht]

theorem collect_congr {next : Nat → Option (Option α × Nat)} {a b : Nat} (h : next a = next b) (fuel : Nat) :
    collect next fuel a = collect next fuel b := by
  cases fuel with
  | zero => rfl
  | succ fuel => rw [collect, collect, h]

/-- An iterator yields the records of its type, in order, and stops behind the last record. -/
theorem collect_iterNext
    (hread : ∀ pre r rest : List UInt8, minLen ≤ r.length → read (pre ++ (r ++ rest)) pre.length = some (decode r))
    {recs : List (List UInt8)} (hrecs : ∀ r ∈ recs, IsRecord r) {rest : List UInt8}
    (hrest : ∀ r, IsRecord r → ¬ r <+: rest) (pre : List UInt8) {fuel : Nat} (hfuel : recs.length < fuel) :
    collect (iterNext type minLen read (pre ++ (recs.flatten ++ rest))) fuel pre.length =
      some (recs.filterMap (pick type minLen decode), pre.length + recs.flatten.length) := by
  induction recs generalizing pre fuel with
  | nil =>
    obtain ⟨fuel, rfl⟩ := Nat.exists_eq_succ_of_ne_zero (by omega : fuel ≠ 0)
    rw [List.flatten_nil, List.nil_append, collect, iterNext_stop hrest]
    rfl
  | cons r recs ih =>
    obtain ⟨fuel, rfl⟩ := Nat.exists_eq_succ_of_ne_zero (by omega : fuel ≠ 0)
    have hnext := @iterNext_record α type minLen read r (hrecs r (by simp)) pre (recs.flatten ++ rest)
    have hrec := fun {f : Nat} => @ih (fun r hr => hrecs r (by simp [hr])) (pre ++ r) f
    have harea : pre ++ ((r :: recs).flatten ++ rest) = pre ++ (r ++ (recs.flatten ++ rest)) := by simp
    have hsum : pre.length + (r :: recs).flatten.length = pre.length + r.length + recs.flatten.length := by
      simp [Nat.add_assoc]
    rw [List.append_assoc, List.length_append] at hrec
    rw [harea, hsum]
    simp only [List.length_cons] at hfuel
    by_cases hpick : r.head? = some type ∧ minLen ≤ r.length
    · rw [if_pos hpick, hread pre r _ hpick.2] at hnext
      rw [collect, hnext]
      simp only [Option.map_some]
      have hp : pick type minLen decode r = some (decode r) := if_pos hpick
      rw [hrec (by omega), List.filterMap_cons_some hp]
      rfl
    · rw [if_neg hpick] at hnext
      have hp : pick type minLen decode r = none := if_neg hpick
      rw [collect_congr hnext, hrec (by omega), List.filterMap_cons_none hp]

end Iterate

/-! ### Fields of a record -/

private theorem areaU8_record {r : List UInt8} {i : Nat} (hi : i < r.length) (pre rest : List UInt8) :
    areaU8 (pre ++ (r ++ rest)) (pre.length + i) = some (r.getD i 0) := by
  rw [areaU8_append, List.getElem?_append_left hi, List.getD_eq_getElem?_getD, List.getElem?_eq_getElem hi,
    Option.getD_some]

private theorem areaU32_record {r : List UInt8} {i : Nat} (hi : i + 4 ≤ r.length) (pre rest : List UInt8) :
    areaU32 (pre ++ (r ++ rest)) (pre.length + i) = some (leNat ((r.drop i).take 4)) := by
  have hdrop : (pre ++ (r ++ rest)).drop (pre.length + i) = r.drop i ++ rest := by
    rw [List.drop_append, List.drop_eq_nil_of_le (by omega), Nat.add_sub_cancel_left, List.nil_append,
      List.drop_append_of_le_length (by omega)]
  rw [areaU32, if_pos (by simp only [List.length_append]; omega), hdrop,
    List.take_append_of_le_length (by rw [List.length_drop]; omega)]

theorem LocalApic.read_record (pre r rest : List UInt8) (hr : 8 ≤ r.length) :
    LocalApic.read (pre ++ (r ++ rest)) pre.length = some (LocalApic.decode r) := by
  rw [LocalApic.read, areaU8_record (by omega), areaU8_record (by omega), areaU32_record (by omega)]
  rfl

theorem IoApic.read_record (pre r rest : List UInt8) (hr : 12 ≤ r.length) :
    IoApic.read (pre ++ (r ++ rest)) pre.length = some (IoApic.decode r) := by
  rw [IoApic.read, areaU8_record (by omega), areaU32_record (by omega), areaU32_record (by omega)]
  rfl

/-- For any bytes both iterators end without a read outside of the area.  They yield the records of type 0 and of type
1 that are long enough, in order, among the records of the longest prefix that consists of records, and stop behind
it. -/
theorem apics_of_records (area : List UInt8) : ∃ recs : List (List UInt8), LongestRecords area recs ∧
    ∀ fuel > area.length,
      localApics area fuel = some (recs.filterMap (pick 0 8 LocalApic.decode), recs.flatten.length) ∧
        ioApics area fuel = some (recs.filterMap (pick 1 12 IoApic.decode), recs.flatten.length) := by
  obtain ⟨recs, rest, rfl, hrecs, hrest⟩ := exists_records area
  refine ⟨recs, longestRecords_of_rest hrecs hrest, fun fuel hfuel => ?_⟩
  have hlen : recs.length ≤ recs.flatten.length := length_le_flatten hrecs
  have hfuel' : recs.length < fuel := by
    rw [List.length_append] at hfuel
    omega
  constructor
  · have := @collect_iterNext _ 0 8 _ _ LocalApic.read_record _ hrecs _ hrest [] _ hfuel'
    rwa [List.nil_append, List.length_nil, Nat.zero_add] at this
  · have := @collect_iterNext _ 1 12 _ _ IoApic.read_record _ hrecs _ hrest [] _ hfuel'
    rwa [List.nil_append, List.length_nil, Nat.zero_add] at this

end Acpi

end Hammam
