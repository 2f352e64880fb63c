import Hammam.Lib.ByteMem

/-!
# Discovery of the MADT (`acpi/madt.rs`)

The root pointer leads to the XSDT and to the RSDT, which list the addresses of the tables.  Physical addresses have
at most 52 bits, and nothing answers above them.  The outer `Option` of a result is `none` when a sum overflows,
which panics in the profile `dev`.
-/

namespace Hammam

namespace Acpi

open ByteMem

/-! ### Layout of structures -/

/-- A field of a `repr(C)` structure. -/
structure Field where
  size : Nat
  align : Nat

def alignUp (n align : Nat) : Nat := (n + align - 1) / align * align

/-- The offsets of the fields if the first one may begin at `pos`, and the end of the last one. -/
def offsetsFrom : Nat → List Field → List Nat × Nat
  | pos, [] => ([], pos)
  | pos, f :: fs =>
    let start := alignUp pos f.align
    let (offsets, last) := offsetsFrom (start + f.size) fs
    (start :: offsets, last)

/-- The offset of field `i`. -/
def fieldOffset (fs : List Field) (i : Nat) : Nat := (offsetsFrom 0 fs).1.getD i 0

/-- `core::mem::size_of`: the size is a multiple of the largest alignment. -/
def sizeOfStruct (fs : List Field) : Nat := alignUp (offsetsFrom 0 fs).2 ((fs.map Field.align).foldl max 1)

def bytes (n : Nat) : Field := ⟨n, 1⟩
def u8 : Field := ⟨1, 1⟩
def u32 : Field := ⟨4, 4⟩
def u64 : Field := ⟨8, 8⟩

/-- The fields `signature`, `checksum`, `oemid`, `revision` and `rsdt_address`. -/
def RsdpV1 : List Field := [bytes 8, u8, bytes 6, u8, u32]

/-- The fields of `RsdpV1`, then `length`, `xsdt_address`, `extended_checksum` and `reserved`. -/
def RsdpV2 : List Field := [bytes 8, u8, bytes 6, u8, u32, u32, u64, u8, bytes 3]

/-- The fields `signature`, `length`, `revision`, `checksum`, `oemid`, `oem_table_id`, `oem_revision`, `creator_id`
and `creator_revision`. -/
def SdtHeader : List Field := [bytes 4, u32, u8, u8, bytes 6, bytes 8, u32, u32, u32]

/-! ### Memory -/

/-- An image of the physical memory. -/
structure PhysMem where
  byte : Nat → UInt8
  above : ∀ a, 2 ^ 52 ≤ a → byte a = 0xFF

/-- `read_bytes`. -/
def readBytes (m : PhysMem) (addr length : Nat) : List UInt8 := (List.range length).map fun i => m.byte (addr + i)

def readU32 (m : PhysMem) (addr : Nat) : Nat := readLE m.byte 4 addr

def readU64 (m : PhysMem) (addr : Nat) : Nat := readLE m.byte 8 addr

def checksum (m : PhysMem) (addr length : Nat) : Bool := (readBytes m addr length).foldl (· + ·) 0 == 0

/-- A sum of type `u64`. -/
def addU64 (a b : Nat) : Option Nat := if a + b < 2 ^ 64 then some (a + b) else none

/-! ### The search -/

def rsdpSignature : List UInt8 := [0x52, 0x53, 0x44, 0x20, 0x50, 0x54, 0x52, 0x20]
def madtSignature : List UInt8 := [0x41, 0x50, 0x49, 0x43]
def rsdtSignature : List UInt8 := [0x52, 0x53, 0x44, 0x54]
def xsdtSignature : List UInt8 := [0x58, 0x53, 0x44, 0x54]
def sdtHeaderSize : Nat := 36
def madtFixedHeaderSize : Nat := sdtHeaderSize + 8

structure Madt where
  localApicAddress : Nat
  flags : Nat
  entriesPtr : Nat
  entriesLen : Nat
  deriving DecidableEq, Repr

structure RsdpInfo where
  rsdtAddress : Nat
  xsdtAddress : Option Nat

def readRsdp (m : PhysMem) (addr : Nat) : Option (Option RsdpInfo) := do
  if readBytes m addr 8 ≠ rsdpSignature then return none
  let revision := m.byte (← addU64 addr 15)
  if 2 ≤ revision then
    let length := readU32 m (addr + fieldOffset RsdpV2 5)
    if length < sizeOfStruct RsdpV2 then return none
    if !checksum m addr length then return none
    let xsdtAddress := readU64 m (addr + fieldOffset RsdpV2 6)
    return some ⟨readU32 m (addr + fieldOffset RsdpV2 4), if xsdtAddress ≠ 0 then some xsdtAddress else none⟩
  if !checksum m addr (sizeOfStruct RsdpV1) then return none
  return some ⟨readU32 m (addr + fieldOffset RsdpV1 4), none⟩

def parseMadt (m : PhysMem) (addr : Nat) : Option (Option Madt) := do
  if readBytes m (addr + fieldOffset SdtHeader 0) 4 ≠ madtSignature then return none
  let length := readU32 m (addr + fieldOffset SdtHeader 1)
  if length < madtFixedHeaderSize then return none
  let localApicAddress := readU32 m (← addU64 addr sdtHeaderSize)
  let flags := readU32 m (← addU64 (← addU64 addr sdtHeaderSize) 4)
  let entriesPtr ← addU64 addr madtFixedHeaderSize
  return some ⟨localApicAddress, flags, entriesPtr, length - madtFixedHeaderSize⟩

def findMadtInSdt (m : PhysMem) (sdtAddr entrySize : Nat) (expectedSignature : List UInt8) :
    Option (Option Madt) := do
  if readBytes m (sdtAddr + fieldOffset SdtHeader 0) 4 ≠ expectedSignature then return none
  let totalLength := readU32 m (sdtAddr + fieldOffset SdtHeader 1)
  if totalLength < sdtHeaderSize then return none
  let entriesCount := (totalLength - sdtHeaderSize) / entrySize
  let entriesBase ← addU64 sdtAddr sdtHeaderSize
  (List.range entriesCount).findSomeM? fun idx => do
    let entryAddr ← addU64 entriesBase (idx * entrySize)
    let tableAddr := if entrySize = 8 then readU64 m entryAddr else readU32 m entryAddr
    parseMadt m tableAddr

/-- `Madt::from_rsdp`. -/
def fromRsdp (m : PhysMem) (rsdpAddr : Nat) : Option (Option Madt) := do
  let some rsdp ← readRsdp m rsdpAddr | return none
  if let some xsdtAddr := rsdp.xsdtAddress then
    if let some madt ← findMadtInSdt m xsdtAddr 8 xsdtSignature then return some madt
  if rsdp.rsdtAddress ≠ 0 then return ← findMadtInSdt m rsdp.rsdtAddress 4 rsdtSignature
  return none

/-! ### What the tables say -/

/-- The addresses that a table of addresses lists. -/
def listed (m : PhysMem) (sdt entrySize : Nat) (signature : List UInt8) : List Nat :=
  if readBytes m sdt 4 = signature ∧ 36 ≤ readU32 m (sdt + 4) then
    (List.range ((readU32 m (sdt + 4) - 36) / entrySize)).map fun i =>
      readLE m.byte entrySize (sdt + 36 + i * entrySize)
  else []

/-- The tables in the order in which they are searched: those of the XSDT, which exists from revision 2 on, then those
of the RSDT. -/
def tables (m : PhysMem) (rsdp : Nat) : List Nat :=
  (if 2 ≤ m.byte (rsdp + 15) ∧ readU64 m (rsdp + 24) ≠ 0 then
      listed m (readU64 m (rsdp + 24)) 8 xsdtSignature else []) ++
    if readU32 m (rsdp + 16) ≠ 0 then listed m (readU32 m (rsdp + 16)) 4 rsdtSignature else []

def IsMadt (m : PhysMem) (table : Nat) : Prop := readBytes m table 4 = madtSignature ∧ 44 ≤ readU32 m (table + 4)

instance (m : PhysMem) (table : Nat) : Decidable (IsMadt m table) := inferInstanceAs (Decidable (_ ∧ _))

def madtAt (m : PhysMem) (table : Nat) : Madt :=
  ⟨readU32 m (table + 36), readU32 m (table + 40), table + 44, readU32 m (table + 4) - 44⟩

/-- The first MADT in a list of tables. -/
def firstMadt (m : PhysMem) (l : List Nat) : Option Madt := (l.find? (IsMadt m ·)).map (madtAt m)

/-- A root pointer as the standard describes it. -/
structure ConformingRsdp (m : PhysMem) (rsdp : Nat) : Prop where
  signature : readBytes m rsdp 8 = rsdpSignature
  sum : checksum m rsdp 20
  extended : m.byte (rsdp + 15) = 0 ∨
    2 ≤ m.byte (rsdp + 15) ∧ readU32 m (rsdp + 20) = 36 ∧ checksum m rsdp 36

/-! ### What the search finds -/

section Search

variable {m : PhysMem}

/-- A signature is not found above the physical addresses. -/
private theorem lt_of_signature {a n : Nat} {sig : List UInt8} (h : readBytes m a (n + 1) = sig)
    (hb : sig.headD 0xFF ≠ 0xFF) : a < 2 ^ 52 := by
  refine Nat.lt_of_not_le fun ha => hb ?_
  rw [← h, readBytes, List.range_succ_eq_map, List.map_cons, List.headD_cons, Nat.add_zero, m.above a ha]

private theorem readU32_lt (a : Nat) : readU32 m a < 2 ^ 32 := readLE_lt m.byte 4 a

private theorem addU64_eq {a b : Nat} (h : a + b < 2 ^ 64) : addU64 a b = some (a + b) := if_pos h

theorem parseMadt_eq (table : Nat) :
    parseMadt m table = some (if IsMadt m table then some (madtAt m table) else none) := by
  have h0 : fieldOffset SdtHeader 0 = 0 := by decide
  have h1 : fieldOffset SdtHeader 1 = 4 := by decide
  unfold parseMadt
  rw [h0, h1, Nat.add_zero]
  by_cases hsig : readBytes m table 4 = madtSignature
  · by_cases hlen : 44 ≤ readU32 m (table + 4)
    · have ht : table < 2 ^ 52 := lt_of_signature hsig (by decide)
      rw [if_pos (show IsMadt m table from ⟨hsig, hlen⟩)]
      simp [hsig, madtFixedHeaderSize, sdtHeaderSize, Nat.not_lt.2 hlen,
        addU64_eq (show table + 36 < 2 ^ 64 by omega),
        addU64_eq (show table + 36 + 4 < 2 ^ 64 by omega), addU64_eq (show table + 44 < 2 ^ 64 by omega), madtAt]
    · have hmadt : ¬ IsMadt m table := fun h => hlen h.2
      rw [if_neg hmadt]
      simp [hsig, madtFixedHeaderSize, sdtHeaderSize, Nat.lt_of_not_le hlen]
  · have hmadt : ¬ IsMadt m table := fun h => hsig h.1
    rw [if_neg hmadt]
    simp [hsig]

private theorem findSome_firstMadt (l : List Nat) :
    (l.findSome? fun t => if IsMadt m t then some (madtAt m t) else none) = firstMadt m l := by
  unfold firstMadt
  induction l with
  | nil => rfl
  | cons t l ih =>
    by_cases ht : IsMadt m t
    · simp [ht]
    · simpa [ht] using ih

private theorem findSomeM?_eq {f : Nat → Option (Option Madt)} {g : Nat → Option Madt} {l : List Nat}
    (h : ∀ i ∈ l, f i = some (g i)) : l.findSomeM? f = some (l.findSome? g) := by
  induction l with
  | nil => rfl
  | cons i l ih =>
    rw [List.findSomeM?_cons, h i (by simp), List.findSome?_cons, ih fun j hj => h j (by simp [hj])]
    cases g i <;> rfl

/-- No sum overflows, since an SDT lies below `2 ^ 52` and has less than `2 ^ 32` bytes. -/
theorem findMadtInSdt_eq {sdt entrySize : Nat} {sig : List UInt8} (he : entrySize = 4 ∨ entrySize = 8)
    (hb : sig.headD 0xFF ≠ 0xFF) :
    findMadtInSdt m sdt entrySize sig = some (firstMadt m (listed m sdt entrySize sig)) := by
  have h0 : fieldOffset SdtHeader 0 = 0 := by decide
  have h1 : fieldOffset SdtHeader 1 = 4 := by decide
  unfold findMadtInSdt listed
  rw [h0, h1, Nat.add_zero]
  by_cases hsig : readBytes m sdt 4 = sig
  · by_cases hlen : 36 ≤ readU32 m (sdt + 4)
    · have ht : sdt < 2 ^ 52 := lt_of_signature hsig hb
      have hl : readU32 m (sdt + 4) < 2 ^ 32 := readU32_lt _
      have hlisted : readBytes m sdt 4 = sig ∧ 36 ≤ readU32 m (sdt + 4) := ⟨hsig, hlen⟩
      rw [if_pos hlisted]
      simp only [hsig, sdtHeaderSize, Nat.not_lt.2 hlen, addU64_eq (show sdt + 36 < 2 ^ 64 by omega), ne_eq,
        not_true_eq_false, if_false, Option.bind_eq_bind, Option.bind_some]
      rw [← findSome_firstMadt, List.findSome?_map]
      refine findSomeM?_eq fun i hi => ?_
      have hbound : i * entrySize ≤ readU32 m (sdt + 4) - 36 :=
        (Nat.mul_le_mul_right _ (List.mem_range.1 hi).le).trans (Nat.div_mul_le_self _ _)
      rw [addU64_eq (by omega), Option.bind_some, parseMadt_eq]
      rcases he with rfl | rfl <;> rfl
    · have hlisted : ¬ (readBytes m sdt 4 = sig ∧ 36 ≤ readU32 m (sdt + 4)) := fun h => hlen h.2
      rw [if_neg hlisted]
      simp [hsig, sdtHeaderSize, Nat.lt_of_not_le hlen, firstMadt]
  · have hlisted : ¬ (readBytes m sdt 4 = sig ∧ 36 ≤ readU32 m (sdt + 4)) := fun h => hsig h.1
    rw [if_neg hlisted]
    simp [hsig, firstMadt]

/-- What `read_rsdp` demands of the length and the checksum. -/
def Accepted (m : PhysMem) (rsdp : Nat) : Prop :=
  if 2 ≤ m.byte (rsdp + 15) then 40 ≤ readU32 m (rsdp + 20) ∧ checksum m rsdp (readU32 m (rsdp + 20))
  else checksum m rsdp 20

instance (m : PhysMem) (rsdp : Nat) : Decidable (Accepted m rsdp) := by
  unfold Accepted
  infer_instance

theorem readRsdp_eq {rsdp : Nat} (hsig : readBytes m rsdp 8 = rsdpSignature) :
    readRsdp m rsdp = some (if Accepted m rsdp then
      some ⟨readU32 m (rsdp + 16), if 2 ≤ m.byte (rsdp + 15) ∧ readU64 m (rsdp + 24) ≠ 0 then
        some (readU64 m (rsdp + 24)) else none⟩
      else none) := by
  have hrsdt1 : fieldOffset RsdpV1 4 = 16 := by decide
  have hrsdt2 : fieldOffset RsdpV2 4 = 16 := by decide
  have hlength : fieldOffset RsdpV2 5 = 20 := by decide
  have hxsdt : fieldOffset RsdpV2 6 = 24 := by decide
  have hsize1 : sizeOfStruct RsdpV1 = 20 := by decide
  have hsize2 : sizeOfStruct RsdpV2 = 40 := by decide
  have hlow : rsdp < 2 ^ 52 := lt_of_signature hsig (by decide)
  unfold readRsdp Accepted
  rw [hrsdt1, hrsdt2, hlength, hxsdt, hsize1, hsize2, addU64_eq (by omega)]
  by_cases hrev : 2 ≤ m.byte (rsdp + 15)
  · by_cases hlen : 40 ≤ readU32 m (rsdp + 20)
    · by_cases hsum : checksum m rsdp (readU32 m (rsdp + 20)) <;> simp [hsig, hrev, hlen, hsum]
    · simp [hsig, hrev, hlen]
  · by_cases hsum : checksum m rsdp 20 <;> simp [hsig, hrev, hsum]

theorem firstMadt_append (l l' : List Nat) : firstMadt m (l ++ l') = (firstMadt m l).or (firstMadt m l') := by
  simp only [firstMadt, List.find?_append]
  cases l.find? (IsMadt m ·) <;> rfl

/-- Behind the check of the root pointer the search does what it should. -/
theorem fromRsdp_eq {rsdp : Nat} (hsig : readBytes m rsdp 8 = rsdpSignature) :
    fromRsdp m rsdp = some (if Accepted m rsdp then firstMadt m (tables m rsdp) else none) := by
  unfold fromRsdp tables
  rw [readRsdp_eq hsig, firstMadt_append]
  by_cases hacc : Accepted m rsdp
  · have hx := @findMadtInSdt_eq m (readU64 m (rsdp + 24)) 8 xsdtSignature (.inr rfl) (by decide)
    have hr := @findMadtInSdt_eq m (readU32 m (rsdp + 16)) 4 rsdtSignature (.inl rfl) (by decide)
    have hnil : firstMadt m [] = none := rfl
    by_cases hxsdt : 2 ≤ m.byte (rsdp + 15) ∧ readU64 m (rsdp + 24) ≠ 0
    · cases hfound : firstMadt m (listed m (readU64 m (rsdp + 24)) 8 xsdtSignature) with
      | some madt => simp [hacc, hxsdt, hx, hfound]
      | none => by_cases hrsdt : readU32 m (rsdp + 16) = 0 <;> simp [hacc, hxsdt, hrsdt, hx, hr, hfound, hnil]
    · by_cases hrsdt : readU32 m (rsdp + 16) = 0 <;>
        simp only [hacc, hxsdt, hrsdt, hr, hnil, if_true, if_false, Option.bind_eq_bind, Option.bind_some,
          Option.none_or, ne_eq, not_true_eq_false, not_false_eq_true, Option.pure_def]
  · simp [hacc]

theorem firstMadt_eq_none {l : List Nat} : firstMadt m l = none ↔ ∀ t ∈ l, ¬ IsMadt m t := by
  simp [firstMadt]

/-- A root pointer of revision 0 leads to the first MADT that is listed.  The 36 bytes of a newer one are less than
the 40 bytes of `RsdpV2`, so that nothing is found, which is right only if no MADT is listed. -/
theorem fromRsdp_conforming {rsdp : Nat} (h : ConformingRsdp m rsdp) :
    fromRsdp m rsdp = some (firstMadt m (tables m rsdp)) ↔
      m.byte (rsdp + 15) = 0 ∨ ∀ t ∈ tables m rsdp, ¬ IsMadt m t := by
  rw [fromRsdp_eq h.signature, Option.some_inj]
  rcases h.extended with hrev | ⟨hrev, hlen, -⟩
  · have hacc : Accepted m rsdp := by
      rw [Accepted, hrev, if_neg (by decide)]
      exact h.sum
    simp [hacc, hrev]
  · have hacc : ¬ Accepted m rsdp := by
      rw [Accepted, if_pos hrev, hlen]
      exact fun hacc => absurd hacc.1 (by decide)
    have hne : m.byte (rsdp + 15) ≠ 0 := fun h0 => absurd (h0 ▸ hrev) (by decide)
    rw [if_neg hacc, eq_comm, firstMadt_eq_none]
    simp [hne]

end Search

/-- A root pointer at `0x1000`, a table of addresses at `0x1100` and a MADT at `0x1200`. -/
def sampleMemory (rsdp sdt : List UInt8) : PhysMem where
  byte a :=
    if 2 ^ 52 ≤ a then 0xFF
    else if 0x1200 ≤ a then
      (madtSignature ++ [44, 0, 0, 0] ++ List.replicate 28 0 ++ [0, 0, 0xE0, 0xFE, 1, 0, 0, 0]).getD (a - 0x1200) 0
    else if 0x1100 ≤ a then sdt.getD (a - 0x1100) 0
    else if 0x1000 ≤ a then rsdp.getD (a - 0x1000) 0
    else 0
  above _ ha := if_pos ha

/-- Revision 0, with an RSDT of one address. -/
def sampleV1 : PhysMem :=
  sampleMemory (rsdpSignature ++ [0xD0, 0, 0, 0, 0, 0, 0, 0, 0, 0x11, 0, 0])
    (rsdtSignature ++ [40, 0, 0, 0] ++ List.replicate 28 0 ++ [0, 0x12, 0, 0])

/-- Revision 2, with an XSDT of one address. -/
def sampleV2 : PhysMem :=
  sampleMemory
    (rsdpSignature ++ [0xDF, 0, 0, 0, 0, 0, 0, 2, 0, 0, 0, 0, 36, 0, 0, 0, 0, 0x11, 0, 0, 0, 0, 0, 0, 0xCB, 0, 0, 0])
    (xsdtSignature ++ [44, 0, 0, 0] ++ List.replicate 28 0 ++ [0, 0x12, 0, 0, 0, 0, 0, 0])

theorem fromRsdp_conforming_sampleV1 : fromRsdp sampleV1 0x1000 = some (some ⟨0xFEE00000, 1, 0x122C, 0⟩) := by
  have h : ConformingRsdp sampleV1 0x1000 := ⟨by decide, by decide, .inl (by decide)⟩
  have hfirst : firstMadt sampleV1 (tables sampleV1 0x1000) = some ⟨0xFEE00000, 1, 0x122C, 0⟩ := by decide
  rw [(fromRsdp_conforming h).2 (.inl (by decide)), hfirst]

/-- The MADT that a conforming root pointer of revision 2 leads to is not found. -/
theorem fromRsdp_sampleV2 : ConformingRsdp sampleV2 0x1000 ∧
    firstMadt sampleV2 (tables sampleV2 0x1000) = some ⟨0xFEE00000, 1, 0x122C, 0⟩ ∧
    fromRsdp sampleV2 0x1000 = some none := by
  refine ⟨⟨by decide, by decide, .inr ⟨by decide, by decide, by decide⟩⟩, by decide, by decide⟩

end Acpi

end Hammam
