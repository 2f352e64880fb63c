import Hammam.Loader.Image

/-!
# Relocations of a position independent program

The relocations are read from the memory of the program while this memory is patched.  If the targets lie inside the
program, do not overlap and keep off the table, every relocation is read as the linker wrote it, and the loop over the
table leaves the word of each target patched and every other byte as it was, whatever the order of the entries.
-/

namespace Hammam

open Fallible ByteMem

/-- An entry of the table. -/
structure Rela where
  offset : Nat
  info : Nat
  addend : Nat
  deriving DecidableEq, Repr

namespace Rela

/-- The type is `R_X86_64_RELATIVE`. -/
def Relative (r : Rela) : Prop := r.info % 2 ^ 32 = 8

instance (r : Rela) : Decidable r.Relative := inferInstanceAs (Decidable (_ = _))

/-- The address of the word that is patched. -/
def target (r : Rela) : Nat := r.offset + userBase

/-- The patched word. -/
def value (r : Rela) : Nat := (r.addend + userBase) % 2 ^ 64

def Covers (r : Rela) (v : Nat) : Prop := r.target ≤ v ∧ v < r.target + 8

/-- The targets do not overlap. -/
def Apart (r r' : Rela) : Prop := r.target + 8 ≤ r'.target ∨ r'.target + 8 ≤ r.target

end Rela

namespace ElfFile

variable (elf : ElfFile) (data : List UInt8) (info : RelaInfo)

/-- The address `v` lies in a segment. -/
def Inside (v : Nat) : Prop :=
  ∃ ph ∈ elf.loads, ph.vaddr elf.loadOffset ≤ v ∧ v < ph.vaddr elf.loadOffset + ph.extent

/-- The byte of the segment image at the address `v`. -/
def byteAt (v : Nat) : Option UInt8 :=
  (elf.loads.find? fun ph => ph.vaddr elf.loadOffset ≤ v ∧ v < ph.vaddr elf.loadOffset + ph.extent).bind
    fun ph => ph.byte data (v - ph.vaddr elf.loadOffset)

/-- The word of the segment image at the address `v`. -/
def wordAt (v : Nat) : Nat := fromBytes ((List.range 8).map fun j => (elf.byteAt data (v + j)).getD 0)

/-- The address of the entry `k` of the table. -/
def relaVa (k : Nat) : Nat := info.va + elf.loadOffset + k * 24

def rela (k : Nat) : Rela :=
  ⟨elf.wordAt data (elf.relaVa info k), elf.wordAt data (elf.relaVa info k + 8),
    elf.wordAt data (elf.relaVa info k + 16)⟩

/-- The table as the linker wrote it. -/
def relas : List Rela := (List.range (info.size / 24)).map (elf.rela data info)

/-- A position independent program with relocations `info`, as a linker produces it. -/
structure Relocatable : Prop where
  pie : (elf.loads.map (·.virtualAddr)).min?.getD 0 < 0x1000
  tidy : ∀ ph ∈ elf.loads, ph.Tidy elf.loadOffset
  pages : elf.loads.Pairwise fun a b => ∀ p ∈ a.pages elf.loadOffset, p ∉ b.pages elf.loadOffset
  dynamic : elf.relaInfo data = some info
  va : info.va ≠ 0
  size : 24 ∣ info.size
  ent : info.ent = 24
  table : ∀ k < info.size, elf.Inside (info.va + elf.loadOffset + k)
  targets : ∀ r ∈ elf.relas data info, r.Relative → ∀ j < 8, elf.Inside (r.target + j)
  apart : (elf.relas data info).Pairwise fun r r' => r.Relative → r'.Relative → r.Apart r'
  offTable : ∀ r ∈ elf.relas data info, r.Relative →
    ∀ k < info.size, ¬ r.Covers (info.va + elf.loadOffset + k)

end ElfFile

/-! ### Reading and writing words -/

theorem toBytes_length (n : Nat) : (toBytes n).length = 8 := by
  rw [toBytes, List.length_map, List.length_range]

theorem toBytes_getElem? {n j : Nat} (hj : j < 8) : (toBytes n)[j]? = some (bytesLE n j) := by
  rw [toBytes, List.getElem?_map, List.getElem?_range hj, Option.map_some]

private theorem fromBytes_map (m : Nat → UInt8) (n a : Nat) : fromBytes ((List.range' a n).map m) = readLE m n a := by
  induction n generalizing a with
  | zero => rfl
  | succ n ih =>
    rw [List.range'_succ, List.map_cons, readLE, ← ih (a + 1)]
    rfl

theorem fromBytes_toBytes {n : Nat} (h : n < 2 ^ 64) : fromBytes (toBytes n) = n := by
  rw [toBytes, List.range_eq_range', fromBytes_map, readLE_bytesLE _ 8 0 n fun i _ => by rw [Nat.zero_add]]
  exact Nat.mod_eq_of_lt h

theorem VMem.loadBytes_eq {g : VMem} {v n : Nat} {b : Nat → UInt8} (h : ∀ j < n, g ((v + j) % 2 ^ 48) = some (b j)) :
    g.loadBytes v n = some ((List.range n).map b) := by
  induction n generalizing v b with
  | zero => rfl
  | succ n ih =>
    have hnext : g.loadBytes (nextAddr v) n = some ((List.range n).map fun j => b (j + 1)) := by
      refine ih fun j hj => ?_
      rw [← h (j + 1) (Nat.succ_lt_succ hj), nextAddr]
      congr 1
      omega
    have h0 := h 0 (Nat.succ_pos n)
    rw [Nat.add_zero] at h0
    rw [VMem.loadBytes, h0, hnext, List.range_succ_eq_map, List.map_cons, List.map_map]
    rfl

/-! ### The segment image -/

section Image

variable {elf : ElfFile} {data : List UInt8} {info : RelaInfo}

theorem ElfFile.Inside.index {v : Nat} (hv : elf.Inside v) :
    ∃ ph ∈ elf.loads, ∃ i < ph.extent, v = ph.vaddr elf.loadOffset + i := by
  obtain ⟨ph, hph, h1, h2⟩ := hv
  exact ⟨ph, hph, v - ph.vaddr elf.loadOffset, by omega, by omega⟩

theorem ElfFile.Relocatable.loadOffset_eq (hr : elf.Relocatable data info) : elf.loadOffset = userBase :=
  if_pos hr.pie

/-- On disjoint pages the program sees the segment image. -/
theorem ElfFile.Relocatable.image_byte (hr : elf.Relocatable data info)
    (hload : ∀ ph ∈ elf.loads, ph.Loadable elf.loadOffset data) {ph : ProgramHeader} (hph : ph ∈ elf.loads) {i : Nat}
    (hi : i < ph.extent) : elf.image data ((ph.vaddr elf.loadOffset + i) % 2 ^ 48) = ph.byte data i := by
  obtain ⟨l, r, hsplit⟩ := List.append_of_mem hph
  refine image_of_last hr.tidy (hload ph hph) hsplit hi fun q hq => ?_
  have hp := hr.pages
  rw [hsplit] at hp
  refine (List.pairwise_cons.1 (List.pairwise_append.1 hp).2.1).1 q hq _ ?_
  rw [pageNo_eq]
  exact (hr.tidy ph hph).page_mem hi

theorem ElfFile.Relocatable.image_eq (hr : elf.Relocatable data info)
    (hload : ∀ ph ∈ elf.loads, ph.Loadable elf.loadOffset data) {v : Nat} (hv : elf.Inside v) :
    ∃ b, elf.byteAt data v = some b ∧ elf.image data (v % 2 ^ 48) = some b := by
  obtain ⟨ph, hfind⟩ : ∃ ph, elf.loads.find? (fun ph => ph.vaddr elf.loadOffset ≤ v ∧
      v < ph.vaddr elf.loadOffset + ph.extent) = some ph := by
    rw [← Option.isSome_iff_exists, List.find?_isSome]
    obtain ⟨ph, hph, hin⟩ := hv
    exact ⟨ph, hph, decide_eq_true hin⟩
  have hph := List.mem_of_find?_eq_some hfind
  have hin : ph.vaddr elf.loadOffset ≤ v ∧ v < ph.vaddr elf.loadOffset + ph.extent := by
    have := List.find?_some hfind
    exact of_decide_eq_true this
  obtain ⟨b, hb⟩ := (hload ph hph).byte_isSome (v - ph.vaddr elf.loadOffset)
  refine ⟨b, ?_, ?_⟩
  · rw [byteAt, hfind, Option.bind_some, hb]
  · have := hr.image_byte hload hph (i := v - ph.vaddr elf.loadOffset) (by omega)
    rwa [show ph.vaddr elf.loadOffset + (v - ph.vaddr elf.loadOffset) = v by omega, hb] at this

theorem ElfFile.Relocatable.canonical (hr : elf.Relocatable data info)
    (hload : ∀ ph ∈ elf.loads, ph.Loadable elf.loadOffset data) {v : Nat} (hv : elf.Inside v) : canonicalAddr v := by
  obtain ⟨ph, hph, i, hi, rfl⟩ := hv.index
  exact (hload ph hph).canonicalAddr (hr.tidy ph hph) hi

end Image

theorem canonicalAddr_lt {v : Nat} (h : canonicalAddr v) : v < 2 ^ 64 := by
  simp only [canonicalAddr, Bool.or_eq_true, Bool.and_eq_true, decide_eq_true_eq] at h
  omega

/-! ### The loop -/

/-- The relocations `rs` have been applied to the image: their words are there, and all other bytes are as before. -/
structure Patched (elf : ElfFile) (data : List UInt8) (rs : List Rela) (g : VMem) : Prop where
  done : ∀ r ∈ rs, r.Relative → ∀ j < 8, g ((r.target + j) % 2 ^ 48) = some (bytesLE r.value j)
  kept : ∀ v, elf.Inside v → (∀ r ∈ rs, r.Relative → ¬ r.Covers v) → g (v % 2 ^ 48) = elf.image data (v % 2 ^ 48)

/-- One relocation. -/
def VMem.patch (g : VMem) (r : Rela) : VMem := if r.Relative then g.storeBytes r.target (toBytes r.value) else g

namespace Patched

variable {elf : ElfFile} {data : List UInt8} {rs : List Rela} {g : VMem}

theorem start : Patched elf data [] (elf.image data) := ⟨nofun, fun _ _ _ => rfl⟩

/-- A relocation writes to its target only. -/
theorem step (hp : Patched elf data rs g) (hcan : ∀ v, elf.Inside v → canonicalAddr v) {r : Rela}
    (hin : ∀ r' ∈ rs ++ [r], r'.Relative → ∀ j < 8, elf.Inside (r'.target + j))
    (hapart : ∀ r' ∈ rs, r'.Relative → r.Relative → r'.Apart r) : Patched elf data (rs ++ [r]) (g.patch r) := by
  unfold VMem.patch
  split
  · rename_i hrel
    have htarget := hin r (by simp) hrel
    -- the bytes of the program outside of the target
    have hother : ∀ {v}, elf.Inside v → ¬ r.Covers v →
        g.storeBytes r.target (toBytes r.value) (v % 2 ^ 48) = g (v % 2 ^ 48) := by
      intro v hv hcov
      refine VMem.storeBytes_of_not_mem fun j hj he => hcov ?_
      rw [toBytes_length] at hj
      have := canonicalAddr_inj (hcan v hv) (hcan _ (htarget j hj)) he
      exact ⟨by omega, by omega⟩
    constructor
    · intro r' hr' hrel' j hj
      obtain hr' | hr' := List.mem_append.1 hr'
      · rw [hother (hin r' (by simp [hr']) hrel' j hj), hp.done r' hr' hrel' j hj]
        intro hcov
        have h1 := hapart r' hr' hrel' hrel
        have h2 := hcov.1
        have h3 := hcov.2
        unfold Rela.Apart at h1
        omega
      · obtain rfl := List.mem_singleton.1 hr'
        rw [VMem.storeBytes_of_mem (by rw [toBytes_length]; decide) (by rwa [toBytes_length]), toBytes_getElem? hj]
    · intro v hv hno
      rw [hother hv (hno r (by simp) hrel), hp.kept v hv fun r' hr' => hno r' (List.mem_append_left _ hr')]
  · rename_i hrel
    constructor
    · intro r' hr' hrel' j hj
      obtain hr' | hr' := List.mem_append.1 hr'
      · exact hp.done r' hr' hrel' j hj
      · obtain rfl := List.mem_singleton.1 hr'
        exact absurd hrel' hrel
    · intro v hv hno
      exact hp.kept v hv fun r' hr' => hno r' (List.mem_append_left _ hr')

end Patched

section Loop

variable {elf : ElfFile} {data : List UInt8} {info : RelaInfo} {g : VMem} {n : Nat}

/-- The first `n` entries. -/
def ElfFile.firstRelas (elf : ElfFile) (data : List UInt8) (info : RelaInfo) (n : Nat) : List Rela :=
  (List.range n).map (elf.rela data info)

theorem ElfFile.firstRelas_succ :
    elf.firstRelas data info (n + 1) = elf.firstRelas data info n ++ [elf.rela data info n] := by
  rw [firstRelas, List.range_succ, List.map_append]
  rfl

theorem ElfFile.rela_mem (hn : n < info.size / 24) : elf.rela data info n ∈ elf.relas data info :=
  List.mem_map_of_mem (List.mem_range.2 hn)

theorem ElfFile.mem_relas_of_first (hn : n ≤ info.size / 24) {r : Rela} (hr : r ∈ elf.firstRelas data info n) :
    r ∈ elf.relas data info := by
  obtain ⟨k, hk, rfl⟩ := List.mem_map.1 hr
  exact rela_mem (Nat.lt_of_lt_of_le (List.mem_range.1 hk) hn)

namespace ElfFile.Relocatable

variable (hr : elf.Relocatable data info) (hload : ∀ ph ∈ elf.loads, ph.Loadable elf.loadOffset data)
include hr

/-- The bytes of an entry lie in the table. -/
theorem entry_lt (hn : n < info.size / 24) {t : Nat} (ht : t < 24) : n * 24 + t < info.size := by
  have := hr.size
  omega

theorem entry_inside (hn : n < info.size / 24) {t : Nat} (ht : t < 24) : elf.Inside (elf.relaVa info n + t) := by
  have := hr.table _ (hr.entry_lt hn ht)
  rwa [← Nat.add_assoc] at this

include hload

/-- An entry that is read later is still the one in the image. -/
theorem entry_byte (hp : Patched elf data (elf.firstRelas data info n) g) (hn : n < info.size / 24) {t : Nat}
    (ht : t < 24) :
    g ((elf.relaVa info n + t) % 2 ^ 48) = some ((elf.byteAt data (elf.relaVa info n + t)).getD 0) := by
  have hin := hr.entry_inside hn ht
  obtain ⟨b, hb, himage⟩ := hr.image_eq hload hin
  rw [hp.kept _ hin, himage, hb, Option.getD_some]
  intro r hmem hrel
  have := hr.offTable r (mem_relas_of_first (Nat.le_of_lt hn) hmem) hrel _ (hr.entry_lt hn ht)
  rwa [← Nat.add_assoc] at this

/-- The word at `8 * w` of an entry. -/
theorem entry_word (hp : Patched elf data (elf.firstRelas data info n) g) (hn : n < info.size / 24) {t : Nat}
    (ht : t + 8 ≤ 24) : ∃ l, g.loadBytes (elf.relaVa info n + t) 8 = some l ∧
      fromBytes l = elf.wordAt data (elf.relaVa info n + t) := by
  refine ⟨_, VMem.loadBytes_eq fun j hj => ?_, rfl⟩
  have := hr.entry_byte hload hp hn (t := t + j) (by omega)
  rwa [← Nat.add_assoc] at this

theorem entryVa_eq (hn : n < info.size / 24) : info.entryVa elf.loadOffset n = elf.relaVa info n ∧
    elf.relaVa info n + 24 ≤ 2 ^ 64 := by
  have hlast := canonicalAddr_lt (hr.canonical hload (hr.entry_inside hn (t := 23) (by decide)))
  refine ⟨?_, by omega⟩
  rw [RelaInfo.entryVa, hr.ent, Nat.mod_eq_of_lt]
  · rfl
  · rw [relaVa] at hlast
    omega

/-- The target of a relocation lies on pages of the program and does not wrap around. -/
theorem target_inside {r : Rela} (hmem : r ∈ elf.relas data info) (hrel : r.Relative) :
    r.target < 2 ^ 64 ∧ ∀ k < 8, pageNo (r.target + k) ∈ elf.loadPages := by
  have htarget := hr.targets r hmem hrel
  refine ⟨canonicalAddr_lt (hr.canonical hload (htarget 0 (by decide))), fun k hk => ?_⟩
  obtain ⟨ph, hph, i, hi, he⟩ := (htarget k hk).index
  refine List.mem_flatMap.2 ⟨ph, hph, ?_⟩
  rw [he, pageNo_eq]
  exact (hr.tidy ph hph).page_mem hi

/-- The three words of an entry as they are read. -/
theorem entry_read (hp : Patched elf data (elf.firstRelas data info n) g) (hn : n < info.size / 24) :
    ∃ l1 l2 l3, g.loadBytes (info.entryVa elf.loadOffset n) 8 = some l1 ∧
      g.loadBytes ((info.entryVa elf.loadOffset n + 8) % 2 ^ 64) 8 = some l2 ∧
      g.loadBytes ((info.entryVa elf.loadOffset n + 16) % 2 ^ 64) 8 = some l3 ∧
      elf.rela data info n = ⟨fromBytes l1, fromBytes l2, fromBytes l3⟩ := by
  obtain ⟨hva, hlt⟩ := hr.entryVa_eq hload hn
  obtain ⟨l1, h1, e1⟩ := hr.entry_word hload hp hn (t := 0) (by decide)
  obtain ⟨l2, h2, e2⟩ := hr.entry_word hload hp hn (t := 8) (by decide)
  obtain ⟨l3, h3, e3⟩ := hr.entry_word hload hp hn (t := 16) (by decide)
  refine ⟨l1, l2, l3, ?_, ?_, ?_, ?_⟩
  · rw [hva]
    exact h1
  · rw [hva, Nat.mod_eq_of_lt (by omega), h2]
  · rw [hva, Nat.mod_eq_of_lt (by omega), h3]
  · rw [rela, e1, e2, e3]
    rfl

/-- One turn of the loop. -/
theorem relocate_eq (hp : Patched elf data (elf.firstRelas data info n) g) (hn : n < info.size / 24) :
    g.relocate elf.loadPages info elf.loadOffset n = some (g.patch (elf.rela data info n)) := by
  obtain ⟨l1, l2, l3, h1, h2, h3, hrela⟩ := hr.entry_read hload hp hn
  have hmem : elf.rela data info n ∈ elf.relas data info := rela_mem hn
  have hoff := hr.loadOffset_eq
  rw [hrela] at hmem ⊢
  unfold VMem.relocate VMem.patch
  rw [h1, h2, h3]
  simp only [Option.bind_eq_bind, Option.bind_some]
  by_cases hrel : fromBytes l2 % 2 ^ 32 = 8
  · obtain ⟨hlt, hpages⟩ := hr.target_inside hload hmem hrel
    have hmod :
      (fromBytes l1 + elf.loadOffset) % 2 ^ 64 = Rela.target ⟨fromBytes l1, fromBytes l2, fromBytes l3⟩ := by
      rw [hoff]
      exact Nat.mod_eq_of_lt hlt
    have hrel' : Rela.Relative ⟨fromBytes l1, fromBytes l2, fromBytes l3⟩ := hrel
    rw [if_pos hrel, if_pos hrel', hmod, if_pos hpages, hoff]
    rfl
  · have hrel' : ¬ Rela.Relative ⟨fromBytes l1, fromBytes l2, fromBytes l3⟩ := hrel
    rw [if_neg hrel, if_neg hrel']

theorem patched_succ (hp : Patched elf data (elf.firstRelas data info n) g) (hn : n < info.size / 24) :
    Patched elf data (elf.firstRelas data info (n + 1)) (g.patch (elf.rela data info n)) := by
  rw [firstRelas_succ]
  refine hp.step (fun v => hr.canonical hload) (fun r' hr' => ?_) fun r' hr' => ?_
  · rw [← firstRelas_succ] at hr'
    exact hr.targets r' (mem_relas_of_first hn hr')
  · -- the entry comes after those of `rs` in the table
    have hsub : (elf.firstRelas data info (n + 1)).Sublist (elf.relas data info) :=
      (List.range_sublist.2 hn).map _
    have hpair := hr.apart.sublist hsub
    rw [firstRelas_succ] at hpair
    exact (List.pairwise_append.1 hpair).2.2 r' hr' _ (by simp)

/-- The loop over the first `n` entries. -/
theorem foldlM_eq (hn : n ≤ info.size / 24) : ∃ g,
    (List.range n).foldlM (VMem.relocate elf.loadPages info elf.loadOffset) (elf.image data) = some g ∧
      Patched elf data (elf.firstRelas data info n) g := by
  induction n with
  | zero => exact ⟨_, rfl, Patched.start⟩
  | succ n ih =>
    obtain ⟨g, hg, hp⟩ := ih (Nat.le_of_lt hn)
    refine ⟨_, ?_, hr.patched_succ hload hp hn⟩
    rw [List.range_succ, List.foldlM_append, hg, Option.bind_eq_bind, Option.bind_some, List.foldlM_cons,
      hr.relocate_eq hload hp hn]
    rfl

theorem relocated_eq : ∃ g, elf.relocated data = some g ∧ Patched elf data (elf.relas data info) g := by
  have hne : elf.loadOffset ≠ 0 := by
    rw [hr.loadOffset_eq]
    decide
  obtain ⟨g, hg, hp⟩ := hr.foldlM_eq hload (Nat.le_refl (info.size / 24))
  refine ⟨g, ?_, hp⟩
  unfold ElfFile.relocated
  rw [if_neg hne, hr.dynamic]
  dsimp only
  split
  · -- an empty table
    rename_i hz
    rw [hz.resolve_left hr.va] at hg
    exact hg
  · rw [if_neg (by rw [hr.ent]; decide), hr.ent]
    exact hg

theorem sane : elf.Sane data := by
  refine ⟨fun ph hph => (hr.tidy ph hph).sane, fun l ph r hl i hi => ?_, Or.inr fun info' hinfo => ?_⟩
  · exact List.mem_flatMap.2 ⟨ph, by simp, (hr.tidy ph (hl ▸ by simp)).own i hi⟩
  · rw [hr.dynamic, Option.some.injEq] at hinfo
    obtain ⟨g, hg, -⟩ := hr.foldlM_eq hload (Nat.le_refl (info.size / 24))
    rw [← hinfo, hr.ent, hg]
    exact Or.inr (Or.inr (Or.inr rfl))

/-- If the table and the targets are aligned, then no relocation overflows or faults. -/
theorem relocationsSafe (hva : 8 ∣ info.va) (htargets : ∀ r ∈ elf.relas data info, r.Relative → 8 ∣ r.offset) :
    elf.RelocationsSafe data := by
  refine Or.inr ⟨info, hr.dynamic, Or.inr (Or.inr ⟨by rw [hr.ent]; decide, fun i hi gi hgi => ?_⟩)⟩
  rw [hr.ent] at hi
  obtain ⟨g, hg, hp⟩ := hr.foldlM_eq hload (Nat.le_of_lt hi)
  obtain rfl : g = gi := Option.some.inj (hg.symm.trans hgi)
  obtain ⟨-, hlt⟩ := hr.entryVa_eq hload hi
  have hoffset : 8 ∣ elf.loadOffset := by
    rw [hr.loadOffset_eq]
    decide
  have hbase : info.va + elf.loadOffset + i * info.ent = elf.relaVa info i := by rw [hr.ent, relaVa]
  refine ⟨by omega, ?_, fun t ht => ?_, fun rOffset rInfo h1 h2 hrel => ?_⟩
  · rw [hr.ent]
    omega
  · rw [hbase, Nat.mod_eq_of_lt (by omega)]
    exact hr.canonical hload (hr.entry_inside hi ht)
  · obtain ⟨l1, l2, l3, h1', h2', -, hrela⟩ := hr.entry_read hload hp hi
    obtain rfl : l1 = rOffset := Option.some.inj (h1'.symm.trans h1)
    obtain rfl : l2 = rInfo := Option.some.inj (h2'.symm.trans h2)
    have hmem : elf.rela data info i ∈ elf.relas data info := rela_mem hi
    rw [hrela] at hmem
    obtain ⟨hlt, -⟩ := hr.target_inside hload hmem hrel
    have h8 : 8 ∣ fromBytes l1 := htargets _ hmem hrel
    refine ⟨by rwa [hr.loadOffset_eq], by omega, ?_⟩
    rw [hr.loadOffset_eq]
    intro j hj
    have hcan := hr.canonical hload (hr.targets _ hmem hrel j hj)
    have heq := Nat.mod_eq_of_lt (canonicalAddr_lt hcan)
    rw [← heq] at hcan
    exact hcan

end ElfFile.Relocatable

end Loop

/-! ### Loading -/

/-- The word at the address `v`. -/
def Machine.readWord (s : Machine) (v : Nat) : Option Nat :=
  ((List.range 8).mapM fun j => s.readByte (v + j)).map fromBytes

section Load

variable {checks : Bool} {parse : List UInt8 → Option ElfFile} {s s' t t' : Machine} {data data' : List UInt8}
  {elf : ElfFile} {info : RelaInfo} {entry entry' : Nat}

/-- Once `load` has returned, the segments have been loaded. -/
theorem ElfFile.Relocatable.loadable (hr : elf.Relocatable data info) (hparse : parse data = some elf)
    (h : TableInv s)
    (hok : exec (load checks parse data) s = (.ok entry, s')) :
    ∀ ph ∈ elf.loads, ph.Loadable elf.loadOffset data := by
  have hspec : Spec (load checks parse data) s (fun _ _ => ∀ ph ∈ elf.loads, ph.Loadable elf.loadOffset data)
      (fun _ _ => True) := by
    unfold load
    simp only [hparse]
    refine wrapU64_bind (fun _ => trivial) fun _ => ?_
    refine Spec.bind ((loadList_spec (P := fun _ => True) h (fun ph hph => (hr.tidy ph hph).sane) ?_
      fun _ _ => trivial).mono ?_ fun _ _ _ => trivial)
    · intro l ph r hl i hi
      exact List.mem_flatMap.2 ⟨ph, by simp, (hr.tidy ph (hl ▸ by simp)).own i hi⟩
    · intro _ s₁ hpost
      exact Spec.intro (fun _ _ _ => hpost.2.2) fun _ _ _ => trivial
  exact hspec.of_ok hok

/-- After `load` the relocations have been applied to the segment image. -/
theorem ElfFile.Relocatable.held (hr : elf.Relocatable data info) (hparse : parse data = some elf) (h : TableInv s)
    (hok : exec (load checks parse data) s = (.ok entry, s')) :
    ∃ g, Patched elf data (elf.relas data info) g ∧ Held (fun _ => True) (· ∈ elf.loadPages) s s' g := by
  have hload := hr.loadable hparse h hok
  have hspec := @load_spec checks parse (fun _ => True) s data elf hparse h (hr.sane hload) fun _ _ => trivial
  obtain ⟨⟨g, hg, held⟩, -⟩ := hspec.of_ok hok
  obtain ⟨g', hg', hp⟩ := hr.relocated_eq hload
  rw [hg, Option.some.injEq] at hg'
  exact ⟨g, hg' ▸ hp, held⟩

/-- With enough frames such a program is loaded, if its table and its targets are aligned. -/
theorem ElfFile.Relocatable.returns (hr : elf.Relocatable data info) (hparse : parse data = some elf) (h : TableInv s)
    (hload : ∀ ph ∈ elf.loads, ph.Loadable elf.loadOffset data) (hentry : elf.entryPoint + elf.loadOffset < 2 ^ 64)
    (hva : 8 ∣ info.va) (htargets : ∀ r ∈ elf.relas data info, r.Relative → 8 ∣ r.offset)
    (hn : 5 * elf.loadPages.length ≤ s.alloc.freeFrames) :
    ∃ entry s', exec (load checks parse data) s = (.ok entry, s') := by
  have hspec := @load_spec checks parse (fun _ => True) s data elf hparse h (hr.sane hload) fun _ _ => trivial
  rcases hx : exec (load checks parse data) s with ⟨e | entry, s'⟩
  · obtain ⟨-, hhalt, hfew⟩ := hspec.of_error hx
    by_cases he : e = .halt
    · exact absurd ⟨hentry, hload, hr.relocationsSafe hload hva htargets⟩ (hhalt he)
    · have := (hfew he).2
      omega
  · exact ⟨entry, s', rfl⟩

/-- Every target holds its word, byte by byte. -/
theorem ElfFile.Relocatable.readByte_target (hr : elf.Relocatable data info) (hparse : parse data = some elf)
    (h : TableInv s) (hok : exec (load checks parse data) s = (.ok entry, s')) {r : Rela}
    (hmem : r ∈ elf.relas data info) (hrel : r.Relative) {j : Nat} (hj : j < 8) :
    s'.readByte (r.target + j) = some (bytesLE r.value j) := by
  obtain ⟨g, hp, held⟩ := hr.held hparse h hok
  exact held.readByte_written (hp.done r hmem hrel j hj)

/-- Every other byte is that of the segment image. -/
theorem ElfFile.Relocatable.readByte_other (hr : elf.Relocatable data info) (hparse : parse data = some elf)
    (h : TableInv s) (hok : exec (load checks parse data) s = (.ok entry, s')) {v : Nat} (hv : elf.Inside v)
    (hno : ∀ r ∈ elf.relas data info, r.Relative → ¬ r.Covers v) : s'.readByte v = elf.byteAt data v := by
  obtain ⟨g, hp, held⟩ := hr.held hparse h hok
  obtain ⟨b, hb, himage⟩ := hr.image_eq (hr.loadable hparse h hok) hv
  rw [hb]
  exact held.readByte_written ((hp.kept v hv hno).trans himage)

theorem Machine.readWord_eq {v n : Nat} (hn : n < 2 ^ 64) (h : ∀ j < 8, s.readByte (v + j) = some (bytesLE n j)) :
    s.readWord v = some n := by
  have key : ∀ l : List Nat, (∀ j ∈ l, j < 8) → l.mapM (fun j => s.readByte (v + j)) = some (l.map (bytesLE n)) := by
    intro l
    induction l with
    | nil => exact fun _ => rfl
    | cons j l ih =>
      intro hl
      rw [List.forall_mem_cons] at hl
      rw [List.mapM_cons, h j hl.1, ih hl.2]
      rfl
  rw [readWord, key (List.range 8) fun j hj => List.mem_range.1 hj, Option.map_some, ← toBytes, fromBytes_toBytes hn]

/-- After `load` returns, every relative relocation has been applied, every other byte of a segment is as in the file,
and a file with the same relocations in another order gives the same memory outside the table. -/
theorem relocation_exact (hparse : parse data = some elf) (h : TableInv s) (hr : elf.Relocatable data info)
    (hok : exec (load checks parse data) s = (.ok entry, s')) :
    (∀ r ∈ elf.relas data info, r.Relative → s'.readWord r.target = some r.value) ∧
    (∀ ph ∈ elf.loads, ∀ i < ph.extent,
      (∀ r ∈ elf.relas data info, r.Relative → ¬ r.Covers (ph.vaddr elf.loadOffset + i)) →
      s'.readByte (ph.vaddr elf.loadOffset + i) = ph.byte data i) ∧
    ∀ data' t t' entry', parse data' = some elf → TableInv t → elf.Relocatable data' info →
      exec (load checks parse data') t = (.ok entry', t') → (elf.relas data' info).Perm (elf.relas data info) →
      (∀ v, elf.Inside v → (∀ k < info.size, v ≠ info.va + elf.loadOffset + k) →
      elf.byteAt data' v = elf.byteAt data v) →
      ∀ v, elf.Inside v → (∀ k < info.size, v ≠ info.va + elf.loadOffset + k) → t'.readByte v = s'.readByte v := by
  have hload := hr.loadable hparse h hok
  refine ⟨fun r hmem hrel => ?_, fun ph hph i hi hno => ?_, ?_⟩
  · refine Machine.readWord_eq (Nat.mod_lt _ (by decide)) fun j hj => ?_
    exact hr.readByte_target hparse h hok hmem hrel hj
  · have hin : elf.Inside (ph.vaddr elf.loadOffset + i) := ⟨ph, hph, by omega, by omega⟩
    obtain ⟨b, hb, himage⟩ := hr.image_eq hload hin
    rw [hr.readByte_other hparse h hok hin hno, hb, ← himage, hr.image_byte hload hph hi]
  · intro data' t t' entry' hparse' ht hr' hok' hperm hsame v hv hoff
    by_cases hcov : ∃ r ∈ elf.relas data info, r.Relative ∧ r.Covers v
    · obtain ⟨r, hmem, hrel, h1, h2⟩ := hcov
      have hleft := hr.readByte_target hparse h hok hmem hrel (j := v - r.target) (by omega)
      have hright := hr'.readByte_target hparse' ht hok' (hperm.mem_iff.2 hmem) hrel (j := v - r.target) (by omega)
      rw [show r.target + (v - r.target) = v by omega] at hleft hright
      rw [hleft, hright]
    · have hno : ∀ r ∈ elf.relas data info, r.Relative → ¬ r.Covers v :=
        fun r hmem hrel hc => hcov ⟨r, hmem, hrel, hc⟩
      rw [hr.readByte_other hparse h hok hv hno,
        hr'.readByte_other hparse' ht hok' hv fun r hmem => hno r (hperm.mem_iff.1 hmem), hsame v hv hoff]

end Load

/-! ### A small program -/

/-- One segment with the headers, the dynamic section, one relocation and the word that it patches. -/
def smallPie : ElfFile := ⟨0x40, [⟨.load, 0, 272, 272, 0, true, true⟩, ⟨.dynamic, 176, 64, 64, 176, true, false⟩]⟩

def smallPieInfo : RelaInfo := ⟨240, 24, 24⟩

def smallPieFile : List UInt8 :=
  smallPie.encode ++ toBytes 7 ++ toBytes 240 ++ toBytes 8 ++ toBytes 24 ++ toBytes 9 ++ toBytes 24 ++ toBytes 0 ++
    toBytes 0 ++ toBytes 264 ++ toBytes 8 ++ toBytes 0x40 ++ toBytes 0

private theorem smallPie_relas : smallPie.relas smallPieFile smallPieInfo = [⟨264, 8, 0x40⟩] := by
  decide +kernel

private theorem smallPie_inside {v : Nat} (h1 : userBase ≤ v) (h2 : v < userBase + 272) : smallPie.Inside v :=
  ⟨⟨.load, 0, 272, 272, 0, true, true⟩, List.mem_singleton.2 rfl, h1, h2⟩

private theorem smallPie_relocatable : smallPie.Relocatable smallPieFile smallPieInfo := by
  constructor
  case pie => decide
  case tidy =>
    intro ph hph
    rw [List.mem_singleton.1 hph]
    exact .of_le (by decide) (by decide)
  case pages => exact List.pairwise_singleton _ _
  case dynamic => decide +kernel
  case va => decide
  case size => decide
  case ent => rfl
  case table =>
    intro k hk
    have hk : k < 24 := hk
    exact smallPie_inside (by show userBase ≤ 240 + userBase + k; omega)
      (by show 240 + userBase + k < userBase + 272; omega)
  case targets =>
    intro r hr _ j hj
    rw [smallPie_relas, List.mem_singleton] at hr
    subst hr
    exact smallPie_inside (by show userBase ≤ 264 + userBase + j; omega)
      (by show 264 + userBase + j < userBase + 272; omega)
  case apart =>
    rw [smallPie_relas]
    exact List.pairwise_singleton _ _
  case offTable =>
    intro r hr _ k hk hc
    rw [smallPie_relas, List.mem_singleton] at hr
    subst hr
    have hk : k < 24 := hk
    have h1 : 264 + userBase ≤ 240 + userBase + k := hc.1
    omega

private theorem smallPie_loadable : ∀ ph ∈ smallPie.loads, ph.Loadable smallPie.loadOffset smallPieFile := by
  have hlen : smallPieFile.length = 272 := by decide +kernel
  intro ph hph
  rw [List.mem_singleton.1 hph]
  exact ProgramHeader.Readable.loadable ⟨by decide, by rw [hlen]; decide, by rw [hlen]; decide⟩

private theorem smallPie_loads : ∃ entry s',
    exec (load true (smallPie.parseOnly smallPieFile) smallPieFile) smallMachine = (.ok entry, s') :=
  smallPie_relocatable.returns (ElfFile.parseOnly_self _ _) small_inv smallPie_loadable (by decide) (by decide)
    (by rw [smallPie_relas]; decide) (by rw [small_frames]; decide)

/-- The word at `0x108` is relocated. -/
theorem relocation_exact_smallPie : ∃ entry s',
    exec (load true (smallPie.parseOnly smallPieFile) smallPieFile) smallMachine = (.ok entry, s') ∧
      s'.readWord 0x10000108 = some 0x10000040 := by
  obtain ⟨entry, s', hok⟩ := smallPie_loads
  refine ⟨entry, s', hok, ?_⟩
  have hwords := (relocation_exact (ElfFile.parseOnly_self _ _) small_inv smallPie_relocatable hok).1
  exact hwords ⟨264, 8, 0x40⟩ (by rw [smallPie_relas]; exact List.mem_singleton.2 rfl) rfl

end Hammam
