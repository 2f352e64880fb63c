import Mathlib.Tactic.Ring
import Hammam.Vfs.Newc

/-!
# Reading back a written archive

The writer pads relative to its buffer, the reader relative to the start of the archive.  Every entry starts at a
multiple of four, so that both put the data and the next entry at the same place.  What the writer appends is a member
of the format (`isMember_entryBytes`), and what it makes of a list of files is an archive (`isArchive_archive`).
-/

namespace Hammam

open UserspaceBlob Initramfs Newc

/-! ### Numbers -/

/-- The nibbles of a number, from the left. -/
private def nibbles (n v : Nat) : List (Bool × Fin 16) :=
  (List.range n).map fun i => (false, Fin.ofNat 16 (v / 16 ^ (n - 1 - i)))

private theorem nibbles_succ (n v : Nat) : nibbles (n + 1) v = nibbles n (v / 16) ++ [(false, Fin.ofNat 16 v)] := by
  unfold nibbles
  rw [List.range_succ, List.map_append]
  congr 1
  · refine List.map_congr_left fun i hi => ?_
    have hi := List.mem_range.1 hi
    rw [Nat.div_div_eq_div_mul, ← Nat.pow_succ', show (n - 1 - i).succ = n + 1 - 1 - i by omega]
  · simp

private theorem number_nibbles (n v : Nat) : number (nibbles n v) = v % 16 ^ n := by
  induction n generalizing v with
  | zero => simp [nibbles, number, Nat.mod_one]
  | succ n ih =>
    have hfold : number (nibbles n (v / 16) ++ [(false, Fin.ofNat 16 v)]) =
        number (nibbles n (v / 16)) * 16 + v % 16 := by
      unfold number
      rw [List.foldl_append]
      rfl
    rw [nibbles_succ, hfold, ih, Nat.pow_succ', Nat.mod_mul]
    ring

private theorem hexDigit_eq (n : Nat) : hexDigit n = digit false n := by
  unfold hexDigit digit
  split
  · rfl
  · rw [if_neg (by decide), show 97 + n - 10 = 87 + n by omega]

/-- The writer's `hex8` writes a field of a header. -/
theorem isField_hex8 {v : Nat} (h : v < 2 ^ 32) : IsField (UserspaceBlob.hex8 v) v := by
  refine ⟨nibbles 8 v, by simp [nibbles], ?_, ?_⟩
  · unfold UserspaceBlob.hex8 nibbles
    rw [List.map_map]
    refine List.map_congr_left fun i hi => ?_
    rw [Function.comp, hexDigit_eq, Nat.shiftRight_eq_div_pow, Nat.pow_mul, show (2 : Nat) ^ 4 = 16 from rfl,
      show (0xF : Nat) = 2 ^ 4 - 1 from rfl, Nat.and_two_pow_sub_one_eq_mod]
    rfl
  · rw [number_nibbles, show 16 ^ 8 = 2 ^ 32 from rfl, Nat.mod_eq_of_lt h]

@[simp] theorem length_hex8 (v : Nat) : (UserspaceBlob.hex8 v).length = 8 := by
  simp [UserspaceBlob.hex8]

/-! ### One entry -/

/-- The bytes of an entry that starts at a multiple of four. -/
def entryBytes (name data : List UInt8) : List UInt8 :=
  encodeUtf8 "070701".toList ++ (encodeUtf8 "00000000".toList ++ (encodeUtf8 "000081a4".toList ++
    (encodeUtf8 "00000000000000000000000100000000".toList ++ (UserspaceBlob.hex8 data.length ++
    (encodeUtf8 "00000000000000000000000000000000".toList ++ (UserspaceBlob.hex8 (name.length + 1) ++
    (encodeUtf8 "00000000".toList ++ (name ++ ([0] ++ (pad (111 + name.length) ++ (data ++ pad data.length)))))))))))

private theorem length_fields :
    (encodeUtf8 "070701".toList).length = 6 ∧ (encodeUtf8 "00000000".toList).length = 8 ∧
      (encodeUtf8 "000081a4".toList).length = 8 ∧
      (encodeUtf8 "00000000000000000000000100000000".toList).length = 32 ∧
      (encodeUtf8 "00000000000000000000000000000000".toList).length = 32 := by
  decide

theorem length_entryBytes (name data : List UInt8) :
    (entryBytes name data).length = Initramfs.align4 (111 + name.length) + Initramfs.align4 data.length := by
  obtain ⟨h6, h8, hm, hb, hz⟩ := length_fields
  rw [← add_length_pad, ← add_length_pad]
  simp only [entryBytes, List.length_append, h6, h8, hm, hb, hz, length_hex8, List.length_singleton]
  -- the lengths of the literals are in the goal; as hypotheses they only slow the arithmetic down
  clear h6 h8 hm hb hz
  generalize (pad (111 + name.length)).length = i
  generalize (pad data.length).length = j
  omega

theorem appendCpioEntry_eq {cpio : List UInt8} (name data : List UInt8) (h : cpio.length % 4 = 0) :
    appendCpioEntry cpio name data = cpio ++ entryBytes name data := by
  obtain ⟨h6, h8, hm, hb, hz⟩ := length_fields
  have h14 : encodeUtf8 "07070100000000".toList = encodeUtf8 "070701".toList ++ encodeUtf8 "00000000".toList := by
    decide
  have hpad : ∀ {m n : Nat}, m % 4 = n % 4 → List.replicate ((4 - m % 4) % 4) (0 : UInt8) = pad n := by
    intro m n e
    rw [pad, e]
  simp only [appendCpioEntry, UserspaceBlob.align4, h14, entryBytes, List.append_assoc]
  simp only [List.length_append, List.length_replicate, List.length_singleton, h6, h8, hm, hb, hz, length_hex8]
  clear h6 h8 hm hb hz h14
  rw [hpad (n := 111 + name.length) (by omega), hpad (n := data.length) (by omega)]

/-- The member of a file as the writer makes it. -/
def fileMember (f : Str × List UInt8) : Member := ⟨f.1, 0x81A4, f.2⟩

theorem entry_fileMember (f : Str × List UInt8) : (fileMember f).entry = ⟨.regular, f.2, []⟩ := by
  have hmode : ¬ (fileMember f).mode &&& 0xF000 = 0x4000 := by
    show ¬ 0x81A4 &&& 0xF000 = 0x4000
    decide
  rw [Member.entry, if_neg hmode]
  rfl

/-- What the writer appends is a member. -/
theorem isMember_entryBytes {f : Str × List UInt8} (hn : (encodeUtf8 f.1).length < 2 ^ 32 - 1)
    (hd : f.2.length < 2 ^ 32) : IsMember (fileMember f) (entryBytes (encodeUtf8 f.1) f.2) := by
  have hzero : IsField (encodeUtf8 "00000000".toList) 0 := ⟨List.replicate 8 (false, 0), by decide⟩
  have hone : IsField (encodeUtf8 "00000001".toList) 1 := ⟨List.replicate 7 (false, 0) ++ [(false, 1)], by decide⟩
  have hmode : IsField (encodeUtf8 "000081a4".toList) 0x81A4 :=
    ⟨List.replicate 4 (false, 0) ++ [(false, 8), (false, 1), (false, 10), (false, 4)], by decide⟩
  have hsize := isField_hex8 hd
  have hname := @isField_hex8 ((encodeUtf8 f.1).length + 1) (by omega)
  let E := encodeUtf8 "00000000".toList
  have hids : encodeUtf8 "00000000000000000000000100000000".toList =
      E ++ (E ++ (encodeUtf8 "00000001".toList ++ E)) := by decide
  have hdevs : encodeUtf8 "00000000000000000000000000000000".toList = E ++ (E ++ (E ++ E)) := by decide
  refine ⟨⟨0, 0x81A4, 0, 0, 1, 0, f.2.length, 0, 0, 0, 0, (encodeUtf8 f.1).length + 1, 0⟩,
    [E, encodeUtf8 "000081a4".toList, E, E, encodeUtf8 "00000001".toList, E, UserspaceBlob.hex8 f.2.length, E, E, E,
    E, UserspaceBlob.hex8 ((encodeUtf8 f.1).length + 1), E], ?_, rfl, rfl, rfl, ?_⟩
  · simp only [Header.values, List.forall₂_cons, List.forall₂_nil_left_iff]
    exact ⟨hzero, hmode, hzero, hzero, hone, hzero, hsize, hzero, hzero, hzero, hzero, hname, hzero, trivial⟩
  · rw [entryBytes, hids, hdevs]
    simp only [List.flatten_cons, List.flatten_nil, List.append_assoc, List.nil_append, E, fileMember]

/-! ### The whole archive -/

/-- The entry map with the files of an archive inserted in order. -/
def insertFiles (files : List (Str × List UInt8)) (entries : SortedMap Str InitEntry) : SortedMap Str InitEntry :=
  files.foldl (fun m f => m.insert f.1 ⟨.regular, f.2, []⟩) entries

theorem length_entryBytes_mod (name data : List UInt8) : (entryBytes name data).length % 4 = 0 := by
  have h1 := align4_mod (111 + name.length)
  have h2 := align4_mod data.length
  rw [length_entryBytes]
  omega

private theorem foldl_appendCpioEntry (files : List (Str × List UInt8)) {cpio : List UInt8}
    (h : cpio.length % 4 = 0) :
    appendCpioTrailer ((files.map fun f => (encodeUtf8 f.1, f.2)).foldl (fun c f => appendCpioEntry c f.1 f.2) cpio) =
      cpio ++ (files.flatMap (fun f => entryBytes (encodeUtf8 f.1) f.2) ++ entryBytes (encodeUtf8 trailer) []) := by
  induction files generalizing cpio with
  | nil => exact appendCpioEntry_eq _ _ h
  | cons f files ih =>
    have hlen : (cpio ++ entryBytes (encodeUtf8 f.1) f.2).length % 4 = 0 := by
      have := length_entryBytes_mod (encodeUtf8 f.1) f.2
      rw [List.length_append]
      omega
    rw [List.map_cons, List.foldl_cons, appendCpioEntry_eq _ _ h, ih hlen]
    simp only [List.flatMap_cons, List.append_assoc]

/-- The bytes of an archive. -/
theorem archive_eq (files : List (Str × List UInt8)) :
    archive (files.map fun f => (encodeUtf8 f.1, f.2)) =
      files.flatMap (fun f => entryBytes (encodeUtf8 f.1) f.2) ++ entryBytes (encodeUtf8 trailer) [] :=
  foldl_appendCpioEntry files rfl

theorem isArchive_entryBytes {files : List (Str × List UInt8)}
    (hf : ∀ f ∈ files, (encodeUtf8 f.1).length < 2 ^ 32 - 1 ∧ f.2.length < 2 ^ 32 ∧ f.1 ≠ trailer) :
    IsArchive (files.map fileMember)
      (files.flatMap (fun f => entryBytes (encodeUtf8 f.1) f.2) ++ entryBytes (encodeUtf8 trailer) []) := by
  induction files with
  | nil =>
    have := IsArchive.trailer [] (@isMember_entryBytes (trailer, []) (by decide) (by decide)) rfl
    rwa [List.append_nil] at this
  | cons f files ih =>
    obtain ⟨hn, hd, ht⟩ := hf f (by simp)
    rw [List.map_cons, List.flatMap_cons, List.append_assoc]
    exact .member (isMember_entryBytes hn hd) ht (ih fun g hg => hf g (List.mem_cons_of_mem _ hg))

/-- What the writer makes is an archive. -/
theorem isArchive_archive {files : List (Str × List UInt8)}
    (hf : ∀ f ∈ files, (encodeUtf8 f.1).length < 2 ^ 32 - 1 ∧ f.2.length < 2 ^ 32 ∧ f.1 ≠ trailer) :
    IsArchive (files.map fileMember) (archive (files.map fun f => (encodeUtf8 f.1, f.2))) := by
  rw [archive_eq]
  exact isArchive_entryBytes hf

theorem insertFiles_eq (files : List (Str × List UInt8)) (entries : SortedMap Str InitEntry) :
    insertFiles files entries = insertMembers (files.map fileMember) entries := by
  unfold insertMembers insertFiles
  rw [List.foldl_map]
  simp only [entry_fileMember]
  rfl

end Hammam
