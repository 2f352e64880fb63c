import Mathlib.Data.List.Forall2
import Hammam.Vfs.Initramfs

/-!
# The newc format

An archive is a sequence of members.  A member starts at a multiple of four; it has the magic number, thirteen
fields of eight hexadecimal digits, a name with a NUL behind it, and data, and the name and the data are padded.
What stands behind the trailer does not belong to the archive.  The reader finds the members one after another
(`parseLoop_newc`).
-/

namespace Hammam

open Initramfs

/-! ### The format -/

namespace Newc

/-- The bytes that bring a length to a multiple of four. -/
def pad (n : Nat) : List UInt8 := List.replicate ((4 - n % 4) % 4) 0

/-- A hexadecimal digit; the letters may be upper case. -/
def digit (upper : Bool) (n : Nat) : UInt8 := (if n < 10 then 48 + n else if upper then 55 + n else 87 + n).toUInt8

def addDigit (a : Nat) (d : Bool × Fin 16) : Nat := a * 16 + d.2.val

/-- The number that digits stand for. -/
def number (ds : List (Bool × Fin 16)) : Nat := ds.foldl addDigit 0

/-- A field of a header with its value. -/
def IsField (b : List UInt8) (v : Nat) : Prop :=
  ∃ ds : List (Bool × Fin 16), ds.length = 8 ∧ b = ds.map (fun d => digit d.1 d.2) ∧ v = number ds

/-- The numbers in a header. -/
structure Header where
  ino : Nat
  mode : Nat
  uid : Nat
  gid : Nat
  nlink : Nat
  mtime : Nat
  filesize : Nat
  devmajor : Nat
  devminor : Nat
  rdevmajor : Nat
  rdevminor : Nat
  namesize : Nat
  check : Nat

/-- The numbers in the order in which they stand. -/
def Header.values (h : Header) : List Nat :=
  [h.ino, h.mode, h.uid, h.gid, h.nlink, h.mtime, h.filesize, h.devmajor, h.devminor, h.rdevmajor, h.rdevminor,
    h.namesize, h.check]

/-- A file of an archive. -/
structure Member where
  name : Str
  mode : Nat
  data : List UInt8
  deriving DecidableEq, Repr

/-- The bytes of a member. -/
def IsMember (r : Member) (b : List UInt8) : Prop :=
  ∃ (h : Header) (fields : List (List UInt8)), List.Forall₂ IsField fields h.values ∧
    h.mode = r.mode ∧ h.filesize = r.data.length ∧ h.namesize = (encodeUtf8 r.name).length + 1 ∧
    b = encodeUtf8 "070701".toList ++ (fields.flatten ++ (encodeUtf8 r.name ++ ([0] ++
      (pad (111 + (encodeUtf8 r.name).length) ++ (r.data ++ pad r.data.length)))))

/-- The bytes of an archive. -/
inductive IsArchive : List Member → List UInt8 → Prop
  | trailer {r : Member} {b : List UInt8} (rest : List UInt8) :
    IsMember r b → r.name = trailer → IsArchive [] (b ++ rest)
  | member {r : Member} {rs : List Member} {b bs : List UInt8} :
    IsMember r b → r.name ≠ trailer → IsArchive rs bs → IsArchive (r :: rs) (b ++ bs)

end Newc

open Newc

/-! ### Numbers -/

theorem fromUtf8_encodeUtf8 (s : Str) : fromUtf8 (encodeUtf8 s) = some s := by
  have e : (encodeUtf8 s).toByteArray = s.utf8Encode := rfl
  rw [fromUtf8, e, List.utf8Decode?_utf8Encode]
  rfl

/-- The character of a digit. -/
private def digitChar (d : Bool × Fin 16) : Char :=
  Char.ofNat (if d.2.val < 10 then 48 + d.2 else if d.1 then 55 + d.2 else 87 + d.2)

private theorem digitChar_spec : ∀ (u : Bool) (n : Fin 16),
    String.utf8EncodeChar (digitChar (u, n)) = [digit u n] ∧ hexValue (digitChar (u, n)) = some n.val ∧
      digitChar (u, n) ≠ '+' := by
  decide

private theorem le_foldl_addDigit (ds : List (Bool × Fin 16)) (acc : Nat) : acc ≤ ds.foldl addDigit acc := by
  induction ds generalizing acc with
  | nil => exact Nat.le_refl _
  | cons d ds ih => exact le_trans (by unfold addDigit; omega) (ih (addDigit acc d))

private theorem foldl_addDigit_lt (ds : List (Bool × Fin 16)) (acc : Nat) :
    ds.foldl addDigit acc < (acc + 1) * 16 ^ ds.length := by
  induction ds generalizing acc with
  | nil => simp
  | cons d ds ih =>
    have hle : addDigit acc d + 1 ≤ (acc + 1) * 16 := by
      have hd := d.2.isLt
      unfold addDigit
      omega
    calc (d :: ds).foldl addDigit acc < (addDigit acc d + 1) * 16 ^ ds.length := ih _
      _ ≤ (acc + 1) * 16 * 16 ^ ds.length := Nat.mul_le_mul_right _ hle
      _ = (acc + 1) * 16 ^ (d :: ds).length := by rw [List.length_cons, Nat.pow_succ', Nat.mul_assoc]

private theorem hexDigits_map {ds : List (Bool × Fin 16)} {acc : Nat} (h : ds.foldl addDigit acc < 2 ^ 32) :
    hexDigits acc (ds.map digitChar) = some (ds.foldl addDigit acc) := by
  induction ds generalizing acc with
  | nil => rfl
  | cons d ds ih =>
    have hlt : acc * 16 + d.2.val < 2 ^ 32 := lt_of_le_of_lt (le_foldl_addDigit ds (addDigit acc d)) h
    rw [List.map_cons, hexDigits, (digitChar_spec d.1 d.2).2.1]
    simp only [if_pos hlt]
    exact ih h

private theorem map_digit (ds : List (Bool × Fin 16)) :
    ds.map (fun d => digit d.1 d.2) = encodeUtf8 (ds.map digitChar) := by
  induction ds with
  | nil => rfl
  | cons d ds ih =>
    rw [List.map_cons, List.map_cons, encodeUtf8, List.flatMap_cons, (digitChar_spec d.1 d.2).1, ih]
    rfl

theorem Newc.IsField.length_eq {b : List UInt8} {v : Nat} (h : IsField b v) : b.length = 8 := by
  obtain ⟨ds, hlen, rfl, -⟩ := h
  rw [List.length_map, hlen]

/-- The reader's `hex8` reads the value of a field. -/
theorem Newc.IsField.hex8_eq {b : List UInt8} {v : Nat} (h : IsField b v) : hex8 b = v := by
  obtain ⟨ds, hlen, rfl, rfl⟩ := h
  have hlt : number ds < 2 ^ 32 := by
    have := foldl_addDigit_lt ds 0
    rwa [hlen] at this
  have hradix : fromStrRadix16 (ds.map digitChar) = some (number ds) := by
    have hdigits := hexDigits_map hlt
    cases ds with
    | nil => cases hlen
    | cons d ds =>
      rw [List.map_cons] at hdigits ⊢
      unfold fromStrRadix16
      split
      · rename_i hnil
        cases hnil
      · rename_i hcons
        exact absurd (List.cons.inj hcons).1 (digitChar_spec d.1 d.2).2.2
      · exact hdigits
  rw [map_digit, hex8, fromUtf8_encodeUtf8, Option.getD_some, hradix, Option.getD_some]

/-! ### Slices -/

theorem align4_mod (x : Nat) : Initramfs.align4 x % 4 = 0 := Nat.mul_mod_left _ 4

theorem le_align4 (x : Nat) : x ≤ Initramfs.align4 x := by
  unfold Initramfs.align4
  omega

/-- A multiple of four in front does not change the alignment. -/
theorem align4_add {a : Nat} (h : a % 4 = 0) (b : Nat) : Initramfs.align4 (a + b) = a + Initramfs.align4 b := by
  unfold Initramfs.align4
  omega

theorem add_length_pad (n : Nat) : n + (pad n).length = Initramfs.align4 n := by
  rw [pad, List.length_replicate, Initramfs.align4]
  omega

theorem slice_eq (a x b : List UInt8) {data : List UInt8} {i j : Nat} (h : data = a ++ (x ++ b)) (hi : a.length = i)
    (hj : i + x.length = j) : slice data i j = x := by
  rw [slice, h, ← hi, List.drop_left, ← hj, hi, Nat.add_sub_cancel_left, List.take_left]

private theorem length_flatten_fields {fields : List (List UInt8)} {vs : List Nat}
    (h : List.Forall₂ IsField fields vs) : fields.flatten.length = 8 * vs.length := by
  induction h with
  | nil => rfl
  | cons hb _ ih =>
    rw [List.flatten_cons, List.length_append, hb.length_eq, ih, List.length_cons]
    omega

/-- The number at the place of a field. -/
private theorem hex8_field {fields : List (List UInt8)} {vs : List Nat} (h : List.Forall₂ IsField fields vs)
    (post : List UInt8) {pre : List UInt8} {i v : Nat} (hv : vs[i]? = some v) :
    hex8 (slice (pre ++ (fields.flatten ++ post)) (pre.length + 8 * i) (pre.length + 8 * i + 8)) = v := by
  induction h generalizing pre i with
  | nil => cases hv
  | @cons b w fields vs hb _ ih =>
    have hlen := hb.length_eq
    rw [List.flatten_cons, List.append_assoc]
    cases i with
    | zero =>
      obtain rfl : w = v := Option.some.inj hv
      rw [slice_eq pre b (fields.flatten ++ post) rfl (by omega) (by omega), hb.hex8_eq]
    | succ i =>
      have hpre : (pre ++ b).length + 8 * i = pre.length + 8 * (i + 1) := by
        rw [List.length_append]
        omega
      have := @ih (pre ++ b) i hv
      rwa [hpre, List.append_assoc] at this

/-! ### One member -/

/-- What `parse` makes of a file. -/
def Newc.Member.entry (r : Member) : InitEntry :=
  ⟨if r.mode &&& 0xF000 = 0x4000 then .directory else .regular, r.data, []⟩

theorem Newc.IsMember.length_eq {r : Member} {b : List UInt8} (h : IsMember r b) :
    b.length = Initramfs.align4 (111 + (encodeUtf8 r.name).length) + Initramfs.align4 r.data.length := by
  obtain ⟨header, fields, hfields, -, -, -, rfl⟩ := h
  have h6 : (encodeUtf8 "070701".toList).length = 6 := by decide
  have h104 : fields.flatten.length = 8 * 13 := length_flatten_fields hfields
  rw [← add_length_pad, ← add_length_pad]
  simp only [List.length_append, h6, h104, List.length_singleton]
  omega

/-- Where the reader looks for the parts of a member. -/
private theorem slices_member {r : Member} {b : List UInt8} (hb : IsMember r b) {pre : List UInt8} (post : List UInt8)
    (h : pre.length % 4 = 0) :
    let D := pre ++ (b ++ post)
    let p := pre.length
    let n := (encodeUtf8 r.name).length
    slice D p (p + 6) = encodeUtf8 "070701".toList ∧ hex8 (slice D (p + 14) (p + 22)) = r.mode ∧
      hex8 (slice D (p + 54) (p + 62)) = r.data.length ∧ hex8 (slice D (p + 94) (p + 102)) = n + 1 ∧
      slice D (p + 110) (p + 110 + n) = encodeUtf8 r.name ∧
      slice D (Initramfs.align4 (p + 111 + n)) (Initramfs.align4 (p + 111 + n) + r.data.length) = r.data := by
  intro D p n
  obtain ⟨header, fields, hfields, hmode, hfs, hns, hb⟩ := hb
  have h6 : (encodeUtf8 "070701".toList).length = 6 := by decide
  have h104 : fields.flatten.length = 8 * 13 := length_flatten_fields hfields
  have halign : Initramfs.align4 (p + 111 + n) = p + (111 + n + (pad (111 + n)).length) := by
    rw [Nat.add_assoc, align4_add h, add_length_pad]
  have hD : D = pre ++ (b ++ post) := rfl
  rw [hb] at hD
  simp only [List.append_assoc] at hD
  generalize encodeUtf8 "070701".toList = M at *
  have hfield : ∀ {i v}, header.values[i]? = some v → ∀ {j k}, j = p + 6 + 8 * i → k = p + 6 + 8 * i + 8 →
      hex8 (slice D j k) = v := by
    intro i v hv j k hj hk
    subst hj hk
    have hlen : (pre ++ M).length = p + 6 := by rw [List.length_append, h6]
    have := @hex8_field _ _ hfields
      (encodeUtf8 r.name ++ ([0] ++ (pad (111 + n) ++ (r.data ++ (pad r.data.length ++ post))))) (pre ++ M) _ _ hv
    rwa [hlen, List.append_assoc, ← hD] at this
  refine ⟨slice_eq pre M _ hD rfl (by omega), hfield (i := 1) (hmode ▸ rfl) (by omega) (by omega),
    hfield (i := 6) (hfs ▸ rfl) (by omega) (by omega), hfield (i := 11) (hns ▸ rfl) (by omega) (by omega), ?_, ?_⟩
  · exact slice_eq (pre ++ (M ++ fields.flatten)) (encodeUtf8 r.name) _
      (by rw [hD]; simp only [List.append_assoc]; rfl)
      (by simp only [List.length_append]; omega) rfl
  · rw [halign]
    refine slice_eq (pre ++ (M ++ (fields.flatten ++ (encodeUtf8 r.name ++ ([0] ++ pad (111 + n)))))) r.data _
      (by rw [hD]; simp only [List.append_assoc]; rfl) ?_ rfl
    simp only [List.length_append, h6, h104, List.length_singleton]
    omega

/-- The reader finds a member, and the next position behind it. -/
theorem Newc.IsMember.parseEntry_eq {r : Member} {b : List UInt8} (hb : IsMember r b) {pre : List UInt8}
    (post : List UInt8) (h : pre.length % 4 = 0) :
    parseEntry (pre ++ (b ++ post)) pre.length =
      if r.name = trailer then .stop else .entry r.name r.entry (pre ++ b).length := by
  obtain ⟨hmagic, hmode, hfs, hns, hname, hdata⟩ := slices_member hb post h
  have hlen := hb.length_eq
  generalize hD : pre ++ (b ++ post) = D at *
  have hDlen : D.length = pre.length + (Initramfs.align4 (111 + (encodeUtf8 r.name).length) +
      Initramfs.align4 r.data.length) + post.length := by
    rw [← hD, List.length_append, List.length_append, hlen, ← Nat.add_assoc]
  have halign : Initramfs.align4 (pre.length + 111 + (encodeUtf8 r.name).length) =
      pre.length + Initramfs.align4 (111 + (encodeUtf8 r.name).length) := by
    rw [Nat.add_assoc]
    exact align4_add h _
  have hnext : Initramfs.align4 (Initramfs.align4 (pre.length + 111 + (encodeUtf8 r.name).length) + r.data.length) =
      (pre ++ b).length := by
    rw [align4_add (align4_mod _), halign, List.length_append, hlen, Nat.add_assoc]
  have hfit : Initramfs.align4 (pre.length + 111 + (encodeUtf8 r.name).length) + r.data.length ≤ D.length := by
    have hle := le_align4 r.data.length
    rw [hDlen, halign]
    omega
  have hroom : pre.length + 111 + (encodeUtf8 r.name).length ≤ D.length :=
    ((le_align4 _).trans (Nat.le_add_right _ _)).trans hfit
  clear hlen hDlen halign
  have hstart : pre.length + 110 + ((encodeUtf8 r.name).length + 1) =
      pre.length + 111 + (encodeUtf8 r.name).length := by
    omega
  have hend : pre.length + 110 + ((encodeUtf8 r.name).length + 1) - 1 =
      pre.length + 110 + (encodeUtf8 r.name).length := by
    omega
  have hheader : ¬ pre.length + 110 > D.length := by omega
  unfold parseEntry
  rw [if_neg hheader, if_neg (not_not.2 hmagic)]
  simp only [hfs, hns, hmode]
  rw [hend, hstart, if_neg (Nat.not_lt.2 hroom), if_neg (Nat.not_lt.2 (Nat.le_add_right _ _)), hname,
    fromUtf8_encodeUtf8, Option.getD_some, if_neg (Nat.not_lt.2 hfit), hdata, hnext]
  rfl

/-! ### The whole archive -/

/-- The entries with the files of an archive inserted in order. -/
def insertMembers (rs : List Member) (entries : SortedMap Str InitEntry) : SortedMap Str InitEntry :=
  rs.foldl (fun m r => m.insert r.name r.entry) entries

/-- The loop of `parse` finds the files of an archive. -/
theorem parseLoop_newc {rs : List Member} {data : List UInt8} (hdata : IsArchive rs data) {pre : List UInt8}
    (h : pre.length % 4 = 0) {fuel : Nat} (hfuel : data.length < fuel) (entries : SortedMap Str InitEntry) :
    parseLoop (pre ++ data) fuel pre.length entries = some (insertMembers rs entries) := by
  induction hdata generalizing pre fuel entries with
  | trailer rest hb ht =>
    obtain ⟨fuel, rfl⟩ := Nat.exists_eq_succ_of_ne_zero (by omega : fuel ≠ 0)
    rw [parseLoop, hb.parseEntry_eq rest h, if_pos ht]
    rfl
  | @member r rs b bs hb ht _ ih =>
    obtain ⟨fuel, rfl⟩ := Nat.exists_eq_succ_of_ne_zero (by omega : fuel ≠ 0)
    have hlen := hb.length_eq
    have h1 := align4_mod (111 + (encodeUtf8 r.name).length)
    have h2 := align4_mod r.data.length
    have h3 := le_align4 (111 + (encodeUtf8 r.name).length)
    have hnext : (pre ++ b).length % 4 = 0 := by
      rw [List.length_append]
      omega
    rw [parseLoop, hb.parseEntry_eq bs h, if_neg ht]
    simp only
    rw [← List.append_assoc]
    exact ih hnext (by rw [List.length_append] at hfuel; omega) _

end Hammam
