import Hammam.Vfs.Agreement

/-!
# Panics of the parser (`InitramfsFs::parse`)

`parse?` follows the source with every check that the language makes: a slice `data[a..b]` needs `a ≤ b` and `b` at
most the length, a string is cut between two characters only, and no operation on `usize` may overflow.  Whatever
the archive, one check only can fail, that of the slice of the name, which ends before it begins if the name has
size 0.
-/

namespace Hammam

open SlashPath

namespace Initramfs

/-! ### The checks -/

/-- `data[a..b]`. -/
def slice? (data : List UInt8) (a b : Nat) : Option (List UInt8) :=
  if a ≤ b ∧ b ≤ data.length then some (slice data a b) else none

/-- `a + b` in `usize`. -/
def add? (a b : Nat) : Option Nat := if a + b < 2 ^ 64 then some (a + b) else none

/-- `a - b` in `usize`. -/
def sub? (a b : Nat) : Option Nat := if b ≤ a then some (a - b) else none

/-- `(x + 3) & !3`. -/
def align4? (x : Nat) : Option Nat := (add? x 3).map fun y => y / 4 * 4

/-- `s.len()`, in bytes. -/
def byteLen (s : Str) : Nat := (encodeUtf8 s).length

/-- `s[n..]`: the first `n` bytes must be whole characters. -/
def strFrom? : Str → Nat → Option Str
  | s, 0 => some s
  | [], _ + 1 => none
  | c :: s, n + 1 =>
    if (String.utf8EncodeChar c).length ≤ n + 1 then strFrom? s (n + 1 - (String.utf8EncodeChar c).length) else none

/-- `data[pos + i..pos + i + 8]`, a field of the header. -/
def field? (data : List UInt8) (pos i : Nat) : Option (List UInt8) := do
  slice? data (← add? pos i) (← add? pos (i + 8))

/-- The end of an iteration, behind the name. -/
def parseData? (data : List UInt8) (name : Str) (nameEnd filesize mode : Nat) : Option ParseStep := do
  let dataStart ← align4? nameEnd
  let dataEnd ← add? dataStart filesize
  if dataEnd > data.length then some .stop
  else
    let bytes ← slice? data dataStart dataEnd
    let pos ← align4? dataEnd
    some (.entry name ⟨if mode &&& 0xF000 = 0x4000 then .directory else .regular, bytes, []⟩ pos)

/-- An iteration behind the header. -/
def parseName? (data : List UInt8) (nameStart namesize filesize mode : Nat) : Option ParseStep := do
  let nameEnd ← add? nameStart namesize
  if nameEnd > data.length then some .stop
  else
    let nameBytes ← slice? data nameStart (← sub? nameEnd 1)
    if (fromUtf8 nameBytes).getD [] = trailer then some .stop
    else parseData? data ((fromUtf8 nameBytes).getD []) nameEnd filesize mode

/-- One iteration of the loop of `parse`. -/
def parseEntry? (data : List UInt8) (pos : Nat) : Option ParseStep := do
  if (← add? pos 110) > data.length then some .stop
  else
    let magic ← slice? data pos (← add? pos 6)
    if magic ≠ encodeUtf8 "070701".toList then some .stop
    else
      let namesize ← field? data pos 94
      let filesize ← field? data pos 54
      let mode ← field? data pos 14
      parseName? data (← add? pos 110) (hex8 namesize) (hex8 filesize) (hex8 mode)

def parseLoop? (data : List UInt8) : Nat → Nat → SortedMap Str InitEntry → Option (SortedMap Str InitEntry)
  | 0, _, _ => none
  | fuel + 1, pos, entries =>
    match parseEntry? data pos with
    | none => none
    | some .stop => some entries
    | some .panic => none
    | some (.entry name e next) => parseLoop? data fuel next (entries.insert name e)

def isChildOf? (path parentPath : Str) : Option Bool :=
  if parentPath = ['/'] then
    if path.head? = some '/' then (strFrom? path 1).map fun s => !s.contains '/' else some false
  else if !parentPath.isPrefixOf path then some false
  else if byteLen path ≤ byteLen parentPath then some false
  else (strFrom? path (byteLen parentPath)).map fun s => s.count '/' = 1 && s.head? = some '/'

def getRelativeName? (path parentPath : Str) : Option Str :=
  if parentPath = ['/'] then strFrom? path 1
  else if parentPath.isPrefixOf path && byteLen path > byteLen parentPath then
    (strFrom? path (byteLen parentPath + 1)).map fun relative => if relative.contains '/' then [] else relative
  else some []

/-- The loop of `compute_children` over the keys. -/
def computeChildren? (parentPath : Str) : List Str → Option (List Str)
  | [] => some []
  | key :: keys => do
    if ← isChildOf? key parentPath then
      let relative ← getRelativeName? key parentPath
      let children ← computeChildren? parentPath keys
      return if relative.isEmpty then children else relative :: children
    else computeChildren? parentPath keys

def dirChildren? (entries : SortedMap Str InitEntry) : Option (List (Str × List Str)) :=
  (entries.entries.filter fun p => p.2.kind = .directory).mapM fun p =>
    (computeChildren? p.1 entries.keys).map fun children => (p.1, children)

/-- `parse`, with at most `fuel` iterations of its loop. -/
def parse? (data : List UInt8) (fuel : Nat) : Option InitramfsFs := do
  let entries ← parseLoop? data fuel 0 (SortedMap.empty.insert ['/'] emptyDir)
  let entries := createParentDirs entries
  let entries := (← dirChildren? entries).foldl (fun acc p =>
    match acc.get? p.1 with
    | none => acc
    | some e => acc.insert p.1 { e with children := p.2 }) entries
  return ⟨⟨.directory, [], ((entries.get? ['/']).map InitEntry.children).getD []⟩, entries⟩

end Initramfs

open Initramfs

/-! ### Strings are cut between characters -/

theorem byteLen_append (s t : Str) : byteLen (s ++ t) = byteLen s + byteLen t := by
  simp [byteLen, encodeUtf8, List.flatMap_append]

theorem byteLen_cons (c : Char) (s : Str) : byteLen (c :: s) = (String.utf8EncodeChar c).length + byteLen s := by
  simp [byteLen, encodeUtf8]

private theorem length_utf8EncodeChar_pos (c : Char) : 0 < (String.utf8EncodeChar c).length := by
  rw [String.length_utf8EncodeChar]
  exact Char.utf8Size_pos c

theorem strFrom?_append (s t : Str) : strFrom? (s ++ t) (byteLen s) = some t := by
  induction s with
  | nil =>
    show strFrom? t 0 = some t
    rw [strFrom?]
  | cons c s ih =>
    have hpos := length_utf8EncodeChar_pos c
    obtain ⟨n, hn⟩ : ∃ n, byteLen (c :: s) = n + 1 := Nat.exists_eq_succ_of_ne_zero (by rw [byteLen_cons]; omega)
    rw [List.cons_append, hn, strFrom?, ← hn, byteLen_cons, if_pos (by omega), Nat.add_sub_cancel_left, ih]

/-- Both lengths count what follows a prefix. -/
private theorem byteLen_le_iff {path P : Str} (h : P.isPrefixOf path = true) :
    byteLen path ≤ byteLen P ↔ path.length ≤ P.length := by
  obtain ⟨rest, rfl⟩ := List.isPrefixOf_iff_prefix.1 h
  rw [byteLen_append, List.length_append]
  cases rest with
  | nil => simp [byteLen, encodeUtf8]
  | cons c rest =>
    have := length_utf8EncodeChar_pos c
    rw [byteLen_cons, List.length_cons]
    omega

private theorem strFrom?_slash {path : Str} (h : path.head? = some '/') : strFrom? path 1 = some (path.drop 1) := by
  cases path with
  | nil => cases h
  | cons c path =>
    obtain rfl : c = '/' := Option.some.inj h
    exact strFrom?_append ['/'] path

private theorem strFrom?_prefix {path P : Str} (h : P.isPrefixOf path = true) :
    strFrom? path (byteLen P) = some (path.drop P.length) := by
  obtain ⟨rest, rfl⟩ := List.isPrefixOf_iff_prefix.1 h
  rw [strFrom?_append, List.drop_left]

theorem isChildOf?_eq (path P : Str) : isChildOf? path P = some (isChildOf path P) := by
  unfold isChildOf? isChildOf
  split
  · split
    · next hhead =>
      rw [strFrom?_slash hhead]
      simp [hhead]
    · next hhead => simp [hhead]
  · by_cases hpre : P.isPrefixOf path = true
    · simp only [hpre, Bool.not_true, byteLen_le_iff hpre, strFrom?_prefix hpre, Bool.false_eq_true, if_false]
      split <;> rfl
    · simp [hpre]

/-- Behind the name of the parent there is a `/` if the path is the one of a child. -/
theorem getRelativeName?_eq {path P : Str} (h : isChildOf path P = true) :
    getRelativeName? path P = some (getRelativeName path P) := by
  unfold isChildOf at h
  unfold getRelativeName? getRelativeName
  split
  · next hroot =>
    rw [if_pos hroot, Bool.and_eq_true, decide_eq_true_eq] at h
    exact strFrom?_slash h.1
  · next hroot =>
    rw [if_neg hroot] at h
    split at h
    · cases h
    · next hpre =>
      have hpre : P.isPrefixOf path = true := by simpa using hpre
      split at h
      · cases h
      · next hlen =>
        obtain ⟨rest, rfl⟩ := List.isPrefixOf_iff_prefix.1 hpre
        simp only [List.drop_left, Bool.and_eq_true, decide_eq_true_eq] at h
        obtain ⟨r, rfl⟩ : ∃ r, rest = '/' :: r := by
          cases rest with
          | nil => cases h.2
          | cons x r => exact ⟨r, by rw [Option.some.inj h.2]⟩
        have hbytes : strFrom? (P ++ '/' :: r) (byteLen P + 1) = some r := by
          have := strFrom?_append (P ++ ['/']) r
          rwa [List.append_assoc, List.singleton_append, byteLen_append] at this
        have hdrop : (P ++ '/' :: r).drop (P.length + 1) = r := by simp
        have hlt : byteLen P < byteLen (P ++ '/' :: r) := by
          have := length_utf8EncodeChar_pos '/'
          rw [byteLen_append, byteLen_cons]
          omega
        simp [hpre, hbytes, hdrop, hlt]

theorem computeChildren?_eq (P : Str) (keys : List Str) :
    computeChildren? P keys =
      some (((keys.filter (isChildOf · P)).map (getRelativeName · P)).filter (!·.isEmpty)) := by
  induction keys with
  | nil => rfl
  | cons key keys ih =>
    rw [computeChildren?, isChildOf?_eq, ih]
    by_cases hchild : isChildOf key P = true
    · rw [getRelativeName?_eq hchild]
      by_cases hrel : getRelativeName key P = []
      · simp [hchild, hrel]
      · simp [hchild, hrel]
    · simp [hchild]

theorem dirChildren?_eq (entries : SortedMap Str InitEntry) : dirChildren? entries = some (dirChildren entries) := by
  unfold dirChildren? dirChildren
  induction entries.entries.filter fun p => p.2.kind = .directory with
  | nil => rfl
  | cons p ps ih =>
    rw [List.mapM_cons, ih, computeChildren?_eq]
    rfl

/-! ### Sizes and positions -/

private theorem hexDigits_lt {s : Str} {acc v : Nat} (hacc : acc < 2 ^ 32) (h : hexDigits acc s = some v) :
    v < 2 ^ 32 := by
  induction s generalizing acc with
  | nil =>
    cases h
    exact hacc
  | cons c s ih =>
    rw [hexDigits] at h
    split at h
    · cases h
    · split at h
      · next hlt => exact ih hlt h
      · cases h

theorem hex8_lt (b : List UInt8) : hex8 b < 2 ^ 32 := by
  have hradix : ∀ {s : Str} {v : Nat}, fromStrRadix16 s = some v → v < 2 ^ 32 := by
    intro s v h
    unfold fromStrRadix16 at h
    split at h
    · cases h
    · split at h
      · cases h
      · exact hexDigits_lt (by decide) h
    · exact hexDigits_lt (by decide) h
  unfold hex8
  cases hv : fromStrRadix16 ((fromUtf8 b).getD ['0']) with
  | none => decide
  | some v => exact hradix hv

private theorem add?_eq {a b : Nat} (h : a + b < 2 ^ 64) : add? a b = some (a + b) := if_pos h

private theorem slice?_eq {data : List UInt8} {a b : Nat} (h : a ≤ b ∧ b ≤ data.length) :
    slice? data a b = some (slice data a b) := if_pos h

private theorem align4?_eq {x : Nat} (h : x + 3 < 2 ^ 64) : align4? x = some (align4 x) := by
  rw [align4?, add?_eq h]
  rfl

private theorem align4_le (x : Nat) : align4 x ≤ x + 3 := by
  unfold align4
  omega

/-- An iteration without its panic. -/
def Initramfs.ParseStep.safe : ParseStep → Option ParseStep
  | .panic => none
  | s => some s

private theorem some_bind {α β : Type} (a : α) (f : α → Option β) : (some a >>= f) = f a := rfl

private theorem parseData?_eq {data : List UInt8} (name : Str) {nameEnd filesize : Nat} (mode : Nat)
    (hlen : data.length < 2 ^ 63) (hname : nameEnd ≤ data.length) (hfile : filesize < 2 ^ 32) :
    parseData? data name nameEnd filesize mode = some
      (if align4 nameEnd + filesize > data.length then .stop
      else .entry name ⟨if mode &&& 0xF000 = 0x4000 then .directory else .regular,
        slice data (align4 nameEnd) (align4 nameEnd + filesize), []⟩ (align4 (align4 nameEnd + filesize))) := by
  have halign := align4_le nameEnd
  rw [parseData?, align4?_eq (by omega), some_bind, add?_eq (by omega),
    some_bind]
  split
  · rfl
  · rw [slice?_eq (by omega), align4?_eq (by omega)]
    rfl

private theorem parseName?_eq {data : List UInt8} {nameStart namesize filesize : Nat} (mode : Nat)
    (hlen : data.length < 2 ^ 63) (hpos : nameStart ≤ data.length) (h1 : 1 ≤ nameStart) (hname : namesize < 2 ^ 32) :
    parseName? data nameStart namesize filesize mode =
      if nameStart + namesize > data.length then some .stop
      else if nameStart > nameStart + namesize - 1 then none
      else if (fromUtf8 (slice data nameStart (nameStart + namesize - 1))).getD [] = trailer then some .stop
      else parseData? data ((fromUtf8 (slice data nameStart (nameStart + namesize - 1))).getD [])
        (nameStart + namesize) filesize mode := by
  rw [parseName?, add?_eq (by omega), some_bind]
  split
  · rfl
  · have hsub : sub? (nameStart + namesize) 1 = some (nameStart + namesize - 1) := if_pos (by omega)
    rw [hsub]
    split
    · have hslice : slice? data nameStart (nameStart + namesize - 1) = none := if_neg (by omega)
      rw [some_bind, hslice]
      rfl
    · rw [some_bind, slice?_eq (by omega)]
      rfl

private theorem field?_eq {data : List UInt8} {pos i : Nat} (hlen : data.length < 2 ^ 63)
    (h : pos + i + 8 ≤ data.length) : field? data pos i = some (slice data (pos + i) (pos + (i + 8))) := by
  rw [field?, add?_eq (by omega), some_bind, add?_eq (by omega), some_bind,
    slice?_eq (by omega)]

theorem parseEntry?_eq {data : List UInt8} {pos : Nat} (hlen : data.length < 2 ^ 63) (hpos : pos ≤ data.length + 3) :
    parseEntry? data pos = (parseEntry data pos).safe := by
  have hname := hex8_lt (slice data (pos + 94) (pos + 102))
  have hfile := hex8_lt (slice data (pos + 54) (pos + 62))
  rw [ parseEntry?, parseEntry, add?_eq (by omega), some_bind]
  by_cases hheader : pos + 110 > data.length
  · rw [if_pos hheader, if_pos hheader]
    rfl
  rw [if_neg hheader, if_neg hheader, add?_eq (by omega), some_bind, slice?_eq (by omega), some_bind]
  by_cases hmagic : slice data pos (pos + 6) ≠ encodeUtf8 "070701".toList
  · rw [if_pos hmagic, if_pos hmagic]
    rfl
  rw [if_neg hmagic, if_neg hmagic, field?_eq hlen (by omega), some_bind, field?_eq hlen (by omega),
    some_bind, field?_eq hlen (by omega), some_bind, some_bind,
    parseName?_eq _ hlen (by omega) (by omega) hname]
  generalize hex8 (slice data (pos + 94) (pos + 102)) = namesize at *
  generalize hex8 (slice data (pos + 54) (pos + 62)) = filesize at *
  generalize hex8 (slice data (pos + 14) (pos + 22)) = mode
  simp only
  by_cases hfits : pos + 110 + namesize > data.length
  · rw [if_pos hfits, if_pos hfits]
    rfl
  rw [if_neg hfits, if_neg hfits]
  by_cases hempty : pos + 110 > pos + 110 + namesize - 1
  · rw [if_pos hempty, if_pos hempty]
    rfl
  rw [if_neg hempty, if_neg hempty, parseData?_eq _ _ hlen (by omega) hfile]
  by_cases htrailer : (fromUtf8 (slice data (pos + 110) (pos + 110 + namesize - 1))).getD [] = trailer
  · rw [if_pos htrailer, if_pos htrailer]
    rfl
  rw [if_neg htrailer, if_neg htrailer]
  split <;> rfl

/-- The loop does not leave the archive by more than the padding. -/
theorem parseEntry_next_le {data : List UInt8} {pos next : Nat} {name : Str} {e : InitEntry}
    (h : parseEntry data pos = .entry name e next) : next ≤ data.length + 3 := by
  obtain ⟨hentry, -, -, rfl⟩ := parseEntry_eq_entry h
  have h1 := align4_le (dataEndAt data pos)
  have h2 := hentry.data_fits
  rw [nextAt]
  omega

theorem parseLoop?_eq {data : List UInt8} (hlen : data.length < 2 ^ 63) {fuel pos : Nat}
    (hpos : pos ≤ data.length + 3) (m : SortedMap Str InitEntry) :
    parseLoop? data fuel pos m = parseLoop data fuel pos m := by
  induction fuel generalizing pos m with
  | zero => rfl
  | succ fuel ih =>
    rw [parseLoop?, parseLoop, parseEntry?_eq hlen hpos]
    cases hp : parseEntry data pos with
    | stop => rfl
    | panic => rfl
    | entry name e next => exact ih (parseEntry_next_le hp) _

theorem parse?_eq {data : List UInt8} (hlen : data.length < 2 ^ 63) {fuel : Nat} (hfuel : data.length < fuel) :
    parse? data fuel = InitramfsFs.parse data := by
  unfold parse? InitramfsFs.parse
  rw [parseLoop?_eq hlen (by omega), parseLoop_fuel _ (by omega) (show data.length - 0 < data.length + 1 by omega)]
  cases parseLoop data (data.length + 1) 0 (SortedMap.empty.insert ['/'] emptyDir) with
  | none => rfl
  | some entries =>
    simp only [Option.bind_eq_bind, Option.bind_some, dirChildren?_eq]
    rfl

/-! ### When the parser returns -/

/-- The positions of the headers from `pos` on, each behind a whole entry. -/
inductive Initramfs.HeaderPos (data : List UInt8) : Nat → Nat → Prop
  | here (pos : Nat) : HeaderPos data pos pos
  | after {pos q : Nat} : EntryAt data pos → HeaderPos data (nextAt data pos) q → HeaderPos data pos q

/-- No header that can be reached announces a name of size 0. -/
def Initramfs.Named (data : List UInt8) (pos : Nat) : Prop :=
  ∀ q, HeaderPos data pos q → HasHeader data q → namesizeAt data q ≠ 0

private theorem named_iff_of_entry {data : List UInt8} {pos : Nat} (h : EntryAt data pos) :
    Named data pos ↔ Named data (nextAt data pos) := by
  constructor
  · exact fun hn q hq => hn q (.after h hq)
  · intro hn q hq
    cases hq with
    | here => exact fun _ => h.named
    | after _ hq => exact hn q hq

theorem parseLoop_isSome_iff {data : List UInt8} {fuel pos : Nat} (m : SortedMap Str InitEntry)
    (hfuel : data.length - pos < fuel) : (parseLoop data fuel pos m).isSome ↔ Named data pos := by
  induction fuel generalizing pos m with
  | zero => omega
  | succ fuel ih =>
    rw [parseLoop]
    rcases parseEntry_cases data pos with ⟨hentry, hp⟩ | ⟨hheader, hempty, hp⟩ | ⟨hentry, hnone, hp⟩
    · obtain ⟨hnext, hpos, -⟩ := parseEntry_entry hp
      rw [hp, named_iff_of_entry hentry]
      exact ih _ (by omega)
    · rw [hp]
      exact iff_of_false (by simp) fun hn => hn pos (.here pos) hheader hempty
    · rw [hp]
      refine iff_of_true rfl fun q hq hheader => ?_
      cases hq with
      | here => exact fun hempty => hnone ⟨hheader, hempty⟩
      | after h => exact absurd h hentry

private theorem parseEntry?_entry {data : List UInt8} (hlen : data.length < 2 ^ 63) {pos next : Nat} {name : Str}
    {e : InitEntry} (h : parseEntry? data pos = some (.entry name e next)) : pos < next := by
  by_cases hpos : pos ≤ data.length + 3
  · rw [ parseEntry?_eq hlen hpos] at h
    cases hp : parseEntry data pos with
    | stop =>
      rw [hp] at h
      cases h
    | panic =>
      rw [hp] at h
      cases h
    | entry name' e' next' =>
      rw [hp] at h
      cases h
      exact (parseEntry_entry hp).1
  · -- behind the archive there is nothing to read
    rw [ parseEntry?] at h
    cases hadd : add? pos 110 with
    | none =>
      rw [hadd] at h
      cases h
    | some n =>
      have hn : n > data.length := by
        unfold add? at hadd
        split at hadd
        · cases hadd
          omega
        · cases hadd
      rw [hadd, some_bind, if_pos hn] at h
      cases h

/-- The position grows with every iteration.  The parser returns, without a slice out of range and without an
overflow, exactly if no header that it comes to has the name size 0. -/
theorem parse_returns_iff {data : List UInt8} (hlen : data.length < 2 ^ 63) :
    (∀ pos name e next, parseEntry? data pos = some (.entry name e next) → pos < next) ∧
      ((∃ f, ∀ fuel > data.length, parse? data fuel = some f) ↔ Named data 0) := by
  refine ⟨fun pos name e next h => parseEntry?_entry hlen h, ?_⟩
  have hloop := @parseLoop_isSome_iff data (data.length + 1) 0 (SortedMap.empty.insert ['/'] emptyDir) (by omega)
  rw [← hloop, Option.isSome_iff_exists]
  constructor
  · rintro ⟨f, hf⟩
    have hparse := hf (data.length + 1) (by omega)
    rw [parse?_eq hlen (by omega)] at hparse
    obtain ⟨m, hm, -⟩ := parse_eq_some.1 hparse
    exact ⟨m, hm⟩
  · rintro ⟨m, hm⟩
    refine ⟨treeOf m, fun fuel hfuel => ?_⟩
    rw [parse?_eq hlen hfuel]
    exact parse_eq_some.2 ⟨m, hm, rfl⟩

/-- An archive of two files. -/
theorem parse_returns_iff_boot :
    ∃ f, ∀ fuel > (archiveOf bootFiles).length, parse? (archiveOf bootFiles) fuel = some f := by
  obtain ⟨m, hm, -⟩ := parse_eq_some.1 archivable_bootFiles.parse_eq
  have hnamed : Named (archiveOf bootFiles) 0 :=
    (parseLoop_isSome_iff _ (show _ - 0 < _ by omega)).1 (Option.isSome_iff_exists.2 ⟨m, hm⟩)
  exact (parse_returns_iff (by decide +kernel)).2.2 hnamed

/-- A header with zeros in all fields. -/
def zeroHeader : List UInt8 := encodeUtf8 ("070701".toList ++ List.replicate 104 '0')

/-- The slice of the name from 110 to 109 panics. -/
theorem parse_zeroHeader : zeroHeader.length = 110 ∧ ∀ fuel, parse? zeroHeader fuel = none := by
  have hlen : zeroHeader.length = 110 := by decide +kernel
  have hheader : HasHeader zeroHeader 0 := ⟨by omega, by decide +kernel⟩
  have hfield : slice zeroHeader 94 102 = encodeUtf8 (List.replicate 8 '0') := by decide +kernel
  have hempty : namesizeAt zeroHeader 0 = 0 := by
    rw [namesizeAt, Nat.zero_add, Nat.zero_add, hfield, hex8, fromUtf8_encodeUtf8]
    decide
  refine ⟨hlen, fun fuel => ?_⟩
  have hloop : parseLoop? zeroHeader fuel 0 (SortedMap.empty.insert ['/'] emptyDir) = none := by
    rw [parseLoop?_eq (by omega) (by omega)]
    cases fuel with
    | zero => rfl
    | succ fuel =>
      rw [parseLoop]
      rcases parseEntry_cases zeroHeader 0 with ⟨hentry, -⟩ | ⟨-, -, hp⟩ | ⟨-, hnone, -⟩
      · exact absurd hempty hentry.named
      · rw [hp]
      · exact absurd ⟨hheader, hempty⟩ hnone
  rw [parse?, hloop]
  rfl

end Hammam
