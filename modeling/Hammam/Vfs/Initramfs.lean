import Mathlib.Data.List.Lex
import Mathlib.Data.Char
import Mathlib.Algebra.Order.Ring.Nat
import Hammam.Lib.SortedMap
import Hammam.Vfs.Tree

/-!
# The initial file system (`userspace_blob.rs`, `vfs/initramfs.rs`)

`userspace_blob.rs` writes a CPIO archive and `vfs/initramfs.rs` reads one.  Each has its own `hex8` and `align4`;
the writer's are in the namespace `UserspaceBlob`, the reader's in `Initramfs`.  The archive is a list of bytes, and
a slice of it is a sublist.
-/

namespace Hammam

/-- The bytes of a string. -/
def encodeUtf8 (s : Str) : List UInt8 := s.flatMap String.utf8EncodeChar

/-- `str::from_utf8`. -/
def fromUtf8 (b : List UInt8) : Option Str := b.toByteArray.utf8Decode?.map Array.toList

namespace UserspaceBlob

/-- The digit of a nibble. -/
def hexDigit (nibble : Nat) : UInt8 := if nibble < 10 then (48 + nibble).toUInt8 else (97 + nibble - 10).toUInt8

def hex8 (v : Nat) : List UInt8 := (List.range 8).map fun i => hexDigit ((v >>> (4 * (7 - i))) &&& 0xF)

/-- The loop pushes zeros until the length is a multiple of four. -/
def align4 (buf : List UInt8) : List UInt8 := buf ++ List.replicate ((4 - buf.length % 4) % 4) 0

def appendCpioEntry (cpio name data : List UInt8) : List UInt8 :=
  let nameWithNul := name ++ [0]
  let cpio := cpio ++ encodeUtf8 "07070100000000".toList ++ encodeUtf8 "000081a4".toList
    ++ encodeUtf8 "00000000000000000000000100000000".toList ++ hex8 data.length
    ++ encodeUtf8 "00000000000000000000000000000000".toList ++ hex8 nameWithNul.length
    ++ encodeUtf8 "00000000".toList ++ nameWithNul
  align4 (align4 cpio ++ data)

def appendCpioTrailer (cpio : List UInt8) : List UInt8 := appendCpioEntry cpio (encodeUtf8 "TRAILER!!!".toList) []

/-- The archive of the given files: an entry for each of them, and the trailer. -/
def archive (files : List (List UInt8 × List UInt8)) : List UInt8 :=
  appendCpioTrailer (files.foldl (fun cpio f => appendCpioEntry cpio f.1 f.2) [])

end UserspaceBlob

structure InitEntry where
  kind : FileKind
  data : List UInt8
  children : List Str
  deriving DecidableEq, Repr

structure InitramfsFs where
  root : InitEntry
  allEntries : SortedMap Str InitEntry

/-- A vnode of the initramfs; `parentFs` is what the pointer of the source points to. -/
structure InitramfsVnode where
  fs : InitEntry
  path : Str
  parentFs : InitramfsFs

namespace Initramfs

def hexValue (c : Char) : Option Nat :=
  if '0' ≤ c ∧ c ≤ '9' then some (c.toNat - 48)
  else if 'a' ≤ c ∧ c ≤ 'f' then some (c.toNat - 87)
  else if 'A' ≤ c ∧ c ≤ 'F' then some (c.toNat - 55)
  else none

/-- The digits of a number, from the left, after `acc`. -/
def hexDigits : Nat → Str → Option Nat
  | acc, [] => some acc
  | acc, c :: s =>
    match hexValue c with
    | none => none
    | some d => if acc * 16 + d < 2 ^ 32 then hexDigits (acc * 16 + d) s else none

/-- `u32::from_str_radix(s, 16)`: a sign may stand before the digits. -/
def fromStrRadix16 : Str → Option Nat
  | [] => none
  | '+' :: s => if s.isEmpty then none else hexDigits 0 s
  | s => hexDigits 0 s

def hex8 (b : List UInt8) : Nat := (fromStrRadix16 ((fromUtf8 b).getD ['0'])).getD 0

def align4 (x : Nat) : Nat := (x + 3) / 4 * 4

/-- `data[a..b]`. -/
def slice (data : List UInt8) (a b : Nat) : List UInt8 := (data.drop a).take (b - a)

def trailer : Str := "TRAILER!!!".toList

/-- What one iteration of the loop of `parse` does: stop, panic in the slice of the name, or find an entry and the
position of the next one. -/
inductive ParseStep where
  | stop
  | panic
  | entry (name : Str) (e : InitEntry) (next : Nat)

def parseEntry (data : List UInt8) (pos : Nat) : ParseStep :=
  if pos + 110 > data.length then .stop
  else if slice data pos (pos + 6) ≠ encodeUtf8 "070701".toList then .stop
  else
    let namesize := hex8 (slice data (pos + 94) (pos + 102))
    let filesize := hex8 (slice data (pos + 54) (pos + 62))
    let mode := hex8 (slice data (pos + 14) (pos + 22))
    let nameStart := pos + 110
    if nameStart + namesize > data.length then .stop
    else if nameStart > nameStart + namesize - 1 then .panic
    else
      let name := (fromUtf8 (slice data nameStart (nameStart + namesize - 1))).getD []
      if name = trailer then .stop
      else
        let dataStart := align4 (nameStart + namesize)
        let dataEnd := dataStart + filesize
        if dataEnd > data.length then .stop
        else
          let kind := if mode &&& 0xF000 = 0x4000 then FileKind.directory else FileKind.regular
          .entry name ⟨kind, slice data dataStart dataEnd, []⟩ (align4 dataEnd)

/-- The loop of `parse`, for at most `fuel` iterations; `none` is a panic. -/
def parseLoop (data : List UInt8) : Nat → Nat → SortedMap Str InitEntry → Option (SortedMap Str InitEntry)
  | 0, _, _ => none
  | fuel + 1, pos, entries =>
    match parseEntry data pos with
    | .stop => some entries
    | .panic => none
    | .entry name e next => parseLoop data fuel next (entries.insert name e)

def emptyDir : InitEntry := ⟨.directory, [], []⟩

/-- The inner loop of `create_parent_dirs`, over the components of one path. -/
def createParents : List Str → Str → SortedMap Str InitEntry → SortedMap Str InitEntry
  | [], _, entries => entries
  | c :: cs, current, entries =>
    if c.isEmpty then createParents cs current entries
    else
      let current := current ++ '/' :: c
      createParents cs current (if entries.contains current then entries else entries.insert current emptyDir)

def createParentDirs (entries : SortedMap Str InitEntry) : SortedMap Str InitEntry :=
  entries.keys.foldl (fun entries path =>
    if path = ['/'] ∨ path = trailer then entries else createParents ((path.splitOn '/').drop 1) [] entries) entries

def isChildOf (path parentPath : Str) : Bool :=
  if parentPath = ['/'] then path.head? = some '/' && !(path.drop 1).contains '/'
  else if !parentPath.isPrefixOf path then false
  else if path.length ≤ parentPath.length then false
  else (path.drop parentPath.length).count '/' = 1 && (path.drop parentPath.length).head? = some '/'

def getRelativeName (path parentPath : Str) : Str :=
  if parentPath = ['/'] then path.drop 1
  else if parentPath.isPrefixOf path && path.length > parentPath.length then
    let relative := path.drop (parentPath.length + 1)
    if relative.contains '/' then [] else relative
  else []

def computeChildren (entries : SortedMap Str InitEntry) (parentPath : Str) : List Str :=
  ((entries.keys.filter (isChildOf · parentPath)).map (getRelativeName · parentPath)).filter (!·.isEmpty)

/-- The children of every directory. -/
def dirChildren (entries : SortedMap Str InitEntry) : List (Str × List Str) :=
  (entries.entries.filter fun p => p.2.kind = .directory).map fun p => (p.1, computeChildren entries p.1)

def setChildren (entries : SortedMap Str InitEntry) : SortedMap Str InitEntry :=
  (dirChildren entries).foldl (fun acc p =>
    match acc.get? p.1 with
    | none => acc
    | some e => acc.insert p.1 { e with children := p.2 }) entries

/-- `initramfs::normalize_path`. -/
def normalizeStep (st : Str × Bool) (ch : Char) : Str × Bool :=
  if ch = '/' then ((if !st.2 then st.1 ++ [ch] else st.1), true) else (st.1 ++ [ch], false)

def normalizePath (path : Str) : Str :=
  let normalized := (path.foldl normalizeStep ([], false)).1
  let normalized := if normalized.isEmpty then ['/'] else normalized
  if normalized.length > 1 ∧ normalized.getLast? = some '/' then normalized.dropLast else normalized

end Initramfs

namespace InitramfsFs

open Initramfs

/-- `InitramfsFs::parse`; `none` is a panic.  The position grows with every iteration, so that the length of the
archive bounds their number. -/
def parse (data : List UInt8) : Option InitramfsFs :=
  match parseLoop data (data.length + 1) 0 (SortedMap.empty.insert ['/'] emptyDir) with
  | none => none
  | some entries =>
    let entries := setChildren (createParentDirs entries)
    let children := ((entries.get? ['/']).map InitEntry.children).getD []
    some ⟨⟨.directory, [], children⟩, entries⟩

def lookupPath (f : InitramfsFs) (path : Str) : Except IoError InitramfsVnode :=
  let normalized := Initramfs.normalizePath path
  if normalized = ['/'] then .ok ⟨f.root, ['/'], f⟩
  else
    match f.allEntries.get? normalized with
    | some entry => .ok ⟨entry, normalized, f⟩
    | none => .error .notFound

end InitramfsFs

namespace InitramfsVnode

def read (v : InitramfsVnode) (offset : Nat) (buf : List UInt8) : Except IoError (Nat × List UInt8) :=
  if v.fs.kind ≠ .regular then .error .notAFile
  else if offset > v.fs.data.length then .ok (0, buf)
  else
    let toRead := min (v.fs.data.length - offset) buf.length
    .ok (toRead, (v.fs.data.drop offset).take toRead ++ buf.drop toRead)

def write (_ : InitramfsVnode) (_ : Nat) (_ : List UInt8) : Except IoError Nat := .error .permissionDenied

def stat (v : InitramfsVnode) : Except IoError FileStat := .ok ⟨v.fs.data.length, v.fs.kind⟩

def lookup (v : InitramfsVnode) (name : Str) : Except IoError InitramfsVnode :=
  if v.fs.kind ≠ .directory then .error .notADirectory
  else
    let fullPath := if v.path = ['/'] then '/' :: name else v.path ++ '/' :: name
    if !v.fs.children.contains name then .error .notFound else v.parentFs.lookupPath fullPath

def readdir (v : InitramfsVnode) : Except IoError (List Str) :=
  if v.fs.kind ≠ .directory then .error .notAFile else .ok v.fs.children

instance : Vnode InitramfsVnode where
  read := read
  write := write
  stat := stat
  lookup := lookup
  readdir := readdir

end InitramfsVnode

end Hammam
