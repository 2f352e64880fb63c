import Hammam.Lib.SlashPath

/-!
# The mount tree (`vfs/mod.rs`)

Strings are lists of characters.  Lengths are counted in characters: the source compares byte lengths only between
prefixes of one string, where the two orders agree.
-/

namespace Hammam

abbrev Str := List Char

inductive FileKind where
  | regular
  | directory
  | symLink
  deriving DecidableEq, Repr

inductive IoError where
  | notFound
  | notADirectory
  | notAFile
  | permissionDenied
  | invalidOffset
  | io
  deriving DecidableEq, Repr

structure FileStat where
  size : Nat
  kind : FileKind
  deriving DecidableEq, Repr

/-- The trait `Vnode`.  A read returns the number of bytes read and the buffer after it. -/
class Vnode (ν : Type) where
  read : ν → Nat → List UInt8 → Except IoError (Nat × List UInt8)
  write : ν → Nat → List UInt8 → Except IoError Nat
  stat : ν → Except IoError FileStat
  lookup : ν → Str → Except IoError ν
  readdir : ν → Except IoError (List Str)

structure VfsMount (ν : Type) where
  mountpoint : Str
  root : ν

structure VfsTree (ν : Type) where
  mounts : List (VfsMount ν)

/-- The loop of `normalize_path` over the characters. -/
def normalizeStep (st : Str × Bool) (ch : Char) : Str × Bool :=
  if ch = '/' then ((if !st.2 || st.1.isEmpty then st.1 ++ [ch] else st.1), true) else (st.1 ++ [ch], false)

/-- `vfs::normalize_path`. -/
def normalizePath (path : Str) : Str :=
  let normalized := (path.foldl normalizeStep ([], false)).1
  let normalized :=
    if normalized.length > 1 ∧ normalized.getLast? = some '/' then normalized.dropLast else normalized
  if normalized.isEmpty then ['/']
  else if normalized.head? ≠ some '/' then '/' :: normalized
  else normalized

namespace VfsTree

variable {ν : Type}

def new : VfsTree ν := ⟨[]⟩

def mount (t : VfsTree ν) (path : Str) (root : ν) : VfsTree ν := ⟨t.mounts ++ [⟨path, root⟩]⟩

/-- The mount with the longest mountpoint that `path` starts with. -/
def findMountPoint (t : VfsTree ν) (path : Str) : Option (VfsMount ν) :=
  (t.mounts.foldl (fun (best : Option (VfsMount ν) × Nat) m =>
    if m.mountpoint.isPrefixOf path && m.mountpoint.length > best.2 then (some m, m.mountpoint.length) else best)
    (none, 0)).1

/-- The walk over the components of the remaining path. -/
def walk [Vnode ν] : ν → List Str → Except IoError ν
  | v, [] => .ok v
  | v, c :: cs =>
    if c.isEmpty then walk v cs
    else
      match Vnode.lookup v c with
      | .error e => .error e
      | .ok v' => walk v' cs

def lookup [Vnode ν] (t : VfsTree ν) (path : Str) : Except IoError ν :=
  let normalized := normalizePath path
  match t.findMountPoint normalized with
  | none => .error .notFound
  | some m =>
    let remaining :=
      if m.mountpoint = ['/'] then normalized.drop 1 else normalized.drop m.mountpoint.length
    if remaining.isEmpty ∨ remaining = ['/'] then .ok m.root else walk m.root (remaining.splitOn '/')

end VfsTree

/-! ### What normalisation does -/

open SlashPath

private theorem foldl_normalizeStep (p acc : Str) (prev : Bool) (h : acc = [] → prev = false) :
    (p.foldl normalizeStep (acc, prev)).1 = acc ++ squeeze '/' prev p := by
  induction p generalizing acc prev with
  | nil => simp [squeeze]
  | cons ch p ih =>
    rw [List.foldl_cons]
    by_cases hch : ch = '/'
    · cases prev with
      | false =>
        have e : normalizeStep (acc, false) ch = (acc ++ [ch], true) := by simp [normalizeStep, hch]
        rw [e, ih _ _ (by simp)]
        simp [squeeze, hch]
      | true =>
        have hne : acc ≠ [] := fun e => by simpa using h e
        have e : normalizeStep (acc, true) ch = (acc, true) := by simp [normalizeStep, hch, hne]
        rw [e, ih _ _ h]
        simp [squeeze, hch]
    · have e : normalizeStep (acc, prev) ch = (acc ++ [ch], false) := by simp [normalizeStep, hch]
      rw [e, ih _ _ (by simp)]
      simp [squeeze, hch]

/-- Both normalisations trim a squeezed path in the same way. -/
theorem trim_squeeze (p : Str) :
    (if (squeeze '/' false p).length > 1 ∧ (squeeze '/' false p).getLast? = some '/' then
      (squeeze '/' false p).dropLast else squeeze '/' false p) =
      if parts '/' p = [] then p.take 1
      else if p.head? = some '/' then join '/' (parts '/' p) else (join '/' (parts '/' p)).tail := by
  rw [squeeze_false]
  by_cases hp : parts '/' p = []
  · rw [if_pos hp, if_pos hp]
    have : (p.take 1).length ≤ 1 := List.length_take_le 1 p
    rw [if_neg fun h => by omega]
  · rw [if_neg hp, if_neg hp]
    obtain ⟨c, cs, hc⟩ := List.exists_cons_of_ne_nil hp
    have hv : Valid '/' (parts '/' p) := valid_parts p
    have hlast := getLast?_join hv
    obtain ⟨hne, -⟩ := hv c (by simp [hc])
    split
    · exact trim_trail (by simp [hc]) hlast
    · refine trim_trail (by simp [hc, hne]) ?_
      rw [hc, join_cons, List.tail_cons]
      rwa [hc, join_cons, List.getLast?_cons_of_ne_nil (by simp [hne])] at hlast

/-- `normalize_path` writes the non-empty components of its argument. -/
theorem normalizePath_eq (p : Str) : normalizePath p = canonical '/' (parts '/' p) := by
  have hfold : (p.foldl normalizeStep ([], false)).1 = squeeze '/' false p :=
    foldl_normalizeStep p [] false fun _ => rfl
  simp only [normalizePath, hfold, trim_squeeze, canonical]
  by_cases hp : parts '/' p = []
  · rw [if_pos hp, if_pos hp]
    cases p with
    | nil => rfl
    | cons x q =>
      rw [eq_sep_of_parts_nil hp]
      rfl
  · rw [if_neg hp, if_neg hp]
    obtain ⟨c, cs, hc⟩ := List.exists_cons_of_ne_nil hp
    obtain ⟨hne, hs⟩ : c ≠ [] ∧ '/' ∉ c := valid_parts p c (by simp [hc])
    obtain ⟨y, ys, rfl⟩ := List.exists_cons_of_ne_nil hne
    have hy : y ≠ '/' := fun e => hs (by simp [e])
    split
    · simp [hc]
    · simp [hc, hy]

end Hammam
