import Mathlib.Data.List.MinMax
import Mathlib.Data.List.Nodup
import Hammam.Vfs.Directory

/-!
# Resolving a path in the mount tree

`normalize_path` writes the components of a path in canonical form.  `find_mount_point` then compares strings: the
mountpoint `/mnt` is also a prefix of `/mntfoo`.  The meaning of a path is on its components, and the two agree
exactly on the paths whose longest string prefix among the mountpoints ends where a component does.
-/

namespace Hammam

open SlashPath

/-! ### Canonical paths -/

private theorem intercalate_cons (c : Str) (cs : List Str) :
    '/' :: ['/'].intercalate (c :: cs) = join '/' (c :: cs) := by
  induction cs generalizing c with
  | nil => simp [List.intercalate]
  | cons d ds ih =>
    rw [join_cons, ← ih d]
    simp [List.intercalate]

theorem canonical_eq_intercalate (cs : List Str) : canonical '/' cs = '/' :: ['/'].intercalate cs := by
  unfold canonical
  cases cs with
  | nil => rfl
  | cons c cs => rw [if_neg (List.cons_ne_nil _ _), intercalate_cons]

private theorem lookup_congr {ν : Type} [Vnode ν] (t : VfsTree ν) {p q : Str} (h : parts '/' p = parts '/' q) :
    t.lookup p = t.lookup q := by
  have he : normalizePath p = normalizePath q := by rw [normalizePath_eq, normalizePath_eq, h]
  unfold VfsTree.lookup
  rw [he]

/-- Normalisation writes `/` and the non-empty components joined by `/`.  So it is idempotent, a lookup depends on the
components only, and the normalisation of the archive does the same to the empty path and to absolute paths. -/
theorem path_normalisation_canonical :
    (∀ p, normalizePath p = '/' :: ['/'].intercalate ((p.splitOn '/').filter (· ≠ []))) ∧
    (∀ p, normalizePath (normalizePath p) = normalizePath p) ∧
    (∀ (ν : Type) [Vnode ν] (t : VfsTree ν) (p q : Str),
      (p.splitOn '/').filter (· ≠ []) = (q.splitOn '/').filter (· ≠ []) → t.lookup p = t.lookup q) ∧
    ∀ p : Str, p = [] ∨ p.head? = some '/' → Initramfs.normalizePath p = normalizePath p := by
  refine ⟨fun p => ?_, fun p => ?_, fun ν _ t p q h => lookup_congr t h, fun p hp => ?_⟩
  · rw [normalizePath_eq, canonical_eq_intercalate]
    rfl
  · rw [normalizePath_eq (normalizePath p), normalizePath_eq p, parts_canonical (valid_parts p)]
  · obtain rfl | hp := hp
    · rfl
    · rw [initramfs_normalizePath_eq hp, normalizePath_eq]

/-! ### Mountpoints -/

/-- The mountpoint is the path or the part of it before a `/`; the root is a prefix of every path. -/
def ComponentPrefix (mountpoint path : Str) : Prop :=
  mountpoint = ['/'] ∨ mountpoint = path ∨ (mountpoint ++ ['/']) <+: path

instance (mountpoint path : Str) : Decidable (ComponentPrefix mountpoint path) :=
  inferInstanceAs (Decidable (_ ∨ _))

namespace VfsTree

variable {ν : Type}

/-- What a lookup is meant to do: the mount is the longest one by components, and the walk from its root takes the
components that remain. -/
def lookupByComponents [Vnode ν] (t : VfsTree ν) (p : Str) : Except IoError ν :=
  match (t.mounts.filter fun m => ComponentPrefix m.mountpoint (normalizePath p)).argmax (·.mountpoint.length) with
  | none => .error .notFound
  | some m => walk m.root ((parts '/' p).drop (parts '/' m.mountpoint).length)

/-- The loop keeps the first of the longest mountpoints. -/
private theorem foldl_findMountPoint (path : Str) (ms : List (VfsMount ν)) (best : Option (VfsMount ν)) (len : Nat)
    (hlen : len = (best.map (·.mountpoint.length)).getD 0) (hne : ∀ m ∈ ms, m.mountpoint ≠ []) :
    (ms.foldl (fun (best : Option (VfsMount ν) × Nat) m =>
      if m.mountpoint.isPrefixOf path && m.mountpoint.length > best.2 then (some m, m.mountpoint.length) else best)
      (best, len)).1 =
    (ms.filter fun m => m.mountpoint.isPrefixOf path).foldl
      (List.argAux fun b c => c.mountpoint.length < b.mountpoint.length) best := by
  induction ms generalizing best len with
  | nil => rfl
  | cons m ms ih =>
    have hms := fun m hm => hne m (List.mem_cons_of_mem _ hm)
    have hpos : 0 < m.mountpoint.length := List.length_pos_iff.2 (hne m List.mem_cons_self)
    rw [List.foldl_cons]
    by_cases hp : m.mountpoint.isPrefixOf path = true
    · have hf : (m :: ms).filter (fun m => m.mountpoint.isPrefixOf path) =
          m :: ms.filter fun m => m.mountpoint.isPrefixOf path := List.filter_cons_of_pos hp
      rw [hf, List.foldl_cons]
      by_cases hgt : m.mountpoint.length > len
      · have haux :
          List.argAux (fun b c : VfsMount ν => c.mountpoint.length < b.mountpoint.length) best m = some m := by
          cases best with
          | none => rfl
          | some b => exact if_pos (by simpa [hlen] using hgt)
        rw [if_pos (by simp [hp, hgt]), haux]
        exact ih _ _ rfl hms
      · have haux :
          List.argAux (fun b c : VfsMount ν => c.mountpoint.length < b.mountpoint.length) best m = best := by
          cases best with
          | none =>
            have hzero : len = 0 := hlen
            omega
          | some b => exact if_neg (by simpa [hlen] using hgt)
        rw [if_neg (by simp [hgt]), haux]
        exact ih _ _ hlen hms
    · have hf : (m :: ms).filter (fun m => m.mountpoint.isPrefixOf path) =
          ms.filter fun m => m.mountpoint.isPrefixOf path := List.filter_cons_of_neg hp
      rw [hf, if_neg (by simp [hp])]
      exact ih _ _ hlen hms

theorem findMountPoint_eq {t : VfsTree ν} (hne : ∀ m ∈ t.mounts, m.mountpoint ≠ []) (path : Str) :
    t.findMountPoint path =
      (t.mounts.filter fun m => m.mountpoint.isPrefixOf path).argmax (·.mountpoint.length) :=
  foldl_findMountPoint path t.mounts none 0 rfl hne

end VfsTree

theorem ComponentPrefix.isPrefix {mountpoint : Str} {p : Str} (h : ComponentPrefix mountpoint (normalizePath p)) :
    mountpoint <+: normalizePath p := by
  obtain rfl | rfl | h := h
  · rw [normalizePath_eq, canonical_eq_intercalate]
    exact ⟨_, rfl⟩
  · exact List.prefix_rfl
  · exact (List.prefix_append _ _).trans h

/-- What remains of a path behind a mountpoint are the components that remain. -/
private theorem parts_remaining {mountpoint p : Str} (h : ComponentPrefix mountpoint (normalizePath p)) :
    parts '/' (if mountpoint = ['/'] then (normalizePath p).drop 1 else (normalizePath p).drop mountpoint.length) =
      (parts '/' p).drop (parts '/' mountpoint).length := by
  have hcs : parts '/' (normalizePath p) = parts '/' p := by
    rw [normalizePath_eq, parts_canonical (valid_parts p)]
  split
  · rename_i hroot
    subst hroot
    rw [← hcs, normalizePath_eq, canonical_eq_intercalate]
    simp
  · rename_i hroot
    obtain h | rfl | ⟨rest, hrest⟩ := h
    · exact absurd h hroot
    · rw [hcs]
      simp
    · rw [← hcs, ← hrest, List.append_assoc, List.drop_left, List.singleton_append, parts_append_sep, parts_cons_sep,
        List.drop_left]

/-- A lookup that has found its mount walks over the components that remain. -/
theorem lookup_of_findMountPoint {ν : Type} [Vnode ν] {t : VfsTree ν} {p : Str} {m : VfsMount ν}
    (hm : t.findMountPoint (normalizePath p) = some m) :
    t.lookup p = VfsTree.walk m.root (parts '/' (if m.mountpoint = ['/'] then (normalizePath p).drop 1
      else (normalizePath p).drop m.mountpoint.length)) := by
  unfold VfsTree.lookup
  simp only [hm]
  generalize (if m.mountpoint = ['/'] then (normalizePath p).drop 1
    else (normalizePath p).drop m.mountpoint.length) = rest
  by_cases h : rest.isEmpty ∨ rest = ['/']
  · rw [if_pos h]
    obtain h | h := h
    · rw [List.isEmpty_iff.1 h, parts_nil]
      rfl
    · rw [h, parts_cons_sep, parts_nil]
      rfl
  · rw [if_neg h, walk_filter]
    rfl

/-! ### When lookups respect components -/

/-- Whatever file systems are mounted at these mountpoints, a lookup is the one by components. -/
def ResolvesAt (mountpoints : List Str) (p : Str) : Prop :=
  ∀ (ν : Type) [Vnode ν] (t : VfsTree ν), t.mounts.map (·.mountpoint) = mountpoints →
    t.lookup p = t.lookupByComponents p

/-- A mountpoint at which only the string matches is shorter than one at which the components do. -/
def MatchesComponents (mountpoints : List Str) (p : Str) : Prop :=
  ∀ mp ∈ mountpoints, mp <+: normalizePath p → ¬ ComponentPrefix mp (normalizePath p) →
    ∃ mp' ∈ mountpoints, ComponentPrefix mp' (normalizePath p) ∧ mp.length < mp'.length

instance (mountpoints : List Str) (p : Str) : Decidable (MatchesComponents mountpoints p) :=
  inferInstanceAs (Decidable (∀ mp ∈ mountpoints, _))

/-- A file system that answers with the mountpoint and the components that it was asked for. -/
abbrev Record := Str × List Str

instance recordVnode : Vnode Record where
  read _ _ _ := .error .notAFile
  write _ _ _ := .error .notAFile
  stat _ := .ok ⟨0, .directory⟩
  lookup r name := .ok (r.1, r.2 ++ [name])
  readdir _ := .ok []

/-- A tree of recording file systems. -/
def recordTree (mountpoints : List Str) : VfsTree Record := ⟨mountpoints.map fun mp => ⟨mp, (mp, [])⟩⟩

private theorem walk_record (r : Record) (cs : List Str) :
    ∃ ds, VfsTree.walk r cs = .ok (r.1, ds) := by
  induction cs generalizing r with
  | nil => exact ⟨r.2, rfl⟩
  | cons c cs ih =>
    rw [VfsTree.walk]
    split
    · exact ih r
    · exact ih (r.1, r.2 ++ [c])

section Record

variable {mountpoints : List Str} {p : Str}

private theorem recordTree_mountpoints : (recordTree mountpoints).mounts.map (·.mountpoint) = mountpoints := by
  rw [recordTree, List.map_map]
  exact List.map_id mountpoints

private theorem mem_recordTree {m : VfsMount Record} (hm : m ∈ (recordTree mountpoints).mounts) :
    m.root.1 = m.mountpoint ∧ m.mountpoint ∈ mountpoints := by
  obtain ⟨mp, hmp, rfl⟩ := List.mem_map.1 hm
  exact ⟨rfl, hmp⟩

/-- The lookup answers with a mountpoint that matches as a string, and that is at least as long as any other. -/
private theorem lookup_record (hne : ∀ mp ∈ mountpoints, mp ≠ []) {mp : Str} (hmp : mp ∈ mountpoints)
    (hpre : mp <+: normalizePath p) :
    ∃ m ∈ mountpoints, m <+: normalizePath p ∧ mp.length ≤ m.length ∧
      ∃ ds, (recordTree mountpoints).lookup p = .ok (m, ds) := by
  have hfind := VfsTree.findMountPoint_eq (t := recordTree mountpoints) (fun m hm => hne _ (mem_recordTree hm).2)
    (normalizePath p)
  have hmem : (⟨mp, (mp, [])⟩ : VfsMount Record) ∈ (recordTree mountpoints).mounts.filter
      fun m => m.mountpoint.isPrefixOf (normalizePath p) :=
    List.mem_filter.2 ⟨List.mem_map_of_mem hmp, List.isPrefixOf_iff_prefix.2 hpre⟩
  cases hm : (recordTree mountpoints).findMountPoint (normalizePath p) with
  | none =>
    rw [hm, eq_comm, List.argmax_eq_none] at hfind
    rw [hfind] at hmem
    exact absurd hmem List.not_mem_nil
  | some m =>
    rw [hm, eq_comm] at hfind
    have hmA := List.mem_filter.1 (List.argmax_mem hfind)
    rw [List.isPrefixOf_iff_prefix] at hmA
    obtain ⟨hroot, hmount⟩ := mem_recordTree hmA.1
    obtain ⟨ds, hds⟩ := walk_record m.root (parts '/' (if m.mountpoint = ['/'] then (normalizePath p).drop 1
      else (normalizePath p).drop m.mountpoint.length))
    rw [hroot] at hds
    have hge := List.le_of_mem_argmax hmem hfind
    exact ⟨m.mountpoint, hmount, hmA.2, hge, ds, (lookup_of_findMountPoint hm).trans hds⟩

/-- The lookup by components answers with a mountpoint that matches by components. -/
private theorem lookupByComponents_record {r : Record} (h : (recordTree mountpoints).lookupByComponents p = .ok r) :
    ComponentPrefix r.1 (normalizePath p) := by
  unfold VfsTree.lookupByComponents at h
  split at h
  · cases h
  · rename_i m hm
    have hmB := List.mem_filter.1 (List.argmax_mem hm)
    rw [decide_eq_true_eq] at hmB
    obtain ⟨ds, hds⟩ := walk_record m.root ((parts '/' p).drop (parts '/' m.mountpoint).length)
    rw [hds, Except.ok.injEq, (mem_recordTree hmB.1).1] at h
    rw [← h]
    exact hmB.2

end Record

section Resolve

variable {ν : Type} {t : VfsTree ν} {p : Str}

/-- Mounts that match the same path at the same length are the same mount. -/
private theorem mount_eq_of_length (hnodup : (t.mounts.map (·.mountpoint)).Nodup) {m m' : VfsMount ν}
    (hm : m ∈ t.mounts) (hm' : m' ∈ t.mounts) {path : Str} (hp : m.mountpoint <+: path) (hp' : m'.mountpoint <+: path)
    (hlen : m.mountpoint.length = m'.mountpoint.length) : m = m' := by
  have hmp : m.mountpoint = m'.mountpoint :=
    (List.prefix_of_prefix_length_le hp hp' (Nat.le_of_eq hlen)).eq_of_length hlen
  exact List.inj_on_of_nodup_map hnodup hm hm' hmp

/-- Under the condition the longest string prefix is the longest one by components. -/
private theorem argmax_eq (hnodup : (t.mounts.map (·.mountpoint)).Nodup)
    (h : MatchesComponents (t.mounts.map (·.mountpoint)) p) :
    (t.mounts.filter fun m => m.mountpoint.isPrefixOf (normalizePath p)).argmax (·.mountpoint.length) =
      (t.mounts.filter fun m => ComponentPrefix m.mountpoint (normalizePath p)).argmax (·.mountpoint.length) := by
  have hsub : ∀ m, m ∈ t.mounts.filter (fun m => ComponentPrefix m.mountpoint (normalizePath p)) →
      m ∈ t.mounts.filter fun m => m.mountpoint.isPrefixOf (normalizePath p) := by
    intro m hm
    rw [List.mem_filter, decide_eq_true_eq] at hm
    rw [List.mem_filter, List.isPrefixOf_iff_prefix]
    exact ⟨hm.1, hm.2.isPrefix⟩
  cases hA : (t.mounts.filter fun m => m.mountpoint.isPrefixOf (normalizePath p)).argmax (·.mountpoint.length) with
  | none =>
    rw [List.argmax_eq_none] at hA
    symm
    rw [List.argmax_eq_none, List.eq_nil_iff_forall_not_mem]
    intro m hm
    have := hsub m hm
    rw [hA] at this
    exact List.not_mem_nil this
  | some m =>
    have hmem := List.argmax_mem hA
    have hmax := fun {m'} hm' => List.le_of_mem_argmax (a := m') hm' hA
    have hpre := List.mem_filter.1 hmem
    rw [List.isPrefixOf_iff_prefix] at hpre
    -- the longest string prefix matches by components
    have hcomp : ComponentPrefix m.mountpoint (normalizePath p) := by
      by_contra hno
      obtain ⟨mp', hmp', hc', hlt⟩ := h _ (List.mem_map_of_mem hpre.1) hpre.2 hno
      obtain ⟨m', hm', rfl⟩ := List.mem_map.1 hmp'
      have := hmax (hsub m' (List.mem_filter.2 ⟨hm', decide_eq_true hc'⟩))
      omega
    have hmemB : m ∈ t.mounts.filter fun m => ComponentPrefix m.mountpoint (normalizePath p) :=
      List.mem_filter.2 ⟨hpre.1, decide_eq_true hcomp⟩
    cases hB : (t.mounts.filter fun m => ComponentPrefix m.mountpoint (normalizePath p)).argmax
        (·.mountpoint.length) with
    | none =>
      rw [List.argmax_eq_none] at hB
      rw [hB] at hmemB
      exact absurd hmemB List.not_mem_nil
    | some m' =>
      have hmem' := hsub m' (List.argmax_mem hB)
      have hle := hmax hmem'
      have hge := List.le_of_mem_argmax hmemB hB
      have hpre' := List.mem_filter.1 hmem'
      rw [List.isPrefixOf_iff_prefix] at hpre'
      rw [mount_eq_of_length hnodup hpre.1 hpre'.1 hpre.2 hpre'.2 (Nat.le_antisymm hge hle)]

/-- Under the condition a lookup is the one by components. -/
private theorem lookup_eq [Vnode ν] (hne : ∀ m ∈ t.mounts, m.mountpoint ≠ [])
    (hnodup : (t.mounts.map (·.mountpoint)).Nodup) (h : MatchesComponents (t.mounts.map (·.mountpoint)) p) :
    t.lookup p = t.lookupByComponents p := by
  have hfind := VfsTree.findMountPoint_eq hne (normalizePath p)
  rw [argmax_eq hnodup h] at hfind
  unfold VfsTree.lookupByComponents
  cases hm : (t.mounts.filter fun m => ComponentPrefix m.mountpoint (normalizePath p)).argmax
      (·.mountpoint.length) with
  | none =>
    rw [hm] at hfind
    unfold VfsTree.lookup
    simp only [hfind]
  | some m =>
    rw [hm] at hfind
    have hc := (List.mem_filter.1 (List.argmax_mem hm)).2
    rw [decide_eq_true_eq] at hc
    rw [lookup_of_findMountPoint hfind, parts_remaining hc]

end Resolve

/-- With distinct normalised mountpoints, a lookup of `p` respects the components of paths, whatever is mounted, if
and only if no mountpoint that matches as a string only is the longest match. -/
theorem mount_resolution_iff {mountpoints : List Str} (hnodup : mountpoints.Nodup)
    (hnorm : ∀ mp ∈ mountpoints, normalizePath mp = mp) (p : Str) :
    ResolvesAt mountpoints p ↔ MatchesComponents mountpoints p := by
  have hne : ∀ mp ∈ mountpoints, mp ≠ [] := by
    intro mp hmp
    rw [← hnorm mp hmp, normalizePath_eq, canonical_eq_intercalate]
    exact List.cons_ne_nil _ _
  constructor
  · intro h mp hmp hpre hno
    by_contra hlong
    obtain ⟨m, hm, hmpre, hge, ds, hds⟩ := lookup_record hne hmp hpre
    have heq := h Record (recordTree mountpoints) recordTree_mountpoints
    have hc : ComponentPrefix m (normalizePath p) := lookupByComponents_record (heq.symm.trans hds)
    -- the one by components has none longer than `mp`
    have hle : m.length ≤ mp.length := Nat.le_of_not_lt fun hlt => hlong ⟨m, hm, hc, hlt⟩
    have heq : m = mp := (List.prefix_of_prefix_length_le hmpre hpre hle).eq_of_length (Nat.le_antisymm hle hge)
    exact hno (heq ▸ hc)
  · intro h ν _ t hmounts
    subst hmounts
    exact lookup_eq (fun m hm => hne _ (List.mem_map_of_mem hm)) hnodup h

/-- A path below the second of two mountpoints. -/
theorem mount_resolution_mnt : ResolvesAt ["/".toList, "/mnt".toList] "/mnt/foo".toList :=
  (mount_resolution_iff (by decide) (by decide) _).2 (by decide)

/-- With `/` and `/mnt` mounted, `/mntfoo` is looked up as `foo` in the file system at `/mnt`. -/
theorem mount_resolution_mntfoo :
    (["/".toList, "/mnt".toList].Nodup ∧ ∀ mp ∈ ["/".toList, "/mnt".toList], normalizePath mp = mp) ∧
      (recordTree ["/".toList, "/mnt".toList]).lookup "/mntfoo".toList = .ok ("/mnt".toList, ["foo".toList]) ∧
      (recordTree ["/".toList, "/mnt".toList]).lookupByComponents "/mntfoo".toList =
        .ok ("/".toList, ["mntfoo".toList]) ∧
      ¬ ResolvesAt ["/".toList, "/mnt".toList] "/mntfoo".toList := by
  have hcode : (recordTree ["/".toList, "/mnt".toList]).lookup "/mntfoo".toList =
      .ok ("/mnt".toList, ["foo".toList]) := by rfl
  have hspec : (recordTree ["/".toList, "/mnt".toList]).lookupByComponents "/mntfoo".toList =
      .ok ("/".toList, ["mntfoo".toList]) := by rfl
  refine ⟨⟨by decide, by decide⟩, hcode, hspec, fun h => ?_⟩
  have := h Record (recordTree ["/".toList, "/mnt".toList]) rfl
  rw [hcode, hspec] at this
  revert this
  decide

end Hammam
