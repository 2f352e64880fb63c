import Mathlib.Data.List.Nodup
import Hammam.Vfs.Agreement

/-!
# Listing a directory (`compute_children`, `InitramfsVnode::readdir`)

The children of a directory are found by comparing strings, and `lookup` normalises the path that it has put together.
Both mean the extension of the path of the directory by one component, for whatever names there are in the archive.
-/

namespace Hammam

open SlashPath Initramfs

/-! ### Paths of vnodes -/

/-- A normalised path, extended by a component, is normalised. -/
theorem normalizePath_extendPath (q : Str) {c : Str} (hc : c ≠ []) (hs : '/' ∉ c) :
    Initramfs.normalizePath (extendPath (Initramfs.normalizePath q) c) =
      extendPath (Initramfs.normalizePath q) c := by
  have hvalid : Valid '/' (parts '/' q ++ [c]) := (valid_parts q).snoc hc hs
  have hparts := parts_join hvalid
  rw [initramfs_normalizePath_parts q]
  by_cases hq : parts '/' q = []
  · rw [if_pos hq, extendPath, if_pos rfl, initramfs_normalizePath_parts, parts_cons_sep, parts_of_not_mem hc hs]
    simp
  · rw [if_neg hq]
    obtain ⟨d, ds, hds⟩ := List.exists_cons_of_ne_nil hq
    obtain ⟨hd, hsd⟩ : d ≠ [] ∧ '/' ∉ d := valid_parts q d (by simp [hds])
    obtain ⟨x, d, rfl⟩ := List.exists_cons_of_ne_nil hd
    rw [hds] at hparts ⊢
    rw [join_snoc] at hparts
    split
    · have hroot : join '/' ((x :: d) :: ds) ≠ ['/'] := by simp
      rw [extendPath, if_neg hroot, initramfs_normalizePath_parts, hparts, join_snoc]
      simp
    · have hx : x ≠ '/' := fun h => hsd (by simp [h])
      have hroot : (join '/' ((x :: d) :: ds)).tail ≠ ['/'] := by simp [hx]
      rw [join_cons, List.cons_append, parts_cons_sep] at hparts
      rw [extendPath, if_neg hroot, initramfs_normalizePath_parts, join_cons, List.tail_cons, hparts]
      simp [hx, join_append]

theorem extendPath_ne_root {P c : Str} (hc : c ≠ []) : extendPath P c ≠ ['/'] := by
  unfold extendPath
  split
  · simpa using hc
  · simp [List.append_eq_cons_iff, hc]

theorem lookupPath_ok {f : InitramfsFs} {q : Str} {v : InitramfsVnode} (h : f.lookupPath q = .ok v) :
    v.path = Initramfs.normalizePath q ∧ v.parentFs = f ∧
      (if v.path = ['/'] then v.fs = f.root else f.allEntries.get? v.path = some v.fs) := by
  unfold InitramfsFs.lookupPath at h
  simp only at h
  split at h
  · next hroot =>
    cases h
    exact ⟨hroot.symm, rfl, by simp⟩
  · next hroot =>
    split at h
    · next e he =>
      cases h
      exact ⟨rfl, rfl, by simp [hroot, he]⟩
    · cases h

/-- The vnodes that can be got from a file system. -/
inductive Obtained (f : InitramfsFs) : InitramfsVnode → Prop
  | lookupPath {q : Str} {v : InitramfsVnode} : f.lookupPath q = .ok v → Obtained f v
  | lookup {v v' : InitramfsVnode} {n : Str} : Obtained f v → Vnode.lookup v n = .ok v' → Obtained f v'

theorem lookup_ok {v v' : InitramfsVnode} {n : Str} (h : Vnode.lookup v n = .ok v') :
    n ∈ v.fs.children ∧ v.parentFs.lookupPath (extendPath v.path n) = .ok v' := by
  have hlookup : Vnode.lookup v n =
      if v.fs.kind ≠ .directory then .error .notADirectory
      else if !v.fs.children.contains n then .error .notFound
      else v.parentFs.lookupPath (extendPath v.path n) := rfl
  rw [hlookup] at h
  split at h
  · cases h
  · split at h
    · cases h
    · next hmem => exact ⟨by simpa using hmem, h⟩

/-- All of them come from `lookup_path`. -/
theorem Obtained.exists_path {f : InitramfsFs} {v : InitramfsVnode} (h : Obtained f v) :
    ∃ q, f.lookupPath q = .ok v := by
  induction h with
  | @lookupPath q v hq => exact ⟨q, hq⟩
  | @lookup v v' n _ hn ih =>
    obtain ⟨q, hq⟩ := ih
    have hfs : v.parentFs = f := (lookupPath_ok hq).2.1
    exact ⟨_, hfs ▸ (lookup_ok hn).2⟩

/-! ### Lists of children -/

theorem nodup_computeChildren (m : SortedMap Str InitEntry) (P : Str) : (computeChildren m P).Nodup := by
  rw [computeChildren, List.filter_map]
  refine List.Nodup.map_on (fun k hk k' hk' he => ?_) ((m.nodup_keys.filter _).filter _)
  simp only [List.mem_filter, Function.comp, Bool.not_eq_true', List.isEmpty_eq_false_iff] at hk hk'
  -- both are the extension of the path by the same component
  obtain ⟨h, -, -⟩ := isChildOf_extendPath.1 ⟨hk.1.2, rfl, hk.2⟩
  obtain ⟨h', -, -⟩ := isChildOf_extendPath.1 ⟨hk'.1.2, rfl, hk'.2⟩
  rw [h, h', he]

/-- Different names, each of which extends the path to that of an entry. -/
structure ListsEntries (f : InitramfsFs) (P : Str) (names : List Str) : Prop where
  nodup : names.Nodup
  entry : ∀ n ∈ names, n ≠ [] ∧ '/' ∉ n ∧ ∃ e, f.allEntries.get? (extendPath P n) = some e

private theorem listsEntries_computeChildren (m : SortedMap Str InitEntry) (P : Str) :
    ListsEntries (treeOf m) P (computeChildren (createParentDirs m) P) := by
  refine ⟨nodup_computeChildren _ P, fun n hn => ?_⟩
  obtain ⟨hne, hs, e, he⟩ := mem_computeChildren.1 hn
  refine ⟨hne, hs, ?_⟩
  rw [allEntries_treeOf, get?_setChildren, he, Option.map_some]
  exact ⟨_, rfl⟩

/-- No entry has children before they are computed. -/
private def NoChildren (m : SortedMap Str InitEntry) : Prop := ∀ k e, m.get? k = some e → e.children = []

private theorem NoChildren.createParentDirs {m : SortedMap Str InitEntry} (hm : NoChildren m) {k : Str}
    {e : InitEntry} (he : (Initramfs.createParentDirs m).get? k = some e) : e.children = [] := by
  rw [get?_createParentDirs, Option.or_eq_some_iff] at he
  rcases he with he | ⟨-, he⟩
  · exact hm k e he
  · split at he
    · cases he
      rfl
    · cases he

/-- What an entry of the tree lists.  A regular file lists nothing. -/
private theorem listsEntries_entry {m : SortedMap Str InitEntry} (hm : NoChildren m)
    {P : Str} {e : InitEntry} (he : (treeOf m).allEntries.get? P = some e) :
    ListsEntries (treeOf m) P e.children := by
  rw [allEntries_treeOf, get?_setChildren, Option.map_eq_some_iff] at he
  obtain ⟨e₀, he₀, rfl⟩ := he
  split
  · exact listsEntries_computeChildren m P
  · rw [hm.createParentDirs he₀]
    exact ⟨List.nodup_nil, fun n hn => absurd hn List.not_mem_nil⟩

private theorem listsEntries_root {m : SortedMap Str InitEntry} (hm : NoChildren m) :
    ListsEntries (treeOf m) ['/'] (treeOf m).root.children := by
  have hroot : (treeOf m).root.children = (((treeOf m).allEntries.get? ['/']).map InitEntry.children).getD [] := rfl
  rw [hroot]
  cases he : (treeOf m).allEntries.get? ['/'] with
  | none => exact ⟨List.nodup_nil, fun n hn => absurd hn List.not_mem_nil⟩
  | some e => exact listsEntries_entry hm he

/-- Every vnode lists names of entries. -/
theorem Obtained.listsEntries {data : List UInt8} {f : InitramfsFs} (hf : InitramfsFs.parse data = some f)
    {v : InitramfsVnode} (hv : Obtained f v) : ListsEntries f v.path v.fs.children := by
  obtain ⟨m, hloop, rfl⟩ := parse_eq_some.1 hf
  have hm : NoChildren m := by
    refine parseLoop_invariant (fun hp hm k e he => ?_) (fun k e he => ?_) hloop
    · rcases SortedMap.get?_of_insert he with ⟨-, rfl⟩ | he
      · rw [(parseEntry_eq_entry hp).2.2.1]
        rfl
      · exact hm k e he
    · rcases SortedMap.get?_of_insert he with ⟨-, rfl⟩ | he
      · rfl
      · cases he
  obtain ⟨q, hq⟩ := hv.exists_path
  obtain ⟨-, -, hentry⟩ := lookupPath_ok hq
  split at hentry
  · next hpath =>
    rw [hpath, hentry]
    exact listsEntries_root hm
  · exact listsEntries_entry hm hentry

/-- A directory lists different names, and they are those that `lookup` finds: each is the name of the entry under the
path of the directory extended by it. -/
theorem readdir_matches_lookup {data : List UInt8} {f : InitramfsFs} (hf : InitramfsFs.parse data = some f)
    {v : InitramfsVnode} (hv : Obtained f v) (hd : v.fs.kind = .directory) :
    ∃ names, Vnode.readdir v = .ok names ∧ names.Nodup ∧
      ∀ n, (n ∈ names ↔ ∃ v', Vnode.lookup v n = .ok v') ∧
        ∀ v', Vnode.lookup v n = .ok v' →
          v'.path = extendPath v.path n ∧ f.allEntries.get? (extendPath v.path n) = some v'.fs := by
  have hlists := hv.listsEntries hf
  obtain ⟨q, hq⟩ := hv.exists_path
  obtain ⟨hpath, hfs, -⟩ := lookupPath_ok hq
  have hfound : ∀ n ∈ v.fs.children, ∃ e, f.allEntries.get? (extendPath v.path n) = some e ∧
      f.lookupPath (extendPath v.path n) = .ok ⟨e, extendPath v.path n, f⟩ := by
    intro n hn
    obtain ⟨hne, hs, e, he⟩ := hlists.entry n hn
    have hnorm : Initramfs.normalizePath (extendPath v.path n) = extendPath v.path n := by
      rw [hpath]
      exact normalizePath_extendPath q hne hs
    refine ⟨e, he, ?_⟩
    simp only [InitramfsFs.lookupPath, hnorm, if_neg (extendPath_ne_root hne), he]
  have hlookup : ∀ n ∈ v.fs.children, Vnode.lookup v n = f.lookupPath (extendPath v.path n) := by
    intro n hn
    show InitramfsVnode.lookup v n = _
    rw [InitramfsVnode.lookup, if_neg (not_not.2 hd), if_neg (by simpa using hn), hfs]
    rfl
  refine ⟨v.fs.children, if_neg (not_not.2 hd), hlists.nodup, fun n => ⟨⟨fun hn => ?_, ?_⟩, fun v' hv' => ?_⟩⟩
  · obtain ⟨e, -, hok⟩ := hfound n hn
    exact ⟨_, (hlookup n hn).trans hok⟩
  · rintro ⟨v', hv'⟩
    exact (lookup_ok hv').1
  · have hn := (lookup_ok hv').1
    obtain ⟨e, he, hok⟩ := hfound n hn
    rw [hlookup n hn, hok] at hv'
    cases hv'
    exact ⟨rfl, he⟩

/-- The root directory of a small archive: `usr`, which `lookup` finds, is listed, and `lib` is not. -/
theorem readdir_matches_lookup_boot :
    ∃ f root names usr, InitramfsFs.parse (archiveOf bootFiles) = some f ∧ f.lookupPath ['/'] = .ok root ∧
      Vnode.readdir root = .ok names ∧ names.Nodup ∧ Vnode.lookup root "usr".toList = .ok usr ∧
      usr.path = "/usr".toList ∧ "usr".toList ∈ names ∧ "lib".toList ∉ names := by
  have h := archivable_bootFiles
  have hmem : (["usr".toList, "bin".toList, "net-server".toList], [0x7F, 0x45]) ∈ bootFiles := by decide
  obtain ⟨ch, husr⟩ := h.entryAt_prefix hmem (show ["usr".toList] <+: _ by decide) (by decide)
  have hlib : (treeOf (Archivable.entries bootFiles)).entryAt ["lib".toList] = none := by
    refine Option.eq_none_iff_forall_ne_some.2 fun e he => ?_
    obtain ⟨g, hg, hpre⟩ := h.entryAt_some (by unfold Valid; decide) (by decide) he
    revert g
    decide
  have htree := h.isTree
  have hparse := h.parse_eq
  generalize treeOf (Archivable.entries bootFiles) = f at hparse htree husr hlib
  have hroot : f.lookupPath ['/'] = .ok (f.vnodeAt [] f.root) := f.lookupPath_canonical valid_nil
  have hdir : f.root.kind = .directory := by
    obtain ⟨m, rfl, -⟩ := parse_treeOf hparse
    rfl
  obtain ⟨names, hnames, hnodup, hlists⟩ := readdir_matches_lookup hparse (.lookupPath hroot) hdir
  have hfound : Vnode.lookup (f.vnodeAt [] f.root) "usr".toList =
      .ok (f.vnodeAt ["usr".toList] ⟨.directory, [], ch⟩) := by
    rw [InitramfsFs.lookup_vnodeAt htree valid_nil rfl (by decide) (by decide), if_pos hdir, List.nil_append, husr]
  have hnone : "lib".toList ∉ names := by
    intro hn
    obtain ⟨v, hv⟩ := (hlists _).1.1 hn
    have hget := ((hlists _).2 v hv).2
    rw [InitramfsFs.entryAt, if_neg (by decide)] at hlib
    exact absurd (hget.symm.trans hlib) (by simp)
  exact ⟨f, _, names, _, hparse, hroot, hnames, hnodup, hfound, ((hlists _).2 _ hfound).1, (hlists _).1.2 ⟨_, hfound⟩,
    hnone⟩

end Hammam
