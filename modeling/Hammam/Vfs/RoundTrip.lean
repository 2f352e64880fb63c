import Mathlib.Data.List.Infix
import Mathlib.Data.List.Nodup
import Hammam.Vfs.Archive
import Hammam.Vfs.Members

/-!
# From files to an archive and back

The files of an archive are given by the components of their names.  The archive is parsed to the tree of all prefixes
of these names (`entryAt_parse`), the tree is mounted at `/`, and a lookup finds exactly the files and the directories
on the way to them.
-/

namespace Hammam

open SlashPath Initramfs Newc Newc.WellFormed

/-- The files of an archive, by the components of their names: the names are distinct absolute paths, none is a proper
path prefix of another one, and the sizes fit into the header. -/
structure Archivable (files : List (List Str × List UInt8)) : Prop where
  named : ∀ f ∈ files, f.1 ≠ [] ∧ Valid '/' f.1
  distinct : (files.map fun f => join '/' f.1).Nodup
  noPrefix : ∀ f ∈ files, ∀ g ∈ files, f.1 <+: g.1 → f.1 = g.1
  short : ∀ f ∈ files, (encodeUtf8 (join '/' f.1)).length < 2 ^ 32 - 1 ∧ f.2.length < 2 ^ 32 - 1

/-- The archive of the files. -/
def archiveOf (files : List (List Str × List UInt8)) : List UInt8 :=
  UserspaceBlob.archive (files.map fun f => (encodeUtf8 (join '/' f.1), f.2))

namespace Archivable

variable {files : List (List Str × List UInt8)}

/-- The entries that the loop of `parse` finds. -/
def entries (files : List (List Str × List UInt8)) : SortedMap Str InitEntry :=
  insertFiles (files.map fun f => (join '/' f.1, f.2)) (SortedMap.empty.insert ['/'] emptyDir)

/-- The members of the archive. -/
def members (files : List (List Str × List UInt8)) : List Member := files.map fun f => fileMember (join '/' f.1, f.2)

theorem isArchive (h : Archivable files) : IsArchive (members files) (archiveOf files) := by
  have hf : ∀ f ∈ files.map (fun f => (join '/' f.1, f.2)),
      (encodeUtf8 f.1).length < 2 ^ 32 - 1 ∧ f.2.length < 2 ^ 32 ∧ f.1 ≠ trailer := by
    intro g hg
    obtain ⟨f, hf, rfl⟩ := List.mem_map.1 hg
    obtain ⟨hn, hd⟩ := h.short f hf
    refine ⟨hn, by simp only; omega, ?_⟩
    obtain ⟨c, cs, hc⟩ := List.exists_cons_of_ne_nil (h.named f hf).1
    rw [hc, join_cons]
    exact fun e => absurd (List.cons.inj e).1 (by decide)
  have harchive := isArchive_archive hf
  rwa [List.map_map, List.map_map] at harchive

/-- A file has the path by which it was given, and an absolute name. -/
theorem path_member (h : Archivable files) {f : List Str × List UInt8} (hf : f ∈ files) :
    (fileMember (join '/' f.1, f.2)).path = f.1 ∧ (fileMember (join '/' f.1, f.2)).Slashed := by
  obtain ⟨hne, hv⟩ := h.named f hf
  obtain ⟨c, cs, hc⟩ := List.exists_cons_of_ne_nil hne
  refine ⟨parts_join hv, ?_⟩
  rw [Member.Slashed, fileMember, hc]
  rfl

theorem not_isDir_fileMember (f : Str × List UInt8) : ¬ (fileMember f).IsDir := by
  rw [isDir_iff, entry_fileMember]
  exact fun h => nomatch h

theorem wellFormed (h : Archivable files) : WellFormed (members files) := by
  refine ⟨fun r hr => ?_, fun r hr hd => ?_, fun r hr s hs _ hp => ?_⟩
  · obtain ⟨f, hf, rfl⟩ := List.mem_map.1 hr
    rw [(h.path_member hf).1, canonical, if_neg (h.named f hf).1]
    exact Or.inl rfl
  · obtain ⟨f, hf, rfl⟩ := List.mem_map.1 hr
    exact absurd hd (not_isDir_fileMember _)
  · obtain ⟨f, hf, rfl⟩ := List.mem_map.1 hr
    obtain ⟨g, hg, rfl⟩ := List.mem_map.1 hs
    rw [(h.path_member hf).1, (h.path_member hg).1] at hp
    have hfg : f.1 = g.1 := h.noPrefix f hf g hg hp
    rw [List.inj_on_of_nodup_map h.distinct hf hg (by rw [hfg])]

theorem entries_eq (files : List (List Str × List UInt8)) : entries files = WellFormed.entries (members files) := by
  rw [entries, insertFiles_eq, List.map_map]
  rfl

theorem parse_eq (h : Archivable files) : InitramfsFs.parse (archiveOf files) = some (treeOf (entries files)) := by
  rw [entries_eq]
  exact h.isArchive.parse_eq

/-- All the entries after `create_parent_dirs`. -/
def dirs (files : List (List Str × List UInt8)) : SortedMap Str InitEntry := createParentDirs (entries files)

private theorem root_dir (h : Archivable files) : ∀ r ∈ members files, r.path = [] → r.IsDir := by
  intro r hr hpath
  obtain ⟨f, hf, rfl⟩ := List.mem_map.1 hr
  rw [(h.path_member hf).1] at hpath
  exact absurd hpath (h.named f hf).1

theorem get?_dirs_root (h : Archivable files) : (dirs files).get? ['/'] = some emptyDir := by
  rw [dirs, get?_createParentDirs, entries_eq, h.wellFormed.get?_entries_root h.root_dir]
  rfl

theorem isTree (h : Archivable files) : (treeOf (entries files)).IsTree :=
  isTree_treeOf h.get?_dirs_root rfl

/-- What there is at a path: a file, a directory above a file, or nothing. -/
private theorem entryAt_cases (h : Archivable files) {cs : List Str} (hv : Valid '/' cs) (hcs : cs ≠ []) :
    (∃ f ∈ files, f.1 = cs ∧ ∃ ch, (treeOf (entries files)).entryAt cs = some ⟨.regular, f.2, ch⟩) ∨
    ((∀ f ∈ files, f.1 ≠ cs) ∧ (∃ f ∈ files, cs <+: f.1) ∧
      ∃ ch, (treeOf (entries files)).entryAt cs = some ⟨.directory, [], ch⟩) ∨
    ((∀ f ∈ files, ¬ cs <+: f.1) ∧ (treeOf (entries files)).entryAt cs = none) := by
  have hmem : ∀ {f}, f ∈ files → fileMember (join '/' f.1, f.2) ∈ members files := List.mem_map_of_mem
  have hknown : Known (members files) cs ↔ ∃ f ∈ files, cs <+: f.1 := by
    constructor
    · rintro ⟨r, hr, hp⟩
      obtain ⟨f, hf, rfl⟩ := List.mem_map.1 hr
      rw [Member.behindSlash, if_pos (h.path_member hf).2, (h.path_member hf).1] at hp
      exact ⟨f, hf, hp⟩
    · rintro ⟨f, hf, hp⟩
      refine ⟨_, hmem hf, ?_⟩
      rwa [Member.behindSlash, if_pos (h.path_member hf).2, (h.path_member hf).1]
  rw [entries_eq]
  rcases h.wellFormed.entryAt_cases h.isArchive.ne_trailer hv hcs with
    ⟨r, hr, ⟨-, hpath⟩, ch, hat⟩ | ⟨hno, hk, hat⟩ | ⟨-, hk, hat⟩
  · obtain ⟨f, hf, rfl⟩ := List.mem_map.1 hr
    rw [(h.path_member hf).1] at hpath
    rw [entry_fileMember] at hat
    exact Or.inl ⟨f, hf, hpath, ch, hat⟩
  · refine Or.inr (Or.inl ⟨fun f hf hfcs => ?_, hknown.1 hk, hat⟩)
    exact hno _ (hmem hf) ⟨(h.path_member hf).2, (h.path_member hf).1.trans hfcs⟩
  · exact Or.inr (Or.inr ⟨fun f hf hp => hk (hknown.2 ⟨f, hf, hp⟩), hat⟩)

/-- The entry of a name is its file. -/
theorem entryAt_file (h : Archivable files) {f : List Str × List UInt8} (hf : f ∈ files) :
    ∃ ch, (treeOf (entries files)).entryAt f.1 = some ⟨.regular, f.2, ch⟩ := by
  obtain ⟨hne, hv⟩ := h.named f hf
  rcases h.entryAt_cases hv hne with ⟨g, hg, hgf, hat⟩ | ⟨hno, -⟩ | ⟨hno, -⟩
  · rwa [List.inj_on_of_nodup_map h.distinct hg hf (by rw [hgf])] at hat
  · exact absurd rfl (hno f hf)
  · exact absurd (List.prefix_refl _) (hno f hf)

/-- The entry of a proper prefix of a name is a directory. -/
theorem entryAt_prefix (h : Archivable files) {f : List Str × List UInt8} (hf : f ∈ files) {ds : List Str}
    (hp : ds <+: f.1) (hne : ds ≠ f.1) :
    ∃ children, (treeOf (entries files)).entryAt ds = some ⟨.directory, [], children⟩ := by
  by_cases hds : ds = []
  · subst hds
    exact ⟨_, rfl⟩
  · rcases h.entryAt_cases ((h.named f hf).2.mono hp) hds with ⟨g, hg, rfl, -⟩ | ⟨-, -, hat⟩ | ⟨hno, -⟩
    · exact absurd (h.noPrefix g hg f hf hp) hne
    · exact hat
    · exact absurd hp (hno f hf)

/-- Every entry belongs to a prefix of a name. -/
theorem entryAt_some (h : Archivable files) {cs : List Str} (hv : Valid '/' cs) (hcs : cs ≠ []) {e : InitEntry}
    (he : (treeOf (entries files)).entryAt cs = some e) : ∃ f ∈ files, cs <+: f.1 := by
  rcases h.entryAt_cases hv hcs with ⟨f, hf, hfcs, -⟩ | ⟨-, hex, -⟩ | ⟨-, hat⟩
  · exact ⟨f, hf, hfcs ▸ List.prefix_refl _⟩
  · exact hex
  · rw [hat] at he
    cases he

/-- A walk from the root along a name ends at its file. -/
theorem walk_file (h : Archivable files) {f : List Str × List UInt8} (hf : f ∈ files) :
    ∃ ch, VfsTree.walk ((treeOf (entries files)).vnodeAt [] (treeOf (entries files)).root) f.1 =
      .ok ((treeOf (entries files)).vnodeAt f.1 ⟨.regular, f.2, ch⟩) := by
  obtain ⟨ch, hfile⟩ := h.entryAt_file hf
  have hwalk := InitramfsFs.walk_vnodeAt_ok h.isTree valid_nil rfl (h.named f hf).2 (fun ds hp hne => by
    obtain ⟨ch, hd⟩ := h.entryAt_prefix hf hp hne
    exact ⟨_, hd, rfl⟩) hfile
  exact ⟨ch, hwalk⟩

/-- A walk along a proper prefix of a name ends at a directory. -/
theorem walk_prefix (h : Archivable files) {f : List Str × List UInt8} (hf : f ∈ files) {ds : List Str}
    (hp : ds <+: f.1) (hne : ds ≠ f.1) :
    ∃ ch, VfsTree.walk ((treeOf (entries files)).vnodeAt [] (treeOf (entries files)).root) ds =
      .ok ((treeOf (entries files)).vnodeAt ds ⟨.directory, [], ch⟩) := by
  obtain ⟨ch, hd⟩ := h.entryAt_prefix hf hp hne
  have hwalk := InitramfsFs.walk_vnodeAt_ok h.isTree valid_nil rfl ((h.named f hf).2.mono hp) (fun ds' hp' hne' => by
    have hlen : ds' ≠ f.1 := by
      rintro rfl
      exact hne' (hp'.eq_of_length (Nat.le_antisymm hp'.length_le hp.length_le))
    obtain ⟨ch', hd'⟩ := h.entryAt_prefix hf (hp'.trans hp) hlen
    exact ⟨_, hd', rfl⟩) hd
  exact ⟨ch, hwalk⟩

/-- Any other walk fails: one that succeeded would end at an entry, and every entry is a file or one of its
directories. -/
theorem walk_error (h : Archivable files) {cs : List Str} (hv : Valid '/' cs) (hcs : cs ≠ [])
    (hno : ∀ f ∈ files, ¬ cs <+: f.1) :
    ∃ e, VfsTree.walk ((treeOf (entries files)).vnodeAt [] (treeOf (entries files)).root) cs = .error e := by
  cases hw : VfsTree.walk ((treeOf (entries files)).vnodeAt [] (treeOf (entries files)).root) cs with
  | error e => exact ⟨e, rfl⟩
  | ok v =>
    obtain ⟨e, he, -⟩ := InitramfsFs.walk_vnodeAt h.isTree valid_nil rfl hv hw
    obtain ⟨f, hf, hp⟩ := h.entryAt_some hv hcs he
    exact absurd hp (hno f hf)

end Archivable

theorem read_regular {v : InitramfsVnode} (h : v.fs.kind = .regular) (off : Nat) (buf : List UInt8) :
    let bytes := slice v.fs.data off (min (off + buf.length) v.fs.data.length)
    Vnode.read v off buf = .ok (bytes.length, bytes ++ buf.drop bytes.length) := by
  intro bytes
  show InitramfsVnode.read v off buf = _
  unfold InitramfsVnode.read
  rw [if_neg (not_not.2 h)]
  split
  · have hb : bytes = [] := by
      simp only [bytes, slice]
      rw [show min (off + buf.length) v.fs.data.length - off = 0 by omega, List.take_zero]
    rw [hb]
    rfl
  · have hb : bytes = (v.fs.data.drop off).take (min (v.fs.data.length - off) buf.length) := by
      simp only [bytes, slice]
      rw [show min (off + buf.length) v.fs.data.length - off = min (v.fs.data.length - off) buf.length by omega]
    have hlen : bytes.length = min (v.fs.data.length - off) buf.length := by
      rw [hb, List.length_take, List.length_drop]
      omega
    rw [hlen, hb]

/-- A file system that was written to an archive, parsed and mounted at `/` has the files under their names,
directories above them, and nothing else. -/
theorem initramfs_round_trip {files : List (List Str × List UInt8)} (h : Archivable files) :
    ∃ fs root, InitramfsFs.parse (archiveOf files) = some fs ∧ fs.lookupPath ['/'] = .ok root ∧
      (∀ f ∈ files, ∃ v, (VfsTree.new.mount ['/'] root).lookup (join '/' f.1) = .ok v ∧
        Vnode.stat v = .ok ⟨f.2.length, .regular⟩ ∧
        ∀ off buf, Vnode.read v off buf =
          .ok ((slice f.2 off (min (off + buf.length) f.2.length)).length,
            slice f.2 off (min (off + buf.length) f.2.length) ++
              buf.drop (slice f.2 off (min (off + buf.length) f.2.length)).length)) ∧
      (∀ f ∈ files, ∀ ds, ds <+: f.1 → ds ≠ f.1 →
        ∃ v, (VfsTree.new.mount ['/'] root).lookup (canonical '/' ds) = .ok v ∧ Vnode.stat v = .ok ⟨0, .directory⟩) ∧
      ∀ p, p.head? = some '/' → normalizePath p ≠ ['/'] →
        (∀ f ∈ files, ∀ ds, ds <+: f.1 → normalizePath p ≠ canonical '/' ds) →
        ∃ e, (VfsTree.new.mount ['/'] root).lookup p = .error e := by
  refine ⟨_, _, h.parse_eq, InitramfsFs.lookupPath_canonical _ valid_nil, fun f hf => ?_, fun f hf ds hp hne => ?_,
    fun p _ hp hno => ?_⟩
  · obtain ⟨ch, hwalk⟩ := h.walk_file hf
    rw [lookup_mounted, parts_join (h.named f hf).2]
    exact ⟨_, hwalk, rfl, fun off buf => read_regular rfl off buf⟩
  · obtain ⟨ch, hwalk⟩ := h.walk_prefix hf hp hne
    rw [lookup_mounted, parts_canonical ((h.named f hf).2.mono hp)]
    exact ⟨_, hwalk, rfl⟩
  · rw [normalizePath_eq] at hp hno
    rw [lookup_mounted]
    have hcs : parts '/' p ≠ [] := fun hcs => hp (by rw [hcs]; rfl)
    exact h.walk_error (valid_parts p) hcs fun f hf hpre => hno f hf _ hpre rfl

/-- Files with the names of `build_initramfs`. -/
def bootFiles : List (List Str × List UInt8) :=
  [(["init".toList], [0x7F, 0x45, 0x4C, 0x46]), (["usr".toList, "bin".toList, "net-server".toList], [0x7F, 0x45]),
    (["etc".toList, "pindos".toList, "system".toList, "net-server.service".toList], [])]

theorem archivable_bootFiles : Archivable bootFiles := by
  refine ⟨?_, by decide, by decide, by decide⟩
  unfold Valid
  decide

/-- The round trip of these files, at `/usr/bin` and `/usr/bin/net-server`. -/
theorem initramfs_round_trip_boot :
    Archivable bootFiles ∧ ∃ fs root, InitramfsFs.parse (archiveOf bootFiles) = some fs ∧
      fs.lookupPath ['/'] = .ok root ∧
      (∃ v, (VfsTree.new.mount ['/'] root).lookup "/usr/bin/net-server".toList = .ok v ∧
        Vnode.stat v = .ok ⟨2, .regular⟩ ∧ Vnode.read v 1 [0, 0, 0] = .ok (1, [0x45, 0, 0])) ∧
      (∃ v, (VfsTree.new.mount ['/'] root).lookup "/usr/bin".toList = .ok v ∧ Vnode.stat v = .ok ⟨0, .directory⟩) ∧
      ∃ e, (VfsTree.new.mount ['/'] root).lookup "/usr/lib".toList = .error e := by
  have h : Archivable bootFiles := archivable_bootFiles
  obtain ⟨fs, root, hparse, hroot, hfile, hdir, hnone⟩ := initramfs_round_trip h
  have hmem : (["usr".toList, "bin".toList, "net-server".toList], [0x7F, 0x45]) ∈ bootFiles := by decide
  refine ⟨h, fs, root, hparse, hroot, ?_, ?_, ?_⟩
  · obtain ⟨v, hv, hstat, hread⟩ := hfile _ hmem
    exact ⟨v, hv, hstat, hread 1 [0, 0, 0]⟩
  · exact hdir _ hmem ["usr".toList, "bin".toList] (by decide) (by decide)
  · have hall : ∀ f ∈ bootFiles, ∀ ds ∈ f.1.inits, normalizePath "/usr/lib".toList ≠ canonical '/' ds := by decide
    exact hnone _ (by decide) (by decide) fun f hf ds hp => hall f hf ds ((List.mem_inits ds f.1).2 hp)

end Hammam
