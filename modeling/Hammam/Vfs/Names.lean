import Hammam.Vfs.Agreement

/-!
# Names with and without a leading slash

`parse` stores a file under its name as it stands in the archive, and makes directories for the components behind the
first `/` of the name, but a lookup asks for an absolute path.  The three agree on names with a leading `/`.  A file
whose name has none is not found, and its directories are missing their first component.
-/

namespace Hammam

open SlashPath Initramfs

namespace Newc

/-- After parsing and mounting at `/`, every entry is found under its path with its kind and its data, and every path
that resolves is the one of an entry or a prefix of one. -/
def Mirrored (rs : List Member) (data : List UInt8) : Prop :=
  ∃ f root, InitramfsFs.parse data = some f ∧ f.lookupPath ['/'] = .ok root ∧
    (∀ r ∈ rs, ∃ v, (VfsTree.new.mount ['/'] root).lookup ('/' :: r.name.dropWhile (· = '/')) = .ok v ∧
      kindOfMode r.mode = some v.fs.kind ∧ v.fs.data = r.data) ∧
    ∀ p v, (VfsTree.new.mount ['/'] root).lookup p = .ok v → ∃ r ∈ rs, parts '/' p <+: r.path

/-- There are regular files and directories only, and `/` is a directory.  What has a name without a leading `/` is
a directory that is there because of the names of other entries, and behind the first `/` of its name it says
nothing that is not archived as well, or nothing above a file. -/
structure Rooted (rs : List Member) : Prop where
  nonempty : rs ≠ []
  kind : ∀ r ∈ rs, kindOfMode r.mode = some .directory ∨ kindOfMode r.mode = some .regular
  root : ∀ r ∈ rs, r.path = [] → r.IsDir
  dir : ∀ r ∈ rs, ¬ r.Slashed → r.IsDir
  found : ∀ r ∈ rs, ¬ r.Slashed → ∃ s ∈ rs, r.path <+: s.behindSlash
  archived : ∀ r ∈ rs, ¬ r.Slashed →
    (∃ s ∈ rs, r.path.tail <+: s.path) ∨ ∃ s ∈ rs, ¬ s.IsDir ∧ s.path <+: r.path.tail

end Newc

open Newc Newc.WellFormed

section

variable {rs : List Member} {data : List UInt8}

/-- The entries are found with their kinds and their data. -/
private def Found (rs : List Member) : Prop :=
  ∀ r ∈ rs, ∃ v, VfsTree.walk (treeRoot rs) r.path = .ok v ∧ kindOfMode r.mode = some v.fs.kind ∧ v.fs.data = r.data

/-- Nothing but the entries and the directories above them is found. -/
private def Only (rs : List Member) : Prop :=
  ∀ cs, Valid '/' cs → ∀ v, VfsTree.walk (treeRoot rs) cs = .ok v → ∃ r ∈ rs, cs <+: r.path

private theorem mirrored_iff_walk (h : IsArchive rs data) : Mirrored rs data ↔ Found rs ∧ Only rs := by
  have hroot : (treeOf (entries rs)).lookupPath ['/'] = .ok (treeRoot rs) :=
    (treeOf (entries rs)).lookupPath_canonical valid_nil
  have hpath : ∀ r : Member, parts '/' ('/' :: r.name.dropWhile (· = '/')) = r.path := by
    intro r
    rw [parts_cons_sep, parts_dropWhile]
    rfl
  unfold Mirrored Found Only
  simp only [lookup_mounted, hpath]
  constructor
  · rintro ⟨f, root, hf, hr, hfound, honly⟩
    rw [h.parse_eq, Option.some.injEq] at hf
    subst hf
    rw [hroot, Except.ok.injEq] at hr
    subst hr
    refine ⟨hfound, fun cs hv v hw => ?_⟩
    have := honly (canonical '/' cs) v
    rw [parts_canonical hv] at this
    exact this hw
  · rintro ⟨hfound, honly⟩
    exact ⟨_, _, h.parse_eq, hroot, hfound, fun p v hw => honly _ (valid_parts p) v hw⟩

private theorem Found.root (h : Found rs) {r : Member} (hr : r ∈ rs) (hpath : r.path = []) : r.IsDir := by
  obtain ⟨v, hw, hk, -⟩ := h r hr
  rw [hpath, VfsTree.walk, Except.ok.injEq] at hw
  subst hw
  exact hk

/-- A name without a leading `/` is found if it is known as a directory only. -/
private theorem Found.relative (h : WellFormed rs) (ht : ∀ r ∈ rs, r.name ≠ trailer) (hfound : Found rs) {r : Member}
    (hr : r ∈ rs) (hs : ¬ r.Slashed) : r.IsDir ∧ Known rs r.path := by
  by_cases hpath : r.path = []
  · refine ⟨hfound.root hr hpath, r, hr, ?_⟩
    rw [hpath]
    exact List.nil_prefix
  · obtain ⟨v, hw, hk, -⟩ := hfound r hr
    rcases h.known_of_walk ht (fun r hr => hfound.root hr) r.valid_path hpath hw with
      ⟨s, hsr, ⟨hss, hsp⟩, -⟩ | ⟨-, hknown, hkind, -⟩
    · -- an entry with the same path and a leading slash is another entry
      refine ⟨?_, s, hsr, ?_⟩
      · by_contra hd
        have hrs : r = s := h.noPrefix r hr s hsr hd (hsp ▸ List.prefix_refl _)
        exact hs (hrs ▸ hss)
      · rw [Member.behindSlash, if_pos hss, hsp]
    · rw [hkind] at hk
      exact ⟨hk, hknown⟩

private theorem Found.kind (h : WellFormed rs) (ht : ∀ r ∈ rs, r.name ≠ trailer) (hfound : Found rs) {r : Member}
    (hr : r ∈ rs) : kindOfMode r.mode = some .directory ∨ kindOfMode r.mode = some .regular := by
  by_cases hpath : r.path = []
  · exact Or.inl (hfound.root hr hpath)
  · obtain ⟨v, hw, hk, -⟩ := hfound r hr
    rw [hk]
    rcases h.known_of_walk ht (fun r hr => hfound.root hr) r.valid_path hpath hw with
      ⟨s, -, -, hkind, -⟩ | ⟨-, -, hkind, -⟩
    · rw [hkind, Member.entry]
      simp only
      split
      · exact Or.inl rfl
      · exact Or.inr rfl
    · rw [hkind]
      exact Or.inl rfl

private theorem rooted_of_walk (h : WellFormed rs) (ht : ∀ r ∈ rs, r.name ≠ trailer) (hfound : Found rs)
    (honly : Only rs) : Rooted rs := by
  have hroot : ∀ r ∈ rs, r.path = [] → r.IsDir := fun r hr => hfound.root hr
  refine ⟨?_, fun r hr => hfound.kind h ht hr, hroot, fun r hr hs => (hfound.relative h ht hr hs).1,
    fun r hr hs => (hfound.relative h ht hr hs).2, fun r hr hs => ?_⟩
  · obtain ⟨r, hr, -⟩ := honly [] valid_nil _ rfl
    exact List.ne_nil_of_mem hr
  · -- what stands behind the first slash resolves unless there is a file above it
    by_cases hfile : ∃ s ∈ rs, ¬ s.IsDir ∧ s.path <+: r.path.tail
    · exact Or.inr hfile
    · have hknown : Known rs r.path.tail := ⟨r, hr, by rw [Member.behindSlash, if_neg hs]⟩
      obtain ⟨v, hw⟩ := h.walk_of_known ht hroot r.valid_tail hknown fun s hsr _ hd hp =>
        absurd ⟨s, hsr, hd, hp⟩ hfile
      exact Or.inl (honly _ r.valid_tail v hw)

private theorem Newc.Rooted.kindOfMode_eq (h : Rooted rs) {r : Member} (hr : r ∈ rs) :
    kindOfMode r.mode = some r.entry.kind := by
  have hdir := isDir_iff r
  rcases h.kind r hr with hk | hk
  · rw [hk, hdir.1 hk]
  · have hd : ¬ r.mode &&& 0xF000 = 0x4000 := by
      intro hd
      rw [kindOfMode, if_pos hd] at hk
      cases hk
    rw [hk, Member.entry, if_neg hd]

private theorem found_of_rooted (h : WellFormed rs) (ht : ∀ r ∈ rs, r.name ≠ trailer) (hrooted : Rooted rs) :
    Found rs := by
  intro r hr
  have hknown : Known rs r.path := by
    by_cases hs : r.Slashed
    · exact ⟨r, hr, by rw [Member.behindSlash, if_pos hs]⟩
    · exact hrooted.found r hr hs
  obtain ⟨v, hw⟩ := h.walk_of_known ht hrooted.root r.valid_path hknown fun s hsr _ hd hp =>
    congrArg Member.path (h.noPrefix s hsr r hr hd hp)
  have hentry : v.fs.kind = r.entry.kind ∧ v.fs.data = r.data := by
    have hdir : r.IsDir → v.fs.kind = .directory → v.fs.data = [] → v.fs.kind = r.entry.kind ∧ v.fs.data = r.data :=
      fun hd hk hdata => ⟨hk.trans ((isDir_iff r).1 hd).symm, hdata.trans (h.empty r hr hd).symm⟩
    by_cases hpath : r.path = []
    · rw [hpath, VfsTree.walk, Except.ok.injEq] at hw
      subst hw
      exact hdir (hrooted.root r hr hpath) rfl rfl
    · rcases h.known_of_walk ht hrooted.root r.valid_path hpath hw with
        ⟨s, hsr, ⟨-, hsp⟩, hk, hdata⟩ | ⟨hno, -, hk, hdata⟩
      · have he := h.entry_eq hsr hr hsp
        rw [hk, hdata, he]
        exact ⟨rfl, congrArg InitEntry.data he⟩
      · exact hdir (hrooted.dir r hr fun hs => hno r hr ⟨hs, rfl⟩) hk hdata
  exact ⟨v, hw, by rw [hrooted.kindOfMode_eq hr, hentry.1], hentry.2⟩

private theorem only_of_rooted (h : WellFormed rs) (ht : ∀ r ∈ rs, r.name ≠ trailer) (hrooted : Rooted rs) :
    Only rs := by
  intro cs hv v hw
  by_cases hcs : cs = []
  · obtain ⟨r, l, hl⟩ := List.exists_cons_of_ne_nil hrooted.nonempty
    exact ⟨r, by simp [hl], hcs ▸ List.nil_prefix⟩
  · rcases h.known_of_walk ht hrooted.root hv hcs hw with ⟨r, hr, ⟨-, hp⟩, -⟩ | ⟨-, ⟨r, hr, hp⟩, -⟩
    · exact ⟨r, hr, hp ▸ List.prefix_refl _⟩
    · unfold Member.behindSlash at hp
      split at hp
      · exact ⟨r, hr, hp⟩
      · next hs =>
        rcases hrooted.archived r hr hs with ⟨s, hsr, hsp⟩ | ⟨s, hsr, hd, hsp⟩
        · exact ⟨s, hsr, hp.trans hsp⟩
        · -- the path ends above the file, or at it
          have hss : s.Slashed := not_not.1 fun hss => hd (hrooted.dir s hsr hss)
          rcases List.prefix_or_prefix_of_prefix hp hsp with hcs' | hcs'
          · exact ⟨s, hsr, hcs'⟩
          · exact ⟨s, hsr, h.no_file_above ht hrooted.root hv hw hsr hss hd hcs' ▸ List.prefix_refl _⟩

/-- Every entry of an archive is found where it belongs, and nothing else, exactly if what has a name without a
leading `/` is a directory that other names give rise to, and its name puts nothing in a wrong place. -/
theorem mirrored_iff_rooted (h : WellFormed rs) (hd : IsArchive rs data) : Mirrored rs data ↔ Rooted rs := by
  rw [mirrored_iff_walk hd]
  constructor
  · rintro ⟨hfound, honly⟩
    exact rooted_of_walk h hd.ne_trailer hfound honly
  · intro hrooted
    exact ⟨found_of_rooted h hd.ne_trailer hrooted, only_of_rooted h hd.ne_trailer hrooted⟩

end

/-- The boot files. -/
theorem mirrored_iff_rooted_boot : Mirrored (Archivable.members bootFiles) (archiveOf bootFiles) := by
  have hrooted : Rooted (Archivable.members bootFiles) :=
    ⟨by decide, by decide, by decide, by decide, by decide, by decide⟩
  exact (mirrored_iff_rooted archivable_bootFiles.wellFormed archivable_bootFiles.isArchive).2 hrooted

/-- A file with a name as `cpio` writes it. -/
def relativeFile : Str × List UInt8 := ("bin/hello".toList, [0x7F, 0x45, 0x4C, 0x46])

/-- It is stored as `bin/hello`, and the directory that is made is `/hello`. -/
theorem not_mirrored_relative :
    WellFormed [fileMember relativeFile] ∧ IsArchive [fileMember relativeFile]
      (UserspaceBlob.archive [(encodeUtf8 relativeFile.1, relativeFile.2)]) ∧
      ¬ Mirrored [fileMember relativeFile] (UserspaceBlob.archive [(encodeUtf8 relativeFile.1, relativeFile.2)]) := by
  have hwf : WellFormed [fileMember relativeFile] := ⟨by decide, by decide, by decide⟩
  have harchive := @isArchive_archive [relativeFile] (by decide)
  refine ⟨hwf, harchive, fun h => ?_⟩
  obtain ⟨hfound, -⟩ := (mirrored_iff_walk harchive).1 h
  have hmem : fileMember relativeFile ∈ [fileMember relativeFile] := List.mem_singleton_self _
  have hdir : (fileMember relativeFile).IsDir := (hfound.relative hwf harchive.ne_trailer hmem (by decide)).1
  exact absurd hdir (by decide)

end Hammam
