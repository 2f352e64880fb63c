import Hammam.Vfs.RoundTrip

/-!
# The two lookups agree

`InitramfsFs::lookup_path` asks the map of all entries; `VfsTree::lookup` walks from the root along the lists of
children.  For whatever archive `parse` accepts, malformed names included, the two find the same entry, except that
the walk also needs a directory at every proper prefix of the path.
-/

namespace Hammam

open SlashPath Initramfs

/-! ### One iteration of the loop -/

namespace Initramfs

/-- A whole header with the right magic number. -/
def HasHeader (data : List UInt8) (pos : Nat) : Prop :=
  pos + 110 ≤ data.length ∧ slice data pos (pos + 6) = encodeUtf8 "070701".toList

def namesizeAt (data : List UInt8) (pos : Nat) : Nat := hex8 (slice data (pos + 94) (pos + 102))

def filesizeAt (data : List UInt8) (pos : Nat) : Nat := hex8 (slice data (pos + 54) (pos + 62))

def nameAt (data : List UInt8) (pos : Nat) : Str :=
  (fromUtf8 (slice data (pos + 110) (pos + 110 + namesizeAt data pos - 1))).getD []

def dataEndAt (data : List UInt8) (pos : Nat) : Nat := align4 (pos + 110 + namesizeAt data pos) + filesizeAt data pos

def kindAt (data : List UInt8) (pos : Nat) : FileKind :=
  if hex8 (slice data (pos + 14) (pos + 22)) &&& 0xF000 = 0x4000 then .directory else .regular

/-- What an iteration makes of an entry. -/
def entryOf (data : List UInt8) (pos : Nat) : InitEntry :=
  ⟨kindAt data pos, slice data (align4 (pos + 110 + namesizeAt data pos)) (dataEndAt data pos), []⟩

/-- The next header, if there is an entry here. -/
def nextAt (data : List UInt8) (pos : Nat) : Nat := align4 (dataEndAt data pos)

/-- An entry that lies inside the archive and is not the trailer. -/
structure EntryAt (data : List UInt8) (pos : Nat) : Prop where
  header : HasHeader data pos
  named : namesizeAt data pos ≠ 0
  name_fits : pos + 110 + namesizeAt data pos ≤ data.length
  not_trailer : nameAt data pos ≠ trailer
  data_fits : dataEndAt data pos ≤ data.length

end Initramfs

/-- What an iteration can do. -/
theorem parseEntry_cases (data : List UInt8) (pos : Nat) :
    (EntryAt data pos ∧ parseEntry data pos = .entry (nameAt data pos) (entryOf data pos) (nextAt data pos)) ∨
    (HasHeader data pos ∧ namesizeAt data pos = 0 ∧ parseEntry data pos = .panic) ∨
    (¬ EntryAt data pos ∧ ¬ (HasHeader data pos ∧ namesizeAt data pos = 0) ∧ parseEntry data pos = .stop) := by
  have he : parseEntry data pos =
      if pos + 110 > data.length then .stop
      else if slice data pos (pos + 6) ≠ encodeUtf8 "070701".toList then .stop
      else if pos + 110 + namesizeAt data pos > data.length then .stop
      else if pos + 110 > pos + 110 + namesizeAt data pos - 1 then .panic
      else if nameAt data pos = trailer then .stop
      else if dataEndAt data pos > data.length then .stop
      else .entry (nameAt data pos) (entryOf data pos) (nextAt data pos) := rfl
  rw [he]
  by_cases hheader : HasHeader data pos
  · rw [if_neg (by have := hheader.1; omega), if_neg (not_not.2 hheader.2)]
    by_cases hname : pos + 110 + namesizeAt data pos ≤ data.length
    · rw [if_neg (Nat.not_lt.2 hname)]
      by_cases hempty : namesizeAt data pos = 0
      · refine .inr (.inl ⟨hheader, hempty, if_pos ?_⟩)
        show pos + 110 > pos + 110 + namesizeAt data pos - 1
        omega
      · rw [if_neg (show ¬ pos + 110 > pos + 110 + namesizeAt data pos - 1 by omega)]
        by_cases htrailer : nameAt data pos = trailer
        · exact .inr (.inr ⟨fun h => h.not_trailer htrailer, fun h => hempty h.2, if_pos htrailer⟩)
        · by_cases hdata : dataEndAt data pos ≤ data.length
          · exact .inl ⟨⟨hheader, hempty, hname, htrailer, hdata⟩, (if_neg htrailer).trans
              (if_neg (Nat.not_lt.2 hdata))⟩
          · exact .inr (.inr ⟨fun h => hdata h.data_fits, fun h => hempty h.2, (if_neg htrailer).trans
              (if_pos (Nat.lt_of_not_le hdata))⟩)
    · have hne : namesizeAt data pos ≠ 0 := by
        have := hheader.1
        omega
      exact .inr (.inr ⟨fun h => hname h.name_fits, fun h => hne h.2, if_pos (Nat.lt_of_not_le hname)⟩)
  · refine .inr (.inr ⟨fun h => hheader h.header, fun h => hheader h.1, ?_⟩)
    by_cases hlen : pos + 110 > data.length
    · exact if_pos hlen
    · rw [if_neg hlen]
      exact if_pos fun hmagic => hheader ⟨by omega, hmagic⟩

/-- An iteration that finds an entry. -/
theorem parseEntry_eq_entry {data : List UInt8} {pos next : Nat} {name : Str} {e : InitEntry}
    (h : parseEntry data pos = .entry name e next) :
    EntryAt data pos ∧ name = nameAt data pos ∧ e = entryOf data pos ∧ next = nextAt data pos := by
  rcases parseEntry_cases data pos with ⟨hentry, hp⟩ | ⟨-, -, hp⟩ | ⟨-, -, hp⟩
  · rw [h] at hp
    cases hp
    exact ⟨hentry, rfl, rfl, rfl⟩
  · rw [h] at hp
    cases hp
  · rw [h] at hp
    cases hp

/-! ### The root of a parsed archive -/

/-- Every iteration moves on inside the archive. -/
theorem parseEntry_entry {data : List UInt8} {pos next : Nat} {name : Str} {e : InitEntry}
    (h : parseEntry data pos = .entry name e next) :
    pos < next ∧ pos < data.length ∧ (e.kind = .directory ∨ e.kind = .regular) := by
  obtain ⟨hentry, -, rfl, rfl⟩ := parseEntry_eq_entry h
  have hlen := hentry.header.1
  have h1 := le_align4 (pos + 110 + namesizeAt data pos)
  have h2 := le_align4 (dataEndAt data pos)
  refine ⟨?_, by omega, ?_⟩
  · rw [nextAt, dataEndAt] at *
    omega
  · simp only [entryOf, kindAt]
    split
    · exact Or.inl rfl
    · exact Or.inr rfl

/-- The loop of `parse` ends within the length of the archive: its result does not depend on the fuel. -/
theorem parseLoop_fuel {data : List UInt8} {fuel fuel' pos : Nat} (m : SortedMap Str InitEntry)
    (h : data.length - pos < fuel) (h' : data.length - pos < fuel') :
    parseLoop data fuel pos m = parseLoop data fuel' pos m := by
  induction fuel generalizing fuel' pos m with
  | zero => exact absurd h (Nat.not_lt_zero _)
  | succ fuel ih =>
    obtain ⟨k, rfl⟩ : ∃ k, fuel' = k + 1 := Nat.exists_eq_succ_of_ne_zero (by omega)
    rw [parseLoop, parseLoop]
    cases hp : parseEntry data pos with
    | stop => rfl
    | panic => rfl
    | entry name e next =>
      obtain ⟨hnext, hpos, -⟩ := parseEntry_entry hp
      exact ih _ (by omega) (by omega)

/-- What every insertion of an entry keeps holds at the end of the loop. -/
theorem parseLoop_invariant {data : List UInt8} {P : SortedMap Str InitEntry → Prop}
    (hstep : ∀ {pos name e next m}, parseEntry data pos = .entry name e next → P m → P (m.insert name e))
    {fuel pos : Nat} {m m' : SortedMap Str InitEntry} (hm : P m) (h : parseLoop data fuel pos m = some m') :
    P m' := by
  induction fuel generalizing pos m with
  | zero => cases h
  | succ fuel ih =>
    rw [parseLoop] at h
    cases hp : parseEntry data pos with
    | stop =>
      rw [hp] at h
      cases h
      exact hm
    | panic =>
      rw [hp] at h
      cases h
    | entry name e next =>
      rw [hp] at h
      exact ih (hstep hp hm) h

/-- There is an entry for `/`, a directory or a regular file. -/
def HasRoot (m : SortedMap Str InitEntry) : Prop :=
  ∃ e, m.get? ['/'] = some e ∧ (e.kind = .directory ∨ e.kind = .regular)

private theorem HasRoot.insert {m : SortedMap Str InitEntry} (hm : HasRoot m) (name : Str) {e : InitEntry}
    (he : e.kind = .directory ∨ e.kind = .regular) : HasRoot (m.insert name e) := by
  by_cases hn : name = ['/']
  · refine ⟨e, ?_, he⟩
    rw [SortedMap.get?_insert, if_pos hn.symm]
  · obtain ⟨e₀, he₀, hk⟩ := hm
    refine ⟨e₀, ?_, hk⟩
    rw [SortedMap.get?_insert, if_neg (Ne.symm hn), he₀]

/-- Among the entries there is one for `/`. -/
theorem parse_treeOf {data : List UInt8} {f : InitramfsFs} (h : InitramfsFs.parse data = some f) :
    ∃ m, f = treeOf m ∧ HasRoot m := by
  obtain ⟨m, hm, rfl⟩ := parse_eq_some.1 h
  have hnew : HasRoot (SortedMap.empty.insert ['/'] emptyDir) := by
    refine ⟨emptyDir, ?_, Or.inl rfl⟩
    rw [SortedMap.get?_insert, if_pos rfl]
  exact ⟨m, rfl, parseLoop_invariant (fun hp hm => hm.insert _ (parseEntry_entry hp).2.2) hnew hm⟩

theorem allEntries_treeOf (m : SortedMap Str InitEntry) :
    (treeOf m).allEntries = setChildren (createParentDirs m) := rfl

/-- A parsed archive without a regular file at `/` is a tree, with a directory at `/`. -/
theorem parse_isTree {data : List UInt8} {f : InitramfsFs} (h : InitramfsFs.parse data = some f)
    (hroot : ∀ e, f.allEntries.get? ['/'] = some e → e.kind ≠ .regular) :
    f.IsTree ∧ f.root.kind = .directory ∧ ∃ d, f.allEntries.get? ['/'] = some d ∧ d.kind = .directory := by
  obtain ⟨m, rfl, e, he, hk⟩ := parse_treeOf h
  have hparents : (createParentDirs m).get? ['/'] = some e := by
    rw [get?_createParentDirs, he]
    rfl
  have hall : (treeOf m).allEntries.get? ['/'] = some (if e.kind = .directory then
      { e with children := computeChildren (createParentDirs m) ['/'] } else e) := by
    rw [allEntries_treeOf, get?_setChildren, hparents]
    rfl
  have hd : e.kind = .directory := by
    rcases hk with hk | hk
    · exact hk
    · rw [if_neg (by rw [hk]; decide)] at hall
      exact absurd hk (hroot e hall)
  rw [if_pos hd] at hall
  exact ⟨isTree_treeOf hparents hd, rfl, _, hall, hd⟩

/-! ### The two lookups -/

/-- On a tree with a directory at `/`, the entry at a path is the one in the map of all entries, up to its kind. -/
private theorem dir_entryAt {f : InitramfsFs} (hr : f.root.kind = .directory)
    (hroot : ∃ d, f.allEntries.get? ['/'] = some d ∧ d.kind = .directory) (ds : List Str) :
    (∃ d, f.entryAt ds = some d ∧ d.kind = .directory) ↔
      ∃ d, f.allEntries.get? (canonical '/' ds) = some d ∧ d.kind = .directory := by
  unfold InitramfsFs.entryAt
  by_cases hds : ds = []
  · subst hds
    exact ⟨fun _ => hroot, fun _ => ⟨f.root, rfl, hr⟩⟩
  · rw [if_neg hds]

/-- Walking from the root finds what `lookup_path` finds if every proper prefix of the path is a directory, and only
then; past a regular file the walk answers `NotADirectory` or `NotFound`. -/
theorem lookups_agree {data : List UInt8} {f : InitramfsFs} (hf : InitramfsFs.parse data = some f)
    (hroot : ∀ e, f.allEntries.get? ['/'] = some e → e.kind ≠ .regular) {p : Str} (hp : p.head? = some '/') :
    ∃ root, f.lookupPath ['/'] = .ok root ∧
      (∀ v, (VfsTree.new.mount ['/'] root).lookup p = .ok v ↔
        f.lookupPath p = .ok v ∧ ∀ ds, ds <+: parts '/' p → ds ≠ parts '/' p →
          ∃ d, f.allEntries.get? (canonical '/' ds) = some d ∧ d.kind = .directory) ∧
      ((∃ ds d, ds <+: parts '/' p ∧ ds ≠ parts '/' p ∧ f.allEntries.get? (canonical '/' ds) = some d ∧
          d.kind = .regular) →
        (VfsTree.new.mount ['/'] root).lookup p = .error .notADirectory ∨
          (VfsTree.new.mount ['/'] root).lookup p = .error .notFound) := by
  obtain ⟨htree, hr, hdir⟩ := parse_isTree hf hroot
  have hv : Valid '/' (parts '/' p) := valid_parts p
  have hr₀ : f.entryAt [] = some f.root := rfl
  have hpath : f.lookupPath p = f.lookupPath (canonical '/' (parts '/' p)) := by
    unfold InitramfsFs.lookupPath
    rw [initramfs_normalizePath_eq hp, initramfs_normalizePath_eq (head?_canonical _), parts_canonical hv]
  rw [f.lookupPath_canonical hv] at hpath
  refine ⟨f.vnodeAt [] f.root, f.lookupPath_canonical valid_nil, fun v => ?_, fun hreg => ?_⟩
  · rw [lookup_mounted, hpath]
    simp only [← dir_entryAt hr hdir]
    constructor
    · intro hw
      obtain ⟨e, he, rfl⟩ := InitramfsFs.walk_vnodeAt htree valid_nil hr₀ hv hw
      rw [List.nil_append] at he ⊢
      rw [he]
      exact ⟨rfl, InitramfsFs.walk_vnodeAt_dirs htree valid_nil hr₀ hv hw⟩
    · intro h
      obtain ⟨hv', hdirs⟩ := h
      cases he : f.entryAt (parts '/' p) with
      | none =>
        rw [he] at hv'
        cases hv'
      | some e =>
        rw [he] at hv'
        cases hv'
        exact InitramfsFs.walk_vnodeAt_ok htree valid_nil hr₀ hv hdirs he
  · -- a walk that succeeds passes directories only
    obtain ⟨ds, d, hds, hne, hget, hk⟩ := hreg
    rw [lookup_mounted]
    cases hw : VfsTree.walk (f.vnodeAt [] f.root) (parts '/' p) with
    | ok v =>
      have hd := InitramfsFs.walk_vnodeAt_dirs htree valid_nil hr₀ hv hw ds hds hne
      rw [List.nil_append, dir_entryAt hr hdir, hget] at hd
      obtain ⟨d', hd', hk'⟩ := hd
      cases hd'
      rw [hk] at hk'
      cases hk'
    | error x =>
      rcases InitramfsFs.walk_vnodeAt_error htree valid_nil hr₀ hv hw with rfl | rfl
      · exact Or.inl rfl
      · exact Or.inr rfl

/-- The theorem at `/usr/bin/net-server`, which both lookups find, at `/usr/bin/tar`, which neither finds, and at the
path of something below the regular file `/init`. -/
theorem lookups_agree_boot :
    ∃ f root v, InitramfsFs.parse (archiveOf bootFiles) = some f ∧ f.lookupPath ['/'] = .ok root ∧
      f.lookupPath "/usr/bin/net-server".toList = .ok v ∧
      (VfsTree.new.mount ['/'] root).lookup "/usr/bin/net-server".toList = .ok v ∧
      (∀ v', (VfsTree.new.mount ['/'] root).lookup "/usr/bin/tar".toList ≠ .ok v') ∧
      ((VfsTree.new.mount ['/'] root).lookup "/init/x".toList = .error .notADirectory ∨
        (VfsTree.new.mount ['/'] root).lookup "/init/x".toList = .error .notFound) := by
  have h := archivable_bootFiles
  have hinit : (["init".toList], [0x7F, 0x45, 0x4C, 0x46]) ∈ bootFiles := by decide
  have hserver : (["usr".toList, "bin".toList, "net-server".toList], [0x7F, 0x45]) ∈ bootFiles := by decide
  obtain ⟨hne, hvalid⟩ := h.named _ hserver
  have hroot : ∀ e, (treeOf (Archivable.entries bootFiles)).allEntries.get? ['/'] = some e → e.kind ≠ .regular := by
    intro e he
    rw [allEntries_treeOf, get?_setChildren, ← Archivable.dirs, h.get?_dirs_root] at he
    cases he
    decide
  have htree := h.isTree
  have hparse := h.parse_eq
  obtain ⟨ch, hat⟩ := h.entryAt_file hserver
  have hdirs := fun ds (hp : ds <+: _) hne => h.entryAt_prefix hserver hp hne
  obtain ⟨ch', hfile⟩ := h.entryAt_file hinit
  have htar : (treeOf (Archivable.entries bootFiles)).entryAt ["usr".toList, "bin".toList, "tar".toList] = none := by
    refine Option.eq_none_iff_forall_ne_some.2 fun e he => ?_
    obtain ⟨g, hg, hpre⟩ := h.entryAt_some (by unfold Valid; decide) (by decide) he
    revert g
    decide
  generalize treeOf (Archivable.entries bootFiles) = f at *
  obtain ⟨-, hr, hdir⟩ := parse_isTree hparse hroot
  obtain ⟨root, hrt, hagree, -⟩ := lookups_agree hparse hroot (p := "/usr/bin/net-server".toList) (by decide)
  obtain ⟨root', hrt', hagree', -⟩ := lookups_agree hparse hroot (p := "/usr/bin/tar".toList) (by decide)
  obtain ⟨root'', hrt'', -, hreg⟩ := lookups_agree hparse hroot (p := "/init/x".toList) (by decide)
  cases hrt.symm.trans hrt'
  cases hrt.symm.trans hrt''
  have hlook := f.lookupPath_canonical hvalid
  rw [hat] at hlook
  refine ⟨f, root, _, hparse, hrt, hlook, (hagree _).2 ⟨hlook, fun ds hp hne => ?_⟩, fun v' hv' => ?_, hreg ?_⟩
  · obtain ⟨ch, hd⟩ := hdirs ds hp hne
    exact (dir_entryAt hr hdir ds).1 ⟨_, hd, rfl⟩
  · have hlook' := f.lookupPath_canonical
      (show Valid '/' ["usr".toList, "bin".toList, "tar".toList] by unfold Valid; decide)
    rw [htar] at hlook'
    cases ((hagree' v').1 hv').1.symm.trans hlook'
  · rw [InitramfsFs.entryAt, if_neg (by decide)] at hfile
    exact ⟨["init".toList], _, by decide, by decide, hfile, rfl⟩

end Hammam
