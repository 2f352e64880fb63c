import Hammam.Vfs.Newc
import Hammam.Vfs.Directory

/-!
# The tree of an archive

`parse` stores a member under its name as it stands in the archive, and makes directories for the components behind
the first `/` of the name.  A lookup asks for absolute paths: what it finds there is a member with that name, a
directory that was made, or nothing (`entryAt_cases`).
-/

namespace Hammam

open SlashPath Initramfs

namespace Newc

/-- The kind that a mode stands for, if it is one of those that there are in the file system. -/
def kindOfMode (mode : Nat) : Option FileKind :=
  if mode &&& 0xF000 = 0x4000 then some .directory
  else if mode &&& 0xF000 = 0x8000 then some .regular
  else if mode &&& 0xF000 = 0xA000 then some .symLink
  else none

namespace Member

/-- The components of the name. -/
def path (r : Member) : List Str := parts '/' r.name

def IsDir (r : Member) : Prop := kindOfMode r.mode = some .directory

def Slashed (r : Member) : Prop := r.name.head? = some '/'

instance (r : Member) : Decidable r.IsDir := inferInstanceAs (Decidable (_ = _))

instance (r : Member) : Decidable r.Slashed := inferInstanceAs (Decidable (_ = _))

/-- The components behind the first `/` of the name. -/
def behindSlash (r : Member) : List Str := if r.Slashed then r.path else r.path.tail

end Member

/-- The names are paths, with or without a leading `/`; directories have no data; and no file is a path prefix of
another entry. -/
structure WellFormed (rs : List Member) : Prop where
  named : ∀ r ∈ rs, r.name = canonical '/' r.path ∨ '/' :: r.name = canonical '/' r.path
  empty : ∀ r ∈ rs, r.IsDir → r.data = []
  noPrefix : ∀ r ∈ rs, ∀ s ∈ rs, ¬ r.IsDir → r.path <+: s.path → r = s

end Newc

open Newc

/-! ### Names and paths -/

theorem parts_dropWhile (p : Str) : parts '/' (p.dropWhile (· = '/')) = parts '/' p := by
  induction p with
  | nil => rfl
  | cons x p ih =>
    by_cases hx : x = '/'
    · rw [hx, List.dropWhile_cons_of_pos (by simp), ih, parts_cons_sep]
    · rw [List.dropWhile_cons_of_neg (by simpa using hx)]

/-- No name but an absolute one starts with `/`. -/
private theorem head?_tail_canonical {cs : List Str} (hv : Valid '/' cs) :
    (canonical '/' cs).tail.head? ≠ some '/' := by
  cases cs with
  | nil => decide
  | cons c cs =>
    obtain ⟨⟨hne, hs⟩, -⟩ := hv.cons
    obtain ⟨x, c, rfl⟩ := List.exists_cons_of_ne_nil hne
    intro h
    obtain rfl : x = '/' := Option.some.inj h
    simp at hs

/-- What `create_parent_dirs` goes through is what stands behind the first `/`. -/
theorem filter_drop_splitOn_name (r : Member) :
    ((r.name.splitOn '/').drop 1).filter (· ≠ []) = r.behindSlash := by
  unfold Member.behindSlash Member.path
  split
  · next hr =>
    obtain ⟨x, p, hp⟩ : ∃ x p, r.name = x :: p := by
      cases hname : r.name with
      | nil =>
        rw [Member.Slashed, hname] at hr
        cases hr
      | cons x p => exact ⟨x, p, rfl⟩
    rw [Member.Slashed, hp] at hr
    obtain rfl : x = '/' := Option.some.inj hr
    rw [hp]
    exact filter_drop_splitOn p
  · next hr =>
    rw [Member.Slashed] at hr
    generalize r.name = p at hr
    cases p with
    | nil => rfl
    | cons x p =>
      have hx : x ≠ '/' := fun e => hr (by rw [e]; rfl)
      obtain ⟨c, cs, hsplit⟩ := List.exists_cons_of_ne_nil (List.splitOn_ne_nil '/' p)
      rw [parts, List.splitOn_cons_eq_if_modifyHead, if_neg (by simpa using hx), hsplit]
      simp

/-- The paths for which `create_parent_dirs` makes directories. -/
theorem mem_parentPaths_name {r : Member} (hr : r.name ≠ trailer) {k : Str} :
    k ∈ parentPaths r.name ↔ ∃ ds, ds ≠ [] ∧ ds <+: r.behindSlash ∧ k = join '/' ds := by
  unfold parentPaths
  split
  · next h =>
    have hroot : r.behindSlash = [] := by
      rw [← filter_drop_splitOn_name, h.resolve_right hr]
      rfl
    rw [hroot]
    constructor
    · intro hk
      cases hk
    · rintro ⟨ds, hne, hp, -⟩
      exact absurd (List.prefix_nil.1 hp) hne
  · rw [mem_prefixPaths, filter_drop_splitOn_name]
    simp only [List.nil_append]

theorem Newc.Member.valid_path (r : Member) : Valid '/' r.path := valid_parts r.name

theorem Newc.Member.valid_tail (r : Member) : Valid '/' r.path.tail :=
  fun c hc => r.valid_path c (List.mem_of_mem_tail hc)

theorem isDir_iff (r : Member) : r.IsDir ↔ r.entry.kind = .directory := by
  unfold Member.IsDir kindOfMode Member.entry
  split
  · simp
  · simp only [reduceCtorEq, iff_false]
    split
    · simp
    · split <;> simp

namespace Newc.WellFormed

variable {rs : List Member}

theorem name_eq (h : WellFormed rs) {r : Member} (hr : r ∈ rs) (hs : r.Slashed) : r.name = canonical '/' r.path := by
  refine (h.named r hr).resolve_right fun hname => ?_
  have hhead := head?_tail_canonical r.valid_path
  rw [← hname] at hhead
  exact hhead hs

theorem slashed_iff (h : WellFormed rs) {r : Member} (hr : r ∈ rs) {cs : List Str} (hv : Valid '/' cs) :
    r.name = canonical '/' cs ↔ r.Slashed ∧ r.path = cs := by
  constructor
  · intro hname
    rw [Member.Slashed, Member.path, hname, parts_canonical hv]
    exact ⟨head?_canonical cs, rfl⟩
  · rintro ⟨hs, rfl⟩
    exact h.name_eq hr hs

theorem entry_dir (h : WellFormed rs) {r : Member} (hr : r ∈ rs) (hd : r.IsDir) : r.entry = emptyDir := by
  have hk := (isDir_iff r).1 hd
  unfold Member.entry at hk ⊢
  simp only at hk
  rw [hk, h.empty r hr hd]
  rfl

/-- Entries with the same path are the same for `parse`. -/
theorem entry_eq (h : WellFormed rs) {r s : Member} (hr : r ∈ rs) (hs : s ∈ rs) (hpath : r.path = s.path) :
    r.entry = s.entry := by
  by_cases hd : r.IsDir
  · by_cases hd' : s.IsDir
    · rw [h.entry_dir hr hd, h.entry_dir hs hd']
    · rw [h.noPrefix s hs r hr hd' (hpath ▸ List.prefix_refl _)]
  · rw [h.noPrefix r hr s hs hd (hpath ▸ List.prefix_refl _)]

/-! ### The entries -/

/-- The entries that the loop of `parse` finds. -/
def entries (rs : List Member) : SortedMap Str InitEntry :=
  insertMembers rs (SortedMap.empty.insert ['/'] emptyDir)

theorem get?_entries (h : WellFormed rs) (k : Str) (e : InitEntry) :
    (entries rs).get? k = some e ↔
      (∃ r ∈ rs, r.name = k ∧ r.entry = e) ∨ ((∀ r ∈ rs, r.name ≠ k) ∧ k = ['/'] ∧ e = emptyDir) := by
  have hagree : ∀ r ∈ rs, ∀ s ∈ rs, r.name = s.name → r.entry = s.entry :=
    fun r hr s hs hname => h.entry_eq hr hs (by rw [Member.path, Member.path, hname])
  rw [entries, insertMembers, SortedMap.get?_foldl_insert hagree, SortedMap.get?_insert]
  by_cases hk : k = ['/']
  · simp [hk, eq_comm]
  · simp [hk]

/-- The entry of an absolute name. -/
theorem get?_entries_canonical (h : WellFormed rs) {cs : List Str} (hv : Valid '/' cs) (hcs : cs ≠ [])
    (e : InitEntry) :
    (entries rs).get? (canonical '/' cs) = some e ↔ ∃ r ∈ rs, (r.Slashed ∧ r.path = cs) ∧ r.entry = e := by
  have hroot := canonical_ne_root hv hcs
  simp only [h.get?_entries, hroot, false_and, and_false, or_false]
  refine exists_congr fun r => and_congr_right fun hr => ?_
  rw [h.slashed_iff hr hv]

theorem get?_entries_root (h : WellFormed rs) (hroot : ∀ r ∈ rs, r.path = [] → r.IsDir) :
    (entries rs).get? ['/'] = some emptyDir := by
  rw [h.get?_entries]
  by_cases hex : ∃ r ∈ rs, r.name = ['/']
  · obtain ⟨r, hr, hname⟩ := hex
    have hd : r.IsDir := hroot r hr (by rw [Member.path, hname]; rfl)
    exact Or.inl ⟨r, hr, hname, h.entry_dir hr hd⟩
  · exact Or.inr ⟨fun r hr hname => hex ⟨r, hr, hname⟩, rfl, rfl⟩

/-- The paths behind the first `/` of a name. -/
def Known (rs : List Member) (cs : List Str) : Prop := ∃ r ∈ rs, cs <+: r.behindSlash

theorem mem_parents (h : WellFormed rs) (ht : ∀ r ∈ rs, r.name ≠ trailer) {cs : List Str} (hv : Valid '/' cs)
    (hcs : cs ≠ []) : canonical '/' cs ∈ (entries rs).keys.flatMap parentPaths ↔ Known rs cs := by
  have hjoin : canonical '/' cs = join '/' cs := if_neg hcs
  rw [List.mem_flatMap]
  constructor
  · rintro ⟨k, hk, hmem⟩
    obtain ⟨e, he⟩ := SortedMap.mem_keys.1 hk
    rcases (h.get?_entries k e).1 he with ⟨r, hr, rfl, -⟩ | ⟨-, rfl, -⟩
    · obtain ⟨ds, hne, hp, hds⟩ := (mem_parentPaths_name (ht r hr)).1 hmem
      have hvr : Valid '/' r.behindSlash := by
        unfold Member.behindSlash
        split
        · exact r.valid_path
        · exact r.valid_tail
      have hcanon : canonical '/' ds = join '/' ds := if_neg hne
      rw [← hcanon] at hds
      exact ⟨r, hr, canonical_injective hv (hvr.mono hp) hds ▸ hp⟩
    · cases hmem
  · rintro ⟨r, hr, hp⟩
    have hget : (entries rs).get? r.name = some r.entry := (h.get?_entries _ _).2 (Or.inl ⟨r, hr, rfl, rfl⟩)
    exact ⟨r.name, SortedMap.mem_keys.2 ⟨_, hget⟩, (mem_parentPaths_name (ht r hr)).2 ⟨cs, hcs, hp, hjoin⟩⟩

/-- What there is at a path: an entry with that absolute name, a directory that `create_parent_dirs` has made, or
nothing. -/
theorem entryAt_cases (h : WellFormed rs) (ht : ∀ r ∈ rs, r.name ≠ trailer) {cs : List Str} (hv : Valid '/' cs)
    (hcs : cs ≠ []) :
    (∃ r ∈ rs, (r.Slashed ∧ r.path = cs) ∧
      ∃ ch, (treeOf (entries rs)).entryAt cs = some ⟨r.entry.kind, r.data, ch⟩) ∨
    ((∀ r ∈ rs, ¬ (r.Slashed ∧ r.path = cs)) ∧ Known rs cs ∧
      ∃ ch, (treeOf (entries rs)).entryAt cs = some ⟨.directory, [], ch⟩) ∨
    ((∀ r ∈ rs, ¬ (r.Slashed ∧ r.path = cs)) ∧ ¬ Known rs cs ∧ (treeOf (entries rs)).entryAt cs = none) := by
  rw [entryAt_setChildren rfl hcs, get?_createParentDirs]
  have hmem := h.mem_parents ht hv hcs
  by_cases hex : ∃ r ∈ rs, r.Slashed ∧ r.path = cs
  · obtain ⟨r, hr, hrcs⟩ := hex
    refine Or.inl ⟨r, hr, hrcs, ?_⟩
    rw [(h.get?_entries_canonical hv hcs r.entry).2 ⟨r, hr, hrcs, rfl⟩, Option.some_or, Option.map_some]
    split
    · exact ⟨_, rfl⟩
    · exact ⟨[], rfl⟩
  · have hno : ∀ r ∈ rs, ¬ (r.Slashed ∧ r.path = cs) := fun r hr hrcs => hex ⟨r, hr, hrcs⟩
    have hnone : (entries rs).get? (canonical '/' cs) = none := by
      refine Option.eq_none_iff_forall_ne_some.2 fun e he => ?_
      obtain ⟨r, hr, hrcs, -⟩ := (h.get?_entries_canonical hv hcs e).1 he
      exact hno r hr hrcs
    rw [hnone, Option.none_or]
    by_cases hknown : Known rs cs
    · rw [if_pos (hmem.2 hknown)]
      exact Or.inr (Or.inl ⟨hno, hknown, _, rfl⟩)
    · rw [if_neg fun hk => hknown (hmem.1 hk)]
      exact Or.inr (Or.inr ⟨hno, hknown, rfl⟩)

/-! ### Lookups -/

/-- The vnode that is mounted. -/
def treeRoot (rs : List Member) : InitramfsVnode := (treeOf (entries rs)).vnodeAt [] (treeOf (entries rs)).root

theorem isTree (h : WellFormed rs) (hroot : ∀ r ∈ rs, r.path = [] → r.IsDir) : (treeOf (entries rs)).IsTree := by
  refine isTree_treeOf (e := emptyDir) ?_ rfl
  rw [get?_createParentDirs, h.get?_entries_root hroot]
  rfl

/-- A path that resolves stands behind the first `/` of a name. -/
theorem known_of_walk (h : WellFormed rs) (ht : ∀ r ∈ rs, r.name ≠ trailer)
    (hroot : ∀ r ∈ rs, r.path = [] → r.IsDir) {cs : List Str} (hv : Valid '/' cs) (hcs : cs ≠ []) {v : InitramfsVnode}
    (hw : VfsTree.walk (treeRoot rs) cs = .ok v) :
    (∃ r ∈ rs, (r.Slashed ∧ r.path = cs) ∧ v.fs.kind = r.entry.kind ∧ v.fs.data = r.data) ∨
      ((∀ r ∈ rs, ¬ (r.Slashed ∧ r.path = cs)) ∧ Known rs cs ∧ v.fs.kind = .directory ∧ v.fs.data = []) := by
  obtain ⟨e, he, rfl⟩ := InitramfsFs.walk_vnodeAt (h.isTree hroot) valid_nil rfl hv hw
  rw [List.nil_append] at he
  rcases h.entryAt_cases ht hv hcs with ⟨r, hr, hrcs, ch, hat⟩ | ⟨hno, hknown, ch, hat⟩ | ⟨-, -, hat⟩
  · rw [hat] at he
    cases he
    exact Or.inl ⟨r, hr, hrcs, rfl, rfl⟩
  · rw [hat] at he
    cases he
    exact Or.inr ⟨hno, hknown, rfl, rfl⟩
  · rw [hat] at he
    cases he

/-- A path behind the first `/` of a name resolves if there is no file above it. -/
theorem walk_of_known (h : WellFormed rs) (ht : ∀ r ∈ rs, r.name ≠ trailer)
    (hroot : ∀ r ∈ rs, r.path = [] → r.IsDir) {cs : List Str} (hv : Valid '/' cs) (hknown : Known rs cs)
    (hfile : ∀ r ∈ rs, r.Slashed → ¬ r.IsDir → r.path <+: cs → r.path = cs) :
    ∃ v, VfsTree.walk (treeRoot rs) cs = .ok v := by
  have hentry : ∀ ds, ds <+: cs → ds ≠ [] → ∃ e, (treeOf (entries rs)).entryAt ds = some e ∧
      (ds ≠ cs → e.kind = .directory) := by
    intro ds hds hne
    have hknown' : Known rs ds := by
      obtain ⟨r, hr, hp⟩ := hknown
      exact ⟨r, hr, hds.trans hp⟩
    rcases h.entryAt_cases ht (hv.mono hds) hne with ⟨r, hr, ⟨hs, rfl⟩, ch, hat⟩ | ⟨-, -, ch, hat⟩ | ⟨-, hno, -⟩
    · refine ⟨_, hat, fun hne' => ?_⟩
      by_contra hd
      exact hne' (hfile r hr hs (fun hdir => hd ((isDir_iff r).1 hdir)) hds)
    · exact ⟨_, hat, fun _ => rfl⟩
    · exact absurd hknown' hno
  by_cases hcs : cs = []
  · rw [hcs]
    exact ⟨treeRoot rs, rfl⟩
  · obtain ⟨e, he, -⟩ := hentry cs (List.prefix_refl _) hcs
    refine ⟨_, InitramfsFs.walk_vnodeAt_ok (h.isTree hroot) valid_nil rfl hv (fun ds hds hne => ?_) he⟩
    rw [List.nil_append]
    by_cases hds' : ds = []
    · rw [hds']
      exact ⟨_, rfl, rfl⟩
    · obtain ⟨d, hd, hk⟩ := hentry ds hds hds'
      exact ⟨d, hd, hk hne⟩

/-- A path that resolves does not lead past a file. -/
theorem no_file_above (h : WellFormed rs) (ht : ∀ r ∈ rs, r.name ≠ trailer)
    (hroot : ∀ r ∈ rs, r.path = [] → r.IsDir) {cs : List Str} (hv : Valid '/' cs) {v : InitramfsVnode}
    (hw : VfsTree.walk (treeRoot rs) cs = .ok v) {r : Member} (hr : r ∈ rs) (hs : r.Slashed) (hd : ¬ r.IsDir)
    (hp : r.path <+: cs) : r.path = cs := by
  by_contra hne
  obtain ⟨e, he, hk⟩ := InitramfsFs.walk_vnodeAt_dirs (h.isTree hroot) valid_nil rfl hv hw r.path hp hne
  rw [List.nil_append] at he
  have hpath : r.path ≠ [] := fun hpath => hd (hroot r hr hpath)
  rcases h.entryAt_cases ht (hv.mono hp) hpath with ⟨s, hs', ⟨-, hsr⟩, ch, hat⟩ | ⟨hno, -⟩ | ⟨hno, -⟩
  · rw [hat] at he
    cases he
    rw [h.entry_eq hs' hr hsr] at hk
    exact hd ((isDir_iff r).2 hk)
  · exact hno r hr ⟨hs, rfl⟩
  · exact hno r hr ⟨hs, rfl⟩

end Newc.WellFormed

/-! ### Parsing -/

theorem Newc.IsArchive.ne_trailer {rs : List Member} {data : List UInt8} (h : IsArchive rs data) :
    ∀ r ∈ rs, r.name ≠ Initramfs.trailer := by
  induction h with
  | trailer => simp
  | member _ hname _ ih =>
    intro r hr
    rcases List.mem_cons.1 hr with rfl | hr
    · exact hname
    · exact ih r hr

/-- `parse` makes the tree of the members of an archive. -/
theorem Newc.IsArchive.parse_eq {rs : List Member} {data : List UInt8} (h : IsArchive rs data) :
    InitramfsFs.parse data = some (treeOf (WellFormed.entries rs)) :=
  parse_eq_some.2 ⟨WellFormed.entries rs, @parseLoop_newc _ _ h [] rfl _ (Nat.lt_succ_self _) _, rfl⟩

end Hammam
