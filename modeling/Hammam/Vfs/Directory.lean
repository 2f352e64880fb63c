import Hammam.Vfs.Initramfs

/-!
# The directories of the initramfs

What `parse` does after its loop: `create_parent_dirs` adds a directory for every path prefix that has no entry
(`get?_createParentDirs`), and every directory gets the list of its children (`get?_setChildren`).  When all the
paths are canonical, the children of a directory are the components by which its path can be extended
(`mem_computeChildren`).
-/

namespace Hammam

open SlashPath Initramfs

/-! ### Parent directories -/

/-- Add a directory, unless the path has an entry. -/
def addDir (m : SortedMap Str InitEntry) (path : Str) : SortedMap Str InitEntry :=
  if m.contains path then m else m.insert path emptyDir

/-- The paths that the inner loop of `create_parent_dirs` visits. -/
def prefixPaths : Str → List Str → List Str
  | _, [] => []
  | current, c :: cs =>
    if c.isEmpty then prefixPaths current cs else (current ++ '/' :: c) :: prefixPaths (current ++ '/' :: c) cs

/-- The paths that `create_parent_dirs` visits for one entry. -/
def parentPaths (path : Str) : List Str :=
  if path = ['/'] ∨ path = trailer then [] else prefixPaths [] ((path.splitOn '/').drop 1)

theorem get?_addDir (m : SortedMap Str InitEntry) (path k : Str) :
    (addDir m path).get? k = (m.get? k).or (if k = path then some emptyDir else none) := by
  unfold addDir
  split
  · rename_i hc
    obtain ⟨v, hv⟩ := SortedMap.contains_iff.1 hc
    split
    · rename_i hk
      rw [hk, hv]
      rfl
    · rw [Option.or_none]
  · rename_i hc
    rw [SortedMap.get?_insert]
    split
    · rename_i hk
      have hnone : m.get? k = none := by
        refine Option.eq_none_iff_forall_ne_some.2 fun v hv => hc ?_
        exact SortedMap.contains_iff.2 ⟨v, hk ▸ hv⟩
      rw [hnone]
      rfl
    · rw [Option.or_none]

theorem get?_foldl_addDir (paths : List Str) (m : SortedMap Str InitEntry) (k : Str) :
    (paths.foldl addDir m).get? k = (m.get? k).or (if k ∈ paths then some emptyDir else none) := by
  induction paths generalizing m with
  | nil => simp
  | cons p ps ih =>
    rw [List.foldl_cons, ih, get?_addDir, Option.or_assoc]
    congr 1
    by_cases hk : k = p
    · simp [hk]
    · simp [hk]

private theorem createParents_eq (cs : List Str) (current : Str) (m : SortedMap Str InitEntry) :
    createParents cs current m = (prefixPaths current cs).foldl addDir m := by
  induction cs generalizing current m with
  | nil => rfl
  | cons c cs ih =>
    unfold createParents prefixPaths
    split
    · exact ih current m
    · exact ih _ _

/-- `create_parent_dirs` keeps the entries and adds the missing parents. -/
theorem get?_createParentDirs (m : SortedMap Str InitEntry) (k : Str) :
    (createParentDirs m).get? k =
      (m.get? k).or (if k ∈ m.keys.flatMap parentPaths then some emptyDir else none) := by
  have e : createParentDirs m = (m.keys.flatMap parentPaths).foldl addDir m := by
    rw [List.foldl_flatMap]
    unfold createParentDirs
    congr 1
    funext entries path
    unfold parentPaths
    split
    · rfl
    · exact createParents_eq _ _ _
  rw [e, get?_foldl_addDir]

theorem mem_prefixPaths {cs : List Str} {current k : Str} :
    k ∈ prefixPaths current cs ↔ ∃ ds, ds ≠ [] ∧ ds <+: cs.filter (· ≠ []) ∧ k = current ++ join '/' ds := by
  induction cs generalizing current with
  | nil => simp [prefixPaths]
  | cons c cs ih =>
    unfold prefixPaths
    split
    · rename_i hc
      rw [ih, List.filter_cons_of_neg (by simpa using hc)]
    · rename_i hc
      rw [List.mem_cons, ih, List.filter_cons_of_pos (by simpa using hc)]
      constructor
      · rintro (rfl | ⟨ds, hne, hp, rfl⟩)
        · exact ⟨[c], by simp, ⟨_, rfl⟩, by simp⟩
        · exact ⟨c :: ds, by simp, List.cons_prefix_cons.2 ⟨rfl, hp⟩, by simp⟩
      · intro h
        obtain ⟨ds, hne, hp, rfl⟩ := h
        obtain ⟨d, ds, rfl⟩ := List.exists_cons_of_ne_nil hne
        obtain ⟨rfl, hp'⟩ := List.cons_prefix_cons.1 hp
        by_cases hds : ds = []
        · left
          simp [hds]
        · exact Or.inr ⟨ds, hds, hp', by simp⟩

theorem filter_drop_splitOn (p : Str) : ((('/' :: p).splitOn '/').drop 1).filter (· ≠ []) = parts '/' ('/' :: p) := by
  rw [parts_cons_sep, List.splitOn_cons_eq_if_modifyHead]
  rfl

/-! ### Children -/

/-- One step of the loop that stores the children. -/
private def setChild (acc : SortedMap Str InitEntry) (p : Str × List Str) : SortedMap Str InitEntry :=
  match acc.get? p.1 with
  | none => acc
  | some e => acc.insert p.1 { e with children := p.2 }

private theorem get?_setChild (m : SortedMap Str InitEntry) (p : Str × List Str) (k : Str) :
    (setChild m p).get? k = if k = p.1 then (m.get? k).map ({ · with children := p.2 }) else m.get? k := by
  unfold setChild
  split
  · rename_i h
    split
    · rename_i hk
      rw [hk, h]
      rfl
    · rfl
  · rename_i e h
    rw [SortedMap.get?_insert]
    split
    · rename_i hk
      rw [hk, h]
      rfl
    · rfl

private theorem get?_foldl_setChild_of_not_mem {ps : List (Str × List Str)} {k : Str} (hk : k ∉ ps.map Prod.fst)
    (m : SortedMap Str InitEntry) : (ps.foldl setChild m).get? k = m.get? k := by
  induction ps generalizing m with
  | nil => rfl
  | cons p ps ih =>
    rw [List.map_cons, List.mem_cons, not_or] at hk
    rw [List.foldl_cons, ih hk.2, get?_setChild, if_neg hk.1]

private theorem get?_foldl_setChild {ps : List (Str × List Str)} (hn : (ps.map Prod.fst).Nodup)
    {p : Str × List Str} (hp : p ∈ ps) (m : SortedMap Str InitEntry) :
    (ps.foldl setChild m).get? p.1 = (m.get? p.1).map ({ · with children := p.2 }) := by
  induction ps generalizing m with
  | nil => cases hp
  | cons q ps ih =>
    rw [List.map_cons, List.nodup_cons] at hn
    rw [List.foldl_cons]
    rcases List.mem_cons.1 hp with rfl | hp
    · rw [get?_foldl_setChild_of_not_mem hn.1, get?_setChild, if_pos rfl]
    · have hne : p.1 ≠ q.1 := fun e => hn.1 (e ▸ List.mem_map_of_mem hp)
      rw [ih hn.2 hp, get?_setChild, if_neg hne]

/-- Every directory gets its children, and nothing else changes. -/
theorem get?_setChildren (m : SortedMap Str InitEntry) (k : Str) :
    (setChildren m).get? k = (m.get? k).map fun e =>
      if e.kind = .directory then { e with children := computeChildren m k } else e := by
  have hfst : (dirChildren m).map Prod.fst = (m.entries.filter fun p => p.2.kind = .directory).map Prod.fst := by
    rw [dirChildren, List.map_map]
    rfl
  have hnodup : ((dirChildren m).map Prod.fst).Nodup := by
    rw [hfst]
    exact m.nodup_keys.sublist (List.filter_sublist.map Prod.fst)
  have hset : setChildren m = (dirChildren m).foldl setChild m := rfl
  by_cases hk : ∃ e, m.get? k = some e ∧ e.kind = .directory
  · obtain ⟨e, he, hd⟩ := hk
    have hmem : (k, computeChildren m k) ∈ dirChildren m :=
      List.mem_map.2 ⟨(k, e), List.mem_filter.2 ⟨SortedMap.get?_eq_some.1 he, by simpa using hd⟩, rfl⟩
    rw [hset, get?_foldl_setChild hnodup hmem, he]
    simp [hd]
  · have hnot : k ∉ (dirChildren m).map Prod.fst := by
      rw [hfst]
      intro hmem
      obtain ⟨p, hp, rfl⟩ := List.mem_map.1 hmem
      obtain ⟨hp, hd⟩ := List.mem_filter.1 hp
      exact hk ⟨p.2, SortedMap.get?_eq_some.2 hp, by simpa using hd⟩
    rw [hset, get?_foldl_setChild_of_not_mem hnot]
    cases he : m.get? k with
    | none => rfl
    | some e =>
      have hd : e.kind ≠ .directory := fun hd => hk ⟨e, he, hd⟩
      simp [hd]

private theorem child_root {k c : Str} :
    (isChildOf k ['/'] = true ∧ getRelativeName k ['/'] = c ∧ c ≠ []) ↔ k = '/' :: c ∧ '/' ∉ c ∧ c ≠ [] := by
  rw [isChildOf, getRelativeName, if_pos rfl, if_pos rfl]
  constructor
  · intro h
    obtain ⟨h1, rfl, hne⟩ := h
    cases k with
    | nil => cases h1
    | cons x k => simp_all
  · intro h
    obtain ⟨rfl, hs, hne⟩ := h
    simp [hs, hne]

private theorem child_nonroot {P : Str} (hroot : P ≠ ['/']) {k c : Str} :
    (isChildOf k P = true ∧ getRelativeName k P = c ∧ c ≠ []) ↔ k = P ++ '/' :: c ∧ '/' ∉ c ∧ c ≠ [] := by
  rw [isChildOf, getRelativeName, if_neg hroot, if_neg hroot]
  constructor
  · intro h
    obtain ⟨h1, h2, hne⟩ := h
    split at h1
    · cases h1
    · rename_i hpre
      obtain ⟨rest, rfl⟩ : P <+: k := by simpa using hpre
      split at h1
      · cases h1
      · rename_i hlen
        simp only [List.drop_left, Bool.and_eq_true, decide_eq_true_eq] at h1
        obtain ⟨hcount, hhead⟩ := h1
        obtain ⟨r, rfl⟩ : ∃ r, rest = '/' :: r := by
          cases rest with
          | nil => cases hhead
          | cons x r => exact ⟨r, by rw [Option.some.inj hhead]⟩
        have hr : '/' ∉ r := by simpa [List.count_eq_zero] using hcount
        have hdrop : (P ++ '/' :: r).drop (P.length + 1) = r := by simp
        have hrel : (P.isPrefixOf (P ++ '/' :: r) && decide ((P ++ '/' :: r).length > P.length)) = true := by simp
        rw [if_pos hrel, hdrop, if_neg (by simpa using hr)] at h2
        exact ⟨by rw [h2], h2 ▸ hr, hne⟩
  · intro h
    obtain ⟨rfl, hs, hne⟩ := h
    simp [hs, hne, List.count_eq_zero]

/-- The path of the child `c` of `P`, as `lookup` builds it. -/
def extendPath (P c : Str) : Str := if P = ['/'] then '/' :: c else P ++ '/' :: c

/-- The children of a path are its extensions by one component. -/
theorem isChildOf_extendPath {P k c : Str} :
    (isChildOf k P = true ∧ getRelativeName k P = c ∧ c ≠ []) ↔ k = extendPath P c ∧ '/' ∉ c ∧ c ≠ [] := by
  unfold extendPath
  split
  · rename_i hP
    rw [hP]
    exact child_root
  · rename_i hP
    exact child_nonroot hP

theorem mem_computeChildren {m : SortedMap Str InitEntry} {P c : Str} :
    c ∈ computeChildren m P ↔ c ≠ [] ∧ '/' ∉ c ∧ ∃ e, m.get? (extendPath P c) = some e := by
  simp only [computeChildren, List.mem_filter, List.mem_map, Bool.not_eq_true', List.isEmpty_eq_false_iff]
  constructor
  · intro h
    obtain ⟨⟨k, ⟨hk, hchild⟩, hrel⟩, hne⟩ := h
    obtain ⟨rfl, hs, -⟩ := isChildOf_extendPath.1 ⟨hchild, hrel, hne⟩
    exact ⟨hne, hs, SortedMap.mem_keys.1 hk⟩
  · intro h
    obtain ⟨hne, hs, hget⟩ := h
    obtain ⟨hchild, hrel, -⟩ := isChildOf_extendPath.2 ⟨rfl, hs, hne⟩
    exact ⟨⟨_, ⟨SortedMap.mem_keys.2 hget, hchild⟩, hrel⟩, hne⟩

theorem canonical_ne_root {ps : List Str} (hp : Valid '/' ps) (hps : ps ≠ []) : canonical '/' ps ≠ ['/'] := by
  exact fun h => hps (canonical_injective hp valid_nil h)

theorem extendPath_canonical {ps : List Str} (hp : Valid '/' ps) (c : Str) :
    extendPath (canonical '/' ps) c = canonical '/' (ps ++ [c]) := by
  have hsnoc : canonical '/' (ps ++ [c]) = join '/' ps ++ '/' :: c := by
    rw [canonical, if_neg (by simp), join_snoc]
  rw [hsnoc, extendPath]
  by_cases hps : ps = []
  · subst hps
    rfl
  · rw [if_neg (canonical_ne_root hp hps), canonical, if_neg hps]

/-! ### The walk -/

private theorem foldl_normalizeStep_initramfs (p acc : Str) (prev : Bool) :
    (p.foldl Initramfs.normalizeStep (acc, prev)).1 = acc ++ squeeze '/' prev p := by
  induction p generalizing acc prev with
  | nil => simp [squeeze]
  | cons ch p ih =>
    rw [List.foldl_cons, Initramfs.normalizeStep]
    by_cases hch : ch = '/'
    · cases prev <;> simp [hch, ih, squeeze]
    · simp [hch, ih, squeeze]

/-- The second normalisation also writes the non-empty components of its argument, but it does not add a separator in
front of them. -/
theorem initramfs_normalizePath_parts (p : Str) :
    Initramfs.normalizePath p =
      if parts '/' p = [] then ['/']
      else if p.head? = some '/' then join '/' (parts '/' p) else (join '/' (parts '/' p)).tail := by
  have hfold := foldl_normalizeStep_initramfs p [] false
  cases p with
  | nil => rfl
  | cons x q =>
    have hne : squeeze '/' false (x :: q) ≠ [] := by
      by_cases hx : x = '/' <;> simp [squeeze, hx]
    simp only [Initramfs.normalizePath, hfold, List.nil_append, List.isEmpty_iff, if_neg hne, trim_squeeze]
    split
    · rename_i hp
      rw [eq_sep_of_parts_nil hp]
      rfl
    · rfl

/-- On absolute paths the second normalisation agrees with the first one. -/
theorem initramfs_normalizePath_eq {p : Str} (h : p.head? = some '/') :
    Initramfs.normalizePath p = canonical '/' (parts '/' p) := by
  rw [initramfs_normalizePath_parts, if_pos h, canonical]

theorem head?_canonical (cs : List Str) : (canonical '/' cs).head? = some '/' := by
  unfold canonical
  split
  · rfl
  · rename_i h
    obtain ⟨c, cs, rfl⟩ := List.exists_cons_of_ne_nil h
    rfl

/-- The entry of a directory tree at the path with the given components. -/
def InitramfsFs.entryAt (f : InitramfsFs) (ps : List Str) : Option InitEntry :=
  if ps = [] then some f.root else f.allEntries.get? (canonical '/' ps)

/-- The vnode of an entry. -/
def InitramfsFs.vnodeAt (f : InitramfsFs) (ps : List Str) (e : InitEntry) : InitramfsVnode := ⟨e, canonical '/' ps, f⟩

theorem InitramfsFs.lookupPath_canonical (f : InitramfsFs) {ps : List Str} (hp : Valid '/' ps) :
    f.lookupPath (canonical '/' ps) =
      match f.entryAt ps with
      | some e => .ok (f.vnodeAt ps e)
      | none => .error .notFound := by
  unfold InitramfsFs.lookupPath InitramfsFs.entryAt
  rw [initramfs_normalizePath_eq (head?_canonical ps), parts_canonical hp]
  by_cases hps : ps = []
  · subst hps
    rfl
  · simp only [if_neg (canonical_ne_root hp hps), if_neg hps]
    cases f.allEntries.get? (canonical '/' ps) <;> rfl

/-- Every directory lists the components by which its path can be extended. -/
structure InitramfsFs.IsTree (f : InitramfsFs) : Prop where
  children : ∀ {ps e}, Valid '/' ps → f.entryAt ps = some e → e.kind = .directory → ∀ c,
    c ∈ e.children ↔ c ≠ [] ∧ '/' ∉ c ∧ ∃ e', f.entryAt (ps ++ [c]) = some e'

namespace InitramfsFs

variable {f : InitramfsFs} {ps cs : List Str} {e : InitEntry}

theorem lookup_vnodeAt (h : f.IsTree) (hp : Valid '/' ps) (he : f.entryAt ps = some e) {c : Str} (hc : c ≠ [])
    (hs : '/' ∉ c) :
    Vnode.lookup (f.vnodeAt ps e) c =
      if e.kind = .directory then
        match f.entryAt (ps ++ [c]) with
        | some e' => .ok (f.vnodeAt (ps ++ [c]) e')
        | none => .error .notFound
      else .error .notADirectory := by
  have hlookup : Vnode.lookup (f.vnodeAt ps e) c =
      if e.kind ≠ .directory then .error .notADirectory
      else if !e.children.contains c then .error .notFound
      else f.lookupPath (if canonical '/' ps = ['/'] then '/' :: c else canonical '/' ps ++ '/' :: c) := rfl
  have hfull : (if canonical '/' ps = ['/'] then '/' :: c else canonical '/' ps ++ '/' :: c) =
      canonical '/' (ps ++ [c]) := extendPath_canonical hp c
  rw [hlookup, hfull]
  by_cases hd : e.kind = .directory
  · have hch := h.children hp he hd c
    rw [if_neg (not_not.2 hd), if_pos hd]
    by_cases hmem : c ∈ e.children
    · rw [if_neg (by simpa using hmem)]
      exact f.lookupPath_canonical (hp.snoc hc hs)
    · rw [if_pos (by simpa using hmem)]
      cases hn : f.entryAt (ps ++ [c]) with
      | none => rfl
      | some e' => exact absurd (hch.2 ⟨hc, hs, e', hn⟩) hmem
  · rw [if_pos hd, if_neg hd]

/-- One step of a walk. -/
theorem walk_cons (h : f.IsTree) (hp : Valid '/' ps) (he : f.entryAt ps = some e) {c : Str} (hc : c ≠ [])
    (hs : '/' ∉ c) :
    VfsTree.walk (f.vnodeAt ps e) (c :: cs) =
      if e.kind = .directory then
        match f.entryAt (ps ++ [c]) with
        | some e' => VfsTree.walk (f.vnodeAt (ps ++ [c]) e') cs
        | none => .error .notFound
      else .error .notADirectory := by
  rw [VfsTree.walk, if_neg (by simpa using hc), lookup_vnodeAt h hp he hc hs]
  by_cases hd : e.kind = .directory
  · rw [if_pos hd, if_pos hd]
    cases f.entryAt (ps ++ [c]) <;> rfl
  · rw [if_neg hd, if_neg hd]

/-- A walk that succeeds takes a step from a directory to one of its entries. -/
theorem walk_cons_ok (h : f.IsTree) (hp : Valid '/' ps) (he : f.entryAt ps = some e) {c : Str} (hc : c ≠ [])
    (hs : '/' ∉ c) {v : InitramfsVnode} (hw : VfsTree.walk (f.vnodeAt ps e) (c :: cs) = .ok v) :
    e.kind = .directory ∧ ∃ e', f.entryAt (ps ++ [c]) = some e' ∧
      VfsTree.walk (f.vnodeAt (ps ++ [c]) e') cs = .ok v := by
  rw [walk_cons h hp he hc hs] at hw
  split at hw
  · next hd =>
    split at hw
    · next e' he' => exact ⟨hd, e', he', hw⟩
    · cases hw
  · cases hw

/-- A walk that succeeds ends at the entry of the whole path. -/
theorem walk_vnodeAt (h : f.IsTree) (hp : Valid '/' ps) (he : f.entryAt ps = some e) (hc : Valid '/' cs)
    {v : InitramfsVnode} (hw : VfsTree.walk (f.vnodeAt ps e) cs = .ok v) :
    ∃ e', f.entryAt (ps ++ cs) = some e' ∧ v = f.vnodeAt (ps ++ cs) e' := by
  induction cs generalizing ps e with
  | nil =>
    rw [VfsTree.walk, Except.ok.injEq] at hw
    rw [List.append_nil]
    exact ⟨e, he, hw.symm⟩
  | cons c cs ih =>
    obtain ⟨⟨hne, hs⟩, hcs⟩ := hc.cons
    obtain ⟨-, e', he', hw'⟩ := walk_cons_ok h hp he hne hs hw
    have := ih (hp.snoc hne hs) he' hcs hw'
    rwa [List.append_assoc, List.singleton_append] at this

/-- A walk that succeeds has passed directories only. -/
theorem walk_vnodeAt_dirs (h : f.IsTree) (hp : Valid '/' ps) (he : f.entryAt ps = some e) (hc : Valid '/' cs)
    {v : InitramfsVnode} (hw : VfsTree.walk (f.vnodeAt ps e) cs = .ok v) :
    ∀ ds, ds <+: cs → ds ≠ cs → ∃ d, f.entryAt (ps ++ ds) = some d ∧ d.kind = .directory := by
  induction cs generalizing ps e with
  | nil =>
    intro ds hds hne
    exact absurd (List.prefix_nil.1 hds) hne
  | cons c cs ih =>
    obtain ⟨⟨hne, hs⟩, hcs⟩ := hc.cons
    obtain ⟨hd, e', he', hw'⟩ := walk_cons_ok h hp he hne hs hw
    intro ds hds hds'
    cases ds with
    | nil => exact ⟨e, by rwa [List.append_nil], hd⟩
    | cons x ds =>
      obtain ⟨rfl, hpre⟩ := List.cons_prefix_cons.1 hds
      have := ih (hp.snoc hne hs) he' hcs hw' ds hpre fun heq => hds' (by rw [heq])
      rwa [List.append_assoc, List.singleton_append] at this

/-- The errors of a walk. -/
theorem walk_vnodeAt_error (h : f.IsTree) (hp : Valid '/' ps) (he : f.entryAt ps = some e) (hc : Valid '/' cs)
    {x : IoError} (hw : VfsTree.walk (f.vnodeAt ps e) cs = .error x) : x = .notADirectory ∨ x = .notFound := by
  induction cs generalizing ps e with
  | nil => cases hw
  | cons c cs ih =>
    obtain ⟨⟨hne, hs⟩, hcs⟩ := hc.cons
    rw [walk_cons h hp he hne hs] at hw
    split at hw
    · split at hw
      · next e' he' => exact ih (hp.snoc hne hs) he' hcs hw
      · cases hw
        exact Or.inr rfl
    · cases hw
      exact Or.inl rfl

/-- A walk along directories succeeds. -/
theorem walk_vnodeAt_ok (h : f.IsTree) (hp : Valid '/' ps) (he : f.entryAt ps = some e) (hc : Valid '/' cs)
    (hdir : ∀ ds, ds <+: cs → ds ≠ cs → ∃ d, f.entryAt (ps ++ ds) = some d ∧ d.kind = .directory) {e' : InitEntry}
    (he' : f.entryAt (ps ++ cs) = some e') :
    VfsTree.walk (f.vnodeAt ps e) cs = .ok (f.vnodeAt (ps ++ cs) e') := by
  induction cs generalizing ps e with
  | nil =>
    rw [List.append_nil] at he' ⊢
    rw [he, Option.some.injEq] at he'
    rw [VfsTree.walk, he']
  | cons c cs ih =>
    obtain ⟨⟨hne, hs⟩, hcs⟩ := hc.cons
    have hd : e.kind = .directory := by
      obtain ⟨d, hd, hk⟩ := hdir [] List.nil_prefix (by simp)
      rw [List.append_nil, he, Option.some.injEq] at hd
      rwa [hd]
    obtain ⟨e₁, he₁⟩ : ∃ e₁, f.entryAt (ps ++ [c]) = some e₁ := by
      by_cases hnil : cs = []
      · exact ⟨e', hnil ▸ he'⟩
      · obtain ⟨d, hd, -⟩ := hdir [c] ⟨cs, rfl⟩ (by simpa using Ne.symm hnil)
        exact ⟨d, hd⟩
    have happ : ∀ ds, ps ++ [c] ++ ds = ps ++ c :: ds := by simp
    have := ih (hp.snoc hne hs) he₁ hcs (fun ds hds hne' => by
      rw [happ]
      exact hdir (c :: ds) (List.cons_prefix_cons.2 ⟨rfl, hds⟩) (by simpa using hne')) (by rwa [happ])
    rw [happ] at this
    rw [walk_cons h hp he hne hs, if_pos hd, he₁]
    exact this

end InitramfsFs

/-! ### The tree of a parsed archive -/

/-- What `parse` makes of the entries that its loop has found. -/
def treeOf (entries : SortedMap Str InitEntry) : InitramfsFs :=
  let entries := setChildren (createParentDirs entries)
  ⟨⟨.directory, [], ((entries.get? ['/']).map InitEntry.children).getD []⟩, entries⟩

/-- The entry at a path with its children. -/
theorem entryAt_setChildren {f : InitramfsFs} {m : SortedMap Str InitEntry} (hf : f.allEntries = setChildren m)
    {ps : List Str} (hps : ps ≠ []) :
    f.entryAt ps = (m.get? (canonical '/' ps)).map fun e =>
      if e.kind = .directory then { e with children := computeChildren m (canonical '/' ps) } else e := by
  rw [InitramfsFs.entryAt, if_neg hps, hf, get?_setChildren]

/-- A map with a root directory gives a tree. -/
theorem isTree_setChildren {f : InitramfsFs} {m : SortedMap Str InitEntry} (hf : f.allEntries = setChildren m)
    (hroot : f.root = ⟨.directory, [], computeChildren m ['/']⟩) : f.IsTree := by
  have hsome : ∀ {ps : List Str}, ps ≠ [] →
      ((∃ e, f.entryAt ps = some e) ↔ ∃ e, m.get? (canonical '/' ps) = some e) := by
    intro ps hps
    rw [entryAt_setChildren hf hps]
    simp
  refine ⟨fun {ps e} hp he hd c => ?_⟩
  have hmem : c ∈ e.children ↔ c ∈ computeChildren m (canonical '/' ps) := by
    by_cases hps : ps = []
    · subst hps
      rw [InitramfsFs.entryAt, if_pos rfl, hroot, Option.some.injEq] at he
      rw [← he]
      rfl
    · rw [entryAt_setChildren hf hps, Option.map_eq_some_iff] at he
      obtain ⟨e₀, -, rfl⟩ := he
      by_cases h₀ : e₀.kind = .directory
      · rw [if_pos h₀]
      · rw [if_neg h₀] at hd
        exact absurd hd h₀
  rw [hmem, mem_computeChildren, extendPath_canonical hp, hsome (by simp)]

/-- What `parse` makes of its entries is a tree if the root is a directory. -/
theorem isTree_treeOf {m : SortedMap Str InitEntry} {e : InitEntry} (he : (createParentDirs m).get? ['/'] = some e)
    (hd : e.kind = .directory) : (treeOf m).IsTree := by
  have hroot : (setChildren (createParentDirs m)).get? ['/'] =
      some { e with children := computeChildren (createParentDirs m) ['/'] } := by
    rw [get?_setChildren, he, Option.map_some, if_pos hd]
  refine isTree_setChildren rfl ?_
  rw [treeOf, hroot]
  rfl

/-- `parse` makes its tree of the entries that the loop has found. -/
theorem parse_eq_some {data : List UInt8} {f : InitramfsFs} :
    InitramfsFs.parse data = some f ↔
      ∃ m, parseLoop data (data.length + 1) 0 (SortedMap.empty.insert ['/'] emptyDir) = some m ∧ treeOf m = f := by
  unfold InitramfsFs.parse
  split
  · next hnone => simp [hnone]
  · next m hm =>
    rw [hm]
    simp [treeOf]

/-! ### Lookups in a tree mounted at the root -/

theorem walk_filter {ν : Type} [Vnode ν] (v : ν) (cs : List Str) :
    VfsTree.walk v cs = VfsTree.walk v (cs.filter (· ≠ [])) := by
  induction cs generalizing v with
  | nil => rfl
  | cons c cs ih =>
    by_cases hc : c = []
    · rw [VfsTree.walk, if_pos (by simp [hc]), ih, List.filter_cons_of_neg (by simp [hc])]
    · rw [List.filter_cons_of_pos (by simp [hc]), VfsTree.walk, VfsTree.walk, if_neg (by simp [hc]),
        if_neg (by simp [hc])]
      split
      · rfl
      · exact ih _

/-- With one file system mounted at `/`, a lookup walks over the components of the path. -/
theorem lookup_mounted {ν : Type} [Vnode ν] (root : ν) (p : Str) :
    (VfsTree.new.mount ['/'] root).lookup p = VfsTree.walk root (parts '/' p) := by
  have hcs : parts '/' (canonical '/' (parts '/' p)) = parts '/' p := parts_canonical (valid_parts p)
  have hhead := head?_canonical (parts '/' p)
  unfold VfsTree.lookup
  rw [normalizePath_eq]
  generalize parts '/' p = cs at *
  cases hk : canonical '/' cs with
  | nil =>
    rw [hk] at hhead
    cases hhead
  | cons x t =>
    rw [hk] at hhead hcs
    obtain rfl : x = '/' := Option.some.inj hhead
    rw [parts_cons_sep] at hcs
    have hmount : (VfsTree.new.mount ['/'] root).findMountPoint ('/' :: t) = some ⟨['/'], root⟩ := by
      simp [VfsTree.findMountPoint, VfsTree.mount, VfsTree.new]
    simp only [hmount, if_true, List.drop_succ_cons, List.drop_zero]
    split
    · rename_i ht
      have hnil : cs = [] := by
        rcases ht with ht | ht
        · rw [← hcs, List.isEmpty_iff.1 ht, parts_nil]
        · rw [← hcs, ht, parts_cons_sep, parts_nil]
      rw [hnil]
      rfl
    · rw [walk_filter, ← hcs]
      rfl

end Hammam
