import Hammam.Mm.PageCache

/-!
# Operations on all pages of an inode (`mm/page_cache.rs`)

`sync_inode` and `evict_inode` collect keys first and go through the list afterwards.  No two keys share a page in any
run, so that what is done to the pages of one inode does not concern those of another one.
-/

namespace Hammam

namespace PageCache

def getDirtyPages (s : PageCache) : List PageKey :=
  s.pages.entries.filterMap fun e => if (s.heap e.2).dirty then some e.1 else none

def dirtyPagesCount (s : PageCache) : Nat := (s.pages.values.filter fun r => (s.heap r).dirty).length

def clear (s : PageCache) : PageCache := { s with pages := .empty }

end PageCache

inductive CacheOp
  | getOrLoad (k : PageKey) (loader : PageData)
  | insert (k : PageKey) (page : CachedPage)
  | evict (k : PageKey)
  | evictInode (inode : Nat)
  | markDirty (k : PageKey)
  | markClean (k : PageKey)
  | syncInode (inode : Nat)
  | clear
  /-- A write through a reference that has been handed out; other references do not exist. -/
  | write (r : PageRef) (page : CachedPage)

namespace PageCache

def step (s : PageCache) : CacheOp → PageCache
  | .getOrLoad k loader => (s.getOrLoad k loader).2
  | .insert k page => (s.insert k page).2
  | .evict k => (s.evict k).2
  | .evictInode inode => (s.evictInode inode).2
  | .markDirty k => (s.markDirty k).2
  | .markClean k => (s.markClean k).2
  | .syncInode inode => (s.syncInode inode).2
  | .clear => s.clear
  | .write r page => if r < s.next then s.write r page else s

/-- The cache after some operations, from the empty one on. -/
def run (heap : PageRef → CachedPage) (ops : List CacheOp) : PageCache := ops.foldl step (new heap)

/-- The page under a key. -/
def page? (s : PageCache) (k : PageKey) : Option CachedPage := (s.get k).map s.heap

def Dirty (s : PageCache) (k : PageKey) : Prop := ∃ r, s.get k = some r ∧ (s.heap r).dirty = true

/-! ### Every key has a page of its own -/

/-- The references in the cache are old ones, and no two keys share one. -/
structure Distinct (s : PageCache) : Prop where
  lt : ∀ k r, s.get k = some r → r < s.next
  inj : ∀ k k' r, s.get k = some r → s.get k' = some r → k = k'

variable {s s' : PageCache}

/-- It depends on the map only. -/
theorem Distinct.of_pages (h : Distinct s) (hp : s'.pages = s.pages) (hn : s'.next = s.next) : Distinct s' := by
  have hg : ∀ k, s'.get k = s.get k := fun k => by rw [get, get, hp]
  refine ⟨fun k r hk => ?_, fun k k' r hk hk' => ?_⟩
  · rw [hn]
    exact h.lt k r (hg k ▸ hk)
  · exact h.inj k k' r (hg k ▸ hk) (hg k' ▸ hk')

theorem Distinct.store (h : Distinct s) (k : PageKey) (page : CachedPage) : Distinct (s.store k page) := by
  have hnext : ∀ k', s.get k' ≠ some s.next := fun k' hk' => (h.lt k' _ hk').false
  refine ⟨fun k₁ r hk₁ => ?_, fun k₁ k₂ r hk₁ hk₂ => ?_⟩
  · rw [get_store] at hk₁
    split at hk₁
    · cases hk₁
      exact Nat.lt_succ_self _
    · exact Nat.lt_succ_of_lt (h.lt k₁ r hk₁)
  · rw [get_store] at hk₁ hk₂
    split at hk₁ <;> split at hk₂
    · rename_i h₁ h₂
      rw [h₁, h₂]
    · cases hk₁
      exact absurd hk₂ (hnext k₂)
    · cases hk₂
      exact absurd hk₁ (hnext k₁)
    · exact h.inj k₁ k₂ r hk₁ hk₂

theorem Distinct.remove (h : Distinct s) (k : PageKey) : Distinct (s.remove k) where
  lt k' r hk' := h.lt k' r (SortedMap.get?_of_erase hk').2
  inj k₁ k₂ r hk₁ hk₂ := h.inj k₁ k₂ r (SortedMap.get?_of_erase hk₁).2 (SortedMap.get?_of_erase hk₂).2

theorem Distinct.foldl_remove (h : Distinct s) (ks : List PageKey) : Distinct (ks.foldl PageCache.remove s) := by
  induction ks generalizing s with
  | nil => exact h
  | cons k ks ih => exact ih (h.remove k)

theorem Distinct.of_sameData (h : Distinct s) (hs : SameData s s') : Distinct s' := h.of_pages hs.pages hs.next

theorem Distinct.step (h : Distinct s) (op : CacheOp) : Distinct (s.step op) := by
  cases op with
  | getOrLoad k loader =>
    simp only [PageCache.step, PageCache.getOrLoad]
    split
    · exact h
    · exact h.store k _
  | insert k page => exact h.store k page
  | evict k => exact h.remove k
  | evictInode inode => exact h.foldl_remove _
  | markDirty k => exact h.of_sameData (sameData_modify s k fun _ => rfl)
  | markClean k => exact h.of_sameData (sameData_modify s k fun _ => rfl)
  | syncInode inode => exact h.of_sameData (sameData_syncInode s inode)
  | clear => exact ⟨fun k r hk => absurd hk (by simp [PageCache.step, clear, get]),
      fun k k' r hk => absurd hk (by simp [PageCache.step, clear, get])⟩
  | write r page =>
    simp only [PageCache.step]
    split
    · exact h.of_pages rfl rfl
    · exact h

theorem distinct_run (heap : PageRef → CachedPage) (ops : List CacheOp) : Distinct (run heap ops) := by
  have hnew : Distinct (PageCache.new heap) :=
    ⟨fun k r hk => absurd hk (by simp [PageCache.new, get]),
      fun k k' r hk => absurd hk (by simp [PageCache.new, get])⟩
  unfold run
  generalize PageCache.new heap = s at hnew
  induction ops generalizing s with
  | nil => exact hnew
  | cons op ops ih => exact ih _ (hnew.step op)

/-! ### The effect of a pass -/

/-- Removing keys leaves the entries of the others. -/
theorem foldl_remove (s : PageCache) (ks : List PageKey) :
    (ks.foldl remove s).pages.entries = s.pages.entries.filter (fun e => e.1 ∉ ks) ∧
      (ks.foldl remove s).heap = s.heap ∧ (ks.foldl remove s).next = s.next := by
  induction ks generalizing s with
  | nil => simp
  | cons k ks ih =>
    obtain ⟨hentries, hheap, hnext⟩ := ih (s.remove k)
    refine ⟨?_, hheap, hnext⟩
    rw [List.foldl_cons, hentries]
    simp only [remove, SortedMap.erase, List.filter_filter]
    refine List.filter_congr fun e _ => ?_
    by_cases he : e.1 = k <;> simp [he]

theorem mem_keysToRemove {inode : Nat} {k : PageKey} :
    k ∈ s.keysToRemove inode ↔ k.inode = inode ∧ (s.get k).isSome := by
  rw [keysToRemove, List.mem_filter, SortedMap.mem_keys, ← Option.isSome_iff_exists, and_comm, decide_eq_true_iff]
  rfl

theorem nodup_keysToRemove (inode : Nat) : (s.keysToRemove inode).Nodup := s.pages.nodup_keys.filter _

theorem entries_evictInode (inode : Nat) :
    (s.evictInode inode).2.pages.entries = s.pages.entries.filter fun e => e.1.inode ≠ inode := by
  refine (foldl_remove s _).1.trans (List.filter_congr fun e he => ?_)
  have hget : s.get e.1 = some e.2 := SortedMap.get?_eq_some.2 he
  simp [mem_keysToRemove, hget]

theorem evictInode_count (inode : Nat) : (s.evictInode inode).1 = (s.keysToRemove inode).length := by
  have hsplit := List.length_eq_length_filter_add (l := s.pages.entries) fun e => e.1.inode = inode
  have hkeys : (s.keysToRemove inode).length = (s.pages.entries.filter fun e => e.1.inode = inode).length := by
    rw [keysToRemove, SortedMap.keys, List.filter_map, List.length_map]
    rfl
  have hrest : (s.evictInode inode).2.pages.size =
      (s.pages.entries.filter fun e => !decide (e.1.inode = inode)).length := by
    rw [SortedMap.size, entries_evictInode]
    simp
  show s.pages.size - (s.evictInode inode).2.pages.size = _
  rw [hrest, hkeys, SortedMap.size]
  omega

theorem get_evictInode (inode : Nat) (k : PageKey) :
    (s.evictInode inode).2.get k = if k.inode = inode then none else s.get k := by
  ext r
  rw [get, SortedMap.get?_eq_some, entries_evictInode, List.mem_filter, ← SortedMap.get?_eq_some]
  split <;> simp_all [get]

/-- A pass of `mark_clean` over keys of the cache: how many there are, and the pages that are clean afterwards. -/
theorem foldl_markClean (ks : List PageKey) (hks : ∀ k ∈ ks, (s.get k).isSome) (n : Nat) :
    let last := ks.foldl (fun acc k =>
      let marked := acc.2.markClean k
      (if marked.1 then acc.1 + 1 else acc.1, marked.2)) (n, s)
    last.1 = n + ks.length ∧ (∀ k ∈ ks, ∀ r, s.get k = some r → last.2.heap r = (s.heap r).markClean) ∧
      ∀ r, (∀ k ∈ ks, s.get k ≠ some r) → last.2.heap r = s.heap r := by
  induction ks generalizing s n with
  | nil => simp
  | cons k ks ih =>
    obtain ⟨r, hr⟩ := Option.isSome_iff_exists.1 (hks k (by simp))
    have hmark : s.markClean k = (true, s.write r (s.heap r).markClean) := by simp [markClean, modify, hr, write]
    obtain ⟨hcount, hclean, hframe⟩ :=
      ih (s := s.write r (s.heap r).markClean) (fun k' hk' => hks k' (by simp [hk'])) (n + 1)
    simp only [List.foldl_cons, hmark, if_true]
    refine ⟨?_, fun k' hk' r' hr' => ?_, fun r' hr' => ?_⟩
    · rw [hcount, List.length_cons]
      omega
    · have hidem : ((s.write r (s.heap r).markClean).heap r').markClean = (s.heap r').markClean := by
        rw [heap_write]
        split
        · rename_i he
          rw [he]
          rfl
        · rfl
      -- a page that comes up again in the rest is clean already
      by_cases hagain : ∃ k₂ ∈ ks, s.get k₂ = some r'
      · obtain ⟨k₂, hk₂, hr₂⟩ := hagain
        rw [hclean k₂ hk₂ r' hr₂, hidem]
      · have hk : k' = k := (List.mem_cons.1 hk').resolve_right fun h => hagain ⟨k', h, hr'⟩
        rw [hk, hr] at hr'
        cases hr'
        rw [hframe r fun k₂ hk₂ hr₂ => hagain ⟨k₂, hk₂, hr₂⟩, heap_write, if_pos rfl]
    · rw [hframe r' fun k' hk' => hr' k' (by simp [hk']), heap_write, if_neg]
      rintro rfl
      exact hr' k (by simp) hr

theorem mem_dirtyKeys {inode : Nat} {k : PageKey} : k ∈ s.dirtyKeys inode ↔ k.inode = inode ∧ s.Dirty k := by
  simp only [dirtyKeys, List.mem_map, List.mem_filter, Dirty, get, SortedMap.get?_eq_some]
  constructor
  · rintro ⟨⟨k, r⟩, ⟨hmem, hd⟩, rfl⟩
    simp only [Bool.and_eq_true, decide_eq_true_eq] at hd
    exact ⟨hd.1, r, hmem, hd.2⟩
  · rintro ⟨hk, r, hmem, hd⟩
    exact ⟨(k, r), ⟨hmem, by simp [hk, hd]⟩, rfl⟩

private theorem isSome_of_mem_dirtyKeys {inode : Nat} : ∀ k ∈ s.dirtyKeys inode, (s.get k).isSome := by
  intro k hk
  obtain ⟨-, r, hr, -⟩ := mem_dirtyKeys.1 hk
  rw [hr]
  rfl

theorem nodup_dirtyKeys (inode : Nat) : (s.dirtyKeys inode).Nodup :=
  s.pages.nodup_keys.sublist ((List.filter_sublist).map Prod.fst)

private theorem markClean_of_not_dirty {p : CachedPage} (h : ¬ p.dirty = true) : p.markClean = p := by
  cases p
  simp_all [CachedPage.markClean]

/-- The pages of the inode are clean, and all other pages are what they were. -/
theorem heap_syncInode (inode : Nat) (r : PageRef) :
    ((∃ k, k.inode = inode ∧ s.get k = some r) → (s.syncInode inode).2.heap r = (s.heap r).markClean) ∧
      ((∀ k, s.get k = some r → k.inode ≠ inode) → (s.syncInode inode).2.heap r = s.heap r) := by
  obtain ⟨-, hclean, hframe⟩ := foldl_markClean (s.dirtyKeys inode) isSome_of_mem_dirtyKeys 0
  constructor
  · rintro ⟨k, hk, hr⟩
    by_cases hd : (s.heap r).dirty = true
    · exact hclean k (mem_dirtyKeys.2 ⟨hk, r, hr, hd⟩) r hr
    · rw [markClean_of_not_dirty hd]
      refine hframe r fun k' hk' hr' => ?_
      obtain ⟨-, r', hr'', hd'⟩ := mem_dirtyKeys.1 hk'
      rw [hr'] at hr''
      cases hr''
      exact hd hd'
  · intro hother
    exact hframe r fun k hk hr => hother k hr (mem_dirtyKeys.1 hk).1

theorem get_syncInode (inode : Nat) (k : PageKey) : (s.syncInode inode).2.get k = s.get k := by
  rw [get, (sameData_syncInode s inode).pages, get]

theorem syncInode_count (inode : Nat) : (s.syncInode inode).1 = (s.dirtyKeys inode).length := by
  exact (foldl_markClean (s.dirtyKeys inode) isSome_of_mem_dirtyKeys 0).1.trans (Nat.zero_add _)

theorem mem_getDirtyPages {k : PageKey} : k ∈ s.getDirtyPages ↔ s.Dirty k := by
  simp only [getDirtyPages, List.mem_filterMap, Dirty, get, SortedMap.get?_eq_some]
  constructor
  · rintro ⟨⟨k', r⟩, hmem, he⟩
    split at he
    · rename_i hd
      cases he
      exact ⟨r, hmem, hd⟩
    · cases he
  · rintro ⟨r, hmem, hd⟩
    exact ⟨(k, r), hmem, if_pos hd⟩

theorem getDirtyPages_eq : s.getDirtyPages = (s.pages.entries.filter fun e => (s.heap e.2).dirty).map Prod.fst := by
  unfold getDirtyPages
  induction s.pages.entries with
  | nil => rfl
  | cons e l ih => by_cases hd : (s.heap e.2).dirty = true <;> simp [hd, ih]

theorem length_getDirtyPages : s.getDirtyPages.length = s.dirtyPagesCount := by
  rw [getDirtyPages_eq, dirtyPagesCount, SortedMap.values, List.filter_map, List.length_map, List.length_map]
  rfl

theorem nodup_getDirtyPages : s.getDirtyPages.Nodup := by
  rw [getDirtyPages_eq]
  exact s.pages.nodup_keys.sublist ((List.filter_sublist).map Prod.fst)

/-! ### The three operations -/

/-- `sync_inode` marks the dirty pages of the inode clean and returns their number.  It changes no other page, be it
in the cache or not, and no data. -/
structure SyncExact (s : PageCache) (inode : Nat) : Prop where
  count : ∃ ks : List PageKey, ks.Nodup ∧ (∀ k, k ∈ ks ↔ k.inode = inode ∧ s.Dirty k) ∧
    (s.syncInode inode).1 = ks.length
  pages : (s.syncInode inode).2.pages = s.pages
  cleaned : ∀ k, k.inode = inode → s.Dirty k →
    (s.syncInode inode).2.page? k = (s.page? k).map fun p => { p with dirty := false }
  kept : ∀ k, ¬ (k.inode = inode ∧ s.Dirty k) → (s.syncInode inode).2.page? k = s.page? k
  others : ∀ r, (∀ k, s.get k ≠ some r) → (s.syncInode inode).2.heap r = s.heap r

/-- `evict_inode` removes the pages of the inode and returns their number. -/
structure EvictExact (s : PageCache) (inode : Nat) : Prop where
  count : ∃ ks : List PageKey, ks.Nodup ∧ (∀ k, k ∈ ks ↔ k.inode = inode ∧ (s.get k).isSome) ∧
    (s.evictInode inode).1 = ks.length
  cached : ∀ k, (s.evictInode inode).2.page? k = if k.inode = inode then none else s.page? k
  heap : (s.evictInode inode).2.heap = s.heap

structure DirtyExact (s : PageCache) : Prop where
  nodup : s.getDirtyPages.Nodup
  mem : ∀ k, k ∈ s.getDirtyPages ↔ s.Dirty k
  count : s.getDirtyPages.length = s.dirtyPagesCount

theorem Distinct.syncExact (h : Distinct s) (inode : Nat) : SyncExact s inode where
  count := ⟨s.dirtyKeys inode, nodup_dirtyKeys inode, fun _ => mem_dirtyKeys, syncInode_count inode⟩
  pages := (sameData_syncInode s inode).pages
  cleaned k hi hd := by
    obtain ⟨r, hr, -⟩ := hd
    rw [page?, page?, get_syncInode, hr, Option.map_some, (heap_syncInode inode r).1 ⟨k, hi, hr⟩]
    rfl
  kept k hk := by
    rw [page?, page?, get_syncInode]
    cases hr : s.get k with
    | none => rfl
    | some r =>
      rw [Option.map_some, Option.map_some]
      by_cases hi : k.inode = inode
      · have hd : ¬ (s.heap r).dirty = true := fun hd => hk ⟨hi, r, hr, hd⟩
        rw [(heap_syncInode inode r).1 ⟨k, hi, hr⟩, markClean_of_not_dirty hd]
      · -- no key of the inode leads to this page
        rw [(heap_syncInode inode r).2 fun k' hk' => h.inj k k' r hr hk' ▸ hi]
  others r hr := (heap_syncInode inode r).2 fun k hk => absurd hk (hr k)

theorem evictExact (s : PageCache) (inode : Nat) : EvictExact s inode where
  count := ⟨s.keysToRemove inode, nodup_keysToRemove inode, fun _ => mem_keysToRemove, evictInode_count inode⟩
  cached k := by
    have hheap : (s.evictInode inode).2.heap = s.heap := (foldl_remove s _).2.1
    rw [page?, page?, get_evictInode, hheap]
    split <;> rfl
  heap := (foldl_remove s _).2.1

/-- After any operations the two passes over an inode concern its pages only, and the list of the dirty pages is
exact. -/
theorem bulk_operations_exact (heap : PageRef → CachedPage) (ops : List CacheOp) (inode : Nat) :
    SyncExact (run heap ops) inode ∧ EvictExact (run heap ops) inode ∧ DirtyExact (run heap ops) :=
  ⟨(distinct_run heap ops).syncExact inode, evictExact _ inode,
    nodup_getDirtyPages, fun _ => mem_getDirtyPages, length_getDirtyPages⟩

end PageCache

end Hammam
