import Hammam.Mm.PageCache

/-!
# Coherence of the page cache (`mm/page_cache.rs`)

Neither `evict` nor `insert` looks at the references that are held, so a reference denotes the cached page of its key
exactly as long as the entry has not been removed or overwritten since the reference was handed out.  In that time a
write through it is what every `get` of the key sees, and `get_or_load` does not load the page again.
-/

namespace Hammam

open PageCache

inductive CacheEvent
  /-- The client gets the reference `r` for the key. -/
  | acquired (client : Nat) (k : PageKey) (r : PageRef)
  /-- The entry of the key is removed or overwritten. -/
  | dropped (k : PageKey)
  /-- A write through the reference `r`. -/
  | wrote (r : PageRef) (page : CachedPage)

namespace PageCache

/-- `insert` hands out the old reference of an entry that it overwrites. -/
def insertEvents (s : PageCache) (client : Nat) (k : PageKey) : List CacheEvent :=
  match s.get k with
  | some r => [.dropped k, .acquired client k r]
  | none => []

def evictEvents (s : PageCache) (k : PageKey) : List CacheEvent := if (s.get k).isSome then [.dropped k] else []

def evictInodeEvents (s : PageCache) (inode : Nat) : List CacheEvent :=
  (s.keysToRemove inode).reverse.map .dropped

end PageCache

/-- The interleavings of the calls of any number of clients, with what has happened to the references so far, the last
event first. -/
inductive CacheRun : PageCache → List CacheEvent → Prop
  | new (heap : PageRef → CachedPage) : CacheRun (PageCache.new heap) []
  | getOrLoad {s log} (client : Nat) (k : PageKey) (loader : PageData) : CacheRun s log →
      CacheRun (s.getOrLoad k loader).2 (.acquired client k (s.getOrLoad k loader).1 :: log)
  | get {s log} (client : Nat) {k : PageKey} {r : PageRef} : CacheRun s log → s.get k = some r →
      CacheRun s (.acquired client k r :: log)
  | insert {s log} (client : Nat) (k : PageKey) (page : CachedPage) : CacheRun s log →
      CacheRun (s.insert k page).2 (s.insertEvents client k ++ log)
  | evict {s log} (k : PageKey) : CacheRun s log → CacheRun (s.evict k).2 (s.evictEvents k ++ log)
  | evictInode {s log} (inode : Nat) : CacheRun s log →
      CacheRun (s.evictInode inode).2 (s.evictInodeEvents inode ++ log)
  | markDirty {s log} (k : PageKey) : CacheRun s log → CacheRun (s.markDirty k).2 log
  | markClean {s log} (k : PageKey) : CacheRun s log → CacheRun (s.markClean k).2 log
  | syncInode {s log} (inode : Nat) : CacheRun s log → CacheRun (s.syncInode inode).2 log
  | write {s log} {client : Nat} {k : PageKey} {r : PageRef} (page : CachedPage) : CacheRun s log →
      .acquired client k r ∈ log → CacheRun (s.write r page) (.wrote r page :: log)

/-- Two references of one key are the same exactly if the key has not been dropped in between. -/
def HandlesAgree (log : List CacheEvent) : Prop :=
  ∀ newer c' k r' mid c r older, log = newer ++ .acquired c' k r' :: (mid ++ .acquired c k r :: older) →
    (r' = r ↔ .dropped k ∉ mid)

theorem HandlesAgree.cons {log : List CacheEvent} {e : CacheEvent} (h : HandlesAgree log)
    (he : ∀ c k r, e ≠ .acquired c k r) : HandlesAgree (e :: log) := by
  intro newer c' k r' mid c r older hl
  cases newer with
  | nil => exact absurd (List.cons.inj hl).1 (he c' k r')
  | cons e' newer => exact h newer c' k r' mid c r older (List.cons.inj hl).2

/-- A page has the data that were written last. -/
def LastWritten (s : PageCache) (log : List CacheEvent) : Prop :=
  ∀ newer r p older, log = newer ++ .wrote r p :: older → (∀ p', .wrote r p' ∉ newer) → (s.heap r).data = p.data

theorem LastWritten.cons {s : PageCache} {log : List CacheEvent} {e : CacheEvent} (h : LastWritten s log)
    (he : ∀ r p, e ≠ .wrote r p) : LastWritten s (e :: log) := by
  intro newer r p older hl hn
  cases newer with
  | nil => exact absurd (List.cons.inj hl).1 (he r p)
  | cons e' newer => exact h newer r p older (List.cons.inj hl).2 fun p' hm => hn p' (List.mem_cons_of_mem e' hm)

/-- What the log says about the references handed out: they are old ones, and one denotes the cached page exactly if
its key has not been dropped since. -/
structure CacheInv (s : PageCache) (log : List CacheEvent) : Prop where
  get_lt : ∀ k r, s.get k = some r → r < s.next
  acquired_lt : ∀ c k r, .acquired c k r ∈ log → r < s.next
  wrote_lt : ∀ r p, .wrote r p ∈ log → r < s.next
  cached : ∀ newer c k r older, log = newer ++ .acquired c k r :: older → (s.get k = some r ↔ .dropped k ∉ newer)
  agree : HandlesAgree log
  data : LastWritten s log

namespace CacheInv

variable {s s' : PageCache} {log : List CacheEvent}

theorem new (heap : PageRef → CachedPage) : CacheInv (PageCache.new heap) [] where
  get_lt k r h := absurd h (by simp [PageCache.new, PageCache.get])
  acquired_lt c k r h := absurd h List.not_mem_nil
  wrote_lt r p h := absurd h List.not_mem_nil
  cached newer c k r older h := absurd h.symm (by simp)
  agree newer c' k r' mid c r older h := absurd h.symm (by simp)
  data newer r p older h := absurd h.symm (by simp)

/-- A reference to the cached page is handed out. -/
theorem acquire (h : CacheInv s log) {k : PageKey} {r : PageRef} (hg : s.get k = some r) (c : Nat) :
    CacheInv s (.acquired c k r :: log) where
  get_lt := h.get_lt
  acquired_lt c' k' r' hm := by
    rcases List.mem_cons.1 hm with e | hm
    · cases e
      exact h.get_lt k r hg
    · exact h.acquired_lt c' k' r' hm
  wrote_lt r' p hm := h.wrote_lt r' p ((List.mem_cons.1 hm).resolve_left (by simp))
  cached newer c' k' r' older hl := by
    cases newer with
    | nil =>
      cases (List.cons.inj hl).1
      exact iff_of_true hg List.not_mem_nil
    | cons e newer =>
      obtain ⟨rfl, hl'⟩ := List.cons.inj hl
      rw [h.cached newer c' k' r' older hl']
      simp
  agree newer c' k' r' mid c₁ r₁ older hl := by
    cases newer with
    | nil =>
      obtain ⟨e, hl'⟩ := List.cons.inj hl
      cases e
      rw [← h.cached mid c₁ k r₁ older hl', hg, Option.some.injEq]
    | cons e newer => exact h.agree newer c' k' r' mid c₁ r₁ older (List.cons.inj hl).2
  data := h.data.cons (by simp)

/-- An entry is removed. -/
theorem drop (h : CacheInv s log) (k : PageKey) : CacheInv (s.remove k) (.dropped k :: log) where
  get_lt k' r hg := h.get_lt k' r (SortedMap.get?_of_erase hg).2
  acquired_lt c k' r hm := h.acquired_lt c k' r ((List.mem_cons.1 hm).resolve_left (by simp))
  wrote_lt r p hm := h.wrote_lt r p ((List.mem_cons.1 hm).resolve_left (by simp))
  cached newer c k' r older hl := by
    cases newer with
    | nil => cases (List.cons.inj hl).1
    | cons e newer =>
      obtain ⟨rfl, hl'⟩ := List.cons.inj hl
      rw [get_remove]
      split
      · rename_i e
        rw [e]
        exact iff_of_false (by simp) fun hn => hn List.mem_cons_self
      · rename_i hne
        rw [h.cached newer c k' r older hl']
        simp [hne]
  agree := h.agree.cons (by simp)
  data := LastWritten.cons (s := s.remove k) h.data (by simp)

/-- A new page is stored under a key that has no entry. -/
theorem store (h : CacheInv s log) {k : PageKey} (hg : s.get k = none) (page : CachedPage) :
    CacheInv (s.store k page) log where
  get_lt k' r hg' := by
    show r < s.next + 1
    rw [get_store] at hg'
    split at hg'
    · cases hg'
      exact Nat.lt_succ_self _
    · exact Nat.lt_succ_of_lt (h.get_lt k' r hg')
  acquired_lt c k' r hm := Nat.lt_succ_of_lt (h.acquired_lt c k' r hm)
  wrote_lt r p hm := Nat.lt_succ_of_lt (h.wrote_lt r p hm)
  cached newer c k' r older hl := by
    have hc := h.cached newer c k' r older hl
    rw [get_store]
    split
    · -- the references of this key have been dropped, and the new one is not among them
      rename_i e
      have hlt := h.acquired_lt c k' r (hl ▸ List.mem_append_right _ List.mem_cons_self)
      rw [e, hg] at hc
      rw [e]
      exact iff_of_false (fun he => hlt.ne' (Option.some.inj he)) fun hn => absurd (hc.2 hn) (by simp)
    · exact hc
  agree := h.agree
  data newer r p older hl hn := by
    have hlt := h.wrote_lt r p (hl ▸ List.mem_append_right _ List.mem_cons_self)
    rw [heap_store page hlt]
    exact h.data newer r p older hl hn

/-- Only flags of pages change. -/
theorem congr (h : CacheInv s log) (hs : SameData s s') : CacheInv s' log := by
  have hget : ∀ k, s'.get k = s.get k := fun k => congrArg (SortedMap.get? · k) hs.pages
  refine ⟨?_, ?_, ?_, ?_, h.agree, ?_⟩
  · intro k r hg
    rw [hget] at hg
    rw [hs.next]
    exact h.get_lt k r hg
  · rw [hs.next]
    exact h.acquired_lt
  · rw [hs.next]
    exact h.wrote_lt
  · intro newer c k r older hl
    rw [hget]
    exact h.cached newer c k r older hl
  · intro newer r p older hl hn
    rw [hs.data]
    exact h.data newer r p older hl hn

theorem write (h : CacheInv s log) {r : PageRef} (hr : r < s.next) (page : CachedPage) :
    CacheInv (s.write r page) (.wrote r page :: log) where
  get_lt := h.get_lt
  acquired_lt c k r' hm := h.acquired_lt c k r' ((List.mem_cons.1 hm).resolve_left (by simp))
  wrote_lt r' p hm := by
    rcases List.mem_cons.1 hm with e | hm
    · cases e
      exact hr
    · exact h.wrote_lt r' p hm
  cached newer c k r' older hl := by
    cases newer with
    | nil => cases (List.cons.inj hl).1
    | cons e newer =>
      obtain ⟨rfl, hl'⟩ := List.cons.inj hl
      have hc := h.cached newer c k r' older hl'
      simpa using hc
  agree := h.agree.cons (by simp)
  data newer r' p older hl hn := by
    cases newer with
    | nil =>
      cases (List.cons.inj hl).1
      rw [heap_write, if_pos rfl]
    | cons e newer =>
      obtain ⟨rfl, hl'⟩ := List.cons.inj hl
      have hne : r' ≠ r := by
        rintro rfl
        exact hn page List.mem_cons_self
      rw [heap_write, if_neg hne]
      exact h.data newer r' p older hl' fun p' hm => hn p' (List.mem_cons_of_mem _ hm)

theorem getOrLoad (h : CacheInv s log) (c : Nat) (k : PageKey) (loader : PageData) :
    CacheInv (s.getOrLoad k loader).2 (.acquired c k (s.getOrLoad k loader).1 :: log) := by
  unfold PageCache.getOrLoad
  split
  · rename_i r hg
    exact h.acquire hg c
  · rename_i hg
    exact (h.store hg ⟨loader, false⟩).acquire (by rw [get_store, if_pos rfl]) c

theorem insert (h : CacheInv s log) (c : Nat) (k : PageKey) (page : CachedPage) :
    CacheInv (s.insert k page).2 (s.insertEvents c k ++ log) := by
  unfold PageCache.insertEvents
  show CacheInv (s.store k page) _
  split
  · rename_i r hg
    rw [← store_remove page]
    exact ((h.acquire hg c).drop k).store (by rw [get_remove, if_pos rfl]) page
  · rename_i hg
    exact h.store hg page

theorem evict (h : CacheInv s log) (k : PageKey) : CacheInv (s.evict k).2 (s.evictEvents k ++ log) := by
  unfold PageCache.evictEvents
  show CacheInv (s.remove k) _
  split
  · exact h.drop k
  · rename_i hg
    rw [remove_of_none (Option.not_isSome_iff_eq_none.1 hg)]
    exact h

theorem evictInode (h : CacheInv s log) (inode : Nat) :
    CacheInv (s.evictInode inode).2 (s.evictInodeEvents inode ++ log) := by
  unfold PageCache.evictInode PageCache.evictInodeEvents
  generalize s.keysToRemove inode = ks
  -- one key at a time, the last one removed is the newest event
  induction ks generalizing s log with
  | nil => exact h
  | cons k ks ih =>
    rw [List.reverse_cons, List.map_append, List.append_assoc]
    exact ih (h.drop k)

end CacheInv

theorem CacheRun.inv {s : PageCache} {log : List CacheEvent} (h : CacheRun s log) : CacheInv s log := by
  induction h with
  | new heap => exact CacheInv.new heap
  | getOrLoad c k loader _ ih => exact ih.getOrLoad c k loader
  | get c _ hg ih => exact ih.acquire hg c
  | insert c k page _ ih => exact ih.insert c k page
  | evict k _ ih => exact ih.evict k
  | evictInode inode _ ih => exact ih.evictInode inode
  | markDirty k _ ih => exact ih.congr (sameData_modify _ k fun _ => rfl)
  | markClean k _ ih => exact ih.congr (sameData_modify _ k fun _ => rfl)
  | syncInode inode _ ih => exact ih.congr (sameData_syncInode _ inode)
  | write page _ hm ih => exact ih.write (ih.acquired_lt _ _ _ hm) page

/-- A reference for a key denotes the cached page exactly if the entry has not been removed or overwritten since it
was handed out, and two references for a key are the same exactly if that has not happened in between.  While a
reference denotes the cached page, `get_or_load` returns it without loading and `mark_dirty` marks its page.  A page
has the data that were written last through a reference to it. -/
theorem page_cache_coherent {s : PageCache} {log newer older : List CacheEvent} {c : Nat} {k : PageKey} {r : PageRef}
    (h : CacheRun s log) (hl : log = newer ++ .acquired c k r :: older) :
    (s.get k = some r ↔ .dropped k ∉ newer) ∧
      (∀ newer' c' r' mid, newer = newer' ++ .acquired c' k r' :: mid → (r' = r ↔ .dropped k ∉ mid)) ∧
      (.dropped k ∉ newer → (∀ loader, s.getOrLoad k loader = (r, s)) ∧
        (s.markDirty k).1 = true ∧ (s.markDirty k).2.heap r = (s.heap r).markDirty) ∧
      ∀ newer' p mid, newer = newer' ++ .wrote r p :: mid → (∀ p', .wrote r p' ∉ newer') →
        (s.heap r).data = p.data := by
  have hi := h.inv
  have hc := hi.cached newer c k r older hl
  refine ⟨hc, ?_, fun hn => ⟨fun loader => ?_, ?_⟩, ?_⟩
  · rintro newer' c' r' mid rfl
    rw [List.append_assoc, List.cons_append] at hl
    exact hi.agree newer' c' k r' mid c r older hl
  · rw [PageCache.getOrLoad, hc.2 hn]
  · rw [PageCache.markDirty, PageCache.modify, hc.2 hn]
    exact ⟨rfl, Function.update_self _ _ _⟩
  · rintro newer' p mid rfl
    rw [List.append_assoc, List.cons_append] at hl
    exact hi.data newer' r p _ hl

/-- A page of zeros except for the first byte. -/
def samplePage (b : UInt8) : CachedPage := ⟨fun i => if i = 0 then b else 0, false⟩

/-- The theorem at two clients that load and get a page; the first one writes it. -/
theorem page_cache_coherent_two : ∃ s log, CacheRun s log ∧ s.get (toLex (1, 0)) = some 0 ∧
    (s.heap 0).data = (samplePage 7).data ∧ .acquired 1 (toLex (1, 0)) 0 ∈ log ∧
    .acquired 0 (toLex (1, 0)) 0 ∈ log := by
  have r₁ : CacheRun _ _ := .getOrLoad 0 (toLex (1, 0)) (samplePage 5).data (.new fun _ => samplePage 0)
  have r₂ : CacheRun _ _ := .get 1 (k := toLex (1, 0)) (r := 0) r₁ rfl
  have r₃ : CacheRun _ _ := .write (samplePage 7) r₂ (List.mem_cons_of_mem _ List.mem_cons_self)
  have h := page_cache_coherent r₃ (show _ = [_, _] ++ CacheEvent.acquired 0 (toLex (1, 0)) 0 :: [] from rfl)
  refine ⟨_, _, r₃, h.1.2 (by simp), h.2.2.2 [] _ _ rfl (by simp), by simp, ?_⟩
  exact List.mem_cons_of_mem _ (List.mem_cons_of_mem _ List.mem_cons_self)

/-- Between the load of the first client and its write the second one evicts the page and loads it again: the two hold
different pages, the page marked dirty is not the one written, and `get` returns what was loaded. -/
theorem write_lost_after_evict : ∃ s log, CacheRun s log ∧ .acquired 0 (toLex (1, 0)) 0 ∈ log ∧
    .acquired 1 (toLex (1, 0)) 1 ∈ log ∧ .wrote 0 (samplePage 7) ∈ log ∧ s.get (toLex (1, 0)) = some 1 ∧
    (s.heap 1).dirty = true ∧ (s.heap 0).dirty = false ∧ (s.heap 1).data 0 = 5 ∧ (s.heap 0).data 0 = 7 := by
  have r₁ : CacheRun _ _ := .getOrLoad 0 (toLex (1, 0)) (samplePage 5).data (.new fun _ => samplePage 0)
  have r₂ : CacheRun _ _ := .evict (toLex (1, 0)) r₁
  have r₃ : CacheRun _ _ := .getOrLoad 1 (toLex (1, 0)) (samplePage 5).data r₂
  have h₀ : .acquired 0 (toLex (1, 0)) 0 ∈ [CacheEvent.acquired 1 (toLex (1, 0)) 1, .dropped (toLex (1, 0)),
    .acquired 0 (toLex (1, 0)) 0] := List.mem_cons_of_mem _ (List.mem_cons_of_mem _ List.mem_cons_self)
  have r₄ : CacheRun _ _ := .write (samplePage 7) r₃ h₀
  have r₅ : CacheRun _ _ := .markDirty (toLex (1, 0)) r₄
  exact ⟨_, _, r₅, List.mem_cons_of_mem _ h₀, List.mem_cons_of_mem _ List.mem_cons_self, List.mem_cons_self, rfl, rfl,
    rfl, rfl, rfl⟩

end Hammam
