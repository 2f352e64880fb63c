import Mathlib.Data.Prod.Lex
import Mathlib.Logic.Function.Basic
import Hammam.Lib.SortedMap

/-!
# The page cache (`mm/page_cache.rs`)

The cache maps the key of a page to a shared reference to it.  A reference outlives its entry: whoever holds one
goes on reading and writing the same page after the entry has been removed or overwritten.  References are numbers
here, and the pages behind them are part of the state.
-/

namespace Hammam

/-- Inode and page index, in the order of the tuples. -/
abbrev PageKey := Nat ×ₗ Nat

def PageKey.inode (k : PageKey) : Nat := (ofLex k).1

/-- An `Arc<Mutex<CachedPage>>`; equal references are the same page. -/
abbrev PageRef := Nat

abbrev PageData := Fin 4096 → UInt8

structure CachedPage where
  data : PageData
  dirty : Bool

def CachedPage.markDirty (p : CachedPage) : CachedPage := { p with dirty := true }

def CachedPage.markClean (p : CachedPage) : CachedPage := { p with dirty := false }

structure PageCache where
  pages : SortedMap PageKey PageRef
  /-- The pages behind the references. -/
  heap : PageRef → CachedPage
  /-- The next unused reference. -/
  next : PageRef

namespace PageCache

def new (heap : PageRef → CachedPage) : PageCache := ⟨.empty, heap, 0⟩

/-- A new page under `k`. -/
def store (s : PageCache) (k : PageKey) (page : CachedPage) : PageCache where
  pages := s.pages.insert k s.next
  heap := Function.update s.heap s.next page
  next := s.next + 1

def get (s : PageCache) (k : PageKey) : Option PageRef := s.pages.get? k

/-- `loader` is what the closure returns. -/
def getOrLoad (s : PageCache) (k : PageKey) (loader : PageData) : PageRef × PageCache :=
  match s.get k with
  | some r => (r, s)
  | none => (s.next, s.store k ⟨loader, false⟩)

/-- The reference that was under `k` before, and the cache after the call. -/
def insert (s : PageCache) (k : PageKey) (page : CachedPage) : Option PageRef × PageCache :=
  (s.get k, s.store k page)

/-- The cache without the entry of `k`. -/
def remove (s : PageCache) (k : PageKey) : PageCache := { s with pages := s.pages.erase k }

def evict (s : PageCache) (k : PageKey) : Bool × PageCache := ((s.get k).isSome, s.remove k)

def keysToRemove (s : PageCache) (inode : Nat) : List PageKey := s.pages.keys.filter fun k => k.inode = inode

def evictInode (s : PageCache) (inode : Nat) : Nat × PageCache :=
  let s' := (s.keysToRemove inode).foldl remove s
  (s.pages.size - s'.pages.size, s')

/-- A change to the page of `k`, if there is one. -/
def modify (s : PageCache) (k : PageKey) (f : CachedPage → CachedPage) : Bool × PageCache :=
  match s.get k with
  | some r => (true, { s with heap := Function.update s.heap r (f (s.heap r)) })
  | none => (false, s)

def markDirty (s : PageCache) (k : PageKey) : Bool × PageCache := s.modify k CachedPage.markDirty

def markClean (s : PageCache) (k : PageKey) : Bool × PageCache := s.modify k CachedPage.markClean

def dirtyKeys (s : PageCache) (inode : Nat) : List PageKey :=
  (s.pages.entries.filter fun e => e.1.inode = inode && (s.heap e.2).dirty).map Prod.fst

/-- The pages are marked clean; writing them out is not implemented. -/
def syncInode (s : PageCache) (inode : Nat) : Nat × PageCache :=
  (s.dirtyKeys inode).foldl
    (fun acc k =>
      let marked := acc.2.markClean k
      (if marked.1 then acc.1 + 1 else acc.1, marked.2)) (0, s)

/-- A write through a reference. -/
def write (s : PageCache) (r : PageRef) (page : CachedPage) : PageCache :=
  { s with heap := Function.update s.heap r page }

/-! ### Lookups -/

variable {s : PageCache} {k k' : PageKey}

theorem get_store (page : CachedPage) : (s.store k page).get k' = if k' = k then some s.next else s.get k' :=
  SortedMap.get?_insert _ _ _ _

theorem get_remove : (s.remove k).get k' = if k' = k then none else s.get k' := SortedMap.get?_erase _ _ _

@[simp] theorem get_write (r : PageRef) (page : CachedPage) : (s.write r page).get k = s.get k := rfl

theorem heap_write (r r' : PageRef) (page : CachedPage) :
    (s.write r page).heap r' = if r' = r then page else s.heap r' := Function.update_apply _ _ _ _

theorem remove_of_none (h : s.get k = none) : s.remove k = s := by
  unfold remove
  rw [SortedMap.erase_of_none h]

/-- Storing over an entry is the same as removing it first. -/
theorem store_remove (page : CachedPage) : (s.remove k).store k page = s.store k page := by
  unfold store remove
  rw [SortedMap.insert_erase]

theorem heap_store (page : CachedPage) {r : PageRef} (hr : r < s.next) : (s.store k page).heap r = s.heap r :=
  Function.update_of_ne hr.ne _ _

/-- The entries and the data of the pages are those of `s`. -/
structure SameData (s s' : PageCache) : Prop where
  pages : s'.pages = s.pages
  next : s'.next = s.next
  data : ∀ r, (s'.heap r).data = (s.heap r).data

theorem SameData.refl (s : PageCache) : SameData s s := ⟨rfl, rfl, fun _ => rfl⟩

theorem SameData.trans {s₁ s₂ s₃ : PageCache} (h : SameData s₁ s₂) (h' : SameData s₂ s₃) : SameData s₁ s₃ :=
  ⟨h'.pages.trans h.pages, h'.next.trans h.next, fun r => (h'.data r).trans (h.data r)⟩

theorem sameData_modify (s : PageCache) (k : PageKey) {f : CachedPage → CachedPage} (hf : ∀ p, (f p).data = p.data) :
    SameData s (s.modify k f).2 := by
  unfold modify
  split
  · rename_i r _
    refine ⟨rfl, rfl, fun r' => ?_⟩
    simp only [Function.update_apply]
    split
    · rename_i e
      rw [e, hf]
    · rfl
  · exact .refl s

theorem sameData_syncInode (s : PageCache) (inode : Nat) : SameData s (s.syncInode inode).2 := by
  unfold syncInode
  generalize s.dirtyKeys inode = ks
  generalize 0 = n
  induction ks generalizing s n with
  | nil => exact .refl s
  | cons k ks ih =>
    have hk : SameData s (s.markClean k).2 := sameData_modify s k fun _ => rfl
    exact hk.trans (ih _ _)

end PageCache

end Hammam
