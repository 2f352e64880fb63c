import Hammam.Mm.FrameInit
import Hammam.Mm.Walk

/-!
# What `map_page` does

The tables form a tree whose frames are not free, so a table that is created, the split of a 2 MiB page and the
write of a leaf each change the walks through one entry only.  Creating a table changes no mapping, the split keeps
the addresses and drops `HUGE_PAGE`, and the leaf is the page that was asked for.
-/

namespace Hammam

open ByteMem RadixTree PageTableEntry Fallible

/-! ### Single frames -/

/-- The allocator owns its blocks, and all of them lie below `2 ^ 52`. -/
def BuddyAllocator.Sound (a : BuddyAllocator) : Prop :=
  ∃ live c, Owned a live c ∧ ∀ x, 0 < c x → x < 2 ^ 52

theorem FrameState.Reachable.sound {k : KernelImage} {memoryMap : List MemoryRegion} {fs : FrameState}
    (hm : ValidMap memoryMap) (hr : FrameState.Reachable k memoryMap fs) : fs.alloc.Sound := by
  obtain ⟨c, ho, hc⟩ := hr.owned hm
  refine ⟨fs.live, c, ho, fun x hx => ?_⟩
  obtain ⟨-, -, r, hr, hk, -, he⟩ := (hc x).1 hx
  have hb := (hm.bounded r hr hk).2
  rw [pageSize] at he
  omega

/-- A page is free as a whole. -/
theorem BuddyAllocator.Sound.freeAt_iff {a : BuddyAllocator} (h : a.Sound) (x : Nat) :
    FreeAt a (4096 * (x / 4096)) ↔ FreeAt a x := by
  obtain ⟨live, c, ho, -⟩ := h
  have hin : ∀ b ∈ a.blocks, InBlock b (4096 * (x / 4096)) ↔ InBlock b x := by
    intro b hb
    obtain ⟨d, hd⟩ := ho.aligned b (List.mem_append_left _ hb)
    rw [blockSize, pageSize, Nat.mul_right_comm] at hd
    rw [InBlock, InBlock, blockSize, pageSize]
    omega
  constructor
  · intro h
    obtain ⟨b, hb, h⟩ := h
    exact ⟨b, hb, (hin b hb).1 h⟩
  · intro h
    obtain ⟨b, hb, h⟩ := h
    exact ⟨b, hb, (hin b hb).2 h⟩

/-- The frame `4096 * n` has left the free lists of `a`. -/
structure Taken (a a' : BuddyAllocator) (n : Nat) : Prop where
  sound : a'.Sound
  lt : n < 2 ^ 40
  was : FreeAt a (4096 * n)
  free : ∀ x, FreeAt a' x ↔ FreeAt a x ∧ x / 4096 ≠ n
  count : a'.freeFrames + 1 = a.freeFrames

theorem BuddyAllocator.Sound.allocate {a : BuddyAllocator} (h : a.Sound) :
    (∃ e, a.allocate 0 = (.error e, a) ∧ a.freeFrames = 0) ∨
      ∃ n a', a.allocate 0 = (.ok ⟨4096 * n⟩, a') ∧ Taken a a' n := by
  obtain ⟨live, c, ho, hc⟩ := h
  obtain ⟨e, he, hnone⟩ | ⟨⟨addr⟩, a', he, ho', hcount⟩ := ho.allocate 0
  · refine Or.inl ⟨e, he, ?_⟩
    have hb : a.blocks = [] := List.eq_nil_iff_forall_not_mem.2 fun b hb => by
      obtain ⟨hlt, hm⟩ := BuddyAllocator.mem_blocks.1 hb
      rw [hnone _ (Nat.zero_le _) hlt] at hm
      exact List.not_mem_nil hm
    rw [ho.free, hb]
    rfl
  · right
    have ha := ho'.aligned (addr, 0) (by simp)
    rw [blockSize, pageSize, Nat.pow_zero, Nat.one_mul] at ha
    obtain ⟨n, rfl⟩ := ha
    have ho' : Owned a' ((4096 * n, 0) :: live) c := ho'
    have hin : ∀ x, InBlock (4096 * n, 0) x ↔ x / 4096 = n := by
      intro x
      simp only [InBlock, blockSize, pageSize]
      omega
    have hkey := fun x => ho.freeAt_taken ho' x
    refine ⟨n, a', he, ⟨_, c, ho', hc⟩, ?_, ?_, fun x => ?_, hcount⟩
    · have hpos : 0 < c (4096 * n) := by
        rw [← ho'.owner, owners_pos]
        exact ⟨(4096 * n, 0), by simp, (hin _).2 (by omega)⟩
      have := hc _ hpos
      omega
    · exact (hkey _).1 ((hin _).2 (by omega))
    · rw [(hkey x).2, hin]

theorem allocateFrame_spec {s : Machine} (h : s.alloc.Sound) :
    Spec (allocateFrame 0) s
      (fun f s' => ∃ n a, f = ⟨4096 * n⟩ ∧ s' = { s with alloc := a } ∧ Taken s.alloc a n)
      (fun _ s' => s' = s ∧ s.alloc.freeFrames = 0) := by
  have e : exec (allocateFrame 0) s = ((s.alloc.allocate 0).1, { s with alloc := (s.alloc.allocate 0).2 }) := rfl
  unfold Spec
  rw [e]
  obtain ⟨_, he, h0⟩ | ⟨n, a, he, ht⟩ := h.allocate
  · rw [he]
    exact ⟨rfl, h0⟩
  · rw [he]
    exact ⟨n, a, rfl, rfl, ht⟩

/-! ### The invariant -/

/-- The tables are a tree, a huge page is a 2 MiB page and aligned to its size, and no table lies in a free frame. -/
structure TableInv (s : Machine) : Prop where
  tree : IsTree child 3 (view s.mem) s.root
  upper : s.NoHugeUpper
  huge : ∀ {p t} i, p.length = 2 → s.tableAt p = some t → has (view s.mem t i) .present →
    has (view s.mem t i) .hugePage → 512 ∣ frameNo (view s.mem t i)
  apart : ∀ {p t}, p.length ≤ 3 → s.tableAt p = some t → ¬ FreeAt s.alloc (4096 * t)
  sound : s.alloc.Sound

theorem TableInv.hwTranslate {s : Machine} (h : TableInv s) (v : Nat) : s.hwTranslate v = s.translate v :=
  Machine.hwTranslate_eq h.upper h.huge v

/-- What every part of `map_page` leaves as it is: tables stay where they are, new tables take free frames, and bytes
outside the tables do not change. -/
structure Grows (s s' : Machine) : Prop where
  cr3 : s'.cr3 = s.cr3
  kept : ∀ {p t}, p.length ≤ 3 → s.tableAt p = some t → s'.tableAt p = some t
  new : ∀ {p t}, p.length ≤ 3 → s'.tableAt p = some t → s.tableAt p = some t ∨ FreeAt s.alloc (4096 * t)
  mem : ∀ x, (∀ p, p.length ≤ 3 → s'.tableAt p ≠ some (x / 4096)) → s'.mem x = s.mem x
  free : ∀ x, FreeAt s'.alloc x → FreeAt s.alloc x

theorem Grows.refl (s : Machine) : Grows s s :=
  ⟨rfl, fun _ h => h, fun _ h => Or.inl h, fun _ _ => rfl, fun _ h => h⟩

theorem Grows.trans {s s' s'' : Machine} (h : Grows s s') (h' : Grows s' s'') : Grows s s'' := by
  refine ⟨h'.cr3.trans h.cr3, fun hp ht => h'.kept hp (h.kept hp ht), fun hp ht => ?_, fun x hx => ?_,
    fun x hx => h.free x (h'.free x hx)⟩
  · obtain ht | ht := h'.new hp ht
    · exact h.new hp ht
    · exact Or.inr (h.free _ ht)
  · rw [h'.mem x hx, h.mem x]
    intro p hp ht
    exact hx p hp (h'.kept hp ht)

/-- The number of tables on the way to `virt` that are not there yet. -/
def Machine.missing (s : Machine) (virt : Nat) : Nat :=
  [1, 2, 3].countP fun k => (s.tableAt ((path virt).take k)).isNone

/-- Creating tables changes no mapping, and a frame that has left the free lists is a table through which nothing is
mapped. -/
structure Prepared (s s' : Machine) : Prop where
  mapping : ∀ v, s'.mapping v = s.mapping v
  taken : ∀ x, FreeAt s.alloc x → ¬ FreeAt s'.alloc x →
    ∃ q, q.length ≤ 3 ∧ s'.tableAt q = some (x / 4096) ∧ ∀ v, q <+: path v → s'.mapping v = none

theorem Prepared.refl (s : Machine) : Prepared s s := ⟨fun _ => rfl, fun _ h h' => absurd h h'⟩

theorem Prepared.trans {s s' s'' : Machine} (h : Prepared s s') (h' : Prepared s' s'') (g : Grows s' s'') :
    Prepared s s'' := by
  refine ⟨fun v => (h'.mapping v).trans (h.mapping v), fun x hx hx'' => ?_⟩
  by_cases hx' : FreeAt s'.alloc x
  · exact h'.taken x hx' hx''
  · obtain ⟨q, hq, ht, hnone⟩ := h.taken x hx hx'
    exact ⟨q, hq, g.kept hq ht, fun v hv => by rw [h'.mapping, hnone v hv]⟩

/-- The frame number `t` is one of the tables. -/
def Machine.IsTable (s : Machine) (t : Nat) : Prop := ∃ p, p.length ≤ 3 ∧ s.tableAt p = some t

theorem TableInv.not_table_of_free {s : Machine} (h : TableInv s) {x : Nat} (hx : FreeAt s.alloc x) :
    ¬ s.IsTable (x / 4096) := by
  intro ht
  obtain ⟨p, hp, ht⟩ := ht
  exact h.apart hp ht ((h.sound.freeAt_iff x).2 hx)

section Outside

variable {s s' : Machine} (hmem : ∀ x, s.IsTable (x / 4096) → s'.mem x = s.mem x) (hcr3 : s'.cr3 = s.cr3)
include hmem

theorem view_outside {t : Nat} (ht : s.IsTable t) (j : Fin 512) : view s'.mem t j = view s.mem t j := by
  have hj := j.isLt
  apply readLE_congr
  intro x h1 h2
  have h1 : 4096 * t + 8 * j.val ≤ x := h1
  have h2 : x < 4096 * t + 8 * j.val + 8 := h2
  apply hmem
  rwa [show x / 4096 = t by omega]

include hcr3

/-- Writes outside the tables change no walk. -/
theorem tableAt_outside {p : List (Fin 512)} (hp : p.length ≤ 3) : s'.tableAt p = s.tableAt p := by
  unfold Machine.tableAt
  rw [Machine.root, hcr3, ← Machine.root]
  exact follow_outside (Nat.le_succ_of_le hp) fun q u hq hu j => view_outside hmem ⟨q, hq, hu⟩ j

theorem leaf_outside (v : Nat) : s'.leaf v = s.leaf v := by
  unfold Machine.leaf
  rw [Machine.root, hcr3, ← Machine.root]
  exact resolve_outside (n := 3) (Nat.le_refl 4) fun q u hq hu j => view_outside hmem ⟨q, hq, hu⟩ j

theorem TableInv.outside (h : TableInv s) (ha : s'.alloc.Sound) (hfree : ∀ x, FreeAt s'.alloc x → FreeAt s.alloc x) :
    TableInv s' := by
  have hroot : s'.root = s.root := by rw [Machine.root, hcr3, Machine.root]
  refine ⟨fun hp hq ht hu => ?_, fun i hp ht => ?_, fun i hp ht => ?_, fun hp ht hf => ?_, ha⟩
  · exact h.tree hp hq ((tableAt_outside hmem hcr3 hp).symm.trans ht) ((tableAt_outside hmem hcr3 hq).symm.trans hu)
  · rw [tableAt_outside hmem hcr3 (by omega)] at ht
    rw [view_outside hmem ⟨_, by omega, ht⟩]
    exact h.upper i hp ht
  · rw [tableAt_outside hmem hcr3 (by omega)] at ht
    rw [view_outside hmem ⟨_, by omega, ht⟩]
    exact h.huge i hp ht
  · rw [tableAt_outside hmem hcr3 hp] at ht
    exact h.apart hp ht (hfree _ hf)

end Outside

/-- The entry `i` of the table `t` at the path `p` now leads to a new table in the frame `n`, with the entries `e`. -/
structure Linked (s s' : Machine) (p : List (Fin 512)) (t : Nat) (i : Fin 512) (n : Nat) (e : Fin 512 → Nat) :
    Prop where
  inv : TableInv s
  depth : p.length ≤ 2
  at_path : s.tableAt p = some t
  none : child (view s.mem t i) = none
  taken : Taken s.alloc s'.alloc n
  cr3 : s'.cr3 = s.cr3
  view_eq : ∀ u j, view s'.mem u j =
    if u = t ∧ j = i then setFrame ⟨4096 * n⟩ tableFlags else if u = n then e j else view s.mem u j
  mem_eq : ∀ x, x / 4096 ≠ t → x / 4096 ≠ n → s'.mem x = s.mem x
  empty : p.length < 2 → ∀ j, ¬ has (e j) .present

namespace Linked

variable {s s' : Machine} {p : List (Fin 512)} {t : Nat} {i : Fin 512} {n : Nat} {e : Fin 512 → Nat}

theorem root (l : Linked s s' p t i n e) : s'.root = s.root := by
  rw [Machine.root, l.cr3, Machine.root]

/-- The new frame is no table of the tree. -/
theorem fresh (l : Linked s s' p t i n e) {q : List (Fin 512)} {u : Nat} (hq : q.length ≤ 3)
    (hu : s.tableAt q = some u) : u ≠ n := by
  intro he
  subst he
  exact l.inv.apart hq hu l.taken.was

theorem changed (l : Linked s s' p t i n e) :
    Changed child 3 (view s.mem) (view s'.mem) s.root (· = n) t p i := by
  refine ⟨l.inv.tree, Nat.le_succ_of_le l.depth, l.at_path, fun hq hu => l.fresh hq hu, fun j hu hj => ?_⟩
  rw [l.view_eq, if_neg hj, if_neg hu]

theorem ne (l : Linked s s' p t i n e) : n ≠ t := by
  have := l.depth
  exact (l.fresh (by omega) l.at_path).symm

theorem view_at (l : Linked s s' p t i n e) : view s'.mem t i = setFrame ⟨4096 * n⟩ tableFlags := by
  rw [l.view_eq, if_pos ⟨rfl, rfl⟩]

theorem view_new (l : Linked s s' p t i n e) (j : Fin 512) : view s'.mem n j = e j := by
  rw [l.view_eq, if_neg fun h => l.ne h.1, if_pos rfl]

theorem present_at (l : Linked s s' p t i n e) : has (view s'.mem t i) .present := by
  rw [l.view_at, has_setFrame]
  decide

theorem not_huge_at (l : Linked s s' p t i n e) : ¬ has (view s'.mem t i) .hugePage := by
  rw [l.view_at, has_setFrame]
  decide

theorem child_at (l : Linked s s' p t i n e) : child (view s'.mem t i) = some n := by
  rw [l.view_at, child_setFrame_table l.taken.lt]

/-- The tables afterwards are the old ones and the new one. -/
theorem tableAt_iff (l : Linked s s' p t i n e) {q : List (Fin 512)} (hq : q.length ≤ 3) {u : Nat} :
    s'.tableAt q = some u ↔ s.tableAt q = some u ∨ (q = p ++ [i] ∧ u = n) := by
  unfold Machine.tableAt
  rw [l.root]
  have := l.depth
  refine l.changed.follow_link (by omega) l.none l.child_at (fun hp j => ?_) hq
  rw [l.view_new]
  exact child_of_not_present (l.empty (by omega) j)

theorem tableAt_new (l : Linked s s' p t i n e) : s'.tableAt (p ++ [i]) = some n := by
  have := l.depth
  exact (l.tableAt_iff (by rw [List.length_append, List.length_singleton]; omega)).2 (Or.inr ⟨rfl, rfl⟩)

theorem grows (l : Linked s s' p t i n e) : Grows s s' := by
  have hd := l.depth
  refine ⟨l.cr3, fun hq hu => (l.tableAt_iff hq).2 (Or.inl hu), fun hq hu => ?_, fun x hx => ?_, fun x hx => ?_⟩
  · obtain hu | ⟨-, rfl⟩ := (l.tableAt_iff hq).1 hu
    · exact Or.inl hu
    · exact Or.inr l.taken.was
  · apply l.mem_eq
    · intro hxt
      exact hx p (by omega) ((l.tableAt_iff (by omega)).2 (Or.inl (hxt ▸ l.at_path)))
    · intro hxn
      exact hx (p ++ [i]) (by rw [List.length_append, List.length_singleton]; omega) (hxn ▸ l.tableAt_new)
  · exact ((l.taken.free x).1 hx).1

/-- An entry of a table of the new tree is the new link, an entry of the new table, or an old entry. -/
theorem entry_cases (l : Linked s s' p t i n e) {q : List (Fin 512)} {u : Nat} (hq : q.length ≤ 3)
    (hu : s'.tableAt q = some u) (j : Fin 512) :
    view s'.mem u j = setFrame ⟨4096 * n⟩ tableFlags ∨ (q = p ++ [i] ∧ view s'.mem u j = e j) ∨
      (s.tableAt q = some u ∧ view s'.mem u j = view s.mem u j) := by
  obtain hu | ⟨hq', rfl⟩ := (l.tableAt_iff hq).1 hu
  · by_cases hj : u = t ∧ j = i
    · exact Or.inl (by rw [hj.1, hj.2, l.view_at])
    · exact Or.inr (Or.inr ⟨hu, l.changed.same j (l.fresh hq hu) hj⟩)
  · exact Or.inr (Or.inl ⟨hq', l.view_new j⟩)

theorem inv' (l : Linked s s' p t i n e) : TableInv s' := by
  have hd := l.depth
  have hlink : ¬ has (setFrame ⟨4096 * n⟩ tableFlags) .hugePage := by
    rw [has_setFrame]
    decide
  constructor
  · rw [l.root]
    refine l.changed.tree_link (by omega) l.none l.child_at (fun hp j => ?_) rfl
    rw [l.view_new]
    exact child_of_not_present (l.empty (by omega) j)
  · intro q u j hq hu hpre hhuge
    obtain h | ⟨hq', h⟩ | ⟨h0, h⟩ := l.entry_cases (by omega) hu j <;> rw [h] at hpre hhuge
    · exact hlink hhuge
    · rw [hq', List.length_append, List.length_singleton] at hq
      exact l.empty (by omega) j hpre
    · exact l.inv.upper j hq h0 hpre hhuge
  · intro q u j hq hu hpre hhuge
    obtain h | ⟨hq', h⟩ | ⟨h0, h⟩ := l.entry_cases (by omega) hu j <;> rw [h] at hpre hhuge ⊢
    · exact absurd hhuge hlink
    · rw [hq', List.length_append, List.length_singleton] at hq
      exact absurd hpre (l.empty (by omega) j)
    · exact l.inv.huge j hq h0 hpre hhuge
  · intro q u hq hu hfree
    obtain hu | ⟨-, rfl⟩ := (l.tableAt_iff hq).1 hu
    · exact l.inv.apart hq hu ((l.taken.free _).1 hfree).1
    · exact ((l.taken.free _).1 hfree).2 (by omega)
  · exact l.taken.sound

/-- Walks that do not pass through the link end at the same entry. -/
theorem leaf_eq (l : Linked s s' p t i n e) {v : Nat} (hv : ¬ (p ++ [i]) <+: path v) : s'.leaf v = s.leaf v := by
  unfold Machine.leaf
  rw [l.root]
  exact l.changed.resolve_eq (Nat.le_refl _) hv

/-- Walks through the link ended at it, and go on in the new table. -/
theorem leaf_through (l : Linked s s' p t i n e) {v : Nat} {j : Fin 512} {r : List (Fin 512)}
    (hv : path v = p ++ i :: j :: r) :
    s.leaf v = some (view s.mem t i, j :: r) ∧ s'.leaf v = resolve child (view s'.mem) n (j :: r) := by
  unfold Machine.leaf
  rw [hv, l.root]
  constructor
  · rw [resolve_append l.at_path (List.cons_ne_nil _ _), resolve_stop l.none]
  · have hn : follow child (view s'.mem) s.root (p ++ [i]) = some n := by
      rw [← l.root]
      exact l.tableAt_new
    rw [show p ++ i :: j :: r = (p ++ [i]) ++ j :: r by simp, resolve_append hn (List.cons_ne_nil _ _)]

/-- Nothing was mapped, and nothing is, through an empty table under an entry that was not present. -/
private theorem mapping_through (l : Linked s s' p t i n fun _ => 0) (hold : ¬ has (view s.mem t i) .present)
    {v : Nat} (hv : (p ++ [i]) <+: path v) : s.mapping v = .none ∧ s'.mapping v = .none := by
  have hd := l.depth
  obtain ⟨r, hr⟩ := hv
  have hlen := congrArg List.length hr
  rw [List.length_append, List.length_append, List.length_singleton, path, List.length_cons] at hlen
  obtain ⟨j, r, rfl⟩ : ∃ j r', r = j :: r' := by
    cases r with
    | nil => simp at hlen; omega
    | cons j r => exact ⟨j, r, rfl⟩
  have hv : path v = p ++ i :: j :: r := by rw [← hr, List.append_assoc, List.singleton_append]
  obtain ⟨h1, h2⟩ := l.leaf_through hv
  refine ⟨Machine.mapping_of_not_present h1 hold, ?_⟩
  cases r with
  | nil =>
    rw [resolve, l.view_new] at h2
    exact Machine.mapping_of_not_present h2 not_has_zero
  | cons k r =>
    rw [resolve_stop (by rw [l.view_new]; exact child_zero), l.view_new] at h2
    exact Machine.mapping_of_not_present h2 not_has_zero

theorem prepared (l : Linked s s' p t i n fun _ => 0) (hold : ¬ has (view s.mem t i) .present) : Prepared s s' := by
  have hd := l.depth
  refine ⟨fun v => ?_, fun x hx hx' => ?_⟩
  · by_cases hv : (p ++ [i]) <+: path v
    · obtain ⟨h1, h2⟩ := l.mapping_through hold hv
      rw [h1, h2]
    · unfold Machine.mapping
      rw [l.leaf_eq hv]
  · obtain rfl : x / 4096 = n := Classical.byContradiction fun hne => hx' ((l.taken.free x).2 ⟨hx, hne⟩)
    refine ⟨p ++ [i], ?_, l.tableAt_new, fun v hv => (l.mapping_through hold hv).2⟩
    rw [List.length_append, List.length_singleton]
    omega

/-- The new table was missing on the way to the addresses below it. -/
theorem missing_eq (l : Linked s s' p t i n e) {virt : Nat} (hv : p ++ [i] = (path virt).take (p.length + 1)) :
    s'.missing virt + 1 = s.missing virt := by
  have hd := l.depth
  have hlen : (path virt).length = 4 := rfl
  have hnone : s.tableAt (p ++ [i]) = .none := (follow_snoc l.at_path).trans l.none
  have hnew : s'.tableAt (p ++ [i]) = some n := l.tableAt_new
  rw [hv] at hnone hnew
  have hother : ∀ k, k ≤ 3 → k ≠ p.length + 1 → s'.tableAt ((path virt).take k) = s.tableAt ((path virt).take k) := by
    intro k hk hne
    have hlk : ((path virt).take k).length = k := by
      rw [List.length_take, hlen]
      omega
    refine Option.ext fun u => ?_
    rw [l.tableAt_iff (by omega), or_iff_left]
    intro h
    have := congrArg List.length h.1
    rw [hlk, List.length_append, List.length_singleton] at this
    omega
  unfold Machine.missing
  simp only [List.countP_cons, List.countP_nil]
  obtain h0 | h1 | h2 : p.length = 0 ∨ p.length = 1 ∨ p.length = 2 := by omega
  · rw [h0] at hnone hnew hother
    simp [hnone, hnew, hother 2 (by omega) (by omega), hother 3 (by omega) (by omega)]
  · rw [h1] at hnone hnew hother
    simp [hnone, hnew, hother 1 (by omega) (by omega), hother 3 (by omega) (by omega)]
    omega
  · rw [h2] at hnone hnew hother
    simp [hnone, hnew, hother 1 (by omega) (by omega), hother 2 (by omega) (by omega)]
    omega

/-- A frame less is free, and a table less is missing. -/
theorem balance (l : Linked s s' p t i n e) {virt : Nat} (hv : p ++ [i] = (path virt).take (p.length + 1)) :
    s'.alloc.freeFrames + s.missing virt = s.alloc.freeFrames + s'.missing virt := by
  have h1 := l.taken.count
  have h2 := l.missing_eq hv
  omega

end Linked

/-- The address lies in a 2 MiB page. -/
def Machine.InHuge (s : Machine) (v : Nat) : Prop := ∃ e j, s.mapping v = some (e, [j])

/-- The 2 MiB page at `q`, if there is one, has become 512 pages with the same addresses, without `HUGE_PAGE`. -/
structure SplitAt (s s' : Machine) (q : List (Fin 512)) : Prop where
  split : ∀ {v e j}, q <+: path v → s.mapping v = some (e, [j]) → ∃ e', s'.mapping v = some (e', []) ∧
    flags e' = (flags e).without .hugePage ∧ leafAddr v (e', []) = leafAddr v (e, [j])
  other : ∀ {v}, ¬ (q <+: path v ∧ s.InHuge v) → s'.mapping v = s.mapping v

private theorem path_under {p : List (Fin 512)} {i : Fin 512} (hp : p.length = 2) {v : Nat}
    (hv : (p ++ [i]) <+: path v) : path v = p ++ [i, idx v 12] := by
  obtain ⟨r, hr⟩ := hv
  obtain ⟨a, b, rfl⟩ := List.length_eq_two.1 hp
  simp only [path, List.cons_append, List.nil_append, List.cons.injEq] at hr ⊢
  exact ⟨hr.1.symm, hr.2.1.symm, hr.2.2.1.symm, trivial⟩

/-- A 2 MiB page is an entry of the page directory on the way. -/
theorem huge_of_mapping {s : Machine} {p : List (Fin 512)} {t : Nat} {i : Fin 512} (hp : p.length = 2)
    (ht : s.tableAt p = some t) {v e : Nat} {j : Fin 512} (hv : (p ++ [i]) <+: path v)
    (hm : s.mapping v = some (e, [j])) : has (view s.mem t i) .present ∧ has (view s.mem t i) .hugePage := by
  have hl : s.leaf v = resolve child (view s.mem) t [i, idx v 12] := by
    rw [Machine.leaf, path_under hp hv, resolve_append ht (List.cons_ne_nil _ _)]
  by_cases hpre : has (view s.mem t i) .present
  · refine ⟨hpre, Classical.byContradiction fun hh => ?_⟩
    rw [resolve_next (child_of_present hpre hh), resolve] at hl
    rw [Machine.mapping, hl, Option.filter_eq_some_iff] at hm
    simp at hm
  · rw [resolve_stop (child_of_not_present hpre)] at hl
    rw [Machine.mapping_of_not_present hl hpre] at hm
    cases hm

theorem Linked.splitAt {s s' : Machine} {p : List (Fin 512)} {t n : Nat} {i : Fin 512} {e : Fin 512 → Nat}
    (l : Linked s s' p t i n e) (hp : p.length = 2) (hpre : has (view s.mem t i) .present)
    (hhuge : has (view s.mem t i) .hugePage)
    (he : ∀ j : Fin 512, e j = setFrame ⟨(view s.mem t i &&& addrMask) + j * 0x1000⟩
      ((flags (view s.mem t i)).without .hugePage)) : SplitAt s s' (p ++ [i]) := by
  -- below the split entry the walk now ends one level further down
  have hthrough : ∀ {v}, (p ++ [i]) <+: path v → s.mapping v = some (view s.mem t i, [idx v 12]) ∧
      s'.leaf v = some (e (idx v 12), []) := by
    intro v hv
    obtain ⟨h1, h2⟩ := l.leaf_through (path_under hp hv)
    rw [resolve, l.view_new] at h2
    exact ⟨Machine.mapping_of_leaf h1 hpre, h2⟩
  have hframe : ∀ j : Fin 512, frameNo (e j) = frameNo (view s.mem t i) + j := by
    intro j
    have hb := l.inv.huge i hp l.at_path hpre hhuge
    have hlt := frameNo_lt (view s.mem t i)
    have hj := j.isLt
    rw [he, and_addrMask, ← frameNo, show 4096 * frameNo (view s.mem t i) + j * 0x1000 =
      4096 * (frameNo (view s.mem t i) + j) by omega]
    exact frameNo_setFrame (by omega) _
  constructor
  · intro v e' j hv hm
    obtain ⟨h1, h2⟩ := hthrough hv
    rw [h1, Option.some.injEq, Prod.mk.injEq, List.cons.injEq] at hm
    obtain ⟨rfl, rfl, -⟩ := hm
    have hfl : flags (e (idx v 12)) = (flags (view s.mem t i)).without .hugePage := by rw [he, flags_setFrame]
    refine ⟨_, Machine.mapping_of_leaf h2 ?_, hfl, ?_⟩
    · rw [has, hfl, PageFlags.without_present]
      exact hpre
    · rw [leafAddr, leafAddr, if_pos rfl, if_neg (List.cons_ne_nil _ _), hframe]
      show 4096 * (frameNo (view s.mem t i) + v / 2 ^ 12 % 512) + v % 4096 =
        4096 * frameNo (view s.mem t i) + v % 2 ^ 21
      omega
  · intro v hv
    have hno : ¬ (p ++ [i]) <+: path v := fun h => hv ⟨h, _, _, (hthrough h).1⟩
    unfold Machine.mapping
    rw [l.leaf_eq hno]

/-! ### The parts of `map_page` -/

section Parts

variable {s : Machine} {p : List (Fin 512)} {t : Nat} {i : Fin 512}

/-- A table is filled in a frame from the allocator and linked. -/
theorem linked_fill (h : TableInv s) (hp : p.length ≤ 2) (ht : s.tableAt p = some t)
    (hnone : child (view s.mem t i) = none) {n : Nat} {a : BuddyAllocator} (htk : Taken s.alloc a n) {e : Nat → Nat}
    (he : ∀ j, e j < 2 ^ 64) (hempty : p.length < 2 → ∀ j, ¬ has (e j) .present) :
    Linked s ⟨setEntry (fillTable s.mem ⟨4096 * n⟩ e 512) ⟨4096 * t⟩ i (setFrame ⟨4096 * n⟩ tableFlags), s.cr3, a⟩
      p t i n fun j => e j := by
  refine ⟨h, hp, ht, hnone, htk, rfl, fun u j => ?_, fun x hxt hxn => ?_, fun hlt j => hempty hlt j⟩
  · rw [view_setEntry _ _ _ (setFrame_lt _ _), view_fillTable _ _ fun j _ => he j]
  · show setEntry _ _ _ _ x = s.mem x
    rw [setEntry_of_outside _ _ _ _ hxt, fillTable_of_outside _ _ _ hxn _ (Nat.le_refl _)]

private theorem missing_pos {virt : Nat} (hv : p ++ [i] = (path virt).take (p.length + 1)) (hp : p.length ≤ 2)
    (ht : s.tableAt p = some t) (hnone : child (view s.mem t i) = none) : 0 < s.missing virt := by
  refine List.countP_pos_iff.2 ⟨p.length + 1, ?_, ?_⟩
  · simp only [List.mem_cons, List.not_mem_nil, or_false]
    omega
  · rw [← hv, Machine.tableAt, follow_snoc ht, hnone]
    rfl

/-- The next table is there afterwards, or there is no frame for it. -/
theorem nextTable_spec (h : TableInv s) (hp : p.length ≤ 2) (ht : s.tableAt p = some t)
    (hh : has (view s.mem t i) .present → ¬ has (view s.mem t i) .hugePage) (virt : Nat)
    (hv : p ++ [i] = (path virt).take (p.length + 1)) :
    Spec (nextTable ⟨4096 * t⟩ i) s
      (fun f s' => ∃ n, f = ⟨4096 * n⟩ ∧ s'.tableAt (p ++ [i]) = some n ∧ TableInv s' ∧ Grows s s' ∧ Prepared s s' ∧
        s'.alloc.freeFrames + s.missing virt = s.alloc.freeFrames + s'.missing virt)
      (fun e s' => e = .frameAllocationFailed ∧ s' = s ∧ ¬ has (view s.mem t i) .present ∧ s.alloc.freeFrames = 0 ∧
        0 < s.missing virt) := by
  unfold nextTable
  refine Spec.bind (Spec.get ?_)
  by_cases hpre : has (view s.mem t i) .present
  · have hf : frame (entry s.mem ⟨4096 * t⟩ i) = some _ := frame_of_present hpre
    simp only [hf]
    refine Spec.pure ⟨_, rfl, ?_, h, Grows.refl s, Prepared.refl s, rfl⟩
    exact (follow_snoc ht).trans (child_of_present hpre (hh hpre))
  · have hf : frame (entry s.mem ⟨4096 * t⟩ i) = none := frame_of_not_present hpre
    simp only [hf]
    refine Spec.bind (Spec.mapErr ((allocateFrame_spec h.sound).mono ?_ fun _ _ hs =>
      ⟨rfl, hs.1, hpre, hs.2, missing_pos hv hp ht (child_of_not_present hpre)⟩))
    intro _ _ hpost
    obtain ⟨n, a, rfl, rfl, htk⟩ := hpost
    refine Spec.bind (Spec.modify ?_)
    have l := linked_fill h hp ht (child_of_not_present hpre) htk (e := fun _ => 0) (fun _ => by decide)
      fun _ _ => not_has_zero
    exact Spec.pure ⟨n, rfl, l.tableAt_new, l.inv', l.grows, l.prepared hpre, l.balance hv⟩

theorem splitHuge_spec (h : TableInv s) (hp : p.length = 2) (ht : s.tableAt p = some t) (virt : Nat)
    (hv : p ++ [i] = (path virt).take (p.length + 1)) :
    Spec (splitHuge ⟨4096 * t⟩ i) s
      (fun _ s' => TableInv s' ∧ Grows s s' ∧ SplitAt s s' (p ++ [i]) ∧
        (has (view s'.mem t i) .present → ¬ has (view s'.mem t i) .hugePage) ∧
        (s' = s ∨ has (view s'.mem t i) .present) ∧
        s'.alloc.freeFrames + s.missing virt = s.alloc.freeFrames + s'.missing virt)
      (fun e s' => e = .frameAllocationFailed ∧ s' = s ∧ s.alloc.freeFrames = 0 ∧ 0 < s.missing virt) := by
  unfold splitHuge
  refine Spec.bind (Spec.get ?_)
  have hc : (has (entry s.mem ⟨4096 * t⟩ i) .present && has (entry s.mem ⟨4096 * t⟩ i) .hugePage) = true ↔
      has (view s.mem t i) .present ∧ has (view s.mem t i) .hugePage := by
    rw [Bool.and_eq_true]
    exact Iff.rfl
  by_cases hpre : has (view s.mem t i) .present ∧ has (view s.mem t i) .hugePage
  · rw [if_pos (hc.2 hpre)]
    refine Spec.bind (Spec.mapErr ((allocateFrame_spec h.sound).mono ?_ fun _ _ hs =>
      ⟨rfl, hs.1, hs.2, missing_pos hv (Nat.le_of_eq hp) ht (child_of_huge hpre.2)⟩))
    intro _ _ hpost
    obtain ⟨n, a, rfl, rfl, htk⟩ := hpost
    refine Spec.modify ?_
    have l := linked_fill h (by omega) ht (child_of_huge hpre.2) htk (fun j => setFrame_lt
      ⟨(view s.mem t i &&& addrMask) + j * 0x1000⟩ ((flags (view s.mem t i)).without .hugePage)) (by omega)
    exact ⟨l.inv', l.grows, l.splitAt hp hpre.1 hpre.2 fun j => rfl, fun _ => l.not_huge_at,
      Or.inr l.present_at, l.balance hv⟩
  · rw [if_neg fun h => hpre (hc.1 h)]
    refine Spec.pure ⟨h, Grows.refl s, ⟨fun hv hm => ?_, fun _ => rfl⟩, fun h1 h2 => hpre ⟨h1, h2⟩,
      Or.inl rfl, rfl⟩
    exact absurd (huge_of_mapping hp ht hv hm) hpre

end Parts

/-! ### The leaf -/

/-- The entry `i` of the page table `t` at the path `p` is now `e`. -/
structure Wrote (s s' : Machine) (p : List (Fin 512)) (t : Nat) (i : Fin 512) (e : Nat) : Prop where
  inv : TableInv s
  depth : p.length = 3
  at_path : s.tableAt p = some t
  cr3 : s'.cr3 = s.cr3
  alloc : s'.alloc = s.alloc
  view_eq : ∀ u j, view s'.mem u j = if u = t ∧ j = i then e else view s.mem u j
  mem_eq : ∀ x, x / 4096 ≠ t → s'.mem x = s.mem x

namespace Wrote

variable {s s' : Machine} {p : List (Fin 512)} {t : Nat} {i : Fin 512} {e : Nat}

theorem root (w : Wrote s s' p t i e) : s'.root = s.root := by
  rw [Machine.root, w.cr3, Machine.root]

theorem changed (w : Wrote s s' p t i e) :
    Changed child 3 (view s.mem) (view s'.mem) s.root (fun _ => False) t p i := by
  refine ⟨w.inv.tree, by rw [w.depth], w.at_path, fun _ _ h => h, fun j _ hj => ?_⟩
  rw [w.view_eq, if_neg hj]

theorem tableAt_eq (w : Wrote s s' p t i e) {q : List (Fin 512)} (hq : q.length ≤ 3) :
    s'.tableAt q = s.tableAt q := by
  unfold Machine.tableAt
  rw [w.root]
  exact w.changed.follow_leaf w.depth hq

/-- The upper tables are other tables, and their entries stay. -/
theorem view_upper (w : Wrote s s' p t i e) {q : List (Fin 512)} {u : Nat} (hq : q.length ≤ 2)
    (hu : s.tableAt q = some u) (j : Fin 512) : view s'.mem u j = view s.mem u j := by
  rw [w.view_eq, if_neg]
  intro h
  obtain ⟨rfl, -⟩ := h
  have := w.inv.tree (by omega) (Nat.le_of_eq w.depth) hu w.at_path
  rw [this, w.depth] at hq
  omega

theorem inv' (w : Wrote s s' p t i e) : TableInv s' := by
  constructor
  · rw [w.root]
    exact w.changed.tree_leaf w.depth
  · intro q u j hq hu
    rw [w.tableAt_eq (by omega)] at hu
    rw [w.view_upper (by omega) hu]
    exact w.inv.upper j hq hu
  · intro q u j hq hu
    rw [w.tableAt_eq (by omega)] at hu
    rw [w.view_upper (by omega) hu]
    exact w.inv.huge j hq hu
  · intro q u hq hu
    rw [w.tableAt_eq hq] at hu
    rw [w.alloc]
    exact w.inv.apart hq hu
  · rw [w.alloc]
    exact w.inv.sound

theorem grows (w : Wrote s s' p t i e) : Grows s s' := by
  refine ⟨w.cr3, fun hq hu => ?_, fun hq hu => ?_, fun x hx => ?_, fun x hx => ?_⟩
  · rw [w.tableAt_eq hq]
    exact hu
  · rw [w.tableAt_eq hq] at hu
    exact Or.inl hu
  · apply w.mem_eq
    intro hxt
    apply hx p (Nat.le_of_eq w.depth)
    rw [w.tableAt_eq (Nat.le_of_eq w.depth), hxt, w.at_path]
  · rw [w.alloc] at hx
    exact hx

theorem leaf_at (w : Wrote s s' p t i e) {v : Nat} (hv : path v = p ++ [i]) : s'.leaf v = some (e, []) := by
  have ht : follow child (view s'.mem) s'.root p = some t := by
    rw [w.root]
    exact w.changed.follow_path
  rw [Machine.leaf, hv, resolve_append ht (List.cons_ne_nil _ _), resolve, w.view_eq, if_pos ⟨rfl, rfl⟩]

theorem mapping_eq (w : Wrote s s' p t i e) {v : Nat} (hv : path v ≠ p ++ [i]) : s'.mapping v = s.mapping v := by
  unfold Machine.mapping Machine.leaf
  rw [w.root, w.changed.resolve_eq (Nat.le_refl _)]
  intro hpre
  apply hv
  refine (hpre.eq_of_length ?_).symm
  rw [List.length_append, w.depth]
  rfl

end Wrote

/-! ### The whole of `map_page` -/

/-- The page of `virt` has the leaf `e`, the other pages of a 2 MiB page around it are those of `SplitAt`, and all
other pages are as before. -/
structure Mapped (s s' : Machine) (virt e : Nat) : Prop where
  at_virt : s'.leaf virt = some (e, [])
  split : ∀ {v e₀ j}, path v ≠ path virt → (path v).take 3 = (path virt).take 3 → s.mapping v = some (e₀, [j]) →
    ∃ e', s'.mapping v = some (e', []) ∧ flags e' = (flags e₀).without .hugePage ∧
      leafAddr v (e', []) = leafAddr v (e₀, [j])
  other : ∀ {v}, path v ≠ path virt → ¬ ((path v).take 3 = (path virt).take 3 ∧ s.InHuge v) →
    s'.mapping v = s.mapping v

theorem pml4Index_eq (v : Nat) : pml4Index v = (idx v 39).val := index_eq v 39

theorem pdptIndex_eq (v : Nat) : pdptIndex v = (idx v 30).val := index_eq v 30

theorem pdIndex_eq (v : Nat) : pdIndex v = (idx v 21).val := index_eq v 21

theorem ptIndex_eq (v : Nat) : ptIndex v = (idx v 12).val := index_eq v 12

private theorem prefix_iff_take (v virt : Nat) :
    ([] ++ [idx virt 39] ++ [idx virt 30] ++ [idx virt 21]) <+: path v ↔ (path v).take 3 = (path virt).take 3 := by
  rw [List.prefix_iff_eq_take, eq_comm]
  exact Iff.rfl

/-- Once the page table of `virt` is there, no table is missing. -/
private theorem missing_eq_zero {s : Machine} {virt t : Nat}
    (ht : s.tableAt ([] ++ [idx virt 39] ++ [idx virt 30] ++ [idx virt 21]) = some t) : s.missing virt = 0 := by
  have hprefix : ∀ k ≤ 3, s.tableAt ((path virt).take k) ≠ none := by
    intro k hk hnone
    have ht : s.tableAt ((path virt).take 3) = some t := ht
    have happ : (path virt).take 3 = (path virt).take k ++ ((path virt).take 3).drop k := by
      conv_lhs => rw [← List.take_append_drop k ((path virt).take 3), List.take_take, Nat.min_eq_left hk]
    rw [happ, Machine.tableAt, follow_append] at ht
    rw [Machine.tableAt] at hnone
    rw [hnone] at ht
    cases ht
  refine List.countP_eq_zero.2 fun k hk => ?_
  have hk3 : k ≤ 3 := by
    simp only [List.mem_cons, List.not_mem_nil, or_false] at hk
    omega
  rw [Option.isNone_iff_eq_none]
  exact hprefix k hk3

/-- `map_page` keeps the invariant whether it succeeds or not.  It fails when there are fewer free frames than tables
missing, and then it has changed no mapping. -/
theorem mapPage_spec {s : Machine} (h : TableInv s) (virt : Nat) (phys : PhysFrame) (flags : PageFlags) :
    Spec (mapPage virt phys flags) s
      (fun _ s' => TableInv s' ∧ Grows s s' ∧ Mapped s s' virt (setFrame phys (flags ||| .present)) ∧
        s'.alloc.freeFrames + s.missing virt = s.alloc.freeFrames)
      (fun e s' => TableInv s' ∧ Grows s s' ∧ Prepared s s' ∧ s.alloc.freeFrames < s.missing virt ∧
        e = .frameAllocationFailed) := by
  unfold mapPage
  refine Spec.bind (Spec.get ?_)
  rw [Machine.activePml4_eq, pml4Index_eq, pdptIndex_eq, pdIndex_eq, ptIndex_eq]
  have hroot : s.tableAt [] = some s.root := rfl
  refine Spec.bind ((nextTable_spec h (by simp) hroot (h.upper _ (by simp) hroot) virt rfl).mono ?_ ?_)
  case refine_2 =>
    intro _ _ hpost
    obtain ⟨rfl, rfl, -, hz, hm⟩ := hpost
    exact ⟨h, Grows.refl _, Prepared.refl _, by omega, rfl⟩
  intro _ s₁ hpost
  obtain ⟨t₃, rfl, ht₃, h₁, g₁, m₁, n₁⟩ := hpost
  refine Spec.bind ((nextTable_spec h₁ (by simp) ht₃ (h₁.upper _ (by simp) ht₃) virt rfl).mono ?_ ?_)
  case refine_2 =>
    intro _ _ hpost
    obtain ⟨rfl, rfl, -, hz, hm⟩ := hpost
    exact ⟨h₁, g₁, m₁, by omega, rfl⟩
  intro _ s₂ hpost
  obtain ⟨t₂, rfl, ht₂, h₂, g₂, m₂, n₂⟩ := hpost
  have m₂₀ : Prepared s s₂ := m₁.trans m₂ g₂
  refine Spec.bind ((splitHuge_spec h₂ (by simp) ht₂ virt rfl).mono ?_ ?_)
  case refine_2 =>
    intro _ _ hpost
    obtain ⟨rfl, rfl, hz, hm⟩ := hpost
    exact ⟨h₂, g₁.trans g₂, m₂₀, by omega, rfl⟩
  intro _ s₃ hpost
  obtain ⟨h₃, g₃, hsplit, hnh, hdone, n₃⟩ := hpost
  refine Spec.bind ((nextTable_spec h₃ (by simp) (g₃.kept (by simp) ht₂) hnh virt rfl).mono ?_ ?_)
  case refine_2 =>
    -- after a split the entry is there, so this failure comes with no split
    intro _ _ hpost
    obtain ⟨rfl, rfl, hnp, hz, hm⟩ := hpost
    obtain rfl | hp := hdone
    · exact ⟨h₃, g₁.trans g₂, m₂₀, by omega, rfl⟩
    · exact absurd hp hnp
  intro _ s₄ hpost
  obtain ⟨t₁, rfl, ht₁, h₄, g₄, m₄, n₄⟩ := hpost
  refine Spec.modify ?_
  have w : Wrote s₄ { s₄ with mem := setEntry s₄.mem ⟨4096 * t₁⟩ (idx virt 12) (setFrame phys (flags ||| .present)) }
      _ t₁ (idx virt 12) (setFrame phys (flags ||| .present)) :=
    ⟨h₄, rfl, ht₁, rfl, rfl, view_setEntry _ _ _ (setFrame_lt _ _), fun x hx => setEntry_of_outside _ _ _ _ hx⟩
  refine ⟨w.inv', (((g₁.trans g₂).trans g₃).trans g₄).trans w.grows, ⟨w.leaf_at rfl, ?_, ?_⟩, ?_⟩
  · intro v e₀ j hne hpre hm
    rw [← m₂₀.mapping] at hm
    obtain ⟨e', h1, h2⟩ := hsplit.split ((prefix_iff_take v virt).2 hpre) hm
    exact ⟨e', by rw [w.mapping_eq hne, m₄.mapping, h1], h2⟩
  · intro v hne hno
    rw [w.mapping_eq hne, m₄.mapping, hsplit.other, m₂₀.mapping]
    intro h
    obtain ⟨hpre, e₀, j, hm⟩ := h
    rw [m₂₀.mapping] at hm
    exact hno ⟨(prefix_iff_take v virt).1 hpre, e₀, j, hm⟩
  · have hz := missing_eq_zero ht₁
    show s₄.alloc.freeFrames + s.missing virt = s.alloc.freeFrames
    omega

/-- The page that was asked for. -/
theorem Mapped.translate {s s' : Machine} {virt n : Nat} {flags : PageFlags}
    (hmap : Mapped s s' virt (setFrame ⟨4096 * n⟩ (flags ||| .present))) (h' : TableInv s') (hn : n < 2 ^ 40) :
    s'.translate virt = some (4096 * n + virt % 4096) ∧ s'.translateFlags virt = some (flags ||| .present) := by
  have hvirt : s'.mapping virt = some (setFrame ⟨4096 * n⟩ (flags ||| .present), []) := by
    refine Machine.mapping_of_leaf hmap.at_virt ?_
    rw [has_setFrame]
    exact PageFlags.or_present flags
  rw [Machine.translate_eq h'.upper, Machine.translateFlags_eq h'.upper, hvirt, Option.map_some, Option.map_some,
    leafAddr, if_pos rfl, frameNo_setFrame hn, flags_setFrame]
  exact ⟨rfl, rfl⟩

/-- The number of the page of an address, as the tables see it: bits 12 to 47. -/
def pageNo (v : Nat) : Nat := v / 4096 % 2 ^ 36

/-- Pages other than the one that is mapped are translated as before. -/
theorem Mapped.translate_other {s s' : Machine} {virt e : Nat} (hmap : Mapped s s' virt e) (h : TableInv s)
    (h' : TableInv s') {v : Nat} (hv : pageNo v ≠ pageNo virt) : s'.translate v = s.translate v := by
  have hv : path v ≠ path virt := fun hp => hv (path_eq_iff.1 hp)
  rw [Machine.translate_eq h'.upper, Machine.translate_eq h.upper]
  by_cases hs : (path v).take 3 = (path virt).take 3 ∧ s.InHuge v
  · obtain ⟨hpre, e₀, j, hv₀⟩ := hs
    obtain ⟨e', hv', -, haddr⟩ := hmap.split hv hpre hv₀
    rw [hv', hv₀, Option.map_some, Option.map_some, haddr]
  · rw [hmap.other hv hs]

/-- As many free frames as there are tables missing are enough. -/
theorem mapPage_ok_of_missing {s : Machine} (h : TableInv s) (virt : Nat) (hn : s.missing virt ≤ s.alloc.freeFrames)
    (phys : PhysFrame) (flags : PageFlags) : ∃ s', exec (mapPage virt phys flags) s = (.ok ⟨⟩, s') := by
  have spec := mapPage_spec h virt phys flags
  cases he : exec (mapPage virt phys flags) s with
  | mk r s' =>
    cases r with
    | ok u => exact ⟨s', rfl⟩
    | error e =>
      have := (spec.of_error he).2.2.2.1
      omega

theorem mapPage_error_of_missing {s : Machine} (h : TableInv s) {virt : Nat}
    (hn : s.alloc.freeFrames < s.missing virt)
    (phys : PhysFrame) (flags : PageFlags) :
    ∃ s', exec (mapPage virt phys flags) s = (.error .frameAllocationFailed, s') := by
  have spec := mapPage_spec h virt phys flags
  cases he : exec (mapPage virt phys flags) s with
  | mk r s' =>
    cases r with
    | ok u =>
      have := (spec.of_ok he).2.2.2
      omega
    | error e =>
      obtain rfl := (spec.of_error he).2.2.2.2
      exact ⟨s', rfl⟩

theorem Machine.missing_le (s : Machine) (virt : Nat) : s.missing virt ≤ 3 := List.countP_le_length

/-- Four free frames are always enough. -/
theorem mapPage_ok {s : Machine} (h : TableInv s) (hn : 4 ≤ s.alloc.freeFrames) (virt : Nat) (phys : PhysFrame)
    (flags : PageFlags) : ∃ s', exec (mapPage virt phys flags) s = (.ok ⟨⟩, s') := by
  have := s.missing_le virt
  exact mapPage_ok_of_missing h virt (by omega) phys flags

end Hammam
