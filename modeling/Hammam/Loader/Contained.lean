import Hammam.Loader.Elf
import Hammam.Mm.BootTables
import Hammam.Mm.TwinRuns

/-!
# What a call may touch

A call of the loader takes frames from the allocator, maps pages and writes to the pages it has mapped.  `Contained`
says what it leaves alone, seen from the state `s₀` in which it started: tables stay, new tables and the frames behind
new pages were free in `s₀`, and every byte outside of these is unchanged.
-/

namespace Hammam

open RadixTree PageTableEntry Fallible

/-! ### Pages -/

/-- Two addresses of a page are translated to one frame. -/
theorem TableInv.translate_page {s : Machine} (h : TableInv s) {v v' x : Nat} (hv : s.translate v = some x)
    (hp : pageNo v' = pageNo v) : s.translate v' = some (4096 * (x / 4096) + v' % 4096) := by
  have hpath : path v' = path v := path_eq_iff.2 hp
  have hmap : s.mapping v' = s.mapping v := by
    unfold Machine.mapping Machine.leaf
    rw [hpath]
  rw [Machine.translate_eq h.upper, Option.map_eq_some_iff] at hv
  obtain ⟨l, hl, rfl⟩ := hv
  rw [Machine.translate_eq h.upper, hmap, hl, Option.map_some, Option.some.injEq, leafAddr, leafAddr]
  rw [pageNo, pageNo] at hp
  split <;> omega

theorem TableInv.translate_mod {s : Machine} (h : TableInv s) {v x : Nat} (hv : s.translate v = some x) :
    x % 4096 = v % 4096 := by
  have := h.translate_page hv rfl
  rw [hv, Option.some.injEq] at this
  omega

/-- The page of `v` lies in a frame that was free in `s₀` and is now in use, but not as a table. -/
def Fresh (s₀ s : Machine) (v : Nat) : Prop :=
  ∃ x, s.translate v = some x ∧ FreeAt s₀.alloc x ∧ ¬ s.IsTable (x / 4096) ∧ ¬ FreeAt s.alloc x

/-- From `s₀` to `s` only pages of `P` were mapped, and only frames that were free and tables were written. -/
structure Contained (P : Nat → Prop) (s₀ s : Machine) : Prop where
  inv : TableInv s
  cr3 : s.cr3 = s₀.cr3
  kept : ∀ {t}, s₀.IsTable t → s.IsTable t
  new : ∀ {t}, s.IsTable t → s₀.IsTable t ∨ FreeAt s₀.alloc (4096 * t)
  free : ∀ x, FreeAt s.alloc x → FreeAt s₀.alloc x
  mem : ∀ x, ¬ s.IsTable (x / 4096) → ¬ FreeAt s₀.alloc x → s.mem x = s₀.mem x
  page : ∀ v, s.translate v = s₀.translate v ∨ (P (pageNo v) ∧ Fresh s₀ s v)

namespace Contained

variable {P P' : Nat → Prop} {s₀ s s' : Machine}

theorem refl (h : TableInv s) : Contained P s s :=
  ⟨h, rfl, fun h => h, Or.inl, fun _ h => h, fun _ _ _ => rfl, fun _ => Or.inl rfl⟩

theorem mono (c : Contained P s₀ s) (hP : ∀ p, P p → P' p) : Contained P' s₀ s :=
  ⟨c.inv, c.cr3, c.kept, c.new, c.free, c.mem, fun v => (c.page v).imp_right fun h => ⟨hP _ h.1, h.2⟩⟩

/-- A table of the later state does not lie in a frame that was in use before and is no table. -/
theorem not_table (c : Contained P s s') (hs : s.alloc.Sound) {x : Nat} (ht : ¬ s.IsTable (x / 4096))
    (hf : ¬ FreeAt s.alloc x) : ¬ s'.IsTable (x / 4096) := by
  intro h
  obtain h | h := c.new h
  · exact ht h
  · exact hf ((hs.freeAt_iff x).1 h)

/-- The other pages keep their frames. -/
theorem translate_other {p v : Nat} (c : Contained (· = p) s s') (hv : pageNo v ≠ p) :
    s'.translate v = s.translate v :=
  (c.page v).resolve_right fun hr => hv hr.1

/-- A frame that the call has taken stays its own. -/
theorem fresh (c : Contained P s₀ s) (c' : Contained P' s s') {v : Nat} (hv : Fresh s₀ s v) : Fresh s₀ s' v := by
  obtain he | ⟨-, x, hx, hf, ht, hn⟩ := c'.page v
  · obtain ⟨x, hx, hf, ht, hn⟩ := hv
    exact ⟨x, he.trans hx, hf, c'.not_table c.inv.sound ht hn, fun h => hn (c'.free x h)⟩
  · exact ⟨x, hx, c.free x hf, ht, hn⟩

theorem trans (c : Contained P s₀ s) (c' : Contained P s s') : Contained P s₀ s' := by
  refine ⟨c'.inv, c'.cr3.trans c.cr3, fun h => c'.kept (c.kept h), fun h => ?_, fun x h => c.free x (c'.free x h),
    fun x ht hf => ?_, fun v => ?_⟩
  · obtain h | h := c'.new h
    · exact c.new h
    · exact Or.inr (c.free _ h)
  · rw [c'.mem x ht fun h => hf (c.free x h), c.mem x (fun h => ht (c'.kept h)) hf]
  · obtain he | ⟨hP, hv⟩ := c'.page v
    · obtain he' | ⟨hP, hv⟩ := c.page v
      · exact Or.inl (he.trans he')
      · exact Or.inr ⟨hP, c.fresh c' hv⟩
    · obtain ⟨x, hx, hf, ht, hn⟩ := hv
      exact Or.inr ⟨hP, x, hx, c.free x hf, ht, hn⟩

end Contained

section Twin

variable {P : Nat → Prop} {s₀ s s' : Machine}

theorem Fresh.twin {v : Nat} (hv : Fresh s₀ s v) (tw : Twin s s') (h : TableInv s) : Fresh s₀ s' v := by
  obtain ⟨x, hx, h1, h2, h3⟩ := hv
  exact ⟨x, (tw.translate h v).trans hx, h1, fun hc => h2 ((tw.isTable_iff _).1 hc), by rwa [tw.alloc]⟩

/-- Writes to frames that were free, outside the tables. -/
theorem Contained.twin (c : Contained P s₀ s) (tw : Twin s s')
    (hmem : ∀ x, ¬ FreeAt s₀.alloc x → s'.mem x = s.mem x) :
    Contained P s₀ s' := by
  refine ⟨tw.inv c.inv, tw.cr3.trans c.cr3, fun hc => (tw.isTable_iff _).2 (c.kept hc),
    fun hc => c.new ((tw.isTable_iff _).1 hc), fun x hx => ?_, fun x hx hf => ?_, fun v => ?_⟩
  · rw [tw.alloc] at hx
    exact c.free x hx
  · rw [hmem x hf, c.mem x (fun hc => hx ((tw.isTable_iff _).2 hc)) hf]
  · rw [tw.translate c.inv v]
    exact (c.page v).imp_right fun hr => ⟨hr.1, hr.2.twin tw c.inv⟩

end Twin

/-- A frame that was free in `s₀` is gone: it is neither free nor a table. -/
def Lost (s₀ s : Machine) : Prop := ∃ x, FreeAt s₀.alloc x ∧ ¬ s.IsTable (x / 4096) ∧ ¬ FreeAt s.alloc x

theorem Fresh.lost {s₀ s : Machine} {v : Nat} (h : Fresh s₀ s v) : Lost s₀ s := by
  obtain ⟨x, -, h⟩ := h
  exact ⟨x, h⟩

section Taken

variable {P : Nat → Prop} {s s' : Machine} {a : BuddyAllocator} {n : Nat}

/-- Tables that grow from a state in which a frame has been taken. -/
private theorem Grows.contained (g : Grows { s with alloc := a } s') (ht : Taken s.alloc a n) (h' : TableInv s')
    (hpage : ∀ v, s'.translate v = s.translate v ∨ (P (pageNo v) ∧ Fresh s s' v)) : Contained P s s' := by
  refine ⟨h', g.cr3, ?_, ?_, fun x hx => ((ht.free x).1 (g.free x hx)).1, fun x hx _ => ?_, hpage⟩
  · intro t hpost
    obtain ⟨p, hp, htab⟩ := hpost
    exact ⟨p, hp, g.kept hp htab⟩
  · intro t hpost
    obtain ⟨p, hp, htab⟩ := hpost
    obtain htab | hf := g.new hp htab
    · exact Or.inl ⟨p, hp, htab⟩
    · exact Or.inr ((ht.free _).1 hf).1
  · exact g.mem x fun p hp htab => hx ⟨p, hp, htab⟩

/-- The frame that has been taken does not become a table, and is not free. -/
private theorem Grows.taken_apart (g : Grows { s with alloc := a } s') (ht : Taken s.alloc a n) (h : TableInv s)
    {x : Nat} (hx : x / 4096 = n) : ¬ s'.IsTable (x / 4096) ∧ ¬ FreeAt s'.alloc x := by
  constructor
  · intro h'
    rw [hx] at h'
    obtain ⟨p, hp, htab⟩ := h'
    obtain htab | hf := g.new hp htab
    · exact h.apart hp htab ht.was
    · exact ((ht.free _).1 hf).2 (by omega)
  · intro hf
    exact ((ht.free _).1 (g.free _ hf)).2 hx

/-- One page is mapped to a frame that has just been taken. -/
theorem contained_mapPage (h : TableInv s) (ht : Taken s.alloc a n) (virt : Nat) (flags : PageFlags) :
    Spec (mapPage virt ⟨4096 * n⟩ flags) { s with alloc := a }
      (fun _ s' => Contained (· = pageNo virt) s s' ∧ (∀ v, pageNo v = pageNo virt → Fresh s s' v) ∧
        (∀ x, ¬ s'.IsTable (x / 4096) → s'.mem x = s.mem x) ∧ s.alloc.freeFrames ≤ s'.alloc.freeFrames + 5)
      (fun _ s' => Contained (· = pageNo virt) s s' ∧ Lost s s' ∧ s.alloc.freeFrames < 5) := by
  have hcount := ht.count
  have h₁ : TableInv { s with alloc := a } :=
    TableInv.outside (s := s) (fun _ _ => rfl) rfl h ht.sound fun x hx => ((ht.free x).1 hx).1
  refine (mapPage_spec h₁ virt ⟨4096 * n⟩ flags).mono ?_ ?_
  · intro _ s' hpost
    obtain ⟨h', g, hmap, hn⟩ := hpost
    have hle := Machine.missing_le { s with alloc := a } virt
    have hn : s'.alloc.freeFrames + Machine.missing { s with alloc := a } virt = a.freeFrames := hn
    have hfresh : ∀ v, pageNo v = pageNo virt → Fresh s s' v := by
      intro v hv
      have hframe : (4096 * n + v % 4096) / 4096 = n := by omega
      refine ⟨4096 * n + v % 4096, ?_, ?_, g.taken_apart ht h hframe⟩
      · rw [h'.translate_page (hmap.translate h' ht.lt).1 hv]
        congr 1
        omega
      · rw [← h.sound.freeAt_iff, hframe]
        exact ht.was
    refine ⟨g.contained ht h' fun v => ?_, hfresh, fun x hx => g.mem x fun p hp htab => hx ⟨p, hp, htab⟩, by omega⟩
    by_cases hv : pageNo v = pageNo virt
    · exact Or.inr ⟨hv, hfresh v hv⟩
    · exact Or.inl (hmap.translate_other h₁ h' hv)
  · intro _ s' hpost
    obtain ⟨h', g, hmap, hn, -⟩ := hpost
    have hle := Machine.missing_le { s with alloc := a } virt
    have hn : a.freeFrames < Machine.missing { s with alloc := a } virt := hn
    refine ⟨g.contained ht h' fun v => Or.inl ?_, ⟨4096 * n, ht.was, g.taken_apart ht h (by omega)⟩, by omega⟩
    rw [Machine.translate_eq h'.upper, hmap.mapping]
    exact (Machine.translate_eq h₁.upper v).symm

end Taken

/-! ### Ranges of addresses -/

/-- The `n` addresses from `v` on are canonical. -/
def CanonicalRange (v n : Nat) : Prop := ∀ i < n, canonicalAddr ((v + i) % 2 ^ 64)

theorem canonicalRange_zero (v : Nat) : CanonicalRange v 0 := fun i hi => absurd hi (Nat.not_lt_zero i)

theorem canonicalRange_succ {v n : Nat} (hv : v < 2 ^ 64) :
    CanonicalRange v (n + 1) ↔ canonicalAddr v ∧ CanonicalRange (nextAddr v) n := by
  have hnext : ∀ i, (nextAddr v + i) % 2 ^ 64 = (v + (i + 1)) % 2 ^ 64 := by
    intro i
    rw [nextAddr]
    omega
  constructor
  · intro h
    refine ⟨?_, fun i hi => ?_⟩
    · have := h 0 (Nat.succ_pos n)
      rwa [Nat.add_zero, Nat.mod_eq_of_lt hv] at this
    · rw [hnext]
      exact h (i + 1) (Nat.succ_lt_succ hi)
  · intro h i hi
    cases i with
    | zero =>
      rw [Nat.add_zero, Nat.mod_eq_of_lt hv]
      exact h.1
    | succ i =>
      rw [← hnext]
      exact h.2 i (Nat.lt_of_succ_lt_succ hi)

theorem canonicalRange_add {v a b : Nat} :
    CanonicalRange v (a + b) ↔ CanonicalRange v a ∧ CanonicalRange (v + a) b := by
  constructor
  · intro h
    refine ⟨fun i hi => h i (by omega), fun i hi => ?_⟩
    rw [Nat.add_assoc]
    exact h (a + i) (by omega)
  · intro h i hi
    by_cases hia : i < a
    · exact h.1 i hia
    · have := h.2 (i - a) (by omega)
      rwa [show v + a + (i - a) = v + i by omega] at this

theorem canonicalRange_max {v a b : Nat} :
    CanonicalRange v (max a b) ↔ CanonicalRange v a ∧ (a < b → CanonicalRange (v + a) (b - a)) := by
  obtain hab | hab := Nat.lt_or_ge a b
  · rw [Nat.max_eq_right (Nat.le_of_lt hab), ← Nat.add_sub_cancel' (Nat.le_of_lt hab), canonicalRange_add]
    simp [hab]
  · rw [Nat.max_eq_left hab]
    simp [Nat.not_lt.2 hab]

/-- The addresses of the lower half are canonical. -/
theorem canonicalRange_of_le {v n : Nat} (h : v + n ≤ 2 ^ 47) : CanonicalRange v n := by
  intro i hi
  rw [canonicalAddr, Bool.or_eq_true, decide_eq_true_eq]
  omega

/-! ### The contents of the pages of a call -/

/-- The bytes that a program sees, by bits 0 to 47 of the address; `none` is a byte that has not been written. -/
abbrev VMem := Nat → Option UInt8

namespace VMem

/-- The page `p` has new, unknown contents. -/
def forget (g : VMem) (p : Nat) : VMem := fun a => if a / 4096 = p then none else g a

theorem forget_self {g : VMem} {v virt : Nat} (h : pageNo v = pageNo virt) :
    g.forget (pageNo virt) (v % 2 ^ 48) = none := by
  rw [pageNo, pageNo] at h
  refine if_pos ?_
  rw [pageNo]
  omega

theorem forget_of_ne {g : VMem} {v virt : Nat} (h : pageNo v ≠ pageNo virt) :
    g.forget (pageNo virt) (v % 2 ^ 48) = g (v % 2 ^ 48) := by
  rw [pageNo, pageNo] at h
  refine if_neg ?_
  rw [pageNo]
  omega

/-- A byte on a page that has been forgotten is unknown. -/
theorem foldl_forget_of_mem {g : VMem} {l : List Nat} {a : Nat} (h : a / 4096 ∈ l) : l.foldl forget g a = none := by
  induction l using List.reverseRecOn with
  | nil => cases h
  | append_singleton l p ih =>
    rw [List.foldl_append]
    show forget (l.foldl forget g) p a = none
    unfold forget
    split
    · rfl
    · rename_i hne
      rw [List.mem_append, List.mem_singleton] at h
      exact ih (h.resolve_right hne)

def store (g : VMem) (v : Nat) (b : UInt8) : VMem := Function.update g (v % 2 ^ 48) (some b)

def storeBytes (g : VMem) (v : Nat) : List UInt8 → VMem
  | [] => g
  | b :: bytes => storeBytes (g.store v b) (nextAddr v) bytes

def loadBytes (g : VMem) (v : Nat) : Nat → Option (List UInt8)
  | 0 => some []
  | n + 1 => do
    let b ← g (v % 2 ^ 48)
    let rest ← g.loadBytes (nextAddr v) n
    some (b :: rest)

end VMem

/-- A call that started in `s₀` has failed for want of memory: it has lost a frame, unless there was none at all. -/
structure Aborted (P : Nat → Prop) (s₀ s : Machine) : Prop where
  conf : Contained P s₀ s
  lost : Lost s₀ s ∨ (s = s₀ ∧ s₀.alloc.freeFrames = 0)

/-- A call that started in `s₀` has mapped the pages `Q`, each to a frame of its own, and these hold the bytes `g`. -/
structure Held (P Q : Nat → Prop) (s₀ s : Machine) (g : VMem) : Prop where
  conf : Contained P s₀ s
  own : ∀ v, Q (pageNo v) → Fresh s₀ s v
  inj : ∀ {v v' x x'}, Q (pageNo v) → Q (pageNo v') → s.translate v = some x → s.translate v' = some x' →
    x / 4096 = x' / 4096 → pageNo v = pageNo v'
  content : ∀ {v b}, g (v % 2 ^ 48) = some b → Q (pageNo v) ∧ ∀ x, s.translate v = some x → s.mem x = b
  /-- A byte that has not been written is what was in the frame. -/
  stale : ∀ {v x}, Q (pageNo v) → g (v % 2 ^ 48) = none → s.translate v = some x → s.mem x = s₀.mem x
  untouched : ∀ x, FreeAt s.alloc x → s.mem x = s₀.mem x
  spent : s = s₀ ∨ Lost s₀ s

namespace Held

variable {P Q : Nat → Prop} {s₀ s : Machine} {g : VMem}

theorem start (h : TableInv s) : Held P (fun _ => False) s s fun _ => none :=
  ⟨Contained.refl h, fun _ h => h.elim, fun h => h.elim, nofun, fun h => h.elim, fun _ _ => rfl, Or.inl rfl⟩

theorem congr {Q' : Nat → Prop} (h : Held P Q s₀ s g) (hQ : ∀ p, Q' p ↔ Q p) : Held P Q' s₀ s g :=
  ⟨h.conf, fun v hv => h.own v ((hQ _).1 hv), fun hv hv' => h.inj ((hQ _).1 hv) ((hQ _).1 hv'), fun hb =>
    ⟨(hQ _).2 (h.content hb).1, (h.content hb).2⟩, fun hv => h.stale ((hQ _).1 hv), h.untouched, h.spent⟩

/-- A byte that the call has written. -/
theorem readByte_written (h : Held P Q s₀ s g) {v : Nat} {b : UInt8} (hb : g (v % 2 ^ 48) = some b) :
    s.readByte v = some b := by
  obtain ⟨hq, hc⟩ := h.content hb
  obtain ⟨x, hx, -⟩ := h.own v hq
  rw [Machine.readByte, h.conf.inv.hwTranslate, hx, Option.map_some, hc x hx]

/-- A byte that the call has not written. -/
theorem readByte_stale (h : Held P Q s₀ s g) {v x : Nat} (hq : Q (pageNo v)) (hb : g (v % 2 ^ 48) = none)
    (hx : s.translate v = some x) : s.readByte v = some (s₀.mem x) := by
  rw [Machine.readByte, h.conf.inv.hwTranslate, hx, Option.map_some, h.stale hq hb hx]

section Mapped

variable {s' : Machine} {virt : Nat}

/-- The frames of the other pages are in use, the new one was free. -/
private theorem mapped_apart (h : Held P Q s₀ s g) (c : Contained (· = pageNo virt) s s') {v v' x x' : Nat}
    (hv : Fresh s s' v) (hv' : Q (pageNo v')) (hne : pageNo v' ≠ pageNo virt) (hx : s'.translate v = some x)
    (hx' : s'.translate v' = some x') : x / 4096 ≠ x' / 4096 := by
  intro hxx
  obtain ⟨y, hy, hfree, -⟩ := hv
  obtain ⟨y', hy', -, -, hused⟩ := h.own v' hv'
  rw [hx, Option.some.injEq] at hy
  rw [← c.translate_other hne, hx', Option.some.injEq] at hy'
  apply hused
  rw [← h.conf.inv.sound.freeAt_iff, ← hy', ← hxx, hy, h.conf.inv.sound.freeAt_iff]
  exact hfree

/-- The other pages keep their contents. -/
private theorem mapped_mem (h : Held P Q s₀ s g) (c : Contained (· = pageNo virt) s s')
    (hkeep : ∀ x, ¬ s'.IsTable (x / 4096) → s'.mem x = s.mem x) {v x : Nat} (hq : Q (pageNo v))
    (hx : s.translate v = some x) : s'.mem x = s.mem x := by
  obtain ⟨y, hy, -, htab, hused⟩ := h.own v hq
  rw [hx, Option.some.injEq] at hy
  subst hy
  exact hkeep x (c.not_table h.conf.inv.sound htab hused)

/-- A page of `P` has been mapped to a frame that was free. -/
private theorem mapped (h : Held P Q s₀ s g) (c : Contained (· = pageNo virt) s s') (hP : P (pageNo virt))
    (hvirt : ∀ v, pageNo v = pageNo virt → Fresh s s' v) (hkeep : ∀ x, ¬ s'.IsTable (x / 4096) → s'.mem x = s.mem x) :
    Held P (fun p => Q p ∨ p = pageNo virt) s₀ s' (g.forget (pageNo virt)) := by
  have hfresh : ∀ v, pageNo v = pageNo virt → Fresh s₀ s' v := by
    intro v hp
    obtain ⟨x, hx, hf, hu⟩ := hvirt v hp
    exact ⟨x, hx, h.conf.free x hf, hu⟩
  refine ⟨h.conf.trans (c.mono fun p hp => hp ▸ hP), fun v hv => ?_, ?_, ?_, ?_, ?_, Or.inr (hfresh virt rfl).lost⟩
  · by_cases hp : pageNo v = pageNo virt
    · exact hfresh v hp
    · exact h.conf.fresh c (h.own v (hv.resolve_right hp))
  · intro v v' x x' hv hv' hx hx' hxx
    by_cases hp : pageNo v = pageNo virt <;> by_cases hp' : pageNo v' = pageNo virt
    · rw [hp, hp']
    · exact absurd hxx (h.mapped_apart c (hvirt v hp) (hv'.resolve_right hp') hp' hx hx')
    · exact absurd hxx.symm (h.mapped_apart c (hvirt v' hp') (hv.resolve_right hp) hp hx' hx)
    · rw [c.translate_other hp] at hx
      rw [c.translate_other hp'] at hx'
      exact h.inj (hv.resolve_right hp) (hv'.resolve_right hp') hx hx' hxx
  · intro v b hb
    by_cases hp : pageNo v = pageNo virt
    · rw [VMem.forget_self hp] at hb
      cases hb
    · rw [VMem.forget_of_ne hp] at hb
      obtain ⟨hq, hmem⟩ := h.content hb
      refine ⟨Or.inl hq, fun x hx => ?_⟩
      rw [c.translate_other hp] at hx
      rw [h.mapped_mem c hkeep hq hx]
      exact hmem x hx
  · intro v x hv hb hx
    by_cases hp : pageNo v = pageNo virt
    · -- the frame was free until now
      obtain ⟨y, hy, hf, htab, -⟩ := hvirt v hp
      rw [hx, Option.some.injEq] at hy
      subst hy
      rw [hkeep x htab, h.untouched x hf]
    · rw [VMem.forget_of_ne hp] at hb
      rw [c.translate_other hp] at hx
      rw [h.mapped_mem c hkeep (hv.resolve_right hp) hx]
      exact h.stale (hv.resolve_right hp) hb hx
  · intro x hx
    rw [hkeep x (c.inv.not_table_of_free hx), h.untouched x (c.free x hx)]

end Mapped

/-- One more page is mapped. -/
theorem mapPage (h : Held P Q s₀ s g) {a : BuddyAllocator} {n : Nat} (ht : Taken s.alloc a n) {virt : Nat}
    (hP : P (pageNo virt)) (flags : PageFlags) :
    Spec (Hammam.mapPage virt ⟨4096 * n⟩ flags) { s with alloc := a }
      (fun _ s' => Held P (fun p => Q p ∨ p = pageNo virt) s₀ s' (g.forget (pageNo virt)) ∧
        s.alloc.freeFrames ≤ s'.alloc.freeFrames + 5)
      (fun _ s' => Contained P s₀ s' ∧ Lost s₀ s' ∧ s.alloc.freeFrames < 5) := by
  refine (contained_mapPage h.conf.inv ht virt flags).mono ?_ ?_
  · intro _ s' hpost
    obtain ⟨c, hvirt, hkeep, hn⟩ := hpost
    exact ⟨h.mapped c hP hvirt hkeep, hn⟩
  · intro _ s' hpost
    obtain ⟨c, ⟨x, hx, ht, hf⟩, hn⟩ := hpost
    exact ⟨h.conf.trans (c.mono fun p hp => hp ▸ hP), ⟨x, h.conf.free x hx, ht, hf⟩, hn⟩

/-- A frame that is taken is lost as long as it is neither free nor a table. -/
theorem lost_taken (h : Held P Q s₀ s g) {a : BuddyAllocator} {n : Nat} (ht : Taken s.alloc a n) :
    Lost s₀ { s with alloc := a } := by
  exact ⟨4096 * n, h.conf.free _ ht.was, h.conf.inv.not_table_of_free ht.was, fun hf =>
    ((ht.free _).1 hf).2 (by omega)⟩

/-- A frame is taken. -/
theorem taken (h : Held P Q s₀ s g) {a : BuddyAllocator} {n : Nat} (ht : Taken s.alloc a n) :
    Held P Q s₀ { s with alloc := a } g := by
  have hfree : ∀ {x}, FreeAt a x → FreeAt s.alloc x := fun hx => ((ht.free _).1 hx).1
  have hfresh : ∀ v, Fresh s₀ s v → Fresh s₀ { s with alloc := a } v := by
    intro v hpost
    obtain ⟨x, hx, h1, h2, h3⟩ := hpost
    exact ⟨x, hx, h1, h2, fun hf => h3 (hfree hf)⟩
  have hinv : TableInv { s with alloc := a } :=
    TableInv.outside (s := s) (fun _ _ => rfl) rfl h.conf.inv ht.sound fun _ hx => hfree hx
  exact ⟨⟨hinv, h.conf.cr3, h.conf.kept, h.conf.new, fun x hx => h.conf.free x (hfree hx), h.conf.mem,
    fun v => (h.conf.page v).imp_right fun hr => ⟨hr.1, hfresh v hr.2⟩⟩, fun v hv => hfresh v (h.own v hv), h.inj,
    h.content, h.stale, fun x hx => h.untouched x (hfree hx), Or.inr (h.lost_taken ht)⟩

/-- A frame is taken and a page is mapped to it. -/
theorem backPage {ε : Type} (h : Held P Q s₀ s g) {virt : Nat} (hP : P (pageNo virt)) (flags : PageFlags)
    {f : AllocError → Stop ε} {f' : MapError → Stop ε} (hf : ∀ e, f e ≠ .halt) (hf' : ∀ e, f' e ≠ .halt) :
    Spec (mapErr f (allocateFrame 0) >>= fun frame => mapErr f' (Hammam.mapPage virt frame flags)) s
      (fun _ s' => Held P (fun p => Q p ∨ p = pageNo virt) s₀ s' (g.forget (pageNo virt)) ∧
        s.alloc.freeFrames ≤ s'.alloc.freeFrames + 5)
      (fun e s' => e ≠ .halt ∧ Aborted P s₀ s' ∧ s.alloc.freeFrames < 5) := by
  refine Spec.bind (Spec.mapErr ((allocateFrame_spec h.conf.inv.sound).mono ?_ ?_))
  · intro _ _ hpost
    obtain ⟨n, a, rfl, rfl, ht⟩ := hpost
    refine Spec.mapErr ((h.mapPage ht hP flags).mono (fun _ _ h => h) ?_)
    intro e s' hpost
    obtain ⟨hc, hl, hn⟩ := hpost
    exact ⟨hf' e, ⟨hc, Or.inl hl⟩, hn⟩
  · intro e _ hpost
    obtain ⟨rfl, hn⟩ := hpost
    refine ⟨hf e, ⟨h.conf, ?_⟩, by omega⟩
    obtain rfl | hl := h.spent
    · exact Or.inr ⟨rfl, hn⟩
    · exact Or.inl hl

/-- An access to a page of the call reaches its frame, if the address is canonical. -/
private theorem access_eq (h : Held P Q s₀ s g) {v : Nat} (hv : Q (pageNo v)) :
    ∃ x, s.translate v = some x ∧ FreeAt s₀.alloc x ∧ ¬ s.IsTable (x / 4096) ∧ ¬ FreeAt s.alloc x ∧
      s.access v = if canonicalAddr v then some x else none := by
  obtain ⟨x, hx, hf, ht, hn⟩ := h.own v hv
  refine ⟨x, hx, hf, ht, hn, ?_⟩
  rw [Machine.access, h.conf.inv.hwTranslate, hx]

/-- The addresses of the call have bytes of their own, up to the bits that the tables ignore. -/
private theorem address_inj (h : Held P Q s₀ s g) {v w x : Nat} (hv : Q (pageNo v)) (hw : Q (pageNo w))
    (hx : s.translate v = some x) (hy : s.translate w = some x) : w % 2 ^ 48 = v % 2 ^ 48 := by
  have hpage := h.inj hw hv hy hx rfl
  have hxmod := h.conf.inv.translate_mod hx
  have hymod := h.conf.inv.translate_mod hy
  rw [pageNo, pageNo] at hpage
  omega

/-- The byte at the address `v` of a page of the call changes. -/
private theorem update (h : Held P Q s₀ s g) {v x : Nat} {b : UInt8} {s' : Machine} (hv : Q (pageNo v))
    (hx : s.translate v = some x) (hf : FreeAt s₀.alloc x) (hn : ¬ FreeAt s.alloc x)
    (hup : s'.mem = Function.update s.mem x b) (tw : Twin s s') : Held P Q s₀ s' (g.store v b) := by
  have htr := tw.translate h.conf.inv
  have hne : ∀ {y}, y ≠ x → s'.mem y = s.mem y := by
    intro y hy
    rw [hup, Function.update_of_ne hy]
  -- the other addresses of the call lie elsewhere
  have hother : ∀ {w y}, Q (pageNo w) → w % 2 ^ 48 ≠ v % 2 ^ 48 → s.translate w = some y → y ≠ x := by
    intro w y hq hwv hy he
    exact hwv (h.address_inj hv hq hx (he ▸ hy))
  refine ⟨h.conf.twin tw fun y hy => hne fun he => hy (he ▸ hf), fun w hw => (h.own w hw).twin tw h.conf.inv, ?_, ?_,
    ?_, fun y hy => ?_, Or.inr ((h.own v hv).twin tw h.conf.inv).lost⟩
  · intro w w' y y' hw hw' hy hy' hyy
    rw [htr] at hy hy'
    exact h.inj hw hw' hy hy' hyy
  · intro w b' hb'
    simp only [htr]
    unfold VMem.store at hb'
    have hxmod := h.conf.inv.translate_mod hx
    by_cases hwv : w % 2 ^ 48 = v % 2 ^ 48
    · -- the same address up to bits that the tables ignore
      rw [hwv, Function.update_self, Option.some.injEq] at hb'
      have hpage : pageNo w = pageNo v := by
        rw [pageNo, pageNo]
        omega
      refine ⟨hpage ▸ hv, fun y hy => ?_⟩
      rw [h.conf.inv.translate_page hx hpage, Option.some.injEq] at hy
      rw [hup, show y = x by omega, Function.update_self, hb']
    · rw [Function.update_of_ne hwv] at hb'
      obtain ⟨hq, hc⟩ := h.content hb'
      refine ⟨hq, fun y hy => ?_⟩
      rw [hne (hother hq hwv hy), hc y hy]
  · intro w y hq hb hy
    rw [htr] at hy
    have hwv : w % 2 ^ 48 ≠ v % 2 ^ 48 := by
      intro e
      rw [VMem.store, e, Function.update_self] at hb
      cases hb
    rw [VMem.store, Function.update_of_ne hwv] at hb
    rw [hne (hother hq hwv hy), h.stale hq hb hy]
  · rw [tw.alloc] at hy
    rw [hne fun he => hn (he ▸ hy), h.untouched y hy]

variable {ε : Type}

theorem storeByte (h : Held P Q s₀ s g) {v : Nat} (hv : Q (pageNo v)) (b : UInt8) :
    Spec (Hammam.storeByte v b : KernelM ε PUnit) s
      (fun _ s' => Held P Q s₀ s' (g.store v b) ∧ Twin s s' ∧ canonicalAddr v)
      (fun e s' => e = .halt ∧ s' = s ∧ ¬ canonicalAddr v) := by
  obtain ⟨x, hx, hf, ht, hn, hacc⟩ := h.access_eq hv
  unfold Hammam.storeByte
  refine Spec.bind (Spec.get ?_)
  by_cases hcan : canonicalAddr v
  · rw [if_pos hcan] at hacc
    simp only [hacc]
    -- the byte lies outside the tables
    have tw : Twin s { s with mem := Function.update s.mem x b } := by
      refine ⟨rfl, rfl, fun y hy => Function.update_of_ne ?_ _ _⟩
      intro he
      subst he
      exact ht hy
    exact Spec.modify ⟨h.update hv hx hf hn rfl tw, tw, hcan⟩
  · rw [if_neg hcan] at hacc
    simp only [hacc]
    exact Spec.throw ⟨rfl, rfl, hcan⟩

theorem loadByte (h : Held P Q s₀ s g) {v : Nat} {b : UInt8} (hb : g (v % 2 ^ 48) = some b) :
    Spec (Hammam.loadByte v : KernelM ε UInt8) s (fun r s' => r = b ∧ s' = s ∧ canonicalAddr v)
      (fun e s' => e = .halt ∧ s' = s ∧ ¬ canonicalAddr v) := by
  obtain ⟨hv, hc⟩ := h.content hb
  obtain ⟨x, hx, -, -, -, hacc⟩ := h.access_eq hv
  unfold Hammam.loadByte
  refine Spec.bind (Spec.get ?_)
  by_cases hcan : canonicalAddr v
  · rw [if_pos hcan] at hacc
    simp only [hacc]
    exact Spec.pure ⟨hc x hx, rfl, hcan⟩
  · rw [if_neg hcan] at hacc
    simp only [hacc]
    exact Spec.throw ⟨rfl, rfl, hcan⟩

theorem storeBytes (bytes : List UInt8) : ∀ {s : Machine} {g : VMem} {v : Nat}, Held P Q s₀ s g → v < 2 ^ 64 →
    (∀ i, i < bytes.length → Q (pageNo (v + i))) →
    Spec (Hammam.storeBytes v bytes : KernelM ε PUnit) s
      (fun _ s' => Held P Q s₀ s' (g.storeBytes v bytes) ∧ Twin s s' ∧ CanonicalRange v bytes.length)
      (fun e s' => e = .halt ∧ Contained P s₀ s' ∧ ¬ CanonicalRange v bytes.length) := by
  induction bytes with
  | nil => exact fun h _ _ => Spec.pure ⟨h, Twin.refl _, canonicalRange_zero _⟩
  | cons b bytes ih =>
    intro s g v h hv hq
    have hnext : ∀ i, pageNo (nextAddr v + i) = pageNo (v + (i + 1)) := by
      intro i
      rw [pageNo, pageNo, nextAddr]
      omega
    have hlt : nextAddr v < 2 ^ 64 := Nat.mod_lt _ (by decide)
    refine Spec.bind ((h.storeByte (v := v) (hq 0 (Nat.succ_pos _)) b).mono ?_ ?_)
    · intro _ s₁ hpost
      obtain ⟨h₁, w₁, hcan⟩ := hpost
      refine (ih h₁ hlt fun i hi => ?_).mono ?_ ?_
      · rw [hnext]
        exact hq (i + 1) (Nat.succ_lt_succ hi)
      · intro _ s' hpost
        obtain ⟨h', w', hr⟩ := hpost
        exact ⟨h', w₁.trans w', (canonicalRange_succ hv).2 ⟨hcan, hr⟩⟩
      · intro e s' hpost
        obtain ⟨he, hc, hn⟩ := hpost
        exact ⟨he, hc, fun hr => hn ((canonicalRange_succ hv).1 hr).2⟩
    · intro e _ hpost
      obtain ⟨he, rfl, hn⟩ := hpost
      exact ⟨he, h.conf, fun hr => hn ((canonicalRange_succ hv).1 hr).1⟩

theorem loadBytes (n : Nat) : ∀ {v : Nat} {l : List UInt8}, Held P Q s₀ s g → v < 2 ^ 64 →
    g.loadBytes v n = some l →
    Spec (Hammam.loadBytes v n : KernelM ε (List UInt8)) s (fun r s' => r = l ∧ s' = s ∧ CanonicalRange v n)
      (fun e s' => e = .halt ∧ s' = s ∧ ¬ CanonicalRange v n) := by
  induction n with
  | zero =>
    intro v l h _ hl
    rw [VMem.loadBytes, Option.some.injEq] at hl
    exact Spec.pure ⟨hl, rfl, canonicalRange_zero _⟩
  | succ n ih =>
    intro v l h hv hl
    rw [VMem.loadBytes, Option.bind_eq_bind, Option.bind_eq_some_iff] at hl
    obtain ⟨b, hb, hl⟩ := hl
    rw [Option.bind_eq_bind, Option.bind_eq_some_iff] at hl
    obtain ⟨rest, hrest, hl⟩ := hl
    refine Spec.bind ((h.loadByte hb).mono ?_ ?_)
    · intro _ _ hpost
      obtain ⟨rfl, rfl, hcan⟩ := hpost
      refine Spec.bind ((ih h (Nat.mod_lt _ (by decide)) hrest).mono ?_ ?_)
      · intro _ _ hpost
        obtain ⟨rfl, rfl, hr⟩ := hpost
        exact Spec.pure ⟨Option.some.inj hl, rfl, (canonicalRange_succ hv).2 ⟨hcan, hr⟩⟩
      · intro e _ hpost
        obtain ⟨he, rfl, hn⟩ := hpost
        exact ⟨he, rfl, fun hr => hn ((canonicalRange_succ hv).1 hr).2⟩
    · intro e _ hpost
      obtain ⟨he, rfl, hn⟩ := hpost
      exact ⟨he, rfl, fun hr => hn ((canonicalRange_succ hv).1 hr).1⟩

/-- An access before the rest of a call. -/
theorem load (h : Held P Q s₀ s g) {β : Type} {v n : Nat} {l : List UInt8} {k : List UInt8 → KernelM ε β}
    {R : β → Machine → Prop} {E : Stop ε → Machine → Prop} (hv : v < 2 ^ 64) (hl : g.loadBytes v n = some l)
    (hfault : ¬ CanonicalRange v n → E .halt s) (hk : CanonicalRange v n → Spec (k l) s R E) :
    Spec (Hammam.loadBytes v n >>= k) s R E := by
  refine Spec.bind ((h.loadBytes n hv hl).mono ?_ ?_)
  · intro _ _ hpost
    obtain ⟨rfl, rfl, hcan⟩ := hpost
    exact hk hcan
  · intro e _ hpost
    obtain ⟨rfl, rfl, hn⟩ := hpost
    exact hfault hn

end Held

theorem wrapU64_spec {ε : Type} {checks : Bool} {s : Machine} (n : Nat) :
    Spec (wrapU64 checks n : KernelM ε Nat) s (fun r s' => r = n % 2 ^ 64 ∧ s' = s ∧ (checks = true → n < 2 ^ 64))
      (fun e s' => e = .halt ∧ s' = s ∧ 2 ^ 64 ≤ n) := by
  unfold wrapU64
  split
  · rename_i h
    exact Spec.pure ⟨(Nat.mod_eq_of_lt h).symm, rfl, fun _ => h⟩
  · rename_i h
    split
    · exact Spec.throw ⟨rfl, rfl, Nat.le_of_not_lt h⟩
    · rename_i hc
      exact Spec.pure ⟨rfl, rfl, fun h => absurd h hc⟩

/-- The operation before the rest of a call: it leaves the state alone. -/
theorem wrapU64_bind {ε β : Type} {checks : Bool} {s : Machine} {n : Nat} {k : Nat → KernelM ε β}
    {R : β → Machine → Prop} {E : Stop ε → Machine → Prop} (hover : 2 ^ 64 ≤ n → E .halt s)
    (hk : (checks = true → n < 2 ^ 64) → Spec (k (n % 2 ^ 64)) s R E) : Spec (wrapU64 checks n >>= k) s R E := by
  refine Spec.bind ((wrapU64_spec n).mono ?_ ?_)
  · intro _ _ hpost
    obtain ⟨rfl, rfl, hlt⟩ := hpost
    exact hk hlt
  · intro e _ hpost
    obtain ⟨rfl, rfl, hn⟩ := hpost
    exact hover hn

/-- The assertion before the rest of a call. -/
theorem assertAligned_bind {ε β : Type} {checks : Bool} {s : Machine} {v : Nat} {k : PUnit → KernelM ε β}
    {R : β → Machine → Prop} {E : Stop ε → Machine → Prop} (hoff : v % 8 ≠ 0 → E .halt s)
    (hk : (checks = true → v % 8 = 0) → Spec (k ⟨⟩) s R E) : Spec (assertAligned checks v >>= k) s R E := by
  unfold assertAligned
  split
  · rename_i h
    exact Spec.bind (Spec.throw (hoff h.2))
  · rename_i h
    exact Spec.bind (Spec.pure (hk fun hc => Classical.byContradiction fun hv => h ⟨hc, hv⟩))

/-- Without overflow the operation returns. -/
theorem wrapU64_of_lt {ε : Type} {checks : Bool} {n : Nat} (h : n < 2 ^ 64) :
    (wrapU64 checks n : KernelM ε Nat) = pure n := if_pos h

theorem subU64_of_le {ε : Type} {checks : Bool} {a b : Nat} (h : b ≤ a) :
    (subU64 checks a b : KernelM ε Nat) = pure (a - b) := if_pos h

end Hammam
