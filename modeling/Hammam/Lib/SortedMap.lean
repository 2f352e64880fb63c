import Mathlib.Data.List.Basic
import Mathlib.Order.Lattice
import Mathlib.Order.Defs.LinearOrder
import Mathlib.Data.List.Pairwise

/-!
# Finite maps in key order

A finite map as the list of its entries with strictly increasing keys: the behaviour of an ordered map whose
iteration follows the order of the keys.  Every map is determined by its lookups (`ext_get?`), the first entry is the
one with the smallest key (`first?_eq_some`), and inserting or erasing one key is known at every key.
-/

/-- A map with linearly ordered keys; its entries are listed by increasing key. -/
structure SortedMap (κ : Type*) (ν : Type*) [LinearOrder κ] where
  entries : List (κ × ν)
  sorted : entries.Pairwise fun p q => p.1 < q.1

namespace SortedMap

variable {κ ν : Type*} [LinearOrder κ]

/-- The list with the entry of `k` set to `v`. -/
def insertEntry (k : κ) (v : ν) : List (κ × ν) → List (κ × ν)
  | [] => [(k, v)]
  | p :: l => if k < p.1 then (k, v) :: p :: l else if k = p.1 then (k, v) :: l else p :: insertEntry k v l

theorem mem_insertEntry {k : κ} {v : ν} {l : List (κ × ν)} {p : κ × ν} (h : p ∈ insertEntry k v l) :
    p = (k, v) ∨ p ∈ l := by
  induction l with
  | nil => simpa [insertEntry] using h
  | cons q l ih =>
    unfold insertEntry at h
    split at h
    · simpa using h
    · split at h
      · rcases List.mem_cons.1 h with h | h
        · exact Or.inl h
        · exact Or.inr (List.mem_cons_of_mem _ h)
      · rcases List.mem_cons.1 h with rfl | h
        · exact Or.inr List.mem_cons_self
        · exact (ih h).imp_right (List.mem_cons_of_mem _)

theorem sorted_insertEntry (k : κ) (v : ν) {l : List (κ × ν)} (h : l.Pairwise fun p q => p.1 < q.1) :
    (insertEntry k v l).Pairwise fun p q => p.1 < q.1 := by
  induction l with
  | nil => simp [insertEntry]
  | cons p l ih =>
    rw [List.pairwise_cons] at h
    unfold insertEntry
    split
    · rename_i hlt
      refine List.pairwise_cons.2 ⟨fun q hq => ?_, List.pairwise_cons.2 h⟩
      rcases List.mem_cons.1 hq with rfl | hq
      · exact hlt
      · exact hlt.trans (h.1 q hq)
    · rename_i hge
      split
      · rename_i heq
        exact List.pairwise_cons.2 ⟨fun q hq => heq ▸ h.1 q hq, h.2⟩
      · rename_i hne
        refine List.pairwise_cons.2 ⟨fun q hq => ?_, ih h.2⟩
        rcases mem_insertEntry hq with rfl | hq
        · exact lt_of_le_of_ne (not_lt.1 hge) (Ne.symm hne)
        · exact h.1 q hq

def empty : SortedMap κ ν := ⟨[], List.Pairwise.nil⟩

def insert (m : SortedMap κ ν) (k : κ) (v : ν) : SortedMap κ ν :=
  ⟨insertEntry k v m.entries, sorted_insertEntry k v m.sorted⟩

def erase (m : SortedMap κ ν) (k : κ) : SortedMap κ ν :=
  ⟨m.entries.filter fun p => p.1 ≠ k, m.sorted.filter _⟩

def get? (m : SortedMap κ ν) (k : κ) : Option ν := (m.entries.find? fun p => p.1 = k).map Prod.snd

def contains (m : SortedMap κ ν) (k : κ) : Bool := (m.get? k).isSome

/-- The entry with the smallest key. -/
def first? (m : SortedMap κ ν) : Option (κ × ν) := m.entries.head?

def keys (m : SortedMap κ ν) : List κ := m.entries.map Prod.fst

def values (m : SortedMap κ ν) : List ν := m.entries.map Prod.snd

def size (m : SortedMap κ ν) : Nat := m.entries.length

/-! ### Lookups and entries -/

theorem entry_unique (m : SortedMap κ ν) {p q : κ × ν} (hp : p ∈ m.entries) (hq : q ∈ m.entries)
    (h : p.1 = q.1) : p = q := by
  have key : ∀ l : List (κ × ν), l.Pairwise (fun p q => p.1 < q.1) → p ∈ l → q ∈ l → p = q := by
    intro l hl
    induction l with
    | nil => exact fun h => absurd h List.not_mem_nil
    | cons r l ih =>
      rw [List.pairwise_cons] at hl
      intro hp' hq'
      rcases List.mem_cons.1 hp' with rfl | h1 <;> rcases List.mem_cons.1 hq' with rfl | h2
      · rfl
      · exact absurd h (hl.1 q h2).ne
      · exact absurd h (hl.1 p h1).ne'
      · exact ih hl.2 h1 h2
  exact key m.entries m.sorted hp hq

theorem get?_eq_some {m : SortedMap κ ν} {k : κ} {v : ν} : m.get? k = some v ↔ (k, v) ∈ m.entries := by
  unfold get?
  constructor
  · intro h
    obtain ⟨p, hp, rfl⟩ := Option.map_eq_some_iff.1 h
    have hk : p.1 = k := by simpa using List.find?_some hp
    exact hk ▸ List.mem_of_find?_eq_some hp
  · intro h
    cases hf : m.entries.find? fun p => p.1 = k with
    | none => exact absurd (List.find?_eq_none.1 hf _ h) (by simp)
    | some p =>
      have hk : p.1 = k := by simpa using List.find?_some hf
      rw [m.entry_unique (List.mem_of_find?_eq_some hf) h hk, Option.map_some]

theorem mem_keys {m : SortedMap κ ν} {k : κ} : k ∈ m.keys ↔ ∃ v, m.get? k = some v := by
  simp [keys, get?_eq_some]

theorem mem_values {m : SortedMap κ ν} {v : ν} : v ∈ m.values ↔ ∃ k, m.get? k = some v := by
  simp [values, get?_eq_some]

theorem contains_iff {m : SortedMap κ ν} {k : κ} : m.contains k = true ↔ ∃ v, m.get? k = some v := by
  rw [contains, Option.isSome_iff_exists]

theorem nodup_keys (m : SortedMap κ ν) : m.keys.Nodup :=
  List.pairwise_map.2 (m.sorted.imp fun h => h.ne)

/-! ### Updates -/

@[simp] theorem get?_empty (k : κ) : (empty : SortedMap κ ν).get? k = none := rfl

theorem mem_entries_insert {m : SortedMap κ ν} {k : κ} {v : ν} {p : κ × ν} :
    p ∈ (m.insert k v).entries ↔ p = (k, v) ∨ (p.1 ≠ k ∧ p ∈ m.entries) := by
  have key : ∀ l : List (κ × ν), l.Pairwise (fun p q => p.1 < q.1) →
      (p ∈ insertEntry k v l ↔ p = (k, v) ∨ (p.1 ≠ k ∧ p ∈ l)) := by
    intro l hl
    induction l with
    | nil => simp [insertEntry]
    | cons q l ih =>
      rw [List.pairwise_cons] at hl
      unfold insertEntry
      split
      · rename_i hlt
        -- the new entry goes to the front; all keys behind it are larger
        have hne : ∀ r ∈ q :: l, r.1 ≠ k := by
          intro r hr
          rcases List.mem_cons.1 hr with rfl | hr
          · exact hlt.ne'
          · exact (hlt.trans (hl.1 r hr)).ne'
        rw [List.mem_cons]
        exact or_congr_right ⟨fun h => ⟨hne p h, h⟩, fun h => h.2⟩
      · split
        · rename_i heq
          rw [List.mem_cons, List.mem_cons]
          refine or_congr_right ⟨fun h => ⟨heq ▸ (hl.1 p h).ne', Or.inr h⟩, ?_⟩
          rintro ⟨hne, rfl | h⟩
          · exact absurd heq.symm hne
          · exact h
        · rename_i hne
          rw [List.mem_cons, ih hl.2, List.mem_cons]
          constructor
          · rintro (rfl | h | ⟨h, h'⟩)
            · exact Or.inr ⟨Ne.symm hne, Or.inl rfl⟩
            · exact Or.inl h
            · exact Or.inr ⟨h, Or.inr h'⟩
          · rintro (h | ⟨h, rfl | h'⟩)
            · exact Or.inr (Or.inl h)
            · exact Or.inl rfl
            · exact Or.inr (Or.inr ⟨h, h'⟩)
  exact key m.entries m.sorted

theorem get?_insert (m : SortedMap κ ν) (k k' : κ) (v : ν) :
    (m.insert k v).get? k' = if k' = k then some v else m.get? k' := by
  ext w
  rw [get?_eq_some, mem_entries_insert]
  split
  · rename_i h
    simp [h, eq_comm]
  · rename_i h
    simp [h, get?_eq_some]

theorem get?_erase (m : SortedMap κ ν) (k k' : κ) :
    (m.erase k).get? k' = if k' = k then none else m.get? k' := by
  ext w
  rw [get?_eq_some, erase, List.mem_filter]
  split
  · rename_i h
    simp [h]
  · rename_i h
    simp [h, get?_eq_some]

/-- What is found after an insertion is the new entry or an old one. -/
theorem get?_of_insert {m : SortedMap κ ν} {k k' : κ} {v w : ν} (h : (m.insert k v).get? k' = some w) :
    (k' = k ∧ w = v) ∨ m.get? k' = some w := by
  rw [get?_insert] at h
  split at h
  · rename_i e
    exact Or.inl ⟨e, (Option.some.inj h).symm⟩
  · exact Or.inr h

/-- Many insertions, where the same key always gets the same value. -/
theorem get?_foldl_insert {ι : Type*} {l : List ι} {key : ι → κ} {val : ι → ν}
    (h : ∀ a ∈ l, ∀ b ∈ l, key a = key b → val a = val b) (m : SortedMap κ ν) (k : κ) (v : ν) :
    (l.foldl (fun m a => m.insert (key a) (val a)) m).get? k = some v ↔
      (∃ a ∈ l, key a = k ∧ val a = v) ∨ ((∀ a ∈ l, key a ≠ k) ∧ m.get? k = some v) := by
  induction l generalizing m with
  | nil => simp
  | cons a l ih =>
    have hl : ∀ b ∈ l, ∀ c ∈ l, key b = key c → val b = val c :=
      fun b hb c hc => h b (List.mem_cons_of_mem _ hb) c (List.mem_cons_of_mem _ hc)
    rw [List.foldl_cons, ih hl, get?_insert]
    by_cases hk : k = key a
    · subst hk
      by_cases hex : ∃ b ∈ l, key b = key a
      · obtain ⟨b, hb, hkey⟩ := hex
        have hval : val b = val a := h b (List.mem_cons_of_mem _ hb) a List.mem_cons_self hkey
        constructor
        · rintro (⟨c, hc, hcv⟩ | ⟨hno, -⟩)
          · exact Or.inl ⟨c, List.mem_cons_of_mem _ hc, hcv⟩
          · exact absurd hkey (hno b hb)
        · rintro (⟨c, hc, hck, hcv⟩ | ⟨hno, -⟩)
          · exact Or.inl ⟨b, hb, hkey, by rw [hval, ← h c hc a List.mem_cons_self hck, hcv]⟩
          · exact absurd rfl (hno a List.mem_cons_self)
      · have hno : ∀ b ∈ l, key b ≠ key a := fun b hb e => hex ⟨b, hb, e⟩
        simp only [if_pos, List.mem_cons, Option.some.injEq]
        constructor
        · rintro (⟨c, hc, hck, -⟩ | ⟨-, hv⟩)
          · exact absurd hck (hno c hc)
          · exact Or.inl ⟨a, Or.inl rfl, rfl, hv⟩
        · rintro (⟨c, rfl | hc, hck, hcv⟩ | ⟨hno', -⟩)
          · exact Or.inr ⟨hno, hcv⟩
          · exact absurd hck (hno c hc)
          · exact absurd rfl (hno' a (Or.inl rfl))
    · have hka : key a ≠ k := fun e => hk e.symm
      simp [hk, hka]

/-- What is found after an erasure was there before, under another key. -/
theorem get?_of_erase {m : SortedMap κ ν} {k k' : κ} {w : ν} (h : (m.erase k).get? k' = some w) :
    k' ≠ k ∧ m.get? k' = some w := by
  rw [get?_erase] at h
  split at h
  · cases h
  · exact ⟨by assumption, h⟩

theorem mem_values_of_insert {m : SortedMap κ ν} {k : κ} {v w : ν} (h : w ∈ (m.insert k v).values) :
    w = v ∨ w ∈ m.values := by
  obtain ⟨k', hk⟩ := mem_values.1 h
  rcases get?_of_insert hk with ⟨-, e⟩ | hk
  · exact Or.inl e
  · exact Or.inr (mem_values.2 ⟨k', hk⟩)

theorem mem_values_of_erase {m : SortedMap κ ν} {k : κ} {w : ν} (h : w ∈ (m.erase k).values) : w ∈ m.values := by
  obtain ⟨k', hk⟩ := mem_values.1 h
  exact mem_values.2 ⟨k', (get?_of_erase hk).2⟩

/-- Inserting a new key adds one entry. -/
theorem entries_insert_perm (m : SortedMap κ ν) {k : κ} (v : ν) (h : m.contains k = false) :
    (m.insert k v).entries.Perm ((k, v) :: m.entries) := by
  have key : ∀ l : List (κ × ν), (∀ p ∈ l, p.1 ≠ k) → (insertEntry k v l).Perm ((k, v) :: l) := by
    intro l hl
    induction l with
    | nil => exact List.Perm.refl _
    | cons q l ih =>
      unfold insertEntry
      split
      · exact List.Perm.refl _
      · rw [if_neg (Ne.symm (hl q List.mem_cons_self))]
        exact ((ih fun p hp => hl p (List.mem_cons_of_mem _ hp)).cons q).trans (List.Perm.swap ..)
  refine key m.entries fun p hp hk => ?_
  have hc : m.contains k = true := contains_iff.2 ⟨p.2, get?_eq_some.2 (hk ▸ hp)⟩
  rw [h] at hc
  cases hc

/-- Erasing a key removes its entry. -/
theorem entries_erase_perm (m : SortedMap κ ν) {k : κ} {v : ν} (h : m.get? k = some v) :
    m.entries.Perm ((k, v) :: (m.erase k).entries) := by
  have key : ∀ l : List (κ × ν), l.Pairwise (fun p q => p.1 < q.1) → (k, v) ∈ l →
      l.Perm ((k, v) :: l.filter fun p => p.1 ≠ k) := by
    intro l hl
    induction l with
    | nil => exact fun h => absurd h List.not_mem_nil
    | cons q l ih =>
      rw [List.pairwise_cons] at hl
      intro hm
      rcases List.mem_cons.1 hm with rfl | hm
      · rw [List.filter_cons_of_neg (by simp), List.filter_eq_self.2]
        intro p hp
        simpa using (hl.1 p hp).ne'
      · have hq : q.1 ≠ k := (hl.1 _ hm).ne
        rw [List.filter_cons_of_pos (by simpa using hq)]
        exact ((ih hl.2 hm).cons q).trans (List.Perm.swap ..)
  exact key m.entries m.sorted (get?_eq_some.1 h)

/-- A map is determined by its lookups. -/
theorem ext_get? {m m' : SortedMap κ ν} (h : ∀ k, m.get? k = m'.get? k) : m = m' := by
  have key : m.entries = m'.entries := by
    refine List.Perm.eq_of_pairwise ?_ m.sorted m'.sorted ?_
    rotate_left
    · refine (List.perm_ext_iff_of_nodup ?_ ?_).2 fun p => ?_
      · exact m.sorted.imp fun hlt e => hlt.ne (congrArg Prod.fst e)
      · exact m'.sorted.imp fun hlt e => hlt.ne (congrArg Prod.fst e)
      · rw [← get?_eq_some (v := p.2), ← get?_eq_some (v := p.2), h]
    · intro p q _ _ hpq hqp
      exact absurd hpq hqp.not_gt
  obtain ⟨l, hl⟩ := m
  obtain ⟨l', hl'⟩ := m'
  cases key
  rfl

theorem erase_of_none {m : SortedMap κ ν} {k : κ} (h : m.get? k = none) : m.erase k = m := by
  refine ext_get? fun k' => ?_
  rw [get?_erase]
  split
  · rename_i e
    rw [e, h]
  · rfl

theorem insert_erase (m : SortedMap κ ν) (k : κ) (v : ν) : (m.erase k).insert k v = m.insert k v := by
  refine ext_get? fun k' => ?_
  rw [get?_insert, get?_insert, get?_erase]
  split <;> rfl

theorem erase_insert {m : SortedMap κ ν} {k : κ} (h : m.get? k = none) (v : ν) : (m.insert k v).erase k = m := by
  refine ext_get? fun k' => ?_
  rw [get?_erase, get?_insert]
  split
  · rename_i e
    rw [e, h]
  · rfl

/-! ### The first entry -/

/-- The first entry is the one with the smallest key. -/
theorem first?_eq_some {m : SortedMap κ ν} {k : κ} {v : ν} :
    m.first? = some (k, v) ↔ m.get? k = some v ∧ ∀ k' v', m.get? k' = some v' → k ≤ k' := by
  obtain ⟨l, hl⟩ := m
  cases l with
  | nil => simp [first?, get?_eq_some]
  | cons p l =>
    rw [List.pairwise_cons] at hl
    simp only [first?, List.head?_cons, Option.some.injEq, get?_eq_some, List.mem_cons]
    constructor
    · intro he
      subst he
      refine ⟨Or.inl rfl, ?_⟩
      rintro k' v' (h | h)
      · exact (congrArg Prod.fst h).ge
      · exact (hl.1 _ h).le
    · rintro ⟨h | h, hmin⟩
      · exact h.symm
      · exact absurd (hl.1 _ h) (not_lt.2 (hmin p.1 p.2 (Or.inl rfl)))

end SortedMap
