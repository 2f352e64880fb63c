import Mathlib.Data.Nat.Bitwise

/-!
# Capabilities (`cap/mod.rs`)

A capability names an object and the rights to it.  A table keeps the capabilities of a process and hands out handles,
which are the indices of its slots; `revoke` leaves a slot empty and `insert` appends.
-/

namespace Hammam

inductive CapKind where
  | memory
  | irqHandler
  | ioPort
  | process
  deriving DecidableEq, Repr

structure Rights where
  bits : UInt32
  deriving DecidableEq, Repr

namespace Rights

def read : Rights := ⟨1⟩

def write : Rights := ⟨2⟩

/-- The `&` of `bitflags`. -/
def inter (r s : Rights) : Rights := ⟨r.bits &&& s.bits⟩

def contains (r s : Rights) : Bool := r.bits &&& s.bits == s.bits

/-- The right number `i`. -/
def has (r : Rights) (i : Nat) : Bool := r.bits.toNat.testBit i

@[simp] theorem has_inter (r s : Rights) (i : Nat) : (r.inter s).has i = (r.has i && s.has i) := by
  rw [has, inter, UInt32.toNat_and, Nat.testBit_and]
  rfl

theorem contains_iff {r s : Rights} : r.contains s = true ↔ ∀ i, s.has i = true → r.has i = true := by
  rw [contains, beq_iff_eq, ← UInt32.toNat_inj, UInt32.toNat_and]
  constructor
  · intro h i hi
    have hb := congrArg (Nat.testBit · i) h
    simp only [Nat.testBit_and] at hb
    rw [has] at hi ⊢
    rw [hi, Bool.and_true] at hb
    exact hb
  · intro h
    refine Nat.eq_of_testBit_eq fun i => ?_
    rw [Nat.testBit_and]
    cases hs : s.bits.toNat.testBit i with
    | false => exact Bool.and_false _
    | true =>
      rw [Bool.and_true]
      exact h i hs

end Rights

structure Capability where
  kind : CapKind
  rights : Rights
  objectId : UInt64
  deriving DecidableEq, Repr

/-- A capability for the same object with the rights that are also in `newRights`. -/
def Capability.attenuate (c : Capability) (newRights : Rights) : Capability :=
  { c with rights := c.rights.inter newRights }

/-- A chain of `attenuate` calls changes neither the kind nor the object, and leaves the rights that are in the
original capability and in every mask. -/
theorem Capability.foldl_attenuate (c : Capability) (masks : List Rights) :
    (masks.foldl attenuate c).kind = c.kind ∧ (masks.foldl attenuate c).objectId = c.objectId ∧
      ∀ i, (masks.foldl attenuate c).rights.has i = true ↔ c.rights.has i = true ∧ ∀ m ∈ masks, m.has i = true := by
  induction masks generalizing c with
  | nil => simp
  | cons m masks ih =>
    obtain ⟨hk, ho, hr⟩ := ih (c.attenuate m)
    refine ⟨hk, ho, fun i => ?_⟩
    rw [List.foldl_cons, hr, List.forall_mem_cons, ← and_assoc]
    simp only [attenuate, Rights.has_inter, Bool.and_eq_true]

structure CapTable where
  entries : List (Option Capability)
  deriving DecidableEq

namespace CapTable

def new : CapTable := ⟨[]⟩

/-- The handle and the table after the call. -/
def insert (t : CapTable) (cap : Capability) : UInt32 × CapTable :=
  let idx := t.entries.length
  (UInt32.ofNat idx, ⟨t.entries ++ [some cap]⟩)

def get (t : CapTable) (handle : UInt32) : Option Capability := t.entries[handle.toNat]?.join

/-- What `f` does through the reference of `get_mut`, if there is one. -/
def getMut (t : CapTable) (handle : UInt32) (f : Capability → Capability) : CapTable :=
  ⟨t.entries.modify handle.toNat (Option.map f)⟩

def revoke (t : CapTable) (handle : UInt32) : CapTable := ⟨t.entries.set handle.toNat none⟩

def checkRights (t : CapTable) (handle : UInt32) (requiredRights : Rights) : Bool :=
  match t.get handle with
  | some cap => cap.rights.contains requiredRights
  | none => false

def len (t : CapTable) : Nat := t.entries.countP Option.isSome

/-! ### One call -/

variable {t : CapTable} {h h' : UInt32}

theorem insert_fst (hlen : t.entries.length < 2 ^ 32) (c : Capability) :
    (t.insert c).1.toNat = t.entries.length := by
  rw [insert, UInt32.toNat_ofNat', Nat.mod_eq_of_lt hlen]

theorem get_insert_self (hlen : t.entries.length < 2 ^ 32) (c : Capability) :
    (t.insert c).2.get (t.insert c).1 = some c := by
  rw [get, insert_fst hlen]
  simp [insert]

theorem get_insert_of_ne (hlen : t.entries.length < 2 ^ 32) (c : Capability) (hne : h ≠ (t.insert c).1) :
    (t.insert c).2.get h = t.get h := by
  have hne' : h.toNat ≠ t.entries.length := by
    rw [← insert_fst hlen c]
    exact fun e => hne (UInt32.toNat_inj.1 e)
  unfold get insert
  rcases Nat.lt_or_gt_of_ne hne' with hlt | hgt
  · rw [List.getElem?_append_left hlt]
  · rw [List.getElem?_eq_none hgt.le, List.getElem?_eq_none]
    rw [List.length_append]
    exact hgt

theorem get_getMut_self (f : Capability → Capability) : (t.getMut h f).get h = (t.get h).map f := by
  unfold get getMut
  rw [List.getElem?_modify_eq]
  cases t.entries[h.toNat]? <;> rfl

theorem get_getMut_of_ne (f : Capability → Capability) (hne : h' ≠ h) : (t.getMut h f).get h' = t.get h' := by
  unfold get getMut
  rw [List.getElem?_modify_ne _ _ fun e => hne (UInt32.toNat_inj.1 e.symm)]

theorem get_revoke_self : (t.revoke h).get h = none := by
  unfold get revoke
  rw [List.getElem?_set_self']
  cases t.entries[h.toNat]? <;> rfl

theorem get_revoke_of_ne (hne : h' ≠ h) : (t.revoke h).get h' = t.get h' := by
  unfold get revoke
  rw [List.getElem?_set_ne fun e => hne (UInt32.toNat_inj.1 e.symm)]

theorem lt_of_get {c : Capability} (hg : t.get h = some c) : h.toNat < t.entries.length := by
  by_contra hge
  rw [get, List.getElem?_eq_none (Nat.le_of_not_lt hge)] at hg
  cases hg

theorem checkRights_iff {r : Rights} :
    t.checkRights h r = true ↔ ∃ c, t.get h = some c ∧ ∀ i, r.has i = true → c.rights.has i = true := by
  unfold checkRights
  cases hg : t.get h with
  | none => simp
  | some c => simp [Rights.contains_iff]

theorem len_insert (c : Capability) : (t.insert c).2.len = t.len + 1 := by
  simp [len, insert]

theorem len_getMut (f : Capability → Capability) : (t.getMut h f).len = t.len := by
  have hmodify : ∀ (l : List (Option Capability)) (n : Nat),
      (l.modify n (Option.map f)).countP Option.isSome = l.countP Option.isSome := by
    intro l
    induction l with
    | nil => intro n; rw [List.modify_nil]
    | cons e l ih =>
      intro n
      cases n with
      | zero => rw [List.modify_zero_cons, List.countP_cons, List.countP_cons, Option.isSome_map]
      | succ n => rw [List.modify_succ_cons, List.countP_cons, List.countP_cons, ih]
  exact hmodify t.entries h.toNat

theorem len_revoke_of_get {c : Capability} (hg : t.get h = some c) : (t.revoke h).len + 1 = t.len := by
  have hlt := lt_of_get hg
  rw [get, List.getElem?_eq_getElem hlt] at hg
  have hsome : t.entries[h.toNat].isSome = true := by
    rw [show t.entries[h.toNat] = some c from hg]
    rfl
  have hpos : 0 < t.entries.countP Option.isSome := List.countP_pos_iff.2 ⟨_, List.getElem_mem hlt, hsome⟩
  rw [len, revoke, List.countP_set hlt, hsome, len]
  simp only [if_true, Option.isSome_none, Bool.false_eq_true, if_false]
  omega

theorem len_revoke_of_none (hg : t.get h = none) : (t.revoke h).len = t.len := by
  rcases Nat.lt_or_ge h.toNat t.entries.length with hlt | hge
  · rw [get, List.getElem?_eq_getElem hlt] at hg
    have hnone : t.entries[h.toNat] = none := hg
    rw [len, revoke, ← hnone, List.set_getElem_self]
    rfl
  · rw [len, revoke, List.set_eq_of_length_le hge]
    rfl

end CapTable

end Hammam
