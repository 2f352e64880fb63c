import Mathlib.Data.List.Basic
import Mathlib.Data.List.Nodup
import Hammam.Cap.Table

/-!
# Handles of capabilities (`cap/mod.rs`)

A slot of the table is never used again, so a handle stands for one capability from the `insert` that returned it
until it is revoked, and never for another one after that.  In between only the holder of a `get_mut` reference
changes what it stands for, and that one may change all of it.
-/

namespace Hammam

inductive CapEvent
  | inserted (handle : UInt32) (cap : Capability)
  | updated (handle : UInt32) (f : Capability → Capability)
  | revoked (handle : UInt32)

namespace CapEvent

/-- The handles that have been handed out and not been revoked since. -/
def live : List CapEvent → List UInt32
  | [] => []
  | .inserted h _ :: log => h :: live log
  | .updated _ _ :: log => live log
  | .revoked h :: log => (live log).erase h

/-- The handles that `insert` has returned. -/
def handles : List CapEvent → List UInt32
  | [] => []
  | .inserted h _ :: log => h :: handles log
  | .updated _ _ :: log | .revoked _ :: log => handles log

/-- What has become of `c`, stored under `h`, through the `get_mut` updates of `h`. -/
def since (h : UInt32) (c : Capability) : List CapEvent → Capability
  | [] => c
  | .updated h' f :: log => if h' = h then f (since h c log) else since h c log
  | .inserted _ _ :: log | .revoked _ :: log => since h c log

theorem handles_append (newer older : List CapEvent) : handles (newer ++ older) = handles newer ++ handles older := by
  induction newer with
  | nil => rfl
  | cons e newer ih => cases e <;> simp only [List.cons_append, handles, ih]

theorem mem_handles {h : UInt32} {c : Capability} {log : List CapEvent} (hm : .inserted h c ∈ log) :
    h ∈ handles log := by
  obtain ⟨newer, older, rfl⟩ := List.append_of_mem hm
  rw [handles_append]
  exact List.mem_append_right _ List.mem_cons_self

/-- The updates of `h` leave the kind and the object as they are. -/
def KeepsObject (h : UInt32) (log : List CapEvent) : Prop :=
  ∀ f, .updated h f ∈ log → ∀ c : Capability, (f c).kind = c.kind ∧ (f c).objectId = c.objectId

theorem since_of_keepsObject {h : UInt32} {log : List CapEvent} (hk : KeepsObject h log) (c : Capability) :
    (since h c log).kind = c.kind ∧ (since h c log).objectId = c.objectId := by
  induction log with
  | nil => exact ⟨rfl, rfl⟩
  | cons e log ih =>
    have ih := ih fun f hf => hk f (List.mem_cons_of_mem e hf)
    cases e with
    | inserted h' c' => exact ih
    | revoked h' => exact ih
    | updated h' f =>
      unfold since
      split
      · rename_i he
        obtain ⟨h1, h2⟩ := hk f (he ▸ List.mem_cons_self) (since h c log)
        exact ⟨h1.trans ih.1, h2.trans ih.2⟩
      · exact ih

end CapEvent

open CapEvent

/-- The runs of a table with fewer than `2 ^ 32` inserts, with the calls so far, the last one first.  What is inserted
is arbitrary, so it may be an attenuated capability of the same table. -/
inductive CapRun : CapTable → List CapEvent → Prop
  | new : CapRun CapTable.new []
  | insert {t log} (c : Capability) : CapRun t log → (handles log).length + 1 < 2 ^ 32 →
      CapRun (t.insert c).2 (.inserted (t.insert c).1 c :: log)
  | getMut {t log} (h : UInt32) (f : Capability → Capability) : CapRun t log →
      CapRun (t.getMut h f) (.updated h f :: log)
  | revoke {t log} (h : UInt32) : CapRun t log → CapRun (t.revoke h) (.revoked h :: log)

/-- `h` stands for `c`: an `insert` has returned it, it has not been revoked since, and the updates have made `c` of
what was inserted. -/
def Stands (log : List CapEvent) (h : UInt32) (c : Capability) : Prop :=
  ∃ newer c₀ older, log = newer ++ .inserted h c₀ :: older ∧ .revoked h ∉ newer ∧ c = since h c₀ newer

/-- The table as the log determines it. -/
structure CapInv (t : CapTable) (log : List CapEvent) : Prop where
  length : t.entries.length = (handles log).length
  lt : t.entries.length < 2 ^ 32
  get : ∀ h c, t.get h = some c ↔ Stands log h c
  handed : ∀ h ∈ handles log, h.toNat < t.entries.length
  once : (handles log).Nodup
  live : ∀ h, h ∈ live log ↔ (t.get h).isSome
  nodup : (CapEvent.live log).Nodup
  len : t.len = (CapEvent.live log).length

section Stands

variable {e : CapEvent} {log : List CapEvent} {h : UInt32} {c : Capability}

theorem stands_cons (he : ∀ c₀, e ≠ .inserted h c₀) :
    Stands (e :: log) h c ↔ ∃ newer c₀ older, log = newer ++ .inserted h c₀ :: older ∧ .revoked h ∉ e :: newer ∧
      c = since h c₀ (e :: newer) := by
  constructor
  · rintro ⟨newer, c₀, older, hlog, hrev, hc⟩
    cases newer with
    | nil => exact absurd (List.cons.inj hlog).1 (he c₀)
    | cons e' newer =>
      obtain ⟨rfl, hl⟩ := List.cons.inj hlog
      exact ⟨newer, c₀, older, hl, hrev, hc⟩
  · rintro ⟨newer, c₀, older, hlog, hrev, hc⟩
    exact ⟨e :: newer, c₀, older, by rw [hlog]; rfl, hrev, hc⟩

/-- A call on another handle. -/
theorem stands_cons_other (hi : ∀ c₀, e ≠ .inserted h c₀) (hr : e ≠ .revoked h)
    (hu : ∀ c₀ newer, since h c₀ (e :: newer) = since h c₀ newer) : Stands (e :: log) h c ↔ Stands log h c := by
  rw [stands_cons hi]
  simp only [hu, List.mem_cons, not_or, hr.symm, not_false_eq_true, true_and]
  rfl

theorem stands_inserted_self (hnew : h ∉ handles log) {c' : Capability} :
    Stands (.inserted h c :: log) h c' ↔ c' = c := by
  constructor
  · rintro ⟨newer, c₀, older, hlog, -, hc⟩
    cases newer with
    | nil =>
      obtain ⟨he, -⟩ := List.cons.inj hlog
      cases he
      exact hc
    | cons e newer =>
      refine absurd (mem_handles (c := c₀) ?_) hnew
      rw [(List.cons.inj hlog).2]
      exact List.mem_append_right _ List.mem_cons_self
  · rintro rfl
    exact ⟨[], _, log, rfl, List.not_mem_nil, rfl⟩

theorem stands_updated_self {f : Capability → Capability} :
    Stands (.updated h f :: log) h c ↔ ∃ c₁, Stands log h c₁ ∧ f c₁ = c := by
  rw [stands_cons (by simp)]
  constructor
  · rintro ⟨newer, c₀, older, hlog, hrev, hc⟩
    refine ⟨_, ⟨newer, c₀, older, hlog, fun hm => hrev (List.mem_cons_of_mem _ hm), rfl⟩, ?_⟩
    rw [hc, since, if_pos rfl]
  · rintro ⟨c₁, ⟨newer, c₀, older, hlog, hrev, rfl⟩, rfl⟩
    refine ⟨newer, c₀, older, hlog, ?_, ?_⟩
    · simpa using hrev
    · rw [since, if_pos rfl]

theorem not_stands_revoked : ¬ Stands (.revoked h :: log) h c := by
  rw [stands_cons (by simp)]
  rintro ⟨newer, c₀, older, -, hrev, -⟩
  exact hrev List.mem_cons_self

end Stands

namespace CapInv

variable {t : CapTable} {log : List CapEvent}

theorem new : CapInv CapTable.new [] where
  length := rfl
  lt := by decide
  get h c := by
    refine iff_of_false (by simp [CapTable.get, CapTable.new]) ?_
    rintro ⟨newer, c₀, older, hlog, -⟩
    exact absurd hlog.symm (by simp)
  handed h hm := absurd hm List.not_mem_nil
  once := List.nodup_nil
  live h := by simp [CapEvent.live, CapTable.get, CapTable.new]
  nodup := List.nodup_nil
  len := rfl

theorem insert (hi : CapInv t log) (c : Capability) (hlt : (handles log).length + 1 < 2 ^ 32) :
    CapInv (t.insert c).2 (.inserted (t.insert c).1 c :: log) := by
  have hfst := CapTable.insert_fst hi.lt c
  have hself := CapTable.get_insert_self hi.lt c
  have hlen : (t.insert c).2.entries.length = t.entries.length + 1 := List.length_append
  have hnone : t.get (t.insert c).1 = none := by
    refine Option.eq_none_iff_forall_ne_some.2 fun c' hc' => ?_
    have := CapTable.lt_of_get hc'
    omega
  have hnew : (t.insert c).1 ∉ handles log := fun hm => by
    have := hi.handed _ hm
    omega
  refine ⟨?_, ?_, fun h c' => ?_, fun h hm => ?_, List.nodup_cons.2 ⟨hnew, hi.once⟩, fun h => ?_,
    List.nodup_cons.2 ⟨fun hm => ?_, hi.nodup⟩, ?_⟩
  · rw [hlen, hi.length, handles, List.length_cons]
  · rw [hlen, hi.length]
    exact hlt
  · by_cases he : h = (t.insert c).1
    · rw [he, hself, stands_inserted_self hnew]
      exact ⟨fun e => (Option.some.inj e).symm, fun e => e ▸ rfl⟩
    · rw [CapTable.get_insert_of_ne hi.lt c he, hi.get, stands_cons_other ?_ (by simp) fun _ _ => rfl]
      intro c₀ e
      injection e with e
      exact he e.symm
  · rw [hlen]
    rcases List.mem_cons.1 hm with rfl | hm
    · rw [hfst]
      exact Nat.lt_succ_self _
    · exact Nat.lt_succ_of_lt (hi.handed h hm)
  · rw [CapEvent.live, List.mem_cons, hi.live]
    by_cases he : h = (t.insert c).1
    · rw [he, hself]
      simp
    · rw [CapTable.get_insert_of_ne hi.lt c he]
      simp [he]
  · rw [hi.live, hnone] at hm
    cases hm
  · rw [CapTable.len_insert, hi.len, CapEvent.live, List.length_cons]

theorem getMut (hi : CapInv t log) (h : UInt32) (f : Capability → Capability) :
    CapInv (t.getMut h f) (.updated h f :: log) := by
  have hlen : (t.getMut h f).entries.length = t.entries.length := List.length_modify _ _ _
  refine ⟨hlen.trans hi.length, hlen ▸ hi.lt, fun h' c => ?_, hlen ▸ hi.handed, hi.once, fun h' => ?_, hi.nodup, ?_⟩
  · by_cases he : h' = h
    · rw [he, CapTable.get_getMut_self, Option.map_eq_some_iff, stands_updated_self]
      simp only [hi.get]
    · rw [CapTable.get_getMut_of_ne f he, hi.get, stands_cons_other (by simp) (by simp) fun c₀ newer => ?_]
      rw [since, if_neg (Ne.symm he)]
  · rw [CapEvent.live, hi.live]
    by_cases he : h' = h
    · rw [he, CapTable.get_getMut_self, Option.isSome_map]
    · rw [CapTable.get_getMut_of_ne f he]
  · rw [CapTable.len_getMut, hi.len, CapEvent.live]

theorem revoke (hi : CapInv t log) (h : UInt32) : CapInv (t.revoke h) (.revoked h :: log) := by
  have hlen : (t.revoke h).entries.length = t.entries.length := List.length_set
  refine ⟨hlen.trans hi.length, hlen ▸ hi.lt, fun h' c => ?_, hlen ▸ hi.handed, hi.once, fun h' => ?_,
    hi.nodup.erase h, ?_⟩
  · by_cases he : h' = h
    · rw [he, CapTable.get_revoke_self]
      exact iff_of_false (by simp) not_stands_revoked
    · rw [CapTable.get_revoke_of_ne he, hi.get, stands_cons_other (by simp) ?_ fun _ _ => rfl]
      intro e
      injection e with e
      exact he e.symm
  · rw [CapEvent.live, hi.nodup.mem_erase_iff, hi.live]
    by_cases he : h' = h
    · rw [he, CapTable.get_revoke_self]
      simp
    · rw [CapTable.get_revoke_of_ne he]
      simp [he]
  · rw [CapEvent.live]
    cases hg : t.get h with
    | none =>
      have hnot : h ∉ CapEvent.live log := fun hm => by
        rw [hi.live, hg] at hm
        cases hm
      rw [List.erase_of_not_mem hnot, CapTable.len_revoke_of_none hg, hi.len]
    | some c =>
      have hmem : h ∈ CapEvent.live log := (hi.live h).2 (by rw [hg]; rfl)
      have := CapTable.len_revoke_of_get hg
      have hl := hi.len
      rw [List.length_erase_of_mem hmem]
      omega

end CapInv

theorem CapRun.inv {t : CapTable} {log : List CapEvent} (h : CapRun t log) : CapInv t log := by
  induction h with
  | new => exact CapInv.new
  | insert c _ hlt ih => exact ih.insert c hlt
  | getMut h f _ ih => exact ih.getMut h f
  | revoke h _ ih => exact ih.revoke h

/-- There is one way to read off what a handle stands for. -/
theorem CapInv.split_unique {t : CapTable} {log newer newer' older older' : List CapEvent} {h : UInt32}
    {c c' : Capability} (hi : CapInv t log) (hl : log = newer ++ .inserted h c :: older)
    (hl' : log = newer' ++ .inserted h c' :: older') : newer = newer' ∧ c = c' := by
  have hnd := hi.once
  rw [hl', handles_append, handles, List.nodup_append, List.nodup_cons] at hnd
  have hn : .inserted h c ∉ newer' := fun hm => hnd.2.2 h (mem_handles hm) h List.mem_cons_self rfl
  have ho : .inserted h c ∉ older' := fun hm => hnd.2.1.1 (mem_handles hm)
  obtain ⟨e₁, e₂, -⟩ := (List.append_cons_inj_of_notMem hn ho).1 (hl'.symm.trans hl)
  injection e₂ with _ e₂
  exact ⟨e₁.symm, e₂.symm⟩

/-- A handle resolves exactly from the `insert` that returned it until it is revoked, to what was inserted with the
updates through `get_mut`; these may change the kind and the object, and nothing else does.  A revoked handle never
resolves again, no call changes what another handle resolves to, `len` counts the handles that resolve, `check_rights`
grants what the capability has, and a chain of `attenuate` calls leaves the rights that are in all its masks. -/
theorem handles_unforgeable {t : CapTable} {log : List CapEvent} (hr : CapRun t log) :
    (∀ h c, t.get h = some c ↔ Stands log h c) ∧
      (∀ newer h c₀ older c, log = newer ++ .inserted h c₀ :: older → KeepsObject h newer → t.get h = some c →
        c.kind = c₀.kind ∧ c.objectId = c₀.objectId) ∧
      (∀ newer h c₀ older, log = newer ++ .inserted h c₀ :: older → .revoked h ∈ newer → t.get h = none) ∧
      (∀ h h', h' ≠ h → (t.revoke h).get h' = t.get h' ∧ ∀ f, (t.getMut h f).get h' = t.get h') ∧
      (∀ c h', h' ≠ (t.insert c).1 → (t.insert c).2.get h' = t.get h') ∧
      t.len = (live log).length ∧ (live log).Nodup ∧ (∀ h, h ∈ live log ↔ ∃ c, Stands log h c) ∧
      (∀ h r, t.checkRights h r = true ↔ ∃ c, Stands log h c ∧ ∀ i, r.has i = true → c.rights.has i = true) ∧
      ∀ (c : Capability) (masks : List Rights), (masks.foldl Capability.attenuate c).kind = c.kind ∧
        (masks.foldl Capability.attenuate c).objectId = c.objectId ∧
        ∀ i, (masks.foldl Capability.attenuate c).rights.has i = true ↔
          c.rights.has i = true ∧ ∀ m ∈ masks, m.has i = true := by
  have hi := hr.inv
  refine ⟨hi.get, ?_, ?_, ?_, fun c h' hne => CapTable.get_insert_of_ne hi.lt c hne, hi.len, hi.nodup, fun h => ?_,
    fun h r => ?_, Capability.foldl_attenuate⟩
  · intro newer h c₀ older c hl hk hg
    obtain ⟨newer', c₁, older', hl', -, rfl⟩ := (hi.get h c).1 hg
    obtain ⟨rfl, rfl⟩ := hi.split_unique hl hl'
    exact since_of_keepsObject hk c₀
  · intro newer h c₀ older hl hrev
    refine Option.eq_none_iff_forall_ne_some.2 fun c hg => ?_
    obtain ⟨newer', c₁, older', hl', hnot, -⟩ := (hi.get h c).1 hg
    obtain ⟨rfl, rfl⟩ := hi.split_unique hl hl'
    exact hnot hrev
  · exact fun h h' hne => ⟨CapTable.get_revoke_of_ne hne, fun f => CapTable.get_getMut_of_ne f hne⟩
  · rw [hi.live, Option.isSome_iff_exists]
    simp only [hi.get]
  · rw [CapTable.checkRights_iff]
    simp only [hi.get]

/-- The theorem at a capability that is attenuated, inserted again and revoked. -/
theorem handles_unforgeable_attenuated : ∃ t log, CapRun t log ∧ handles log = [1, 0] ∧ t.get 0 = none ∧
    t.get 1 = some ⟨.memory, .read, 7⟩ ∧ t.len = (live log).length ∧ live log = [1] := by
  have r₁ : CapRun _ _ := .insert ⟨.memory, ⟨3⟩, 7⟩ .new (by decide)
  have r₂ : CapRun _ _ := .insert (Capability.attenuate ⟨.memory, ⟨3⟩, 7⟩ .read) r₁ (by decide)
  have r₃ : CapRun _ _ := .revoke 0 r₂
  have h := handles_unforgeable r₃
  exact ⟨_, _, r₃, rfl, h.2.2.1 [_, _] 0 _ [] rfl List.mem_cons_self, by decide, h.2.2.2.2.2.1, by decide⟩

/-- A capability for memory that becomes one for another process through `get_mut`. -/
theorem kind_changed_by_getMut : ∃ t c c', CapRun t [.updated 0 fun _ => c', .inserted 0 c] ∧ c.kind = .memory ∧
    c.objectId = 7 ∧ t.get 0 = some c' ∧ c'.kind = .process ∧ c'.objectId = 9 ∧
    ¬ ∀ h c₀ c₁, .inserted h c₀ ∈ [CapEvent.updated 0 fun _ => c', .inserted 0 c] → t.get h = some c₁ →
      c₁.kind = c₀.kind ∧ c₁.objectId = c₀.objectId := by
  have r₁ : CapRun _ _ := .insert ⟨.memory, .read, 7⟩ .new (by decide)
  have r₂ : CapRun _ _ := .getMut 0 (fun _ => ⟨.process, .write, 9⟩) r₁
  refine ⟨_, _, _, r₂, rfl, rfl, rfl, rfl, rfl, fun hall => ?_⟩
  have h := hall 0 _ ⟨.process, .write, 9⟩ (List.mem_cons_of_mem _ List.mem_cons_self) rfl
  exact absurd h.1 (by decide)

end Hammam
