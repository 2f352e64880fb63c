import Mathlib.Data.List.Basic

/-!
# Critical sections

A critical section is a program that reads and writes shared data, access by access, and may depend on what it has
read. `run` is its meaning when nothing else happens in between; `replay` runs a whole history of sections one after
the other. A section that loops forever has no meaning, and neither has a history with such a section.
-/

namespace Hammam

/-- A critical section on data of type `α` with results in `ρ`.  An access changes the data by `f`, and the rest of
the section depends on the value before. -/
inductive Critical (α ρ : Type) where
  | done (r : ρ)
  | access (f : α → α) (next : α → Critical α ρ)
  | forever

namespace Critical

variable {α ρ ι : Type}

def run : Critical α ρ → α → Option (α × ρ)
  | done r, a => some (a, r)
  | access f next, a => (next a).run (f a)
  | forever, _ => none

/-- The sections in order, with the data at the end and the results. -/
def replay (a : α) : List (ι × Critical α ρ) → Option (α × List (ι × ρ))
  | [] => some (a, [])
  | (i, c) :: cs =>
    match c.run a with
    | none => none
    | some (a', r) => (replay a' cs).map fun p => (p.1, (i, r) :: p.2)

/-- An operation as a whole: the data is read, the operation runs on the value, and what it leaves is written back.
An operation without a result loops forever. -/
def ofOp (op : α → Option (ρ × α)) : Critical α ρ :=
  access id fun a =>
    match op a with
    | none => forever
    | some (r, a') => access (fun _ => a') fun _ => done r

@[simp] theorem run_done (r : ρ) (a : α) : (done r : Critical α ρ).run a = some (a, r) := rfl

@[simp] theorem run_access (f : α → α) (next : α → Critical α ρ) (a : α) :
    (access f next).run a = (next a).run (f a) := rfl

@[simp] theorem run_forever (a : α) : (forever : Critical α ρ).run a = none := rfl

@[simp] theorem run_ofOp (op : α → Option (ρ × α)) (a : α) :
    (ofOp op).run a = (op a).map fun p => (p.2, p.1) := by
  rw [ofOp, run_access]
  cases op a with
  | none => rfl
  | some p => rfl

/-- One more section at the end of a history. -/
theorem replay_concat (a : α) (cs : List (ι × Critical α ρ)) (i : ι) (c : Critical α ρ) :
    replay a (cs ++ [(i, c)]) =
      (replay a cs).bind fun p => (c.run p.1).map fun q => (q.1, p.2 ++ [(i, q.2)]) := by
  induction cs generalizing a with
  | nil =>
    simp only [List.nil_append, replay, Option.bind_some]
    cases c.run a with
    | none => rfl
    | some q => rfl
  | cons d cs ih =>
    obtain ⟨j, d⟩ := d
    simp only [List.cons_append, replay]
    cases d.run a with
    | none => rfl
    | some q =>
      simp only [ih, Option.map_bind, Option.bind_map]
      cases replay q.1 cs with
      | none => rfl
      | some p =>
        simp only [Option.bind_some, Function.comp_apply]
        cases c.run p.1 with
        | none => rfl
        | some p' => rfl

/-- The history without its last section has a meaning too. -/
theorem replay_concat_eq_some {a a' : α} {cs : List (ι × Critical α ρ)} {i : ι} {c : Critical α ρ}
    {rs : List (ι × ρ)} :
    replay a (cs ++ [(i, c)]) = some (a', rs) ↔
      ∃ b r rs', replay a cs = some (b, rs') ∧ c.run b = some (a', r) ∧ rs = rs' ++ [(i, r)] := by
  rw [replay_concat, Option.bind_eq_some_iff]
  constructor
  · rintro ⟨p, hp, hc⟩
    obtain ⟨q, hq, he⟩ := Option.map_eq_some_iff.1 hc
    simp only [Prod.mk.injEq] at he
    obtain ⟨rfl, rfl⟩ := he
    exact ⟨p.1, q.2, p.2, hp, hq, rfl⟩
  · rintro ⟨b, r, rs', hb, hc, rfl⟩
    exact ⟨(b, rs'), hb, by rw [hc]; rfl⟩

end Critical

end Hammam
