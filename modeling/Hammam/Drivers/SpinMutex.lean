import Mathlib.Logic.Embedding.Basic
import Mathlib.Logic.Function.Basic
import Mathlib.Logic.Relation
import Hammam.Lib.Critical

/-!
# The spin lock (`drivers/serial.rs`, `sched/task.rs`)

`SpinMutex` and `Mutex` are a flag and the data behind it.  `lock` repeats an exchange of the flag until it
succeeds, and the guard clears the flag when it is dropped; `Mutex` uses the exchange that may also fail without a
reason.  Any number of threads take turns in any order.  What a thread does with the guard is a critical section,
one access at a time, and the lock is right if the sections have happened one after the other.

Neither lock masks interrupts.  A processor that takes an interrupt suspends its thread until the handler is done,
also when that thread holds the lock.
-/

namespace Hammam

structure SpinMutex (α : Type) where
  locked : Bool
  data : α

namespace SpinMutex

variable {α : Type}

def new (data : α) : SpinMutex α := ⟨false, data⟩

/-- One turn of the loop of `lock`: the exchange of `false` for `true`. -/
def compareExchange (m : SpinMutex α) : Option (SpinMutex α) :=
  if m.locked then none else some { m with locked := true }

/-- An access through the guard. -/
def derefMut (m : SpinMutex α) (f : α → α) : SpinMutex α := { m with data := f m.data }

/-- The guard is dropped. -/
def drop (m : SpinMutex α) : SpinMutex α := { m with locked := false }

theorem compareExchange_eq_some {m m' : SpinMutex α} :
    m.compareExchange = some m' ↔ m.locked = false ∧ m' = ⟨true, m.data⟩ := by
  unfold compareExchange
  cases hl : m.locked with
  | false => simp [eq_comm]
  | true => simp

end SpinMutex

/-- Where a thread is: outside, in the loop of `lock`, or behind it with what is left of its section. -/
inductive Phase (α ρ : Type) where
  | outside
  | spinning (c : Critical α ρ)
  | inside (rest : Critical α ρ)

/-- Threads around one lock.  `entered` and `returned` record the sections in the order in which the lock was taken,
and the results in the order in which it was dropped. -/
structure Threads (ι α ρ : Type) where
  mutex : SpinMutex α
  phase : ι → Phase α ρ
  entered : List (ι × Critical α ρ)
  returned : List (ι × ρ)

namespace Threads

variable {ι α ρ : Type} [DecidableEq ι]

def start (a : α) : Threads ι α ρ := ⟨.new a, fun _ => .outside, [], []⟩

def setPhase (s : Threads ι α ρ) (i : ι) (p : Phase α ρ) : Threads ι α ρ :=
  { s with phase := Function.update s.phase i p }

def Holds (s : Threads ι α ρ) (i : ι) : Prop := ∃ c, s.phase i = .inside c

/-- A step of the thread `i`; with `weak` an exchange may fail although the flag is clear. -/
inductive Step (weak : Bool) (i : ι) : Threads ι α ρ → Threads ι α ρ → Prop
  | call {s : Threads ι α ρ} (c : Critical α ρ) : s.phase i = .outside → Step weak i s (s.setPhase i (.spinning c))
  | spin {s : Threads ι α ρ} {c : Critical α ρ} : s.phase i = .spinning c →
    (weak = true ∨ s.mutex.compareExchange = none) → Step weak i s s
  | enter {s : Threads ι α ρ} {c : Critical α ρ} {m : SpinMutex α} : s.phase i = .spinning c →
    s.mutex.compareExchange = some m →
    Step weak i s { s.setPhase i (.inside c) with mutex := m, entered := s.entered ++ [(i, c)] }
  | access {s : Threads ι α ρ} {f : α → α} {next : α → Critical α ρ} : s.phase i = .inside (.access f next) →
    Step weak i s { s.setPhase i (.inside (next s.mutex.data)) with mutex := s.mutex.derefMut f }
  | forever {s : Threads ι α ρ} : s.phase i = .inside .forever → Step weak i s s
  | leave {s : Threads ι α ρ} {r : ρ} : s.phase i = .inside (.done r) →
    Step weak i s { s.setPhase i .outside with mutex := s.mutex.drop, returned := s.returned ++ [(i, r)] }

/-- The states that the threads reach, whoever takes the next step. -/
def Reached (weak : Bool) (a : α) : Threads ι α ρ → Prop :=
  Relation.ReflTransGen (fun s s' => ∃ i, Step weak i s s') (start a)

/-! ### The sections happen one after the other -/

/-- The history so far: with a holder, what it still has to do completes the last section. -/
inductive Serial (a : α) (s : Threads ι α ρ) : Prop
  | free : s.mutex.locked = false → (∀ i, ¬ s.Holds i) →
    Critical.replay a s.entered = some (s.mutex.data, s.returned) → Serial a s
  | held {i : ι} {c : Critical α ρ} : s.mutex.locked = true → s.phase i = .inside c → (∀ j, s.Holds j → j = i) →
    Critical.replay a s.entered = (c.run s.mutex.data).map (fun p => (p.1, s.returned ++ [(i, p.2)])) → Serial a s

theorem holds_setPhase {s : Threads ι α ρ} {i j : ι} {p : Phase α ρ} :
    (s.setPhase i p).Holds j ↔ (j = i ∧ ∃ c, p = .inside c) ∨ (j ≠ i ∧ s.Holds j) := by
  unfold Holds setPhase
  by_cases h : j = i
  · subst h
    simp
  · simp [h]

omit [DecidableEq ι] in
theorem not_holds {s : Threads ι α ρ} {i : ι} (h : s.phase i = .outside ∨ ∃ c, s.phase i = .spinning c) :
    ¬ s.Holds i := by
  rintro ⟨c, hc⟩
  rcases h with h | ⟨d, h⟩ <;> rw [h] at hc <;> cases hc

namespace Serial

variable {a : α} {s s' : Threads ι α ρ} {weak : Bool}

omit [DecidableEq ι] in
theorem start (a : α) : Serial a (Threads.start a : Threads ι α ρ) :=
  .free rfl (fun _ => not_holds (Or.inl rfl)) rfl

/-- The flag and the data stay, and so does every thread that holds the lock. -/
theorem idle (h : Serial a s) {i : ι} (hi : ¬ s.Holds i) {p : Phase α ρ} (hp : ∀ c, p ≠ .inside c) :
    Serial a (s.setPhase i p) := by
  have hold : ∀ j, (s.setPhase i p).Holds j → s.Holds j := by
    intro j hj
    rcases holds_setPhase.1 hj with ⟨-, c, rfl⟩ | ⟨-, hj⟩
    · exact absurd rfl (hp c)
    · exact hj
  cases h with
  | free hl hn hr => exact .free hl (fun j hj => hn j (hold j hj)) hr
  | @held k c hl hk hu hr =>
    have hne : k ≠ i := by
      rintro rfl
      exact hi ⟨c, hk⟩
    refine .held (i := k) (c := c) hl ?_ (fun j hj => hu j (hold j hj)) hr
    show Function.update s.phase i p k = _
    rw [Function.update_of_ne hne, hk]

omit [DecidableEq ι] in
/-- The holder is the thread that the history names last. -/
theorem of_inside (h : Serial a s) {i : ι} {c : Critical α ρ} (hi : s.phase i = .inside c) :
    s.mutex.locked = true ∧ (∀ j, s.Holds j → j = i) ∧
      Critical.replay a s.entered = (c.run s.mutex.data).map (fun p => (p.1, s.returned ++ [(i, p.2)])) := by
  cases h with
  | free _ hn _ => exact absurd ⟨c, hi⟩ (hn i)
  | held hl hk hu hr =>
    obtain rfl := hu i ⟨c, hi⟩
    rw [hk] at hi
    cases hi
    exact ⟨hl, hu, hr⟩

theorem step (h : Serial a s) {i : ι} (hs : Step weak i s s') : Serial a s' := by
  cases hs with
  | call c hi => exact h.idle (not_holds (Or.inl hi)) (by simp)
  | spin _ _ => exact h
  | @enter c m hi hm =>
    obtain ⟨hl, rfl⟩ := SpinMutex.compareExchange_eq_some.1 hm
    cases h with
    | held hl' _ _ _ => rw [hl] at hl'; cases hl'
    | free _ hn hr =>
      refine .held (i := i) (c := c) rfl (Function.update_self i _ _) ?_ ?_
      · intro j hj
        rcases holds_setPhase.1 hj with ⟨rfl, -⟩ | ⟨-, hj⟩
        · rfl
        · exact absurd hj (hn j)
      · rw [Critical.replay_concat, hr]
        rfl
  | access hi =>
    obtain ⟨hl, hu, hr⟩ := h.of_inside hi
    refine .held (i := i) hl (Function.update_self i _ _) ?_ hr
    intro j hj
    rcases holds_setPhase.1 hj with ⟨rfl, -⟩ | ⟨-, hj⟩
    · rfl
    · exact hu j hj
  | forever _ => exact h
  | leave hi =>
    obtain ⟨-, hu, hr⟩ := h.of_inside hi
    refine .free rfl ?_ hr
    intro j hj
    rcases holds_setPhase.1 hj with ⟨-, c, hc⟩ | ⟨hne, hj⟩
    · cases hc
    · exact hne (hu j hj)

end Serial

theorem Reached.serial {weak : Bool} {a : α} {s : Threads ι α ρ} (h : Reached weak a s) : Serial a s := by
  induction h with
  | refl => exact Serial.start a
  | tail _ hs ih =>
    obtain ⟨i, hs⟩ := hs
    exact ih.step hs

end Threads

open Threads in
/-- Whoever takes the next step, at most one thread is behind the lock, the flag says whether there is one, and the
data is what the sections leave that have taken the lock, run one after the other in that order: while a thread is
inside, with what is left of its section.  Every section has returned what it returns in that order. -/
theorem sections_serializable {ι α ρ : Type} [DecidableEq ι] {weak : Bool} {a : α} {s : Threads ι α ρ}
    (h : Reached weak a s) :
    (∀ i j, s.Holds i → s.Holds j → i = j) ∧ (s.mutex.locked = true ↔ ∃ i, s.Holds i) ∧
      (s.mutex.locked = false → Critical.replay a s.entered = some (s.mutex.data, s.returned)) ∧
      ∀ i c, s.phase i = .inside c →
        Critical.replay a s.entered = (c.run s.mutex.data).map (fun p => (p.1, s.returned ++ [(i, p.2)])) := by
  have hs := h.serial
  refine ⟨?_, ⟨fun hl => ?_, ?_⟩, fun hl => ?_, fun i c hi => (hs.of_inside hi).2.2⟩
  · rintro i j hi ⟨c, hj⟩
    exact (hs.of_inside hj).2.1 i hi
  · cases hs with
    | free hl' _ _ => rw [hl] at hl'; cases hl'
    | held _ hi _ _ => exact ⟨_, _, hi⟩
  · rintro ⟨i, c, hi⟩
    exact (hs.of_inside hi).1
  · cases hs with
    | free _ _ hr => exact hr
    | held hl' _ _ _ => rw [hl] at hl'; cases hl'

/-- Two threads add to a number, the second one while the first one is inside. -/
theorem sections_serializable_two : ∃ s : Threads Bool Nat Unit, Threads.Reached false 5 s ∧
    s.mutex.locked = true ∧ (Critical.replay 5 s.entered).map Prod.fst = some 6 := by
  let add : Critical Nat Unit := .access id fun n => .access (fun _ => n + 1) fun _ => .done ()
  have h₀ : Threads.Reached false 5 (Threads.start 5 : Threads Bool Nat Unit) := .refl
  have h₁ := h₀.tail ⟨false, .call add rfl⟩
  have h₂ := h₁.tail ⟨true, .call add rfl⟩
  have h₃ := h₂.tail ⟨false, .enter (c := add) rfl rfl⟩
  have h₄ := h₃.tail ⟨true, .spin (c := add) rfl (Or.inr rfl)⟩
  have h₅ := h₄.tail ⟨false, .access rfl⟩
  refine ⟨_, h₅, rfl, ?_⟩
  rw [(sections_serializable h₅).2.2.2 false _ rfl]
  rfl

/-! ### Interrupts -/

/-- Processors with the threads that each of them has started: the one that runs first, behind it those that it has
interrupted. -/
structure Processors (κ ι α ρ : Type) where
  threads : Threads ι α ρ
  stack : κ → List ι

namespace Processors

variable {κ ι α ρ : Type} [DecidableEq κ] [DecidableEq ι]

/-- Every processor runs a thread of its own. -/
def start (a : α) (base : κ ↪ ι) : Processors κ ι α ρ := ⟨.start a, fun k => [base k]⟩

/-- A handler is a thread that is not running anywhere; it returns when it is outside. -/
inductive Step (weak : Bool) : Processors κ ι α ρ → Processors κ ι α ρ → Prop
  | run {m : Processors κ ι α ρ} {k : κ} {i : ι} {rest : List ι} {t : Threads ι α ρ} : m.stack k = i :: rest →
    Threads.Step weak i m.threads t → Step weak m { m with threads := t }
  | interrupt {m : Processors κ ι α ρ} (k : κ) {j : ι} : (∀ k', j ∉ m.stack k') →
    Step weak m { m with stack := Function.update m.stack k (j :: m.stack k) }
  | iret {m : Processors κ ι α ρ} {k : κ} {j : ι} {rest : List ι} : m.stack k = j :: rest →
    m.threads.phase j = .outside → Step weak m { m with stack := Function.update m.stack k rest }

def Reached (weak : Bool) (a : α) (base : κ ↪ ι) : Processors κ ι α ρ → Prop :=
  Relation.ReflTransGen (Step weak) (start a base)

/-- A thread runs in at most one place, and only a thread that runs somewhere is not outside. -/
structure Placed (m : Processors κ ι α ρ) : Prop where
  nodup : ∀ k, (m.stack k).Nodup
  unique : ∀ {k k' i}, i ∈ m.stack k → i ∈ m.stack k' → k = k'
  away : ∀ i, (∀ k, i ∉ m.stack k) → m.threads.phase i = .outside

/-- A step of `i` does not move another thread. -/
theorem phase_of_ne {weak : Bool} {i j : ι} {t t' : Threads ι α ρ} (h : Threads.Step weak i t t') (hj : j ≠ i) :
    t'.phase j = t.phase j := by
  cases h with
  | spin | forever => rfl
  | _ => exact Function.update_of_ne hj _ _

theorem Placed.step {weak : Bool} {m m' : Processors κ ι α ρ} (h : Placed m) (hs : Step weak m m') : Placed m' := by
  cases hs with
  | @run k i rest t hk ht =>
    refine ⟨h.nodup, h.unique, fun j hj => ?_⟩
    have hne : j ≠ i := by
      rintro rfl
      exact hj k (by rw [hk]; exact List.mem_cons_self)
    rw [phase_of_ne ht hne]
    exact h.away j hj
  | @interrupt k j hj =>
    have hmem : ∀ {k' i}, i ∈ Function.update m.stack k (j :: m.stack k) k' → i ∈ m.stack k' ∨ i = j ∧ k' = k := by
      intro k' i hi
      by_cases hk : k' = k
      · subst hk
        rw [Function.update_self] at hi
        rcases List.mem_cons.1 hi with rfl | hi
        · exact Or.inr ⟨rfl, rfl⟩
        · exact Or.inl hi
      · rw [Function.update_of_ne hk] at hi
        exact Or.inl hi
    refine ⟨fun k' => ?_, fun {k₁ k₂ i} h1 h2 => ?_, fun i hi => h.away i fun k' hm => hi k' ?_⟩
    · by_cases hk : k' = k
      · subst hk
        simp only [Function.update_self]
        exact List.nodup_cons.2 ⟨hj k', h.nodup k'⟩
      · simp only [Function.update_of_ne hk]
        exact h.nodup k'
    · rcases hmem h1 with g1 | ⟨e1, e1'⟩ <;> rcases hmem h2 with g2 | ⟨e2, e2'⟩
      · exact h.unique g1 g2
      · exact absurd (e2 ▸ g1) (hj k₁)
      · exact absurd (e1 ▸ g2) (hj k₂)
      · exact e1'.trans e2'.symm
    · by_cases hk : k' = k
      · subst hk
        simp only [Function.update_self]
        exact List.mem_cons_of_mem _ hm
      · simp only [Function.update_of_ne hk]
        exact hm
  | @iret k j rest hk hj =>
    have hmem : ∀ {k' i}, i ∈ Function.update m.stack k rest k' → i ∈ m.stack k' := by
      intro k' i hi
      by_cases hk' : k' = k
      · subst hk'
        rw [Function.update_self] at hi
        rw [hk]
        exact List.mem_cons_of_mem _ hi
      · rwa [Function.update_of_ne hk'] at hi
    refine ⟨fun k' => ?_, fun h1 h2 => h.unique (hmem h1) (hmem h2), fun i hi => ?_⟩
    · by_cases hk' : k' = k
      · subst hk'
        simp only [Function.update_self]
        have := h.nodup k'
        rw [hk] at this
        exact this.of_cons
      · simp only [Function.update_of_ne hk']
        exact h.nodup k'
    · by_cases hij : i = j
      · rw [hij]
        exact hj
      · refine h.away i fun k' hm => hi k' ?_
        by_cases hk' : k' = k
        · subst hk'
          rw [hk] at hm
          simp only [Function.update_self]
          exact (List.mem_cons.1 hm).resolve_left hij
        · simp only [Function.update_of_ne hk']
          exact hm

omit [DecidableEq κ] [DecidableEq ι] in
theorem Placed.start (a : α) (base : κ ↪ ι) : Placed (Processors.start a base : Processors κ ι α ρ) := by
  refine ⟨fun k => List.pairwise_singleton _ _, fun h1 h2 => ?_, fun _ _ => rfl⟩
  exact base.injective ((List.mem_singleton.1 h1).symm.trans (List.mem_singleton.1 h2))

/-- What the threads do is what they could do without processors. -/
theorem Reached.spec {weak : Bool} {a : α} {base : κ ↪ ι} {m : Processors κ ι α ρ} (h : Reached weak a base m) :
    Placed m ∧ Threads.Serial a m.threads := by
  induction h with
  | refl => exact ⟨Placed.start a base, Threads.Serial.start a⟩
  | tail _ hs ih =>
    refine ⟨ih.1.step hs, ?_⟩
    cases hs with
    | run _ ht => exact ih.2.step ht
    | interrupt | iret => exact ih.2

/-- The holder `h` waits for a thread that waits for the lock. -/
structure Stuck (h : ι) (c : Critical α ρ) (m : Processors κ ι α ρ) : Prop where
  inside : m.threads.phase h = .inside c
  behind : ∃ k j d above below, m.stack k = above ++ j :: below ∧ h ∈ below ∧ m.threads.phase j = .spinning d

/-- Such a holder is not running, so the lock stays as it is. -/
theorem Stuck.step {weak : Bool} {a : α} {h : ι} {c : Critical α ρ} {m m' : Processors κ ι α ρ} (hst : Stuck h c m)
    (hp : Placed m) (hser : Threads.Serial a m.threads) (hs : Step weak m m') :
    Stuck h c m' ∧ m'.threads.mutex = m.threads.mutex ∧ m'.threads.entered = m.threads.entered := by
  obtain ⟨k, j, d, above, below, hk, hbelow, hj⟩ := hst.behind
  have hin := hst.inside
  obtain ⟨hl, hu, -⟩ := hser.of_inside hin
  have hhk : h ∈ m.stack k := by
    rw [hk]
    exact List.mem_append_right _ (List.mem_cons_of_mem _ hbelow)
  cases hs with
  | @run k' i rest t hk' ht =>
    -- the thread that runs is not the holder, for the holder is not the first one of its processor
    have hne : i ≠ h := by
      rintro rfl
      have hkk : k' = k := hp.unique (by rw [hk']; exact List.mem_cons_self) hhk
      subst hkk
      have hnd := hp.nodup k'
      cases above with
      | nil =>
        rw [hk, List.nil_append] at hk' hnd
        obtain ⟨rfl, rfl⟩ := List.cons.inj hk'
        exact (List.nodup_cons.1 hnd).1 hbelow
      | cons b above =>
        rw [hk, List.cons_append] at hk' hnd
        obtain ⟨rfl, -⟩ := List.cons.inj hk'
        exact (List.nodup_cons.1 hnd).1 (List.mem_append_right _ (List.mem_cons_of_mem _ hbelow))
    have hinside : ∀ c', m.threads.phase i ≠ .inside c' := fun c' hc => hne (hu i ⟨c', hc⟩)
    have hwait : t.mutex = m.threads.mutex ∧ t.entered = m.threads.entered ∧
        (m.threads.phase i = .outside ∨ t = m.threads) := by
      cases ht with
      | call c' ho => exact ⟨rfl, rfl, Or.inl ho⟩
      | spin _ _ => exact ⟨rfl, rfl, Or.inr rfl⟩
      | enter _ hm =>
        rw [(SpinMutex.compareExchange_eq_some.1 hm).1] at hl
        cases hl
      | access hi => exact absurd hi (hinside _)
      | forever hi => exact absurd hi (hinside _)
      | leave hi => exact absurd hi (hinside _)
    obtain ⟨hmu, hen, hout⟩ := hwait
    refine ⟨⟨?_, k, j, d, above, below, hk, hbelow, ?_⟩, hmu, hen⟩
    · rw [phase_of_ne ht hne.symm]
      exact hin
    · rcases hout with ho | rfl
      · rw [phase_of_ne ht, hj]
        rintro rfl
        rw [ho] at hj
        cases hj
      · exact hj
  | @interrupt k' j' hj' =>
    refine ⟨⟨hin, k, j, d, if k' = k then j' :: above else above, below, ?_, hbelow, hj⟩, rfl, rfl⟩
    by_cases hkk : k' = k
    · subst hkk
      simp only [Function.update_self, if_true, hk, List.cons_append]
    · simp only [Function.update_of_ne (Ne.symm hkk), if_neg hkk, hk]
  | @iret k' j' rest hk' hj' =>
    by_cases hkk : k' = k
    · subst hkk
      rw [hk] at hk'
      cases above with
      | nil =>
        obtain ⟨rfl, -⟩ := List.cons.inj hk'
        rw [hj] at hj'
        cases hj'
      | cons b above =>
        obtain ⟨-, rfl⟩ := List.cons.inj hk'
        exact ⟨⟨hin, k', j, d, above, below, Function.update_self _ _ _, hbelow, hj⟩, rfl, rfl⟩
    · refine ⟨⟨hin, k, j, d, above, below, ?_, hbelow, hj⟩, rfl, rfl⟩
      simp only [Function.update_of_ne (Ne.symm hkk), hk]

theorem Stuck.steps {weak : Bool} {a : α} {h : ι} {c : Critical α ρ} {m m' : Processors κ ι α ρ} (hst : Stuck h c m)
    (hp : Placed m) (hser : Threads.Serial a m.threads) (hs : Relation.ReflTransGen (Step weak) m m') :
    Stuck h c m' ∧ m'.threads.mutex = m.threads.mutex ∧ m'.threads.entered = m.threads.entered := by
  suffices hall : (Stuck h c m' ∧ m'.threads.mutex = m.threads.mutex ∧ m'.threads.entered = m.threads.entered) ∧
      Placed m' ∧ Threads.Serial a m'.threads from hall.1
  induction hs with
  | refl => exact ⟨⟨hst, rfl, rfl⟩, hp, hser⟩
  | tail _ hs ih =>
    obtain ⟨⟨ih1, ih2, ih3⟩, ihp, ihs⟩ := ih
    obtain ⟨h1, h2, h3⟩ := ih1.step ihp ihs hs
    refine ⟨⟨h1, h2.trans ih2, h3.trans ih3⟩, ihp.step hs, ?_⟩
    cases hs with
    | run _ ht => exact ihs.step ht
    | interrupt | iret => exact ihs

/-- A running holder gets to the end of its section. -/
theorem finish {weak : Bool} {h : ι} {k : κ} {below : List ι} {c : Critical α ρ} {m : Processors κ ι α ρ}
    (hk : m.stack k = h :: below) (hin : m.threads.phase h = .inside c) (hc : c.run m.threads.mutex.data ≠ none) :
    ∃ m', Relation.ReflTransGen (Step weak) m m' ∧ m'.threads.mutex.locked = false := by
  induction c generalizing m with
  | done r => exact ⟨_, .single (.run hk (.leave hin)), rfl⟩
  | access f next ih =>
    have hstep : Threads.Step weak h m.threads _ := .access hin
    generalize ht : ({ m.threads.setPhase h (.inside (next m.threads.mutex.data)) with
      mutex := m.threads.mutex.derefMut f } : Threads ι α ρ) = t at hstep
    have hin' : t.phase h = .inside (next m.threads.mutex.data) := by
      rw [← ht]
      exact Function.update_self h _ _
    have hc' : (next m.threads.mutex.data).run t.mutex.data ≠ none := by
      rw [← ht]
      exact hc
    obtain ⟨m', hm, hfree⟩ := ih m.threads.mutex.data (m := { m with threads := t }) hk hin' hc'
    exact ⟨m', .head (.run hk hstep) hm, hfree⟩
  | forever => exact absurd rfl hc

/-- Handlers that are outside return. -/
theorem returns {weak : Bool} {k : κ} {above below : List ι} {m : Processors κ ι α ρ}
    (hk : m.stack k = above ++ below) (hout : ∀ j ∈ above, m.threads.phase j = .outside) :
    Relation.ReflTransGen (Step weak) m { m with stack := Function.update m.stack k below } := by
  induction above generalizing m with
  | nil =>
    have e : Function.update m.stack k below = m.stack := by
      rw [List.nil_append] at hk
      rw [← hk, Function.update_eq_self]
    rw [e]
  | cons j above ih =>
    have hstep : Step weak m _ := .iret hk (hout j List.mem_cons_self)
    have hrest := ih (m := { m with stack := Function.update m.stack k (above ++ below) })
      (Function.update_self k _ _) (fun i hi => hout i (List.mem_cons_of_mem _ hi))
    rw [show Function.update (Function.update m.stack k (above ++ below)) k below =
      Function.update m.stack k below from Function.update_idem _ _ _] at hrest
    exact .head hstep hrest

end Processors

open Processors in
/-- A thread that holds the lock is somewhere on one processor, and if its section comes to an end, the lock can be
free again if and only if none of the handlers that have interrupted the thread waits for the lock.  If one does,
nobody takes the lock any more. -/
theorem lock_freed_iff {κ ι α ρ : Type} [DecidableEq κ] [DecidableEq ι] {weak : Bool} {a : α} {base : κ ↪ ι}
    {m : Processors κ ι α ρ} (h : Reached weak a base m) {i : ι} {c : Critical α ρ}
    (hi : m.threads.phase i = .inside c) :
    ∃ k above below, m.stack k = above ++ i :: below ∧
      (c.run m.threads.mutex.data ≠ none →
        ((∃ m', Relation.ReflTransGen (Step weak) m m' ∧ m'.threads.mutex.locked = false) ↔
          ∀ j ∈ above, m.threads.phase j = .outside)) ∧
      ((∃ j ∈ above, m.threads.phase j ≠ .outside) →
        ∀ m', Relation.ReflTransGen (Step weak) m m' →
          m'.threads.mutex = m.threads.mutex ∧ m'.threads.entered = m.threads.entered) := by
  obtain ⟨hp, hser⟩ := h.spec
  obtain ⟨hl, hu, -⟩ := hser.of_inside hi
  obtain ⟨k, hk⟩ : ∃ k, i ∈ m.stack k := by
    by_contra hno
    have := hp.away i fun k hk => hno ⟨k, hk⟩
    rw [hi] at this
    cases this
  obtain ⟨above, below, hstack⟩ := List.append_of_mem hk
  have hstuck : (∃ j ∈ above, m.threads.phase j ≠ .outside) → Stuck i c m := by
    rintro ⟨j, hj, hphase⟩
    have hne : j ≠ i := by
      rintro rfl
      have hnd := hp.nodup k
      rw [hstack, List.nodup_append] at hnd
      exact hnd.2.2 j hj j List.mem_cons_self rfl
    obtain ⟨l, r, hlr⟩ := List.append_of_mem hj
    refine ⟨hi, k, j, ?_⟩
    cases hpj : m.threads.phase j with
    | outside => exact absurd hpj hphase
    | spinning d =>
      refine ⟨d, l, r ++ i :: below, ?_, by simp, rfl⟩
      rw [hstack, hlr, List.append_assoc, List.cons_append]
    | inside d => exact absurd (hu j ⟨d, hpj⟩) hne
  refine ⟨k, above, below, hstack, fun hc => ⟨?_, fun hout => ?_⟩, fun hex m' hm => ?_⟩
  · rintro ⟨m', hm, hfree⟩ j hj
    by_contra hphase
    obtain ⟨-, hmu, -⟩ := (hstuck ⟨j, hj, hphase⟩).steps hp hser hm
    rw [hmu, hl] at hfree
    cases hfree
  · have hret := @returns _ _ _ _ _ _ weak _ _ _ _ hstack hout
    obtain ⟨m', hm, hfree⟩ := @finish _ _ _ _ _ _ weak _ _ below _
      { m with stack := Function.update m.stack k (i :: below) } (Function.update_self k _ _) hi hc
    exact ⟨m', hret.trans hm, hfree⟩
  · obtain ⟨-, hmu, hen⟩ := (hstuck hex).steps hp hser hm
    exact ⟨hmu, hen⟩

/-- On one processor a handler takes the lock that the thread holds which it has interrupted. -/
theorem lock_freed_iff_handler : ∃ m : Processors Unit Bool Nat Unit,
    Processors.Reached false 5 ⟨fun _ => false, fun _ _ _ => rfl⟩ m ∧ m.threads.phase true = .spinning (.done ()) ∧
      ∀ m', Relation.ReflTransGen (Processors.Step false) m m' → m'.threads.mutex.locked = true := by
  have h₀ : Processors.Reached false 5 ⟨fun _ => false, fun _ _ _ => rfl⟩
    (Processors.start 5 ⟨fun _ => false, fun _ _ _ => rfl⟩ : Processors Unit Bool Nat Unit) := .refl
  have h₁ := h₀.tail (.run (k := ()) rfl (.call (.done ()) rfl))
  have h₂ := h₁.tail (.run (k := ()) rfl (.enter (c := .done ()) rfl rfl))
  have h₃ := h₂.tail (.interrupt () (j := true) fun _ => List.not_mem_cons_of_ne_of_not_mem (by simp) (by simp))
  have h₄ := h₃.tail (.run (k := ()) rfl (.call (.done ()) rfl))
  refine ⟨_, h₄, rfl, fun m' hm => ?_⟩
  obtain ⟨⟨⟩, above, below, hstack, -, hstuck⟩ := lock_freed_iff h₄ (i := false) (c := .done ()) rfl
  have habove : true ∈ above := by
    have hs : [true, false] = above ++ false :: below := hstack
    cases above with
    | nil => simp at hs
    | cons j above =>
      obtain ⟨rfl, -⟩ := List.cons.inj hs
      exact List.mem_cons_self
  rw [(hstuck ⟨true, habove, by simp [Threads.setPhase]⟩ m' hm).1]
  rfl

end Hammam
