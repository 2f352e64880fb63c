import Mathlib.Data.List.Basic

/-!
# Computations with a state and errors

A computation that fails keeps the state it has reached: `ExceptT ε (StateM σ)`.  `Spec x s Q R` says that `x`,
started in `s`, returns a value with `Q` or fails with `R`, each of them about the result and the last state.
`Follows x y s t R` compares two runs: if `x` returns from `s`, then `y` returns the same value from `t`.  The rules
follow the way in which computations are put together.
-/

namespace Fallible

variable {σ ε ε' α β : Type}

/-- The result of a computation and its last state. -/
def exec (x : ExceptT ε (StateM σ) α) (s : σ) : Except ε α × σ := StateT.run (ExceptT.run x) s

/-- What holds after a computation that returns, and after one that fails. -/
def Spec (x : ExceptT ε (StateM σ) α) (s : σ) (Q : α → σ → Prop) (R : ε → σ → Prop) : Prop :=
  match exec x s with
  | (.ok a, s') => Q a s'
  | (.error e, s') => R e s'

/-- The computation `x` with another type of errors (`map_err`). -/
def mapErr (f : ε → ε') (x : ExceptT ε (StateM σ) α) : ExceptT ε' (StateM σ) α :=
  ExceptT.mk fun s =>
    match exec x s with
    | (.ok a, s') => (.ok a, s')
    | (.error e, s') => (.error (f e), s')

variable {x : ExceptT ε (StateM σ) α} {f : α → ExceptT ε (StateM σ) β} {s s' : σ}

@[simp] theorem exec_pure (a : α) : exec (pure a : ExceptT ε (StateM σ) α) s = (.ok a, s) := rfl

@[simp] theorem exec_throw (e : ε) : exec (throw e : ExceptT ε (StateM σ) α) s = (.error e, s) := rfl

@[simp] theorem exec_get : exec (get : ExceptT ε (StateM σ) σ) s = (.ok s, s) := rfl

@[simp] theorem exec_set : exec (set s' : ExceptT ε (StateM σ) PUnit) s = (.ok ⟨⟩, s') := rfl

@[simp] theorem exec_modify (g : σ → σ) : exec (modify g : ExceptT ε (StateM σ) PUnit) s = (.ok ⟨⟩, g s) := rfl

theorem exec_bind : exec (x >>= f) s =
    match exec x s with
    | (.ok a, s') => exec (f a) s'
    | (.error e, s') => (.error e, s') := by
  show StateT.run (StateT.bind (ExceptT.run x) (ExceptT.bindCont f)) s = _
  rw [StateT.run, StateT.bind]
  show (match exec x s with | (a, s') => ExceptT.bindCont f a s') = _
  cases h : exec x s with
  | mk r s' => cases r <;> rfl

variable {Q Q' : α → σ → Prop} {R R' : ε → σ → Prop}

theorem Spec.of_ok {a : α} (h : exec x s = (.ok a, s')) (hx : Spec x s Q R) : Q a s' := by
  rw [Spec, h] at hx
  exact hx

theorem Spec.of_error {e : ε} (h : exec x s = (.error e, s')) (hx : Spec x s Q R) : R e s' := by
  rw [Spec, h] at hx
  exact hx

theorem Spec.intro (hok : ∀ a s', exec x s = (.ok a, s') → Q a s')
    (herr : ∀ e s', exec x s = (.error e, s') → R e s') : Spec x s Q R := by
  unfold Spec
  split <;> rename_i h
  · exact hok _ _ h
  · exact herr _ _ h

/-- What holds in both cases holds of the last state. -/
theorem Spec.last {P : σ → Prop} (hx : Spec x s (fun _ => P) fun _ => P) : P (exec x s).2 := by
  cases h : exec x s with
  | mk r s' =>
    cases r with
    | ok a => exact Spec.of_ok (Q := fun _ => P) h hx
    | error e => exact Spec.of_error (R := fun _ => P) h hx

theorem Spec.mono (hx : Spec x s Q R) (hq : ∀ a s', Q a s' → Q' a s') (hr : ∀ e s', R e s' → R' e s') :
    Spec x s Q' R' := by
  refine Spec.intro (fun a s' h => hq a s' ?_) fun e s' h => hr e s' ?_
  · exact hx.of_ok h
  · exact hx.of_error h

theorem Spec.pure {a : α} (h : Q a s) : Spec (Pure.pure a : ExceptT ε (StateM σ) α) s Q R := h

theorem Spec.throw {e : ε} (h : R e s) : Spec (MonadExcept.throw e : ExceptT ε (StateM σ) α) s Q R := h

theorem Spec.get {Q : σ → σ → Prop} (h : Q s s) : Spec (MonadState.get : ExceptT ε (StateM σ) σ) s Q R := h

theorem Spec.modify {g : σ → σ} {Q : PUnit → σ → Prop} (h : Q ⟨⟩ (g s)) :
    Spec (modify g : ExceptT ε (StateM σ) PUnit) s Q R := h

/-- The rule of sequence. -/
theorem Spec.bind {Q : β → σ → Prop} (hx : Spec x s (fun a s' => Spec (f a) s' Q R) R) : Spec (x >>= f) s Q R := by
  unfold Spec
  rw [exec_bind]
  split <;> rename_i h
  · revert h
    split <;> rename_i h'
    · intro h
      exact (hx.of_ok h').of_ok h
    · intro h
      cases h
  · revert h
    split <;> rename_i h'
    · intro h
      exact (hx.of_ok h').of_error h
    · intro h
      cases h
      exact hx.of_error h'

theorem Spec.mapErr {g : ε → ε'} {R : ε' → σ → Prop} (hx : Spec x s Q fun e => R (g e)) :
    Spec (mapErr g x) s Q R := by
  have e : exec (Fallible.mapErr g x) s = match exec x s with
      | (Except.ok a, s') => (Except.ok a, s')
      | (Except.error e, s') => (Except.error (g e), s') := rfl
  unfold Spec
  rw [e]
  cases h : exec x s with
  | mk r s' =>
    cases r with
    | ok a => exact Spec.of_ok (Q := Q) h hx
    | error e => exact Spec.of_error (R := fun e => R (g e)) h hx

/-- The rule of loops over a list: an invariant that may depend on what has been visited. -/
theorem Spec.forM {g : α → ExceptT ε (StateM σ) PUnit} {I : List α → σ → Prop} (l : List α)
    (hstep : ∀ p a q s, l = p ++ a :: q → I p s → Spec (g a) s (fun _ => I (p ++ [a])) R) (hs : I [] s) :
    Spec (l.forM g) s (fun _ => I l) R := by
  have main : ∀ (q p : List α) (s : σ), l = p ++ q → I p s → Spec (q.forM g) s (fun _ => I l) R := by
    intro q
    induction q with
    | nil =>
      intro p s hl hp
      rw [List.append_nil] at hl
      exact Spec.pure (hl ▸ hp)
    | cons a q ih =>
      intro p s hl hp
      refine Spec.bind ((hstep p a q s hl hp).mono (fun _ s' hi => ?_) fun _ _ hr => hr)
      exact ih (p ++ [a]) s' (by rw [hl, List.append_assoc, List.singleton_append]) hi
  exact main l [] s rfl hs

/-! ### Two runs -/

/-- If `x` returns from `s`, then `y` returns the same value from `t`, and the last states are related. -/
def Follows (x y : ExceptT ε (StateM σ) α) (s t : σ) (R : α → σ → σ → Prop) : Prop :=
  ∀ a s', exec x s = (.ok a, s') → ∃ t', exec y t = (.ok a, t') ∧ R a s' t'

variable {y : ExceptT ε (StateM σ) α} {g : α → ExceptT ε (StateM σ) β} {t : σ} {R R' : α → σ → σ → Prop}

theorem Follows.mono (h : Follows x y s t R) (hr : ∀ a s' t', R a s' t' → R' a s' t') : Follows x y s t R' := by
  intro a s' hx
  obtain ⟨t', hy, h⟩ := h a s' hx
  exact ⟨t', hy, hr a s' t' h⟩

theorem Follows.pure {a : α} (h : R a s t) :
    Follows (Pure.pure a : ExceptT ε (StateM σ) α) (Pure.pure a) s t R := by
  intro b s' hx
  cases hx
  exact ⟨t, rfl, h⟩

theorem Follows.throw {e : ε} : Follows (MonadExcept.throw e : ExceptT ε (StateM σ) α) y s t R := by
  intro b s' hx
  cases hx

theorem Follows.modify {g g' : σ → σ} {R : PUnit → σ → σ → Prop} (h : R ⟨⟩ (g s) (g' t)) :
    Follows (modify g : ExceptT ε (StateM σ) PUnit) (modify g') s t R := by
  intro b s' hx
  cases hx
  exact ⟨g' t, rfl, h⟩

theorem Follows.bind {R : β → σ → σ → Prop}
    (h : Follows x y s t fun a s' t' => Follows (f a) (g a) s' t' R) : Follows (x >>= f) (y >>= g) s t R := by
  intro b s'' hx
  rw [exec_bind] at hx
  split at hx
  · rename_i a s' hx'
    obtain ⟨t', hy, h'⟩ := h a s' hx'
    obtain ⟨t'', hg, hr⟩ := h' b s'' hx
    refine ⟨t'', ?_, hr⟩
    rw [exec_bind, hy]
    exact hg
  · cases hx

theorem Follows.get_bind {k k' : σ → ExceptT ε (StateM σ) α} (h : Follows (k s) (k' t) s t R) :
    Follows (MonadState.get >>= k) (MonadState.get >>= k') s t R := h

theorem exec_mapErr_ok {f : ε → ε'} {a : α} : exec (mapErr f x) s = (.ok a, s') ↔ exec x s = (.ok a, s') := by
  have e : exec (mapErr f x) s = match exec x s with
      | (Except.ok a, s') => (Except.ok a, s')
      | (Except.error e, s') => (Except.error (f e), s') := rfl
  rw [e]
  cases h : exec x s with
  | mk r s' => cases r <;> simp

theorem Follows.mapErr {f : ε → ε'} (h : Follows x y s t R) : Follows (mapErr f x) (mapErr f y) s t R := by
  intro a s' hx
  obtain ⟨t', hy, hr⟩ := h a s' (exec_mapErr_ok.1 hx)
  exact ⟨t', exec_mapErr_ok.2 hy, hr⟩

/-- What is known of the first run alone. -/
theorem Follows.and_left {Q : α → σ → Prop} {E : ε → σ → Prop} (h : Follows x y s t R) (hx : Spec x s Q E) :
    Follows x y s t fun a s' t' => R a s' t' ∧ Q a s' := by
  intro a s' he
  obtain ⟨t', hy, hr⟩ := h a s' he
  exact ⟨t', hy, hr, hx.of_ok he⟩

/-- What is known of each run alone. -/
theorem Follows.and_spec {Q₁ Q₂ : α → σ → Prop} {R₁ R₂ : ε → σ → Prop} (h : Follows x y s t R) (h₁ : Spec x s Q₁ R₁)
    (h₂ : Spec y t Q₂ R₂) : Follows x y s t fun a s' t' => R a s' t' ∧ Q₁ a s' ∧ Q₂ a t' := by
  intro a s' hx
  obtain ⟨t', hy, hr⟩ := h a s' hx
  exact ⟨t', hy, hr, h₁.of_ok hx, h₂.of_ok hy⟩

/-- If one condition decides whether either run returns, and both return the value `c`. -/
theorem Follows.of_spec {c : α} {C : Prop} {Q R : σ → Prop} {E : ε → σ → Prop}
    (hx : Spec x s (fun a s' => a = c ∧ Q s' ∧ C) E) (hy : Spec y t (fun a t' => a = c ∧ R t') fun _ _ => ¬ C) :
    Follows x y s t fun a s' t' => a = c ∧ Q s' ∧ R t' := by
  intro a s' he
  obtain ⟨rfl, hq, hc⟩ := hx.of_ok he
  cases he' : exec y t with
  | mk r t' =>
    cases r with
    | ok b =>
      obtain ⟨rfl, hr⟩ := hy.of_ok he'
      exact ⟨t', rfl, rfl, hq, hr⟩
    | error e => exact absurd hc (hy.of_error he')

/-- The rule of loops for two runs. -/
theorem Follows.forM {g g' : α → ExceptT ε (StateM σ) PUnit} {I : List α → σ → σ → Prop} (l : List α)
    (hstep : ∀ p a q s t, l = p ++ a :: q → I p s t → Follows (g a) (g' a) s t fun _ => I (p ++ [a]))
    (hs : I [] s t) :
    Follows (l.forM g) (l.forM g') s t fun _ => I l := by
  have main : ∀ (q p : List α) (s t : σ), l = p ++ q → I p s t → Follows (q.forM g) (q.forM g') s t fun _ => I l := by
    intro q
    induction q with
    | nil =>
      intro p s t hl hp
      rw [List.append_nil] at hl
      exact Follows.pure (hl ▸ hp)
    | cons a q ih =>
      intro p s t hl hp
      refine Follows.bind ((hstep p a q s t hl hp).mono fun _ s' t' hi => ?_)
      exact ih (p ++ [a]) s' t' (by rw [hl, List.append_assoc, List.singleton_append]) hi
  exact main l [] s t rfl hs

end Fallible
