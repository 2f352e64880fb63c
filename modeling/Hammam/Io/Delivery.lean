import Hammam.Io.ProcessSq

/-!
# Delivery of completions (`io/uring.rs`)

The loop of `process_sq` one round at a time, so that the consumer may take completions out between two rounds and
submissions may arrive.  A round takes a submission out before it looks at the completion ring.  Its completion is
lost if that ring is full or the slot lies outside the slice, and nothing is lost exactly if no round finds it so.
-/

namespace Hammam

structure IoUring where
  sqHeader : RingHeader
  sqEntries : List SqEntry
  cqHeader : RingHeader
  cqEntries : List CqEntry
  deriving DecidableEq

namespace IoUring

/-- The submission that the next round takes out, if its slot is inside the slice. -/
def next (u : IoUring) : Option SqEntry := u.sqEntries[u.sqHeader.pop.2.index u.sqHeader.pop.1]?

/-- One round of the loop of `process_sq` over a submission ring that is not empty. -/
def round (u : IoUring) : IoUring :=
  match u.next with
  | none => { u with sqHeader := u.sqHeader.pop.2 }
  | some sqe =>
    let posted := postCompletion u.cqHeader u.cqEntries sqe
    { u with sqHeader := u.sqHeader.pop.2, cqHeader := posted.1, cqEntries := posted.2 }

/-- A whole call of `process_sq`. -/
def processSq (u : IoUring) : IoUring :=
  let out := Hammam.processSq u.sqHeader u.sqEntries u.cqHeader u.cqEntries
  { u with sqHeader := out.1, cqHeader := out.2.1, cqEntries := out.2.2 }

/-- The producer writes a submission. -/
def submit (u : IoUring) (sqe : SqEntry) : IoUring :=
  { u with
    sqHeader := u.sqHeader.push.2
    sqEntries := u.sqEntries.set (u.sqHeader.push.2.index u.sqHeader.push.1) sqe }

/-- The completion that the consumer takes out, if its slot is inside the slice. -/
def front (u : IoUring) : Option CqEntry := u.cqEntries[u.cqHeader.pop.2.index u.cqHeader.pop.1]?

/-- The consumer takes a completion out. -/
def reap (u : IoUring) : IoUring := { u with cqHeader := u.cqHeader.pop.2 }

/-- The completions that wait for the consumer. -/
def pending (u : IoUring) : List CqEntry := u.cqHeader.contents u.cqEntries

/-- The next round finds a submission, and room and a slot for its completion. -/
def Fits (u : IoUring) : Prop :=
  u.sqHeader.pop.2.index u.sqHeader.pop.1 < u.sqEntries.length ∧ u.cqHeader.isFull = false ∧
    u.cqHeader.push.2.index u.cqHeader.push.1 < u.cqEntries.length

instance (u : IoUring) : Decidable u.Fits := inferInstanceAs (Decidable (_ ∧ _ ∧ _))

/-- What a round that starts in `u` adds to the completions. -/
def delivers (u : IoUring) : List CqEntry := if u.Fits then u.next.toList.map completion else []

end IoUring

/-- The interleavings of the rounds of `process_sq` with a consumer and a producer, from `start` on, with the
completions taken out so far and the states in which a round has taken a submission out. -/
inductive UringRun (start : IoUring) : IoUring → List CqEntry → List IoUring → Prop
  | start : UringRun start start [] []
  | round {u reaped rounds} : UringRun start u reaped rounds → u.sqHeader.isEmpty = false →
      UringRun start u.round reaped (rounds ++ [u])
  | reap {u reaped rounds} : UringRun start u reaped rounds → u.cqHeader.isEmpty = false →
      UringRun start u.reap (reaped ++ u.front.toList) rounds
  | submit {u reaped rounds} (sqe : SqEntry) : UringRun start u reaped rounds → u.sqHeader.isFull = false →
      UringRun start (u.submit sqe) reaped rounds

/-- What has been taken out of the submission ring has, in this order, its completions behind those of the start, some
of them taken out already and the others waiting. -/
def Delivered (start u : IoUring) (reaped : List CqEntry) (rounds : List IoUring) : Prop :=
  ∃ sqes : List SqEntry, rounds.map IoUring.next = sqes.map some ∧
    reaped ++ u.pending = start.pending ++ sqes.map completion

section Steps

variable {u : IoUring} {c d : Nat}

theorem IoUring.next_of_fits (h : u.Fits) : ∃ sqe, u.next = some sqe :=
  ⟨_, List.getElem?_eq_getElem h.1⟩

theorem IoUring.counts_round (h : u.cqHeader.Counts c d) : ∃ d', u.round.cqHeader.Counts c d' := by
  unfold round
  split
  · exact ⟨d, h⟩
  · simp only [postCompletion]
    split
    · exact ⟨d, h⟩
    · rename_i hfull
      have hroom := h.room
      exact ⟨d + 1, h.push (by rw [h.isFull] at hfull; omega)⟩

/-- A round that fits appends the completion of what it takes out; any other one leaves the completions as they are.
-/
theorem IoUring.pending_round (h : u.cqHeader.Counts c d) :
    u.round.pending = u.pending ++ u.delivers := by
  unfold round delivers
  split
  · rename_i hnone
    rw [if_neg fun hf => ?_, List.append_nil]
    · rfl
    · obtain ⟨sqe, he⟩ := next_of_fits hf
      exact absurd (hnone.symm.trans he) (by simp)
  · rename_i sqe hsome
    have hsq : u.sqHeader.pop.2.index u.sqHeader.pop.1 < u.sqEntries.length := (List.getElem?_eq_some_iff.1 hsome).1
    have hle := h.room
    simp only [postCompletion, pending]
    split
    · rename_i hfull
      rw [if_neg fun hf => absurd (hf.2.1.symm.trans hfull) Bool.false_ne_true, List.append_nil]
    · rename_i hfull
      have hroom : d < c + u.cqHeader.entries.toNat := by
        rw [h.isFull] at hfull
        omega
      rcases Nat.lt_or_ge (u.cqHeader.push.2.index u.cqHeader.push.1) u.cqEntries.length with hlt | hge
      · rw [if_pos ⟨hsq, Bool.not_eq_true _ ▸ hfull, hlt⟩, hsome]
        exact h.contents_push_of_lt hroom hlt _
      · rw [if_neg fun hf => absurd hf.2.2 (Nat.not_lt.2 hge), List.append_nil]
        show u.cqHeader.push.2.contents (u.cqEntries.set _ _) = _
        rw [List.set_eq_of_length_le hge]
        exact h.contents_push_of_le hroom hge

theorem IoUring.pending_reap (h : u.cqHeader.Counts c d) (hne : u.cqHeader.isEmpty = false) :
    u.pending = u.front.toList ++ u.reap.pending ∧ u.reap.cqHeader.Counts (c + 1) d := by
  have hlt : c < d := by
    rw [← Bool.not_eq_true, h.isEmpty] at hne
    exact Nat.lt_of_le_of_ne h.le hne
  exact ⟨h.contents_eq_pop hlt _, h.pop hlt⟩

end Steps

/-! ### Runs -/

section Runs

variable {start u : IoUring} {reaped : List CqEntry} {rounds : List IoUring}

/-- The completions of the start and of the rounds so far, in order, are those taken out and those that wait. -/
theorem UringRun.balance (h : UringRun start u reaped rounds) (hs : start.cqHeader.Sized)
    (hlen : start.cqHeader.len ≤ start.cqHeader.entries) :
    (∃ c d, u.cqHeader.Counts c d) ∧ reaped ++ u.pending = start.pending ++ rounds.flatMap IoUring.delivers := by
  induction h with
  | start => exact ⟨⟨_, _, RingHeader.counts_of_len_le hs hlen⟩, (List.append_nil _).symm⟩
  | round _ _ ih =>
    obtain ⟨⟨c, d, hc⟩, hb⟩ := ih
    refine ⟨⟨c, IoUring.counts_round hc⟩, ?_⟩
    rw [IoUring.pending_round hc, ← List.append_assoc, hb, List.append_assoc, List.flatMap_append,
      List.flatMap_singleton]
  | reap _ hne ih =>
    obtain ⟨⟨c, d, hc⟩, hb⟩ := ih
    obtain ⟨hp, hc'⟩ := IoUring.pending_reap hc hne
    refine ⟨⟨_, _, hc'⟩, ?_⟩
    rw [← hb, hp, List.append_assoc]
  | submit _ _ _ ih => exact ih

theorem IoUring.delivers_of_fits (h : u.Fits) : ∃ sqe, u.next = some sqe ∧ u.delivers = [completion sqe] := by
  obtain ⟨sqe, he⟩ := IoUring.next_of_fits h
  refine ⟨sqe, he, ?_⟩
  rw [IoUring.delivers, if_pos h, he]
  rfl

theorem delivers_of_all_fit (h : ∀ v ∈ rounds, v.Fits) :
    ∃ sqes : List SqEntry, rounds.map IoUring.next = sqes.map some ∧
      rounds.flatMap IoUring.delivers = sqes.map completion := by
  induction rounds with
  | nil => exact ⟨[], rfl, rfl⟩
  | cons v rounds ih =>
    obtain ⟨sqes, hn, hd⟩ := ih fun w hw => h w (List.mem_cons_of_mem v hw)
    obtain ⟨sqe, hv, hdv⟩ := IoUring.delivers_of_fits (h v List.mem_cons_self)
    refine ⟨sqe :: sqes, ?_, ?_⟩
    · rw [List.map_cons, hv, hn, List.map_cons]
    · rw [List.flatMap_cons, hdv, hd, List.map_cons]
      rfl

/-- A round delivers one completion at most, so with one that does not fit there are too few. -/
theorem length_delivers_le (rounds : List IoUring) :
    (rounds.flatMap IoUring.delivers).length ≤ rounds.length ∧
      ((rounds.flatMap IoUring.delivers).length = rounds.length → ∀ v ∈ rounds, v.Fits) := by
  induction rounds with
  | nil => exact ⟨Nat.le_refl 0, fun _ v hv => absurd hv List.not_mem_nil⟩
  | cons v rounds ih =>
    rw [List.flatMap_cons, List.length_append, List.length_cons]
    by_cases hf : v.Fits
    · obtain ⟨sqe, -, hd⟩ := IoUring.delivers_of_fits hf
      rw [hd, List.length_singleton]
      refine ⟨by omega, fun he => List.forall_mem_cons.2 ⟨hf, ih.2 (by omega)⟩⟩
    · have hd : v.delivers.length = 0 := by rw [IoUring.delivers, if_neg hf, List.length_nil]
      refine ⟨by omega, fun he => ?_⟩
      have := ih.1
      omega

theorem IoUring.processSq_of_empty (h : u.sqHeader.isEmpty = true) : u.processSq = u := by
  unfold IoUring.processSq Hammam.processSq
  simp only [h]
  rfl

theorem IoUring.processSq_of_next {sqe : SqEntry} (h : u.sqHeader.isEmpty = false) (hn : u.next = some sqe) :
    u.processSq = u.round.processSq := by
  have hget : u.sqEntries[u.sqHeader.pop.2.index u.sqHeader.pop.1]? = some sqe := hn
  conv_lhs => unfold IoUring.processSq Hammam.processSq
  simp only [h, hget, IoUring.round, hn]
  rfl

/-- A whole call is a run of rounds without a step of the other sides. -/
theorem UringRun.processSq (h : UringRun start u reaped rounds) :
    ∃ more, UringRun start u.processSq reaped (rounds ++ more) := by
  obtain ⟨sq, sqEntries, cq, cqEntries⟩ := u
  unfold IoUring.processSq
  -- on the recursion of the loop
  fun_induction Hammam.processSq sq sqEntries cq cqEntries generalizing rounds with
  | case1 sq cq cqEntries hempty => exact ⟨[], (List.append_nil rounds).symm ▸ h⟩
  | case2 sq cq cqEntries hempty hnone =>
    have hr := h.round (Bool.not_eq_true _ ▸ hempty)
    have he : (⟨sq, sqEntries, cq, cqEntries⟩ : IoUring).next = none := hnone
    simp only [IoUring.round, he] at hr
    exact ⟨_, hr⟩
  | case3 sq cq cqEntries hempty sqe hsome posted =>
    rename_i ih
    have hr := h.round (Bool.not_eq_true _ ▸ hempty)
    have he : (⟨sq, sqEntries, cq, cqEntries⟩ : IoUring).next = some sqe := hsome
    simp only [IoUring.round, he] at hr
    obtain ⟨more, hm⟩ := ih hr
    exact ⟨_, List.append_assoc rounds _ more ▸ hm⟩

end Runs

/-- In every interleaving of the rounds of `process_sq` with a consumer and a producer, from any state of the rings,
all completions are delivered exactly if every round found room for its completion; and a call of `process_sq` ends
in a state of such an interleaving. -/
theorem completions_delivered_iff {start u : IoUring} {reaped : List CqEntry} {rounds : List IoUring}
    (hs : start.cqHeader.Sized) (hlen : start.cqHeader.len ≤ start.cqHeader.entries)
    (h : UringRun start u reaped rounds) :
    (Delivered start u reaped rounds ↔ ∀ v ∈ rounds, v.Fits) ∧
      ∃ more, UringRun start u.processSq reaped (rounds ++ more) := by
  obtain ⟨-, hb⟩ := h.balance hs hlen
  refine ⟨⟨fun hd => ?_, fun hall => ?_⟩, h.processSq⟩
  · obtain ⟨sqes, hn, he⟩ := hd
    apply (length_delivers_le rounds).2
    have hl := congrArg List.length (List.append_cancel_left (hb.symm.trans he))
    have hl' := congrArg List.length hn
    rw [List.length_map] at hl
    rw [List.length_map, List.length_map] at hl'
    exact hl.trans hl'.symm
  · obtain ⟨sqes, hn, hd⟩ := delivers_of_all_fit hall
    exact ⟨sqes, hn, hd ▸ hb⟩

/-- The theorem at two submissions and a completion ring of one slot, with a reap between the two rounds. -/
theorem completions_delivered_reap :
    let start : IoUring := ⟨⟨0, 2, 1, 2⟩, [⟨opNop, 0, 1⟩, ⟨opNop, 0, 2⟩], ⟨0, 0, 0, 1⟩, [⟨0, 0, 0⟩]⟩
    ∃ u reaped rounds, UringRun start u reaped rounds ∧ reaped = [⟨1, 0, 0⟩] ∧ u.pending = [⟨2, 0, 0⟩] ∧
      Delivered start u reaped rounds := by
  intro start
  have r₁ : UringRun start _ _ _ := .round .start (by decide)
  have r₂ : UringRun start _ _ _ := .reap r₁ (by decide)
  have r₃ : UringRun start _ _ _ := .round r₂ (by decide)
  have h := completions_delivered_iff ⟨0, by decide, by decide, by decide⟩ (by decide) r₃
  exact ⟨_, _, _, r₃, by decide, by decide, h.1.2 (by decide)⟩

/-- One call with two submissions and a completion ring of one slot: both are taken out, and the completion of the
second one is nowhere. -/
theorem second_completion_lost :
    let start : IoUring := ⟨⟨0, 2, 1, 2⟩, [⟨opNop, 0, 1⟩, ⟨opNop, 0, 2⟩], ⟨0, 0, 0, 1⟩, [⟨0, 0, 0⟩]⟩
    ∃ rounds, UringRun start start.processSq [] rounds ∧
      rounds.map IoUring.next = [some ⟨opNop, 0, 1⟩, some ⟨opNop, 0, 2⟩] ∧ start.processSq.sqHeader.isEmpty = true ∧
      start.processSq.pending = [⟨1, 0, 0⟩] ∧ ¬ Delivered start start.processSq [] rounds := by
  intro start
  have hcall : start.processSq = start.round.round := by
    have h₁ : start.next = some ⟨opNop, 0, 1⟩ := by decide
    have h₂ : start.round.next = some ⟨opNop, 0, 2⟩ := by decide
    rw [IoUring.processSq_of_next (by decide) h₁, IoUring.processSq_of_next (by decide) h₂,
      IoUring.processSq_of_empty (by decide)]
  have r₁ : UringRun start _ [] _ := .round .start (by decide)
  have r₂ : UringRun start start.round.round [] _ := .round r₁ (by decide)
  rw [hcall]
  refine ⟨_, r₂, by decide, by decide, by decide, ?_⟩
  rintro ⟨sqes, hn, he⟩
  have hl := congrArg List.length he
  have hl' := congrArg List.length hn
  rw [List.length_append, List.length_append, List.length_map] at hl
  rw [List.length_map, List.length_map] at hl'
  rw [← hl'] at hl
  exact absurd hl (by decide)

end Hammam
