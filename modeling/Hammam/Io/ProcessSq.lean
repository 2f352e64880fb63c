import Hammam.Io.Ring

/-!
# What `process_sq` leaves in the completion ring

`contents` lists the pending entries of a ring in the order of their positions.  Each round of the loop takes the
first pending submission out and, while the completion ring has room, appends its completion.
-/

namespace Hammam

open WrapRing

namespace RingHeader

variable {α : Type} {r : RingHeader} {slots : List α} {a b : Nat}

/-- The entries from `head` to `tail`; a position whose slot is outside the slice has none. -/
def contents (r : RingHeader) (slots : List α) : List α :=
  (List.range r.len.toNat).filterMap fun i => slots[r.index (r.head + UInt32.ofNat i)]?

/-- The ring that is read has these counters. -/
theorem counts_of_len_le (hr : r.Sized) (hlen : r.len ≤ r.entries) :
    r.Counts r.head.toNat (r.head.toNat + r.len.toNat) where
  sized := hr
  head_eq := by simp
  tail_eq := by
    simp only [len, UInt32.ofNat_add, UInt32.ofNat_toNat]
    rw [UInt32.add_comm, UInt32.sub_add_cancel]
  le := Nat.le_add_right _ _
  room := Nat.add_le_add_left (UInt32.le_iff_toNat_le.1 hlen) _

theorem Counts.contents_eq (h : r.Counts a b) (slots : List α) :
    r.contents slots = (window (slots[·]?) r.entries.toNat a (b - a)).filterMap id := by
  rw [contents, window, List.filterMap_map, h.len]
  refine List.filterMap_congr fun i _ => ?_
  rw [h.head_eq, ← UInt32.ofNat_add, h.sized.index]
  rfl

theorem Counts.contents_nil (h : r.Counts a a) (slots : List α) : r.contents slots = [] := by
  rw [h.contents_eq, Nat.sub_self, window_zero, List.filterMap_nil]

theorem Counts.index_pop (h : r.Counts a b) (hne : a < b) : r.pop.2.index r.pop.1 = a % r.entries.toNat := by
  rw [show r.pop.1 = UInt32.ofNat a from h.head_eq]
  exact (h.pop hne).sized.index a

theorem Counts.index_push (h : r.Counts a b) (hroom : b < a + r.entries.toNat) :
    r.push.2.index r.push.1 = b % r.entries.toNat := by
  rw [show r.push.1 = UInt32.ofNat b from h.tail_eq]
  exact (h.push hroom).sized.index b

/-- `pop` takes the first entry out, if its slot has one. -/
theorem Counts.contents_eq_pop (h : r.Counts a b) (hne : a < b) (slots : List α) :
    r.contents slots = (slots[r.pop.2.index r.pop.1]?).toList ++ r.pop.2.contents slots := by
  have hn : b - a = b - (a + 1) + 1 := by omega
  rw [h.index_pop hne, h.contents_eq, hn, window_succ, (h.pop hne).contents_eq, List.filterMap_cons]
  cases slots[a % r.entries.toNat]? <;> rfl

theorem Counts.contents_pop (h : r.Counts a b) (hne : a < b) (hs : r.entries.toNat ≤ slots.length) :
    ∃ x, slots[r.pop.2.index r.pop.1]? = some x ∧ r.contents slots = x :: r.pop.2.contents slots := by
  have hlt : r.pop.2.index r.pop.1 < slots.length := by
    rw [h.index_pop hne]
    exact Nat.lt_of_lt_of_le (Nat.mod_lt _ h.sized.entries_pos) hs
  refine ⟨_, List.getElem?_eq_getElem hlt, ?_⟩
  rw [h.contents_eq_pop hne, List.getElem?_eq_getElem hlt]
  rfl

/-- With slices as long as the ring every pending position has an entry. -/
theorem Counts.length_contents (h : r.Counts a b) (hs : r.entries.toNat ≤ slots.length) :
    (r.contents slots).length = b - a := by
  induction hn : b - a generalizing r a with
  | zero =>
    obtain rfl : a = b := Nat.le_antisymm h.le (Nat.le_of_sub_eq_zero hn)
    rw [h.contents_nil, List.length_nil]
  | succ n ih =>
    have hne : a < b := by omega
    obtain ⟨x, -, hx⟩ := h.contents_pop hne hs
    rw [hx, List.length_cons, ih (h.pop hne) hs (by omega)]

/-- A position whose slot is inside the slice is appended with the entry written there. -/
theorem Counts.contents_push_of_lt (h : r.Counts a b) (hroom : b < a + r.entries.toNat)
    (hs : r.push.2.index r.push.1 < slots.length) (x : α) :
    r.push.2.contents (slots.set (r.push.2.index r.push.1) x) = r.contents slots ++ [x] := by
  rw [h.index_push hroom] at hs ⊢
  have hle := h.le
  have hb : a + (b - a) = b := by omega
  have hn : b + 1 - a = b - a + 1 := by omega
  have hw : window ((slots.set (b % r.entries.toNat) x)[·]?) r.entries.toNat a (b - a + 1) =
      window (slots[·]?) r.entries.toNat a (b - a) ++ [some x] := by
    refine window_write (by omega) ?_ ?_
    · rw [hb]
      exact List.getElem?_set_self hs
    · intro i hi
      rw [hb] at hi
      exact List.getElem?_set_ne (Ne.symm hi)
  rw [(h.push hroom).contents_eq, hn, h.contents_eq]
  show (window _ r.entries.toNat a (b - a + 1)).filterMap id = _
  rw [hw, List.filterMap_append]
  rfl

/-- A position whose slot is outside the slice gets no entry. -/
theorem Counts.contents_push_of_le (h : r.Counts a b) (hroom : b < a + r.entries.toNat)
    (hs : slots.length ≤ r.push.2.index r.push.1) : r.push.2.contents slots = r.contents slots := by
  rw [h.index_push hroom] at hs
  have hle := h.le
  have hn : b + 1 - a = b - a + 1 := by omega
  have hb : a + (b - a) = b := by omega
  rw [(h.push hroom).contents_eq, hn, h.contents_eq, window_snoc, List.filterMap_append, hb]
  show _ ++ [slots[b % r.entries.toNat]?].filterMap id = _
  rw [List.getElem?_eq_none hs]
  exact List.append_nil _

theorem Counts.contents_push (h : r.Counts a b) (hroom : b < a + r.entries.toNat)
    (hs : r.entries.toNat ≤ slots.length) (x : α) :
    r.push.2.contents (slots.set (r.push.2.index r.push.1) x) = r.contents slots ++ [x] := by
  refine h.contents_push_of_lt hroom ?_ x
  rw [h.index_push hroom]
  exact Nat.lt_of_lt_of_le (Nat.mod_lt _ h.sized.entries_pos) hs

end RingHeader

/-! ### The loop -/

/-- The completion of a submission. -/
def completion (sqe : SqEntry) : CqEntry := CqEntry.new sqe.userData (executeSqe sqe)

section loop

variable {sq cq : RingHeader} {sqEntries : List SqEntry} {cqEntries : List CqEntry} {a b c d : Nat}

private theorem postCompletion_room (hcq : cq.Counts c d) (hroom : d < c + cq.entries.toNat)
    (hce : cq.entries.toNat ≤ cqEntries.length) (sqe : SqEntry) :
    (postCompletion cq cqEntries sqe).1 = cq.push.2 ∧
      cq.push.2.contents (postCompletion cq cqEntries sqe).2 = cq.contents cqEntries ++ [completion sqe] ∧
      (postCompletion cq cqEntries sqe).2.length = cqEntries.length := by
  have hfull : ¬ cq.isFull = true := by
    rw [hcq.isFull]
    omega
  simp only [postCompletion, hfull]
  exact ⟨rfl, hcq.contents_push hroom hce _, List.length_set⟩

private theorem postCompletion_full (hcq : cq.Counts c d) (hroom : ¬ d < c + cq.entries.toNat) (sqe : SqEntry) :
    postCompletion cq cqEntries sqe = (cq, cqEntries) := by
  have hfull : cq.isFull = true := by
    rw [hcq.isFull]
    have := hcq.room
    omega
  simp only [postCompletion, hfull, if_true]

/-- What the loop returns, by induction on the number of pending submissions. -/
private theorem processSq_counts (hsq : sq.Counts a b) (hcq : cq.Counts c d)
    (hse : sq.entries.toNat ≤ sqEntries.length) (hce : cq.entries.toNat ≤ cqEntries.length) :
    let out := processSq sq sqEntries cq cqEntries
    let room := c + cq.entries.toNat - d
    out.1 = { sq with head := sq.tail } ∧
      out.2.1 = { cq with tail := cq.tail + UInt32.ofNat (min (b - a) room) } ∧
      out.2.2.length = cqEntries.length ∧
      out.2.1.contents out.2.2 =
        cq.contents cqEntries ++ ((sq.contents sqEntries).take room).map completion := by
  -- on the number of pending submissions; each iteration pops one and posts it if there is room
  induction hn : b - a generalizing sq cq cqEntries a d with
  | zero =>
    obtain rfl : a = b := Nat.le_antisymm hsq.le (Nat.le_of_sub_eq_zero hn)
    have hempty : sq.isEmpty = true := hsq.isEmpty.2 rfl
    have hsame : ({ sq with head := sq.tail } : RingHeader) = sq := by
      have heq : sq.tail = sq.head := hsq.tail_eq.trans hsq.head_eq.symm
      cases sq
      simp_all
    unfold processSq
    simp [hempty, hsq.contents_nil, hsame]
  | succ n ih =>
    have hne : a < b := by omega
    have hempty : ¬ sq.isEmpty = true := by
      rw [hsq.isEmpty]
      omega
    obtain ⟨sqe, hget, hcons⟩ := hsq.contents_pop hne hse
    have hunfold : processSq sq sqEntries cq cqEntries = processSq sq.pop.2 sqEntries
        (postCompletion cq cqEntries sqe).1 (postCompletion cq cqEntries sqe).2 := by
      conv_lhs => unfold processSq
      simp only [hempty, hget]
      rfl
    by_cases hroom : d < c + cq.entries.toNat
    · obtain ⟨hpost, hcont, hlen⟩ := postCompletion_room hcq hroom hce sqe
      have hr : c + cq.entries.toNat - d = c + cq.entries.toNat - (d + 1) + 1 := by omega
      obtain ⟨h1, h2, h3, h4⟩ := ih (hsq.pop hne) (hcq.push hroom) hse (hlen ▸ hce) (by omega)
      rw [hunfold, hpost]
      refine ⟨h1, ?_, h3.trans hlen, ?_⟩
      · have hmin : min (n + 1) (c + cq.entries.toNat - d) = 1 + min n (c + cq.entries.toNat - (d + 1)) := by omega
        rw [h2, hmin, UInt32.ofNat_add, ← UInt32.add_assoc]
        rfl
      · rw [h4, hcont, hcons, hr, List.take_succ_cons, List.map_cons, List.append_assoc]
        rfl
    · -- without room the completion is lost, and no later one finds room either
      have hr : c + cq.entries.toNat - d = 0 := by omega
      obtain ⟨h1, h2, h3, h4⟩ := ih (hsq.pop hne) hcq hse hce (by omega)
      rw [hunfold, postCompletion_full hcq hroom]
      refine ⟨h1, ?_, h3, ?_⟩
      · rw [h2, hr, Nat.min_zero, Nat.min_zero]
      · rw [h4, hr, List.take_zero, List.take_zero]

/-- `process_sq` empties the submission ring; the completion ring keeps its pending entries, and the completions of as
many submissions as it has room for follow them in the order of submission. -/
theorem processSq_completions (hsq : sq.Sized) (hcq : cq.Sized) (hn : sq.len ≤ sq.entries)
    (hf : cq.len ≤ cq.entries) (hse : sqEntries.length = sq.entries.toNat)
    (hce : cqEntries.length = cq.entries.toNat) :
    let n := sq.len.toNat
    let f := cq.entries.toNat - cq.len.toNat
    let out := processSq sq sqEntries cq cqEntries
    out.1 = { sq with head := sq.tail } ∧ out.1.isEmpty = true ∧
      out.2.1 = { cq with tail := cq.tail + UInt32.ofNat (min n f) } ∧
      out.2.1.len.toNat = cq.len.toNat + min n f ∧
      (sq.contents sqEntries).length = n ∧ (cq.contents cqEntries).length = cq.len.toNat ∧
      out.2.1.contents out.2.2 = cq.contents cqEntries ++
        ((sq.contents sqEntries).take (min n f)).map fun sqe => CqEntry.new sqe.userData (executeSqe sqe) := by
  intro n f out
  have hs := RingHeader.counts_of_len_le hsq hn
  have hc := RingHeader.counts_of_len_le hcq hf
  have hslen := hs.length_contents hse.ge
  have hclen := hc.length_contents hce.ge
  obtain ⟨h1, h2, -, h4⟩ := processSq_counts hs hc hse.ge hce.ge
  rw [Nat.add_sub_cancel_left] at hslen hclen h2
  have hfree : cq.head.toNat + cq.entries.toNat - (cq.head.toNat + cq.len.toNat) = f := by
    rw [Nat.add_sub_add_left]
  rw [hfree] at h2 h4
  refine ⟨h1, ?_, h2, ?_, hslen, hclen, ?_⟩
  · rw [h1, RingHeader.isEmpty, RingHeader.len]
    simp
  · have hlen : out.2.1.len = cq.len + UInt32.ofNat (min n f) := by
      rw [h2]
      show cq.tail + UInt32.ofNat (min n f) - cq.head = cq.tail - cq.head + UInt32.ofNat (min n f)
      rw [UInt32.sub_eq_add_neg, UInt32.sub_eq_add_neg, UInt32.add_assoc, UInt32.add_comm (UInt32.ofNat _),
        UInt32.add_assoc]
    have hle := UInt32.le_iff_toNat_le.1 hf
    have he := hcq.entries_le
    rw [hlen, UInt32.toNat_add, UInt32.toNat_ofNat', Nat.add_mod_mod, Nat.mod_eq_of_lt (by omega)]
  · rw [h4, ← List.take_take, List.take_of_length_le (i := n) (by rw [List.length_take]; omega)]
    rfl

/-- Two rings whose counters are about to wrap: of two submissions one finds room. -/
theorem processSq_completions_wrap :
    let sq : RingHeader := ⟨0xFFFFFFFF, 1, 1, 2⟩
    let cq : RingHeader := ⟨0xFFFFFFFF, 0, 1, 2⟩
    let out := processSq sq [⟨opNop, 0, 9⟩, ⟨opWrite, 5, 8⟩] cq [⟨0, 0, 0⟩, ⟨7, -22, 0⟩]
    out.2.1.len.toNat = 2 ∧ out.2.1.contents out.2.2 = [⟨7, -22, 0⟩, ⟨8, 5, 0⟩] := by
  intro sq cq out
  have h := @processSq_completions sq cq [⟨opNop, 0, 9⟩, ⟨opWrite, 5, 8⟩] [⟨0, 0, 0⟩, ⟨7, -22, 0⟩]
    ⟨1, by decide, by decide, by decide⟩ ⟨1, by decide, by decide, by decide⟩
    (by decide) (by decide) (by decide) (by decide)
  exact ⟨h.2.2.2.1, h.2.2.2.2.2.2.trans (by decide)⟩

end loop

end Hammam
