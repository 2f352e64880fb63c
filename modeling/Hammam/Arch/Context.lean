import Mathlib.Data.List.Induction
import Hammam.Lib.Extent
import Hammam.Arch.SyscallEntry

/-!
# Switching between tasks (`arch/x86_64/context.rs`)

`switch_context` is one `asm!` block.  The block saves the callee-saved registers and the stack pointer in one
`Context`, loads them from another one and ends with `ret`, on the stack that it has loaded.

What stands before the block is the compiler's business: the function is not naked, and it may be inlined.  So the
registers and the stack are those at the block, and the word that the final `ret` of a resumed task pops is the one at
the stack pointer that was saved there.  It is the return address of the call only where the compiler leaves
`switch_context` a function of its own that does not move `RSP`.

A task is resumed by somebody else's block.  It finds what it had left if nobody has written into its `Context` and
its stack in the meantime, and a new task starts at the address that was put on its stack.
-/

namespace Hammam

open ByteMem Extent

namespace Switch

open Syscall (Reg calleeSaved)

/-! ### The instructions -/

structure Machine where
  reg : Reg → BitVec 64
  rip : BitVec 64
  mem : Nat → UInt8

namespace Machine

def word (m : Machine) (a : Nat) : BitVec 64 := BitVec.ofNat 64 (read64 m.mem a)

def setReg (m : Machine) (r : Reg) (v : BitVec 64) : Machine := { m with reg := Function.update m.reg r v }

def setWord (m : Machine) (a : Nat) (v : BitVec 64) : Machine := { m with mem := write64 m.mem a v.toNat }

end Machine

inductive Instr where
  /-- `mov [base + disp], src` -/
  | store (base : Reg) (disp : Nat) (src : Reg)
  /-- `mov dst, [base + disp]` -/
  | load (dst base : Reg) (disp : Nat)
  | ret
  deriving DecidableEq, Repr

def step (m : Machine) : Instr → Machine
  | .store base disp src => m.setWord (m.reg base + BitVec.ofNat 64 disp).toNat (m.reg src)
  | .load dst base disp => m.setReg dst (m.word (m.reg base + BitVec.ofNat 64 disp).toNat)
  | .ret => { m.setReg .rsp (m.reg .rsp + 8) with rip := m.word (m.reg .rsp).toNat }

def run (m : Machine) (code : List Instr) : Machine := code.foldl step m

/-- The `asm!` block of `switch_context`, with `from` in `RDI` and `to` in `RSI`. -/
def switchContext : List Instr :=
  [.store .rdi 0 .rbx, .store .rdi 8 .rbp, .store .rdi 16 .r12, .store .rdi 24 .r13, .store .rdi 32 .r14,
    .store .rdi 40 .r15, .store .rdi 48 .rsp, .load .rsp .rsi 48,
    .load .rbx .rsi 0, .load .rbp .rsi 8, .load .r12 .rsi 16, .load .r13 .rsi 24, .load .r14 .rsi 32,
    .load .r15 .rsi 40, .ret]

/-! ### The fields of a `Context` -/

/-- The callee-saved registers with their offsets in a `Context`. -/
def savedFields : List (Reg × Nat) := [(.rbx, 0), (.rbp, 8), (.r12, 16), (.r13, 24), (.r14, 32), (.r15, 40)]

/-- The size of a `Context`, and the offset of its last field. -/
def contextSize : Nat := 56

def rspOffset : Nat := 48

def storeAll (fields : List (Reg × Nat)) : List Instr := fields.map fun p => .store .rdi p.2 p.1

def loadAll (fields : List (Reg × Nat)) : List Instr := fields.map fun p => .load p.1 .rsi p.2

theorem switchContext_eq : switchContext =
    storeAll (savedFields ++ [(Reg.rsp, rspOffset)]) ++
      (.load .rsp .rsi rspOffset :: (loadAll savedFields ++ [.ret])) := rfl

theorem run_append (m : Machine) (code code' : List Instr) : run m (code ++ code') = run (run m code) code' :=
  List.foldl_append

theorem mem_calleeSaved {r : Reg} : r ∈ calleeSaved ↔ ∃ off, (r, off) ∈ savedFields := by
  cases r <;> simp [calleeSaved, savedFields]

theorem toNat_add_disp {a : BitVec 64} {disp : Nat} (h : a.toNat + disp < 2 ^ 64) :
    (a + BitVec.ofNat 64 disp).toNat = a.toNat + disp := by
  rw [BitVec.toNat_add, BitVec.toNat_ofNat, Nat.add_mod_mod, Nat.mod_eq_of_lt h]

namespace Machine

variable (m : Machine)

@[simp] theorem setReg_reg (r : Reg) (v : BitVec 64) : (m.setReg r v).reg = Function.update m.reg r v := rfl

@[simp] theorem setReg_word (r : Reg) (v : BitVec 64) (a : Nat) : (m.setReg r v).word a = m.word a := rfl

@[simp] theorem setReg_mem (r : Reg) (v : BitVec 64) : (m.setReg r v).mem = m.mem := rfl

theorem word_setWord (a : Nat) (v : BitVec 64) : (m.setWord a v).word a = v := by
  rw [word, setWord, read64_write64 _ _ v.isLt, BitVec.ofNat_toNat, BitVec.setWidth_eq]

theorem word_setWord_of_apart {a b : Nat} (v : BitVec 64) (h : Apart (b, 8) (a, 8)) :
    (m.setWord a v).word b = m.word b := by
  rw [word, setWord, read64_write64_of_disjoint v.toNat h, word]

theorem setWord_mem_of_not_mem {a x : Nat} (v : BitVec 64) (h : ¬ Contains (a, 8) x) :
    (m.setWord a v).mem x = m.mem x := by
  exact store_of_not_mem (bytesLE v.toNat) h

/-- Words are read from the bytes of memory. -/
theorem word_congr {m' : Machine} {a : Nat} (h : ∀ x, Contains (a, 8) x → m.mem x = m'.mem x) :
    m.word a = m'.word a := by
  rw [word, word, read64, read64, readLE_congr fun x h1 h2 => h x ⟨h1, h2⟩]

end Machine

/-- The values of `f` in the fields of the context at `base`. -/
def setFields (m : Machine) (base : Nat) (f : Reg → BitVec 64) (fields : List (Reg × Nat)) : Machine :=
  fields.foldl (fun m p => m.setWord (base + p.2) (f p.1)) m

theorem setFields_concat (m : Machine) (base : Nat) (f : Reg → BitVec 64) (fields : List (Reg × Nat))
    (p : Reg × Nat) :
    setFields m base f (fields ++ [p]) = (setFields m base f fields).setWord (base + p.2) (f p.1) :=
  List.foldl_append

/-- The words are stored, and nothing else changes. -/
theorem setFields_spec (m : Machine) (base : Nat) (f : Reg → BitVec 64) {fields : List (Reg × Nat)}
    (hsize : ∀ p ∈ fields, p.2 + 8 ≤ contextSize) (hapart : fields.Pairwise fun p q => Apart (p.2, 8) (q.2, 8)) :
    (setFields m base f fields).reg = m.reg ∧
      (∀ p ∈ fields, (setFields m base f fields).word (base + p.2) = f p.1) ∧
      ∀ x, ¬ Contains (base, contextSize) x → (setFields m base f fields).mem x = m.mem x := by
  induction fields using List.reverseRecOn with
  | nil => exact ⟨rfl, by simp, fun _ _ => rfl⟩
  | append_singleton fields p ih =>
    obtain ⟨hp1, -, hp2⟩ := List.pairwise_append.1 hapart
    obtain ⟨hreg, hword, hmem⟩ := ih (fun q hq => hsize q (List.mem_append_left _ hq)) hp1
    have hlast := hsize p (by simp)
    rw [setFields_concat]
    refine ⟨hreg, fun q hq => ?_, fun x hx => ?_⟩
    · rcases List.mem_append.1 hq with hq | hq
      · rw [Machine.word_setWord_of_apart, hword q hq]
        have := hp2 q hq p (List.mem_singleton_self p)
        unfold Apart at *
        omega
      · obtain rfl := List.mem_singleton.1 hq
        exact Machine.word_setWord _ _ _
    · rw [Machine.setWord_mem_of_not_mem, hmem x hx]
      unfold Contains at *
      omega

theorem run_storeAll (m : Machine) {fields : List (Reg × Nat)} (hfit : (m.reg .rdi).toNat + contextSize ≤ 2 ^ 64)
    (hsize : ∀ p ∈ fields, p.2 + 8 ≤ contextSize) (hapart : fields.Pairwise fun p q => Apart (p.2, 8) (q.2, 8)) :
    run m (storeAll fields) = setFields m (m.reg .rdi).toNat m.reg fields := by
  induction fields using List.reverseRecOn with
  | nil => rfl
  | append_singleton fields p ih =>
    have hsize' : ∀ q ∈ fields, q.2 + 8 ≤ contextSize := fun q hq => hsize q (List.mem_append_left _ hq)
    have hapart' := (List.pairwise_append.1 hapart).1
    have hlast := hsize p (by simp)
    have hreg := (setFields_spec m (m.reg .rdi).toNat m.reg hsize' hapart').1
    rw [storeAll, List.map_append, run_append, ← storeAll, ih hsize' hapart']
    simp only [List.map_cons, List.map_nil, run, List.foldl_cons, List.foldl_nil, step, hreg]
    rw [toNat_add_disp (by unfold contextSize at *; omega)]
    exact (setFields_concat _ _ _ _ _).symm

/-- The words are loaded into their registers. -/
theorem run_loads (m : Machine) {fields : List (Reg × Nat)} (hnodup : (fields.map Prod.fst).Nodup)
    (hsrc : ∀ p ∈ fields, p.1 ≠ .rsi) (hfit : (m.reg .rsi).toNat + contextSize ≤ 2 ^ 64)
    (hsize : ∀ p ∈ fields, p.2 + 8 ≤ contextSize) :
    (run m (loadAll fields)).mem = m.mem ∧
      (∀ p ∈ fields, (run m (loadAll fields)).reg p.1 = m.word ((m.reg .rsi).toNat + p.2)) ∧
      ∀ r, r ∉ fields.map Prod.fst → (run m (loadAll fields)).reg r = m.reg r := by
  induction fields using List.reverseRecOn with
  | nil => exact ⟨rfl, by simp, fun _ _ => rfl⟩
  | append_singleton fields p ih =>
    rw [List.map_append] at hnodup
    obtain ⟨hn1, -, hn2⟩ := List.nodup_append.1 hnodup
    obtain ⟨hmem, hword, hreg⟩ := ih hn1 (fun q hq => hsrc q (List.mem_append_left _ hq))
      (fun q hq => hsize q (List.mem_append_left _ hq))
    have hrsi : (run m (loadAll fields)).reg .rsi = m.reg .rsi := by
      refine hreg _ fun hm => ?_
      obtain ⟨q, hq, he⟩ := List.mem_map.1 hm
      exact hsrc q (List.mem_append_left _ hq) he
    have hlast := hsize p (by simp)
    have hsplit : run m (loadAll (fields ++ [p])) =
        (run m (loadAll fields)).setReg p.1 (m.word ((m.reg .rsi).toNat + p.2)) := by
      rw [loadAll, List.map_append, run_append, ← loadAll]
      simp only [List.map_cons, List.map_nil, run, List.foldl_cons, List.foldl_nil, step, Machine.word]
      rw [← run, hrsi, hmem, toNat_add_disp (by unfold contextSize at *; omega)]
    rw [hsplit]
    refine ⟨hmem, fun q hq => ?_, fun r hr => ?_⟩
    · rcases List.mem_append.1 hq with hq | hq
      · have hne : q.1 ≠ p.1 := hn2 q.1 (List.mem_map_of_mem hq) p.1 (by simp)
        rw [Machine.setReg_reg, Function.update_of_ne hne, hword q hq]
      · obtain rfl := List.mem_singleton.1 hq
        exact Function.update_self _ _ _
    · simp only [List.map_append, List.map_cons, List.map_nil, List.mem_append, List.mem_singleton, not_or] at hr
      rw [Machine.setReg_reg, Function.update_of_ne hr.2, hreg r hr.1]

/-- What the block does with two different contexts. -/
structure Switched (m m' : Machine) (src dst : Nat) : Prop where
  saved : ∀ p ∈ savedFields, m'.word (src + p.2) = m.reg p.1
  rsp_saved : m'.word (src + rspOffset) = m.reg .rsp
  frame : ∀ x, ¬ Contains (src, contextSize) x → m'.mem x = m.mem x
  loaded : ∀ p ∈ savedFields, m'.reg p.1 = m.word (dst + p.2)
  rsp : m'.reg .rsp = m.word (dst + rspOffset) + 8
  rip : m'.rip = m'.word (m.word (dst + rspOffset)).toNat

theorem run_switchContext {m : Machine} {src dst : Nat} (hsrc : (m.reg .rdi).toNat = src)
    (hdst : (m.reg .rsi).toNat = dst) (hsrcfit : src + contextSize ≤ 2 ^ 64) (hdstfit : dst + contextSize ≤ 2 ^ 64)
    (hapart : Apart (src, contextSize) (dst, contextSize)) : Switched m (run m switchContext) src dst := by
  subst hsrc
  subst hdst
  obtain ⟨hreg₁, hword₁, hmem₁⟩ := @setFields_spec m (m.reg .rdi).toNat m.reg
    (savedFields ++ [(Reg.rsp, rspOffset)]) (by decide) (by decide)
  rw [switchContext_eq, run_append, run_storeAll m hsrcfit (by decide) (by decide)]
  generalize setFields m (m.reg .rdi).toNat m.reg (savedFields ++ [(Reg.rsp, rspOffset)]) = m₁ at hreg₁ hword₁ hmem₁ ⊢
  -- the words that are loaded are not among those that were stored
  have hdstword : ∀ off, off + 8 ≤ contextSize →
      m₁.word ((m.reg .rsi).toNat + off) = m.word ((m.reg .rsi).toNat + off) := by
    intro off hoff
    refine Machine.word_congr m₁ fun x hx => hmem₁ x fun hc => ?_
    unfold Contains Apart at *
    omega
  have hload : step m₁ (.load .rsp .rsi rspOffset) =
      m₁.setReg .rsp (m.word ((m.reg .rsi).toNat + rspOffset)) := by
    rw [step, hreg₁, toNat_add_disp (by unfold contextSize rspOffset at *; omega), hdstword rspOffset (by decide)]
  rw [run, List.foldl_cons, hload, ← run, run_append]
  obtain ⟨hmem₃, hword₃, hreg₃⟩ := @run_loads (m₁.setReg .rsp (m.word ((m.reg .rsi).toNat + rspOffset)))
    savedFields (by decide) (by decide)
    (by rw [Machine.setReg_reg, Function.update_of_ne (by decide), hreg₁]; exact hdstfit) (by decide)
  simp only [Machine.setReg_reg, Machine.setReg_mem, Machine.setReg_word] at hmem₃ hword₃ hreg₃
  rw [Function.update_of_ne (by decide), hreg₁] at hword₃
  have hrsp₃ := hreg₃ .rsp (by decide)
  rw [Function.update_self] at hrsp₃
  generalize run (m₁.setReg .rsp (m.word ((m.reg .rsi).toNat + rspOffset))) (loadAll savedFields) = m₃ at *
  have hret : run m₃ [.ret] = { m₃.setReg .rsp (m₃.reg .rsp + 8) with rip := m₃.word (m₃.reg .rsp).toNat } := rfl
  have hword : ∀ a, (run m₃ [.ret]).word a = m₁.word a := fun a => by
    rw [hret, Machine.word, Machine.setReg_mem, hmem₃, Machine.word]
  refine ⟨fun p hp => ?_, ?_, fun x hx => ?_, fun p hp => ?_, ?_, ?_⟩
  · rw [hword]
    exact hword₁ p (List.mem_append_left _ hp)
  · rw [hword]
    exact hword₁ (Reg.rsp, rspOffset) (by simp)
  · rw [hret, Machine.setReg_mem, hmem₃]
    exact hmem₁ x hx
  · have hp' : p.1 ≠ .rsp ∧ p.2 + 8 ≤ contextSize := by
      revert p
      decide
    rw [hret, Machine.setReg_reg, Function.update_of_ne hp'.1, hword₃ p hp, hdstword p.2 hp'.2]
  · rw [hret, Machine.setReg_reg, Function.update_self, hrsp₃]
  · rw [hword, hret, hrsp₃]
    exact congrArg (fun mem => BitVec.ofNat 64 (read64 mem _)) hmem₃

/-! ### Tasks -/

/-- Where the `Context` and the kernel stack of every task lie. -/
structure Layout (ι : Type) where
  context : ι → Nat
  stack : ι → Nat × Nat

/-- What a task has when it goes on: the registers that are kept, its stack pointer and its next instruction. -/
structure Frame where
  reg : Reg → BitVec 64
  rsp : BitVec 64
  rip : BitVec 64

/-- What a task that is at the block has when it is resumed: the registers that it has there, the stack without its
last word, and that word as the next instruction. -/
def blockFrame (m : Machine) : Frame := ⟨m.reg, m.reg .rsp + 8, m.word (m.reg .rsp).toNat⟩

/-- The start of a task: `Task::new` clears its context, and its creator puts the address of its first function on the
stack and the place of that word into the context. -/
def newTask (m : Machine) (context top : Nat) (entry : BitVec 64) : Machine :=
  let m := setFields m context (fun _ => 0) (savedFields ++ [(Reg.rsp, rspOffset)])
  (m.setWord (top - 8) entry).setWord (context + rspOffset) (BitVec.ofNat 64 (top - 8))

/-- `KernelStack::new`, for a stack of `size` bytes at `base`. -/
def kernelStackTop (base size : Nat) : Nat := (base + size) / 16 * 16

namespace Layout

variable {ι : Type} (L : Layout ι)

def contextExtent (i : ι) : Nat × Nat := (L.context i, contextSize)

def Owns (i : ι) (x : Nat) : Prop := Contains (L.contextExtent i) x ∨ Contains (L.stack i) x

structure Separate (i j : ι) : Prop where
  context : Apart (L.contextExtent i) (L.contextExtent j)
  stack : Apart (L.stack i) (L.stack j)
  context_stack : Apart (L.contextExtent i) (L.stack j)
  stack_context : Apart (L.stack i) (L.contextExtent j)

/-- The memory of one task is there and in two pieces. -/
structure Fits (i : ι) : Prop where
  context : L.context i + contextSize ≤ 2 ^ 64
  stack : (L.stack i).1 + (L.stack i).2 ≤ 2 ^ 64
  apart : Apart (L.contextExtent i) (L.stack i)

/-- At the first instruction of the block, to switch from `c` to `n`. -/
structure AtBlock (m : Machine) (c n : ι) : Prop where
  src : (m.reg .rdi).toNat = L.context c
  dst : (m.reg .rsi).toNat = L.context n

/-- The task is not running and can go on with `f`. -/
structure Saved (m : Machine) (i : ι) (f : Frame) : Prop where
  reg : ∀ p ∈ savedFields, m.word (L.context i + p.2) = f.reg p.1
  rsp : m.word (L.context i + rspOffset) = f.rsp - 8
  rip : m.word (f.rsp - 8).toNat = f.rip
  inside : Inside ((f.rsp - 8).toNat, 8) (L.stack i)

end Layout

/-- The runs of a machine: `c` is running, `suspended` are the tasks that can go on, and `frame` is what each of them
had at the block, or its start.  The running task may compute anything as long as it does not write into what the
suspended tasks own.  A task that is to go on is at the block with its own stack; one that exits may leave from
anywhere. -/
inductive Run {ι : Type} [DecidableEq ι] (L : Layout ι) : Machine → ι → List ι → (ι → Frame) → Prop
  | start {m : Machine} {c : ι} {frame : ι → Frame} : L.Fits c → Run L m c [] frame
  | compute {m m' : Machine} {c : ι} {suspended : List ι} {frame : ι → Frame} : Run L m c suspended frame →
    (∀ i ∈ suspended, ∀ x, L.Owns i x → m'.mem x = m.mem x) → Run L m' c suspended frame
  | create {m : Machine} {c i : ι} {suspended : List ι} {frame : ι → Frame} {top : Nat} {entry : BitVec 64} :
    Run L m c suspended frame → L.Fits i → i ∉ c :: suspended → (∀ j ∈ c :: suspended, L.Separate i j) →
    8 ≤ top → Inside (top - 8, 8) (L.stack i) →
    Run L (newTask m (L.context i) top entry) c (i :: suspended)
      (Function.update frame i ⟨fun _ => 0, BitVec.ofNat 64 top, entry⟩)
  | switch {m : Machine} {c n : ι} {suspended : List ι} {frame : ι → Frame} : Run L m c suspended frame →
    n ∈ suspended → L.AtBlock m c n → Inside ((m.reg .rsp).toNat, 8) (L.stack c) →
    Run L (run m switchContext) n (c :: suspended.erase n) (Function.update frame c (blockFrame m))
  | leave {m : Machine} {c n : ι} {suspended : List ι} {frame : ι → Frame} : Run L m c suspended frame →
    n ∈ suspended → L.AtBlock m c n → Run L (run m switchContext) n (suspended.erase n) frame

namespace Layout

variable {ι : Type} [DecidableEq ι] {L : Layout ι} {m m' : Machine} {i j c n : ι} {suspended : List ι}
  {frame : ι → Frame} {f : Frame}

omit [DecidableEq ι] in
theorem Separate.symm (h : L.Separate i j) : L.Separate j i :=
  ⟨h.context.symm, h.stack.symm, h.stack_context.symm, h.context_stack.symm⟩

omit [DecidableEq ι] in
/-- What is not written stays saved. -/
theorem Saved.congr (h : L.Saved m i f) (hm : ∀ x, L.Owns i x → m'.mem x = m.mem x) : L.Saved m' i f := by
  have hfield : ∀ off, off + 8 ≤ contextSize → m'.word (L.context i + off) = m.word (L.context i + off) := by
    intro off hoff
    refine Machine.word_congr m' fun x hx => hm x (Or.inl ?_)
    unfold Contains contextExtent at *
    omega
  refine ⟨fun p hp => ?_, ?_, ?_, h.inside⟩
  · have hoff : p.2 + 8 ≤ contextSize := by
      revert p
      decide
    rw [hfield p.2 hoff]
    exact h.reg p hp
  · rw [hfield rspOffset (by decide)]
    exact h.rsp
  · rw [Machine.word_congr m' fun x hx => hm x (Or.inr ?_)]
    · exact h.rip
    · have := h.inside
      unfold Contains Inside at *
      omega

omit [DecidableEq ι] in
/-- Memory of one task is not memory of another one. -/
theorem Separate.not_context (h : L.Separate i j) {x : Nat} (hx : L.Owns i x) : ¬ Contains (L.contextExtent j) x := by
  rcases hx with hx | hx
  · exact h.context.not_contains hx
  · exact h.stack_context.not_contains hx

/-- The running task and the suspended ones own memory of their own, and what the suspended ones have left is there.
-/
structure RunInv (L : Layout ι) (m : Machine) (c : ι) (suspended : List ι) (frame : ι → Frame) : Prop where
  nodup : (c :: suspended).Nodup
  separate : ∀ i ∈ c :: suspended, ∀ j ∈ c :: suspended, i ≠ j → L.Separate i j
  fits : ∀ i ∈ c :: suspended, L.Fits i
  saved : ∀ i ∈ suspended, L.Saved m i (frame i)

namespace RunInv

omit [DecidableEq ι] in
/-- The two contexts of a call are different ones. -/
theorem switched (h : RunInv L m c suspended frame) (hn : n ∈ suspended) (ha : L.AtBlock m c n) :
    Switched m (run m switchContext) (L.context c) (L.context n) := by
  have hne : c ≠ n := by
    rintro rfl
    exact (List.nodup_cons.1 h.nodup).1 hn
  exact run_switchContext ha.src ha.dst (h.fits c List.mem_cons_self).context
    (h.fits n (List.mem_cons_of_mem _ hn)).context
    (h.separate c List.mem_cons_self n (List.mem_cons_of_mem _ hn) hne).context

omit [DecidableEq ι] in
/-- The task goes on with its frame. -/
theorem resumes (h : RunInv L m c suspended frame) (hn : n ∈ suspended) (ha : L.AtBlock m c n) :
    (∀ r ∈ calleeSaved, (run m switchContext).reg r = (frame n).reg r) ∧
      (run m switchContext).reg .rsp = (frame n).rsp ∧ (run m switchContext).rip = (frame n).rip := by
  have hs := h.switched hn ha
  have hf := h.saved n hn
  have hne : n ≠ c := by
    rintro rfl
    exact (List.nodup_cons.1 h.nodup).1 hn
  refine ⟨fun r hr => ?_, ?_, ?_⟩
  · obtain ⟨off, hoff⟩ := mem_calleeSaved.1 hr
    rw [hs.loaded (r, off) hoff]
    exact hf.reg (r, off) hoff
  · rw [hs.rsp, hf.rsp, BitVec.sub_add_cancel]
  · rw [hs.rip, hf.rsp, ← hf.rip]
    refine Machine.word_congr _ fun x hx => hs.frame x ?_
    refine (h.separate n (List.mem_cons_of_mem _ hn) c List.mem_cons_self hne).not_context (Or.inr ?_)
    have := hf.inside
    unfold Contains Inside at *
    omega

theorem switch (h : RunInv L m c suspended frame) (hn : n ∈ suspended) (ha : L.AtBlock m c n)
    (hin : Inside ((m.reg .rsp).toNat, 8) (L.stack c)) :
    RunInv L (run m switchContext) n (c :: suspended.erase n) (Function.update frame c (blockFrame m)) := by
  have hs := h.switched hn ha
  obtain ⟨hc, hnodup⟩ := List.nodup_cons.1 h.nodup
  have hperm : (n :: c :: suspended.erase n).Perm (c :: suspended) :=
    (List.Perm.swap c n _).trans ((List.perm_cons_erase hn).symm.cons c)
  have hmem : ∀ i ∈ n :: c :: suspended.erase n, i ∈ c :: suspended := fun i hi => hperm.mem_iff.1 hi
  refine ⟨hperm.nodup_iff.2 h.nodup, fun i hi j hj => h.separate i (hmem i hi) j (hmem j hj),
    fun i hi => h.fits i (hmem i hi), fun i hi => ?_⟩
  rcases List.mem_cons.1 hi with rfl | hi
  · -- the task that was running has been saved, with the word for `ret` on its stack
    rw [Function.update_self]
    have hslot : (m.reg .rsp + 8 - 8).toNat = (m.reg .rsp).toNat := by rw [BitVec.add_sub_cancel]
    refine ⟨hs.saved, ?_, ?_, ?_⟩
    · show _ = m.reg .rsp + 8 - 8
      rw [BitVec.add_sub_cancel]
      exact hs.rsp_saved
    · show (run m switchContext).word (m.reg .rsp + 8 - 8).toNat = m.word (m.reg .rsp).toNat
      rw [hslot]
      refine Machine.word_congr _ fun x hx => hs.frame x fun hx' => ?_
      have h1 := (h.fits i List.mem_cons_self).apart
      unfold Contains Apart Inside contextExtent at *
      omega
    · show Inside ((m.reg .rsp + 8 - 8).toNat, 8) _
      rw [hslot]
      exact hin
  · have hi' := List.mem_of_mem_erase hi
    have hne : i ≠ c := by
      rintro rfl
      exact hc hi'
    rw [Function.update_of_ne hne]
    refine (h.saved i hi').congr fun x hx => hs.frame x ?_
    exact (h.separate i (List.mem_cons_of_mem _ hi') c List.mem_cons_self hne).not_context hx

/-- A new task is saved with its first frame, outside what the others own. -/
theorem create (h : RunInv L m c suspended frame) (hf : L.Fits i) (hi : i ∉ c :: suspended)
    (hsep : ∀ j ∈ c :: suspended, L.Separate i j) {top : Nat} {entry : BitVec 64} (htop : 8 ≤ top)
    (hslot : Inside (top - 8, 8) (L.stack i)) :
    RunInv L (newTask m (L.context i) top entry) c (i :: suspended)
      (Function.update frame i ⟨fun _ => 0, BitVec.ofNat 64 top, entry⟩) := by
  obtain ⟨-, hword, hmem⟩ := @setFields_spec m (L.context i) (fun _ => 0) (savedFields ++ [(Reg.rsp, rspOffset)])
    (by decide) (by decide)
  have hlt : top - 8 < 2 ^ 64 := by
    have := hf.stack
    unfold Inside at hslot
    omega
  have hrsp : BitVec.ofNat 64 top - 8 = BitVec.ofNat 64 (top - 8) := by
    rw [show (8 : BitVec 64) = BitVec.ofNat 64 8 from rfl, BitVec.ofNat_sub_ofNat_of_le top 8 (by decide) htop]
  have hslotNat : (BitVec.ofNat 64 top - 8).toNat = top - 8 := by
    rw [hrsp, BitVec.toNat_ofNat, Nat.mod_eq_of_lt hlt]
  -- the word on the stack lies outside the context
  have hout : ∀ off, off + 8 ≤ contextSize → Apart (L.context i + off, 8) (top - 8, 8) := by
    intro off hoff
    have := hf.apart
    unfold Apart Inside contextExtent at *
    omega
  have hframe : ∀ x, ¬ L.Owns i x → (newTask m (L.context i) top entry).mem x = m.mem x := by
    intro x hx
    have h1 : ¬ Contains (L.contextExtent i) x := fun hc => hx (Or.inl hc)
    have h2 : ¬ Contains (L.stack i) x := fun hc => hx (Or.inr hc)
    rw [newTask, Machine.setWord_mem_of_not_mem, Machine.setWord_mem_of_not_mem, hmem x h1]
    · unfold Contains Inside at *
      omega
    · unfold Contains contextExtent contextSize rspOffset at *
      omega
  have hnew : L.Saved (newTask m (L.context i) top entry) i ⟨fun _ => 0, BitVec.ofNat 64 top, entry⟩ := by
    refine ⟨fun p hp => ?_, ?_, ?_, ?_⟩
    · have hoff : p.2 + 8 ≤ rspOffset := by
        revert p
        decide
      rw [newTask, Machine.word_setWord_of_apart, Machine.word_setWord_of_apart]
      · exact hword p (List.mem_append_left _ hp)
      · exact hout p.2 (by unfold contextSize rspOffset at *; omega)
      · unfold Apart
        omega
    · rw [newTask, Machine.word_setWord]
      exact hrsp.symm
    · rw [hslotNat, newTask, Machine.word_setWord_of_apart _ _ (hout rspOffset (by decide)).symm]
      exact Machine.word_setWord _ _ _
    · rw [hslotNat]
      exact hslot
  refine ⟨?_, ?_, ?_, ?_⟩
  · exact (List.Perm.swap i c suspended).nodup_iff.2 (List.nodup_cons.2 ⟨hi, h.nodup⟩)
  · intro j hj k hk hne
    have hj' := (List.Perm.swap i c suspended).mem_iff.1 hj
    have hk' := (List.Perm.swap i c suspended).mem_iff.1 hk
    rcases List.mem_cons.1 hj' with ej | gj <;> rcases List.mem_cons.1 hk' with ek | gk
    · exact absurd (ej.trans ek.symm) hne
    · exact ej ▸ hsep k gk
    · exact ek ▸ (hsep j gj).symm
    · exact h.separate j gj k gk hne
  · intro j hj
    rcases List.mem_cons.1 ((List.Perm.swap i c suspended).mem_iff.1 hj) with rfl | hj
    · exact hf
    · exact h.fits j hj
  · intro j hj
    by_cases hne : j = i
    · subst hne
      rw [Function.update_self]
      exact hnew
    · have hj' := (List.mem_cons.1 hj).resolve_left hne
      rw [Function.update_of_ne hne]
      refine (h.saved j hj').congr fun x hx => hframe x fun hx' => ?_
      have hs := hsep j (List.mem_cons_of_mem _ hj')
      rcases hx' with hx' | hx' <;> rcases hx with hx | hx
      · exact hs.context.not_contains hx' hx
      · exact hs.context_stack.not_contains hx' hx
      · exact hs.stack_context.not_contains hx' hx
      · exact hs.stack.not_contains hx' hx

/-- What the others have left stays, but the caller is not kept. -/
theorem leave (h : RunInv L m c suspended frame) (hn : n ∈ suspended) (ha : L.AtBlock m c n) :
    RunInv L (run m switchContext) n (suspended.erase n) frame := by
  have hs := h.switched hn ha
  obtain ⟨hc, hnodup⟩ := List.nodup_cons.1 h.nodup
  have hperm : (n :: suspended.erase n).Perm suspended := (List.perm_cons_erase hn).symm
  have hmem : ∀ i ∈ n :: suspended.erase n, i ∈ c :: suspended := fun i hi =>
    List.mem_cons_of_mem _ (hperm.mem_iff.1 hi)
  refine ⟨hperm.nodup_iff.2 hnodup, fun i hi j hj => h.separate i (hmem i hi) j (hmem j hj),
    fun i hi => h.fits i (hmem i hi), fun i hi => ?_⟩
  have hi' := List.mem_of_mem_erase hi
  have hne : i ≠ c := by
    rintro rfl
    exact hc hi'
  refine (h.saved i hi').congr fun x hx => hs.frame x ?_
  exact (h.separate i (List.mem_cons_of_mem _ hi') c List.mem_cons_self hne).not_context hx

end RunInv

end Layout

open Layout in
theorem Run.inv {ι : Type} [DecidableEq ι] {L : Layout ι} {m : Machine} {c : ι} {suspended : List ι}
    {frame : ι → Frame} (h : Run L m c suspended frame) : RunInv L m c suspended frame := by
  induction h with
  | start hf =>
    refine ⟨by simp, fun i hi j hj hne => ?_, fun i hi => ?_, fun i hi => by cases hi⟩
    · exact absurd ((List.mem_singleton.1 hi).trans (List.mem_singleton.1 hj).symm) hne
    · obtain rfl := List.mem_singleton.1 hi
      exact hf
  | compute _ hm ih => exact { ih with saved := fun i hi => (ih.saved i hi).congr (hm i hi) }
  | create _ hf hi hsep htop hslot ih => exact ih.create hf hi hsep htop hslot
  | switch _ hn ha hin ih => exact ih.switch hn ha hin
  | leave _ hn ha ih => exact ih.leave hn ha

open Layout in
/-- In every run of tasks that leave the contexts and stacks of the suspended ones alone, a switch to `n` brings
back the callee-saved registers and the stack pointer that `n` had at the block, with one word popped, and goes on
at that word; and a new task starts at its first function, with the stack pointer at the top of its stack. -/
theorem switch_resumes {ι : Type} [DecidableEq ι] {L : Layout ι} {m : Machine} {c n : ι} {suspended : List ι}
    {frame : ι → Frame} (h : Run L m c suspended frame) (hn : n ∈ suspended) (ha : L.AtBlock m c n) :
    (∀ r ∈ calleeSaved, (run m switchContext).reg r = (frame n).reg r) ∧
      (run m switchContext).reg .rsp = (frame n).rsp ∧ (run m switchContext).rip = (frame n).rip :=
  h.inv.resumes hn ha

/-- A task starts another one and switches to it, and is resumed when that one exits. -/
theorem switch_resumes_two : ∃ (L : Layout Bool) (m : Machine), L.AtBlock m true false ∧
    (run m switchContext).rip = 0x1234 ∧ (run m switchContext).reg .rsp = 0x5008 := by
  let L : Layout Bool := ⟨fun i => cond i 0x7000 0x1000, fun i => cond i (0x8000, 0x4000) (0x2000, 0x4000)⟩
  let atBlock (i : Bool) : Reg → BitVec 64 := fun r =>
    match r with
    | .rdi => BitVec.ofNat 64 (L.context i)
    | .rsi => BitVec.ofNat 64 (L.context !i)
    | .rsp => 0x5000
    | _ => 0
  have h₀ : Run L ⟨atBlock false, 0, fun _ => 0⟩ false [] (fun _ => ⟨fun _ => 0, 0, 0⟩) :=
    .start ⟨by decide, by decide, by decide⟩
  have h₁ := @Run.create _ _ _ _ _ true _ _ 0xC000 0x400 h₀ ⟨by decide, by decide, by decide⟩ (by decide)
    (fun j hj => by
      obtain rfl := List.mem_singleton.1 hj
      exact ⟨by decide, by decide, by decide, by decide⟩) (by decide) ⟨by decide, by decide⟩
  -- the word at the stack pointer, before the block
  have h₂ := @Run.compute _ _ _ _ (Machine.setWord _ 0x5000 0x1234) _ _ _ h₁ (fun i hi x hx => by
    obtain rfl := List.mem_singleton.1 hi
    refine Machine.setWord_mem_of_not_mem _ _ ?_
    rcases hx with hx | hx <;>
      simp only [L, Layout.contextExtent, Contains, contextSize, cond_true] at hx ⊢ <;> omega)
  have h₃ := h₂.switch (n := true) List.mem_cons_self ⟨rfl, rfl⟩ ⟨by decide, by decide⟩
  have h₄ := @Run.compute _ _ _ _ { (_ : Machine) with reg := atBlock true } _ _ _ h₃ (fun _ _ _ _ => rfl)
  obtain ⟨-, hrsp, hrip⟩ := switch_resumes h₄ (n := false) (by decide) ⟨rfl, rfl⟩
  refine ⟨L, _, ⟨rfl, rfl⟩, hrip.trans ?_, hrsp.trans ?_⟩
  · exact Machine.word_setWord _ _ _
  · rfl

end Switch

end Hammam
