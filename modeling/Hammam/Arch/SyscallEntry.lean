import Hammam.Lib.ByteMem

/-!
# The entry of system calls (`arch/x86_64/syscall.rs`, `syscall_entry`)

The entry code is a list of instructions on the registers, on memory and on the two statics that it names.  The user
context is on the kernel stack when `syscall_dispatch` is called, and is not taken from there afterwards: `sysretq`
follows the call, and jumps to whatever `RCX` holds.
-/

namespace Hammam

open ByteMem

namespace Syscall

/-! ### Instructions -/

inductive Reg where
  | rax | rbx | rcx | rdx | rsi | rdi | rbp | rsp | r8 | r9 | r10 | r11 | r12 | r13 | r14 | r15
  deriving DecidableEq, Repr

/-- The statics `SC_RSP_SAVE` and `SC_KERNEL_RSP`. -/
inductive Static where
  | scRspSave
  | scKernelRsp
  deriving DecidableEq, Repr

/-- A call of `syscall_dispatch(nr, a0, a1, a2)` with its result. -/
structure Call where
  nr : BitVec 64
  a0 : BitVec 64
  a1 : BitVec 64
  a2 : BitVec 64
  result : BitVec 64
  deriving DecidableEq, Repr

/-- Registers, memory and the statics, and the calls that were made. -/
structure Cpu where
  reg : Reg → BitVec 64
  mem : Nat → UInt8
  static : Static → BitVec 64
  calls : List Call

namespace Cpu

/-- The eight bytes at an address. -/
def word (c : Cpu) (a : BitVec 64) : BitVec 64 := BitVec.ofNat 64 (read64 c.mem a.toNat)

def setReg (c : Cpu) (r : Reg) (v : BitVec 64) : Cpu := { c with reg := Function.update c.reg r v }

def push (c : Cpu) (v : BitVec 64) : Cpu :=
  { c with reg := Function.update c.reg .rsp (c.reg .rsp - 8), mem := write64 c.mem (c.reg .rsp - 8).toNat v.toNat }

end Cpu

/-- The body of `syscall_dispatch`: from its arguments and the state at its first instruction, the result and the
state at its `ret`. -/
abbrev Dispatch := BitVec 64 → BitVec 64 → BitVec 64 → BitVec 64 → Cpu → BitVec 64 × Cpu

inductive Instr where
  /-- `mov [static], src` -/
  | movToStatic (s : Static) (src : Reg)
  /-- `mov dst, [static]` -/
  | movFromStatic (dst : Reg) (s : Static)
  | push (src : Reg)
  /-- `mov dst, src` -/
  | mov (dst src : Reg)
  /-- `mov dst, [base + disp]` -/
  | load (dst base : Reg) (disp : BitVec 64)
  /-- `call {dispatch}` -/
  | call
  deriving DecidableEq, Repr

/-- The registers that a function of the System V ABI leaves as they were, apart from the stack pointer. -/
def calleeSaved : List Reg := [.rbx, .rbp, .r12, .r13, .r14, .r15]

section Run

variable (dispatch : Dispatch) (returnAddress : BitVec 64)

/-- The return address is pushed, the arguments are taken from their registers, and the callee leaves its result in
`RAX`. -/
def callDispatch (c : Cpu) : Cpu :=
  let c := c.push returnAddress
  let (result, c') := dispatch (c.reg .rdi) (c.reg .rsi) (c.reg .rdx) (c.reg .rcx) c
  { c'.setReg .rax result with calls := c.calls ++ [⟨c.reg .rdi, c.reg .rsi, c.reg .rdx, c.reg .rcx, result⟩] }

def step (c : Cpu) : Instr → Cpu
  | .movToStatic s src => { c with static := Function.update c.static s (c.reg src) }
  | .movFromStatic dst s => c.setReg dst (c.static s)
  | .push src => c.push (c.reg src)
  | .mov dst src => c.setReg dst (c.reg src)
  | .load dst base disp => c.setReg dst (c.word (c.reg base + disp))
  | .call => callDispatch dispatch returnAddress c

/-- The instructions in order. -/
def run (c : Cpu) (code : List Instr) : Cpu := code.foldl (step dispatch returnAddress) c

end Run

/-- The instructions before the call. -/
def entryPrologue : List Instr :=
  [.movToStatic .scRspSave .rsp, .movFromStatic .rsp .scKernelRsp,
    .push .rcx, .push .r11,
    .push .rdi, .push .rsi, .push .rdx,
    .mov .rdi .rax, .load .rsi .rsp 16, .load .rdx .rsp 8, .load .rcx .rsp 0]

/-- `syscall_entry` up to `sysretq`. -/
def syscallEntry : List Instr := entryPrologue ++ [.call]

/-! ### The calling convention -/

/-- A callee that follows the ABI: the callee-saved registers are kept, the return address is popped, and the `frame`
bytes of the caller above it are kept.  All other registers and all other memory may change. -/
structure FollowsAbi (dispatch : Dispatch) (frame : Nat) : Prop where
  saved : ∀ nr a0 a1 a2 c, ∀ r ∈ calleeSaved, (dispatch nr a0 a1 a2 c).2.reg r = c.reg r
  rsp : ∀ nr a0 a1 a2 c, (dispatch nr a0 a1 a2 c).2.reg .rsp = c.reg .rsp + 8
  stack : ∀ nr a0 a1 a2 c, ∀ k < frame,
    (dispatch nr a0 a1 a2 c).2.mem ((c.reg .rsp + 8).toNat + k) = c.mem ((c.reg .rsp + 8).toNat + k)

/-- What a system call owes to the user state `c`: one call with the arguments, the result in `RAX`, and what
`sysretq` and the user need in `RCX`, `R11` and `RSP`. -/
structure PreservesContext (c : Cpu) (dispatch : Dispatch) (returnAddress : BitVec 64) : Prop where
  called : ∃ result, (run dispatch returnAddress c syscallEntry).calls =
    c.calls ++ [⟨c.reg .rax, c.reg .rdi, c.reg .rsi, c.reg .rdx, result⟩] ∧
    (run dispatch returnAddress c syscallEntry).reg .rax = result
  rip : (run dispatch returnAddress c syscallEntry).reg .rcx = c.reg .rcx
  rflags : (run dispatch returnAddress c syscallEntry).reg .r11 = c.reg .r11
  rsp : (run dispatch returnAddress c syscallEntry).reg .rsp = c.reg .rsp

/-! ### The stack -/

/-- The words from the stack pointer on. -/
def StackHolds (c : Cpu) (ws : List (BitVec 64)) : Prop :=
  ∀ i (h : i < ws.length), c.word (c.reg .rsp + BitVec.ofNat 64 (8 * i)) = ws.get ⟨i, h⟩

namespace Cpu

@[simp] theorem setReg_reg (c : Cpu) (r : Reg) (v : BitVec 64) : (c.setReg r v).reg = Function.update c.reg r v := rfl

@[simp] theorem setReg_word (c : Cpu) (r : Reg) (v a : BitVec 64) : (c.setReg r v).word a = c.word a := rfl

@[simp] theorem push_reg (c : Cpu) (v : BitVec 64) :
    (c.push v).reg = Function.update c.reg .rsp (c.reg .rsp - 8) := rfl

@[simp] theorem push_calls (c : Cpu) (v : BitVec 64) : (c.push v).calls = c.calls := rfl

theorem word_push (c : Cpu) (v : BitVec 64) : (c.push v).word (c.reg .rsp - 8) = v := by
  rw [word, push, read64_write64 _ _ v.isLt, BitVec.ofNat_toNat, BitVec.setWidth_eq]

/-- The words above the new one stay. -/
theorem word_push_of_above (c : Cpu) (v : BitVec 64) {i : Nat} (hi : 8 * i + 16 ≤ 2 ^ 64) :
    (c.push v).word (c.reg .rsp + BitVec.ofNat 64 (8 * i)) = c.word (c.reg .rsp + BitVec.ofNat 64 (8 * i)) := by
  have hrsp := (c.reg .rsp).isLt
  rw [word, push, word, read64_write64_of_disjoint]
  rw [BitVec.toNat_add, BitVec.toNat_sub, BitVec.toNat_ofNat, show (8 : BitVec 64).toNat = 8 from rfl]
  omega

end Cpu

theorem StackHolds.setReg {c : Cpu} {ws : List (BitVec 64)} (h : StackHolds c ws) {r : Reg} (hr : r ≠ .rsp)
    (v : BitVec 64) : StackHolds (c.setReg r v) ws := by
  intro i hi
  rw [Cpu.setReg_reg, Function.update_of_ne hr.symm, Cpu.setReg_word]
  exact h i hi

theorem StackHolds.push {c : Cpu} {ws : List (BitVec 64)} (h : StackHolds c ws) (v : BitVec 64)
    (hlen : 8 * ws.length + 16 ≤ 2 ^ 64) : StackHolds (c.push v) (v :: ws) := by
  intro i hi
  rw [Cpu.push_reg, Function.update_self]
  cases i with
  | zero =>
    rw [show c.reg .rsp - 8 + BitVec.ofNat 64 (8 * 0) = c.reg .rsp - 8 from BitVec.add_zero _, c.word_push]
    rfl
  | succ i =>
    rw [List.length_cons, Nat.succ_lt_succ_iff] at hi
    have haddr : c.reg .rsp - 8 + BitVec.ofNat 64 (8 * (i + 1)) = c.reg .rsp + BitVec.ofNat 64 (8 * i) := by
      apply BitVec.eq_of_toNat_eq
      have hrsp := (c.reg .rsp).isLt
      rw [BitVec.toNat_add, BitVec.toNat_add, BitVec.toNat_sub, BitVec.toNat_ofNat, BitVec.toNat_ofNat,
        show (8 : BitVec 64).toNat = 8 from rfl]
      omega
    rw [haddr, c.word_push_of_above v (by omega)]
    exact h i hi

/-- `mov dst, [rsp + 8 * i]` finds the word `i` of the stack. -/
theorem StackHolds.load {c : Cpu} {ws : List (BitVec 64)} (h : StackHolds c ws) (dispatch : Dispatch)
    (returnAddress : BitVec 64) (dst : Reg) (i : Nat) (hi : i < ws.length) :
    step dispatch returnAddress c (.load dst .rsp (BitVec.ofNat 64 (8 * i))) = c.setReg dst (ws.get ⟨i, hi⟩) := by
  rw [step, h i hi]

/-! ### The whole entry -/

section Entry

variable (dispatch : Dispatch) (returnAddress : BitVec 64) (c : Cpu)

/-- The state at the first instruction of `syscall_dispatch`. -/
def atDispatch : Cpu := (run dispatch returnAddress c entryPrologue).push returnAddress

/-- The state at the `ret` of `syscall_dispatch`. -/
def afterDispatch : BitVec 64 × Cpu :=
  dispatch (c.reg .rax) (c.reg .rdi) (c.reg .rsi) (c.reg .rdx) (atDispatch dispatch returnAddress c)

/-- At the call the arguments are in the registers of the ABI, and the user context lies on the kernel stack. -/
theorem prologue_spec :
    (run dispatch returnAddress c entryPrologue).reg .rdi = c.reg .rax ∧
    (run dispatch returnAddress c entryPrologue).reg .rsi = c.reg .rdi ∧
    (run dispatch returnAddress c entryPrologue).reg .rdx = c.reg .rsi ∧
    (run dispatch returnAddress c entryPrologue).reg .rcx = c.reg .rdx ∧
    (run dispatch returnAddress c entryPrologue).reg .rsp = c.static .scKernelRsp - 40 ∧
    (run dispatch returnAddress c entryPrologue).calls = c.calls ∧
    StackHolds (run dispatch returnAddress c entryPrologue)
      [c.reg .rdx, c.reg .rsi, c.reg .rdi, c.reg .r11, c.reg .rcx] := by
  let c₀ : Cpu := ({ c with static := Function.update c.static .scRspSave (c.reg .rsp) } : Cpu).setReg .rsp
    (c.static .scKernelRsp)
  let c₅ := ((((c₀.push (c.reg .rcx)).push (c.reg .r11)).push (c.reg .rdi)).push (c.reg .rsi)).push (c.reg .rdx)
  have hstack : StackHolds c₅ [c.reg .rdx, c.reg .rsi, c.reg .rdi, c.reg .r11, c.reg .rcx] := by
    have h₀ : StackHolds c₀ [] := fun i hi => absurd hi (Nat.not_lt_zero i)
    exact ((((h₀.push _ (by simp)).push _ (by simp)).push _ (by simp)).push _ (by simp)).push _ (by simp)
  -- the arguments are moved to their registers, three of them by way of the stack
  have hrun : run dispatch returnAddress c entryPrologue =
      (((c₅.setReg .rdi (c.reg .rax)).setReg .rsi (c.reg .rdi)).setReg .rdx (c.reg .rsi)).setReg
        .rcx (c.reg .rdx) := by
    have h₆ := hstack.setReg (r := .rdi) (by decide) (c.reg .rax)
    have h₇ := h₆.setReg (r := .rsi) (by decide) (c.reg .rdi)
    have h₈ := h₇.setReg (r := .rdx) (by decide) (c.reg .rsi)
    have e₇ := h₆.load dispatch returnAddress .rsi 2 (by simp)
    have e₈ := h₇.load dispatch returnAddress .rdx 1 (by simp)
    have e₉ := h₈.load dispatch returnAddress .rcx 0 (by simp)
    exact ((congrArg (fun c => step dispatch returnAddress (step dispatch returnAddress c (.load .rdx .rsp 8))
      (.load .rcx .rsp 0)) e₇).trans
      (congrArg (fun c => step dispatch returnAddress c (.load .rcx .rsp 0)) e₈)).trans e₉
  rw [hrun]
  refine ⟨rfl, rfl, rfl, rfl, ?_, rfl, ?_⟩
  · show c.static .scKernelRsp - 8 - 8 - 8 - 8 - 8 = c.static .scKernelRsp - 40
    simp only [BitVec.sub_sub]
    rfl
  · exact (((hstack.setReg (by decide) _).setReg (by decide) _).setReg (by decide) _).setReg (by decide) _

/-- The state at `sysretq`. -/
theorem run_syscallEntry : run dispatch returnAddress c syscallEntry =
    { (afterDispatch dispatch returnAddress c).2.setReg .rax (afterDispatch dispatch returnAddress c).1 with
      calls := c.calls ++
        [⟨c.reg .rax, c.reg .rdi, c.reg .rsi, c.reg .rdx, (afterDispatch dispatch returnAddress c).1⟩] } := by
  obtain ⟨h1, h2, h3, h4, -, h6, -⟩ := prologue_spec dispatch returnAddress c
  have hsplit : run dispatch returnAddress c syscallEntry =
      callDispatch dispatch returnAddress (run dispatch returnAddress c entryPrologue) := List.foldl_append
  rw [hsplit, afterDispatch, atDispatch]
  generalize run dispatch returnAddress c entryPrologue = c₁ at *
  have hreg : ∀ r, r ≠ .rsp → (c₁.push returnAddress).reg r = c₁.reg r := fun r hr => Function.update_of_ne hr _ _
  simp only [callDispatch, hreg .rdi (by decide), hreg .rsi (by decide), hreg .rdx (by decide), hreg .rcx (by decide),
    h1, h2, h3, h4, Cpu.push_calls, h6]

theorem reg_syscallEntry {r : Reg} (hr : r ≠ .rax) :
    (run dispatch returnAddress c syscallEntry).reg r = (afterDispatch dispatch returnAddress c).2.reg r := by
  rw [run_syscallEntry]
  exact Function.update_of_ne hr _ _

theorem rax_syscallEntry :
    (run dispatch returnAddress c syscallEntry).reg .rax = (afterDispatch dispatch returnAddress c).1 := by
  rw [run_syscallEntry]
  exact Function.update_self Reg.rax _ (afterDispatch dispatch returnAddress c).2.reg

/-- At `sysretq` the stack pointer is still in the kernel stack, five words below its top. -/
theorem rsp_syscallEntry (h : FollowsAbi dispatch 40) :
    (run dispatch returnAddress c syscallEntry).reg .rsp = c.static .scKernelRsp - 40 := by
  obtain ⟨-, -, -, -, h5, -, -⟩ := prologue_spec dispatch returnAddress c
  rw [reg_syscallEntry _ _ _ (by decide), afterDispatch, h.rsp, atDispatch, Cpu.push_reg, Function.update_self, h5,
    BitVec.sub_add_cancel]

/-- The dispatcher happens to leave what the user had in `RCX` and `R11`, and the stack of the user is the kernel
stack with the five words on it. -/
structure ContextUntouched : Prop where
  rip : (afterDispatch dispatch returnAddress c).2.reg .rcx = c.reg .rcx
  rflags : (afterDispatch dispatch returnAddress c).2.reg .r11 = c.reg .r11
  rsp : c.static .scKernelRsp - 40 = c.reg .rsp

end Entry

/-- A dispatcher that returns 0 and uses `RCX` and `R11` for itself. -/
def clobber (v : BitVec 64) : Dispatch := fun _ _ _ _ c =>
  (0, ((c.setReg .rsp (c.reg .rsp + 8)).setReg .rcx v).setReg .r11 v)

theorem followsAbi_clobber (v : BitVec 64) (frame : Nat) : FollowsAbi (clobber v) frame := by
  refine ⟨fun _ _ _ _ c r hr => ?_, fun _ _ _ _ _ => rfl, fun _ _ _ _ _ _ _ => rfl⟩
  simp only [calleeSaved, List.mem_cons, List.not_mem_nil, or_false] at hr
  rcases hr with rfl | rfl | rfl | rfl | rfl | rfl <;> rfl

/-- A system call preserves the user context only by accident: the arguments and the result are passed, but what the
entry has pushed is not taken back.  For every user state there is a dispatcher with which the context is lost. -/
theorem syscall_context_iff (c : Cpu) (returnAddress : BitVec 64) :
    (∀ dispatch, FollowsAbi dispatch 40 →
      (PreservesContext c dispatch returnAddress ↔ ContextUntouched dispatch returnAddress c)) ∧
    ∃ dispatch, FollowsAbi dispatch 40 ∧ ¬ PreservesContext c dispatch returnAddress := by
  have hiff : ∀ dispatch, FollowsAbi dispatch 40 →
      (PreservesContext c dispatch returnAddress ↔ ContextUntouched dispatch returnAddress c) := by
    intro dispatch habi
    have hrsp := rsp_syscallEntry dispatch returnAddress c habi
    have hreg := fun {r} => reg_syscallEntry dispatch returnAddress c (r := r)
    constructor
    · intro h
      refine ⟨?_, ?_, ?_⟩
      · rw [← hreg (r := .rcx) (by decide), h.rip]
      · rw [← hreg (r := .r11) (by decide), h.rflags]
      · rw [← hrsp, h.rsp]
    · intro h
      refine ⟨⟨(afterDispatch dispatch returnAddress c).1, ?_, ?_⟩, ?_, ?_, ?_⟩
      · rw [run_syscallEntry]
      · exact rax_syscallEntry dispatch returnAddress c
      · rw [hreg (r := .rcx) (by decide), h.rip]
      · rw [hreg (r := .r11) (by decide), h.rflags]
      · rw [hrsp, h.rsp]
  refine ⟨hiff, ?_⟩
  -- a callee may leave anything in `RCX`
  refine ⟨clobber (c.reg .rcx + 1), followsAbi_clobber _ _, fun h => ?_⟩
  have hrip : c.reg .rcx + 1 = c.reg .rcx := ((hiff _ (followsAbi_clobber _ _)).1 h).rip
  have := congrArg BitVec.toNat hrip
  rw [BitVec.toNat_add, show (1 : BitVec 64).toNat = 1 from rfl] at this
  have hlt := (c.reg .rcx).isLt
  omega

/-- A user at `0x400000` with its stack below `0x8010000`, and a kernel stack below `0x900000`. -/
def sampleCpu : Cpu where
  reg r := match r with
    | .rax => 1
    | .rcx => 0x400000
    | .r11 => 0x202
    | .rsp => 0x800FF00
    | _ => 0
  mem _ := 0
  static _ := 0x900000
  calls := []

/-- `sysretq` returns to address 0, on the kernel stack. -/
theorem syscall_context_lost :
    FollowsAbi (clobber 0) 40 ∧ (run (clobber 0) 0 sampleCpu syscallEntry).reg .rcx = 0 ∧
      (run (clobber 0) 0 sampleCpu syscallEntry).reg .r11 = 0 ∧
      (run (clobber 0) 0 sampleCpu syscallEntry).reg .rsp = 0x8FFFD8 ∧
      ¬ PreservesContext sampleCpu (clobber 0) 0 := by
  have hrcx : (run (clobber 0) 0 sampleCpu syscallEntry).reg .rcx = 0 := rfl
  refine ⟨followsAbi_clobber 0 40, hrcx, rfl, rfl, fun h => ?_⟩
  have := h.rip
  rw [hrcx] at this
  revert this
  decide

end Syscall

end Hammam
