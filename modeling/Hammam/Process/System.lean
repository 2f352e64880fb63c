import Hammam.Loader.Atomic
import Hammam.Mm.UserPtr
import Hammam.Process.Lifecycle
import Hammam.Vfs.RoundTrip

/-!
# System calls (`arch/x86_64/syscall.rs`, `main.rs`)

The other modules model the kernel part by part: the machine with its tables and frames, the tree of files, and the
scheduler with the tables of processes.  `sys_exec` uses all of them: it reads a path through a user pointer, looks
it up, reads the file, and has `from_elf` create a process from it.  Here the parts stand next to each other, and
`syscall_dispatch` works on the whole.

The kernel heap has 4 MiB, and a request that it refuses is a panic.  How it is filled is not followed here: for each
call, and for the boot, `heap` says whether it serves everything that is asked of it.  The stack of the system calls,
which is a single frame, is taken to be deep enough.  The calls are the functions of the kernel; the instructions that
lead into them from user space and back are another matter.  The lines that the kernel logs are left out.
-/

namespace Hammam

open Fallible Initramfs SlashPath

/-- The kernel as the process calls see it, the machine with the stack pointers, `VFS`, and `LOCAL_APIC_BASE`. -/
structure Pindos where
  kernel : Kernel
  memory : KernelState
  vfs : VfsTree InitramfsVnode
  localApicBase : Nat

/-- The vnode of a path is asked for its size, and then read into a buffer of that size. -/
def VfsTree.readFile {ν : Type} [Vnode ν] (t : VfsTree ν) (path : Str) : Except ExecError (List UInt8) :=
  match t.lookup path with
  | .error _ => .error .notFound
  | .ok vnode =>
    match Vnode.stat vnode with
    | .error _ => .error .badFile
    | .ok stat =>
      match Vnode.read vnode 0 (List.replicate stat.size 0) with
      | .error _ => .error .badFile
      | .ok (_, elfData) => .ok elfData

/-- `a0 as i32`. -/
def asI32 (a : Nat) : Int := (BitVec.ofNat 32 a).toInt

/-- What a boot depends on besides the archive and the machine. -/
structure BootEnv where
  /-- `EBX` of leaf 7 of `cpuid`. -/
  leaf7 : BitVec 32
  /-- `IA32_APIC_BASE`. -/
  apicMsr : Nat
  /-- The kernel heap serves everything that is asked of it. -/
  heap : Bool

/-- `enable_smep_smap` turns on what `cpuid` reports in the bits 7 and 20.  The tables of the boot code give every
page to user space as well (`0x87`), so that the first instruction after it faults with SMEP, and the first access
to memory with SMAP. -/
def enableSmepSmap (ebx : BitVec 32) : Option Unit := if ebx.getLsbD 7 || ebx.getLsbD 20 then none else some ()

/-- The address of the local APIC, from its MSR. -/
def apicBase (apicMsr : Nat) : Nat := apicMsr &&& 0xFFFFF000

namespace Pindos

section Calls

variable (checks : Bool) (parse : List UInt8 → Option ElfFile)

/-- `sys_exec` from the bytes of the file on; `none` is a panic in `from_elf` or an endless search in `add_task`. -/
def execFile (s : Pindos) (elfData : List UInt8) : Option (Int × Pindos) :=
  let kernel := { s.kernel with nextPid := s.kernel.nextPidAfter }
  match exec (createProcess checks parse s.kernel.nextPid elfData) s.memory with
  | (.error .halt, _) => none
  | (.error (.err _), memory) => some (-12, { s with kernel := kernel, memory := memory })
  | (.ok process, memory) =>
    match kernel.spawn process.pid process.entryPoint process.userStackTop with
    | none => none
    | some (p, kernel) => some (p.pid, { s with kernel := kernel, memory := memory })

/-- `sys_exec`; `none` is also a page fault, or a heap that is exhausted: from the lookup on the call asks for
memory. -/
def sysExec (heap : Bool) (s : Pindos) (pathPtr pathLen : Nat) : Option (Int × Pindos) :=
  match s.memory.machine.validateUserSlice pathPtr pathLen with
  | .error _ => some (ExecError.badAddress.errno, s)
  | .ok (ptr, len) => do
    let pathBytes ← s.memory.machine.readSlice ptr len
    match fromUtf8 pathBytes with
    | none => some (ExecError.badUtf8.errno, s)
    | some path =>
      if heap then
        match s.vfs.readFile path with
        | .error e => some (e.errno, s)
        | .ok elfData => s.execFile checks parse elfData
      else none

/-- `syscall_dispatch`: the returned number, the bytes for the serial port, and the state after the call.  A yield
puts a task into the run queue, which may need memory.  `sys_exit` does not return; it leaves the processor to the
next task or halts. -/
def dispatch (heap : Bool) (s : Pindos) (nr a0 a1 a2 : Nat) : Option (Int × List UInt8 × Pindos) :=
  match nr with
  | 0 => if heap then s.kernel.sysYield.map fun (r, kernel) => (r, [], { s with kernel := kernel }) else none
  | 1 => (s.memory.machine.sysWrite a0 a1 a2).map fun (r, out) => (r, out, s)
  | 2 => (s.sysExec checks parse heap a0 a1).map fun (r, s') => (r, [], s')
  | 3 =>
    let (r, kernel) := s.kernel.sysWaitpid a0 a1
    some (r, [], { s with kernel := kernel })
  | 60 => (s.kernel.sysExit (asI32 a0)).map fun (r, kernel) => (r, [], { s with kernel := kernel })
  | _ => some (-38, [], s)

/-- `timer_interrupt_entry`: `tick_now`, and `lapic_eoi`, which writes to the page of the local APIC. -/
def timer (heap : Bool) (s : Pindos) : Option Pindos :=
  if heap then
    match s.kernel.timer, s.memory.machine.translate (s.localApicBase + 0xB0) with
    | some (_, kernel), some _ => some { s with kernel := kernel }
    | _, _ => none
  else none

/-- `init_local_apic`: the new `LOCAL_APIC_BASE`, and the memory with the page of the local APIC mapped.  An error of
`map_page` is ignored there, and `none` is the page fault that follows. -/
def initLocalApic (apicMsr : Nat) (memory : KernelState) : Option (Nat × KernelState) :=
  let basePhys := apicBase apicMsr
  if basePhys = 0 then some (0, memory)
  else
    let mapped :=
      match memory.machine.translate basePhys with
      | some _ => memory
      | none =>
        { memory with machine :=
          (exec (mapPage basePhys ⟨basePhys⟩ (PageFlags.present ||| PageFlags.writable)) memory.machine).2 }
    match mapped.machine.translate basePhys with
    | some _ => some (basePhys, mapped)
    | none => none

/-- `_start_multiboot2` from the archive on, with `enable_smep_smap` before it; `none` is a panic or a fault. -/
def boot (env : BootEnv) (cpio : List UInt8) (memory : KernelState) : Option Pindos := do
  enableSmepSmap env.leaf7
  if env.heap then
    match InitramfsFs.parse cpio with
    | none => none
    | some initramfs =>
      match initramfs.lookupPath ['/'] with
      | .error _ => none
      | .ok rootVnode =>
        let vfs := VfsTree.new.mount ['/'] rootVnode
        match vfs.readFile "/init".toList with
        | .error _ => none
        | .ok elfData =>
          match exec (createProcess checks parse 1 elfData) memory with
          | (.error _, _) => none
          | (.ok process, memory) => do
            let kernel ← Kernel.boot process.entryPoint process.userStackTop
            let (base, memory) ← initLocalApic env.apicMsr memory
            some ⟨kernel, memory, vfs, base⟩
  else none

end Calls

end Pindos

/-- What the programs have to leave alone: what the kernel accesses by its physical address, that is its image with
the statics and the heap, the tables and the free frames, and the page of the stack for system calls. -/
def KernelState.Owns (k : KernelImage) (s : KernelState) (x : Nat) : Prop :=
  s.machine.Accessed k x ∨ (s.scKernelRsp ≤ x + 0x1000 ∧ x < s.scKernelRsp)

/-- The runs from `s₀`, with the number of steps: system calls with any number and arguments, ticks of the timer, and
writes of the programs to memory that is not the kernel's. -/
inductive Pindos.Run (checks : Bool) (parse : List UInt8 → Option ElfFile) (k : KernelImage) (s₀ : Pindos) :
    Pindos → Nat → Prop
  | start : Run checks parse k s₀ s₀ 0
  | call {s s' : Pindos} {n : Nat} {r : Int} {out : List UInt8} (heap : Bool) (nr a0 a1 a2 : Nat) :
    Run checks parse k s₀ s n → s.kernel.halted = false →
    s.dispatch checks parse heap nr a0 a1 a2 = some (r, out, s') → Run checks parse k s₀ s' (n + 1)
  | tick {s s' : Pindos} {n : Nat} (heap : Bool) : Run checks parse k s₀ s n → s.kernel.halted = false →
    s.timer heap = some s' → Run checks parse k s₀ s' (n + 1)
  | write {s : Pindos} {n : Nat} (mem : Memory) : Run checks parse k s₀ s n →
    (∀ x, s.memory.Owns k x → mem x = s.memory.machine.mem x) →
    Run checks parse k s₀ { s with memory := { s.memory with machine := { s.memory.machine with mem := mem } } } n

/-! ### Creating a process -/

section Create

variable {checks : Bool} {parse : List UInt8 → Option ElfFile} {pid : Nat} {data : List UInt8} {elf : ElfFile}
  {k : KernelState} {m : Machine}

/-- The entry point that the loader returns. -/
theorem load_entry (hparse : parse data = some elf) :
    Spec (load checks parse data) m (fun entry _ => entry = (elf.entryPoint + elf.loadOffset) % 2 ^ 64)
      fun _ _ => True := by
  unfold load
  simp only [hparse]
  refine wrapU64_bind (fun _ => trivial) fun _ => ?_
  refine Spec.bind (Spec.intro (fun _ _ _ => ?_) fun _ _ _ => trivial)
  exact Spec.bind (Spec.intro (fun _ _ _ => Spec.pure rfl) fun _ _ _ => trivial)

/-- What `from_elf` returns, and where the stack pointers point after it. -/
theorem createProcess_created (hparse : parse data = some elf) :
    Spec (createProcess checks parse pid data) k
      (fun p k' => k'.scKernelRsp = k'.tssRsp0 ∧ p = ⟨pid, (elf.entryPoint + elf.loadOffset) % 2 ^ 64, k'.tssRsp0,
        userStackVaddr + userStackPages * 0x1000⟩) fun _ _ => True := by
  unfold createProcess
  refine Spec.bind (Spec.onMachine (Spec.mapErr ((load_entry hparse).mono ?_ fun _ _ _ => trivial)))
  intro entry m₁ he
  refine Spec.bind (Spec.onMachine (Spec.intro (fun frame m₂ _ => ?_) fun _ _ _ => trivial))
  refine Spec.bind (Spec.modify ?_)
  refine Spec.bind (Spec.onMachine (Spec.intro (fun _ m₃ _ => ?_) fun _ _ _ => trivial))
  exact Spec.pure ⟨rfl, by rw [he]⟩

/-- With enough frames a harmless file becomes a process. -/
theorem createProcess_ok (hparse : parse data = some elf) (h : TableInv k.machine) (hs : elf.Sane data)
    (hh : elf.Harmless data) (hn : 5 * elf.callPages.length + 1 ≤ k.machine.alloc.freeFrames) :
    ∃ p k' g, exec (createProcess checks parse pid data) k = (.ok p, k') ∧ elf.relocated data = some g ∧
      Held (· ∈ elf.callPages) (· ∈ elf.callPages) k.machine k'.machine (stackPages.foldl VMem.forget g) ∧
      k'.scKernelRsp = k'.tssRsp0 ∧ p = ⟨pid, elf.entryPoint + elf.loadOffset, k'.tssRsp0,
        userStackVaddr + userStackPages * 0x1000⟩ ∧
      k.machine.alloc.freeFrames ≤ k'.machine.alloc.freeFrames + (5 * elf.callPages.length + 1) := by
  have hspec := @fromElf_spec checks parse pid _ data elf hparse h hs
  have hproj : exec (fromElf checks parse pid data) k.machine = _ := exec_createProcess
  rcases hx : exec (createProcess checks parse pid data) k with ⟨e | p, k'⟩
  · simp only [hx] at hproj
    obtain ⟨-, hhalt, hfew⟩ := hspec.of_error hproj
    by_cases he : e = .halt
    · exact absurd hh (hhalt he)
    · have := (hfew he).2
      omega
  · simp only [hx] at hproj
    obtain ⟨⟨g, hg, held⟩, hcount, -⟩ := hspec.of_ok hproj
    obtain ⟨hsc, hp⟩ := (createProcess_created hparse).of_ok hx
    rw [Nat.mod_eq_of_lt hh.entry] at hp
    exact ⟨p, k', g, rfl, hg, held, hsc, hp, hcount⟩

/-- The frame of the kernel stack was free, and no page of the process lies in it. -/
theorem createProcess_stack (hparse : parse data = some elf) (h : TableInv k.machine) (hs : elf.Sane data) :
    Spec (createProcess checks parse pid data) k
      (fun _ k' => ∃ n, k'.scKernelRsp = 4096 * n + 0x1000 ∧ FreeAt k.machine.alloc (4096 * n) ∧
        ∀ v x, pageNo v ∈ elf.callPages → k'.machine.translate v = some x → x / 4096 ≠ n)
      fun _ _ => True := by
  unfold createProcess
  refine Spec.bind (Spec.onMachine (Spec.mapErr ((load_spec (P := (· ∈ elf.callPages)) hparse h hs
    fun p hp => List.mem_append_left _ hp).mono ?_ fun _ _ _ => trivial)))
  intro entry m₁ hload
  obtain ⟨⟨g, -, h₁⟩, -⟩ := hload
  refine Spec.bind (Spec.onMachine (Spec.mapErr
    ((allocateFrame_spec h₁.conf.inv.sound).mono ?_ fun _ _ _ => trivial)))
  intro frame m₂ halloc
  obtain ⟨n, a, rfl, rfl, ht⟩ := halloc
  have h₂ : TableInv { m₁ with alloc := a } := (h₁.taken ht).conf.inv
  refine Spec.bind (Spec.modify (Spec.bind (Spec.onMachine ((mapStack_spec (P := (· ∈ stackPages)) (Held.start h₂)
    fun p hp => hp).mono ?_ fun _ _ _ => trivial))))
  intro _ m₃ hstack
  obtain ⟨h₃, -⟩ := hstack
  refine Spec.pure ⟨n, rfl, h₁.conf.free _ ht.was, fun v x hv hx => ?_⟩
  rcases h₃.conf.page v with he | ⟨-, hfresh⟩
  · -- the page of a segment, in a frame that was taken before
    by_cases hst : pageNo v ∈ stackPages
    · obtain ⟨y, hy, hfree, -⟩ := h₃.own v (Or.inr hst)
      obtain rfl : y = x := Option.some.inj (hy.symm.trans hx)
      exact ((ht.free y).1 hfree).2
    · obtain ⟨y, hy, -, -, hused⟩ := h₁.own v ((List.mem_append.1 hv).resolve_right hst)
      have hsame : m₁.translate v = some x := he.symm.trans hx
      obtain rfl : y = x := Option.some.inj (hy.symm.trans hsame)
      rintro rfl
      exact hused ((h₁.conf.inv.sound.freeAt_iff y).1 ht.was)
  · obtain ⟨y, hy, hfree, -⟩ := hfresh
    obtain rfl : y = x := Option.some.inj (hy.symm.trans hx)
    exact ((ht.free y).1 hfree).2

theorem createProcess_pid {p : Created} {k' : KernelState}
    (hok : exec (createProcess checks parse pid data) k = (.ok p, k')) : p.pid = pid := by
  have hspec : Spec (createProcess checks parse pid data) k (fun p _ => p.pid = pid) fun _ _ => True := by
    unfold createProcess
    refine Spec.bind (Spec.onMachine (Spec.intro (fun entry m₁ _ => ?_) fun _ _ _ => trivial))
    refine Spec.bind (Spec.onMachine (Spec.intro (fun frame m₂ _ => ?_) fun _ _ _ => trivial))
    refine Spec.bind (Spec.modify ?_)
    refine Spec.bind (Spec.onMachine (Spec.intro (fun _ m₃ _ => ?_) fun _ _ _ => trivial))
    exact Spec.pure rfl
  have hpost := Spec.of_ok hok hspec
  exact hpost

/-- A file that is fit to be loaded does not halt the kernel, and only its own pages are mapped. -/
theorem createProcess_contained (h : TableInv k.machine) (hs : ∀ elf, parse data = some elf → elf.Sane data)
    (hh : ∀ elf, parse data = some elf → elf.Harmless data) :
    (exec (createProcess checks parse pid data) k).1 ≠ .error .halt ∧
      Contained (MapsPage parse data) k.machine (exec (createProcess checks parse pid data) k).2.machine := by
  have hproj : exec (fromElf checks parse pid data) k.machine = _ := exec_createProcess
  constructor
  · intro hhalt
    cases hparse : parse data with
    | none =>
      rw [createProcess_rejected hparse] at hhalt
      cases hhalt
    | some elf =>
      rw [hhalt] at hproj
      obtain ⟨-, hno, -⟩ := (fromElf_spec hparse h (hs elf hparse)).of_error hproj
      exact hno rfl (hh elf hparse)
  · have hcont := @fromElf_contained checks parse pid _ data h hs
    have hlast := (hcont.mono (fun _ _ h => h.1) fun _ _ h => h).last
    rwa [hproj] at hlast

end Create

namespace Pindos

/-! ### The page of the local APIC -/

/-- From `m` to `m'` tables were added in free frames and nothing else was written, and what was mapped still is. -/
structure Keeps (m m' : Machine) : Prop where
  inv : TableInv m'
  new : ∀ {t}, m'.IsTable t → m.IsTable t ∨ FreeAt m.alloc (4096 * t)
  free : ∀ x, FreeAt m'.alloc x → FreeAt m.alloc x
  mem : ∀ x, ¬ m'.IsTable (x / 4096) → m'.mem x = m.mem x
  translate : ∀ {v x}, m.translate v = some x → m'.translate v = some x

namespace Keeps

variable {m m' : Machine}

theorem refl (h : TableInv m) : Keeps m m := ⟨h, Or.inl, fun _ h => h, fun _ _ => rfl, fun h => h⟩

/-- A frame in use that is no table does not become one. -/
theorem not_table (h : Keeps m m') (hs : m.alloc.Sound) {x : Nat} (ht : ¬ m.IsTable (x / 4096))
    (hf : ¬ FreeAt m.alloc x) : ¬ m'.IsTable (x / 4096) := by
  intro hx
  rcases h.new hx with hx | hx
  · exact ht hx
  · exact hf ((hs.freeAt_iff x).1 hx)

/-- What a process holds. -/
theorem readByte (h : Keeps m m') {P Q : Nat → Prop} {s₀ : Machine} {g : VMem} (held : Held P Q s₀ m g) {v : Nat}
    {b : UInt8} (hb : g (v % 2 ^ 48) = some b) : m'.readByte v = some b := by
  obtain ⟨hq, hc⟩ := held.content hb
  obtain ⟨x, hx, -, ht, hf⟩ := held.own v hq
  have hmem := h.mem x (h.not_table held.conf.inv.sound ht hf)
  rw [Machine.readByte, h.inv.hwTranslate, h.translate hx, Option.map_some, hmem, hc x hx]

/-- The page of an address that was not mapped. -/
theorem mapPage (h : TableInv m) {virt : Nat} (hv : m.translate virt = none) (phys : PhysFrame) (flags : PageFlags) :
    Keeps m (exec (Hammam.mapPage virt phys flags) m).2 := by
  have hgrows : ∀ {s : Machine}, TableInv s → Grows m s → (∀ {v x}, m.translate v = some x → s.translate v = some x) →
      Keeps m s := by
    intro s hi g htr
    refine ⟨hi, fun hpost => ?_, g.free, fun x hx => g.mem x fun p hp htab => hx ⟨p, hp, htab⟩, htr⟩
    obtain ⟨p, hp, htab⟩ := hpost
    exact (g.new hp htab).imp_left fun htab => ⟨p, hp, htab⟩
  refine Spec.last ((mapPage_spec h virt phys flags).mono ?_ ?_)
  · intro _ s hpost
    obtain ⟨hi, g, hmap, -⟩ := hpost
    refine hgrows hi g fun {v x} hx => ?_
    have hne : pageNo v ≠ pageNo virt := by
      intro hp
      rw [h.translate_page hx hp.symm] at hv
      cases hv
    rwa [hmap.translate_other h hi hne]
  · intro _ s hpost
    obtain ⟨hi, g, hprep, -⟩ := hpost
    refine hgrows hi g fun {v x} hx => ?_
    rwa [Machine.translate_eq hi.upper, hprep.mapping, ← Machine.translate_eq h.upper]

end Keeps

theorem apicBase_lt (apicMsr : Nat) : apicBase apicMsr < 2 ^ 32 := Nat.and_lt_two_pow _ (by decide)

theorem apicBase_eq (apicMsr : Nat) : 4096 * (apicBase apicMsr / 4096) = apicBase apicMsr := by
  have hmod : apicBase apicMsr % 2 ^ 12 = 0 := by
    rw [apicBase, Nat.and_mod_two_pow]
    exact Nat.and_zero _
  omega

/-- The page of the local APIC is mapped, if there is one, and everything else is left alone. -/
theorem initLocalApic_keeps {apicMsr base : Nat} {memory memory' : KernelState} (h : TableInv memory.machine)
    (hx : initLocalApic apicMsr memory = some (base, memory')) :
    Keeps memory.machine memory'.machine ∧ memory'.scKernelRsp = memory.scKernelRsp ∧
      (base = 0 ∨ base = apicBase apicMsr ∧ (memory'.machine.translate base).isSome) := by
  unfold initLocalApic at hx
  simp only at hx
  split at hx
  · cases hx
    exact ⟨.refl h, rfl, Or.inl rfl⟩
  · split at hx
    · rename_i hsome
      cases hx
      cases htr : memory.machine.translate (apicBase apicMsr) with
      | some x => exact ⟨.refl h, rfl, Or.inr ⟨rfl, by rw [htr] at hsome ⊢; rfl⟩⟩
      | none =>
        rw [htr] at hsome
        exact ⟨.mapPage h htr _ _, rfl, Or.inr ⟨rfl, by simp only [hsome]; rfl⟩⟩
    · cases hx

/-- Three frames are enough for the tables of this page. -/
theorem initLocalApic_isSome (apicMsr : Nat) {memory : KernelState} (h : TableInv memory.machine)
    (hn : 3 ≤ memory.machine.alloc.freeFrames) : ∃ p, initLocalApic apicMsr memory = some p := by
  unfold initLocalApic
  simp only
  split
  · exact ⟨_, rfl⟩
  · cases htr : memory.machine.translate (apicBase apicMsr) with
    | some x => exact ⟨(apicBase apicMsr, memory), by simp only [htr]⟩
    | none =>
      have hmissing := memory.machine.missing_le (apicBase apicMsr)
      obtain ⟨s', hs'⟩ := mapPage_ok_of_missing h (apicBase apicMsr) (by omega) ⟨apicBase apicMsr⟩
        (PageFlags.present ||| PageFlags.writable)
      obtain ⟨hi, -, hmap, -⟩ := (mapPage_spec h (apicBase apicMsr) ⟨apicBase apicMsr⟩ _).of_ok hs'
      have hlt := apicBase_lt apicMsr
      rw [← apicBase_eq apicMsr] at hmap
      have hmaps := (hmap.translate hi (by omega)).1
      rw [apicBase_eq] at hmaps
      exact ⟨(apicBase apicMsr, { memory with machine := s' }), by simp only [hs', hmaps]⟩

/-! ### What a call changes -/

section Calls

variable {checks heap : Bool} {parse : List UInt8 → Option ElfFile} {k : KernelImage} {s s' s₀ : Pindos} {n : Nat}
  {r : Int}

theorem execFile_event {data : List UInt8} (h : s.execFile checks parse data = some (r, s')) :
    (∃ image, s.kernel.step (.exec image) = some (r, s'.kernel)) ∧
      s'.memory = (exec (createProcess checks parse s.kernel.nextPid data) s.memory).2 := by
  unfold execFile at h
  simp only at h
  split at h
  · cases h
  · rename_i e memory hx
    cases h
    exact ⟨⟨.invalid, rfl⟩, by rw [hx]⟩
  · rename_i process memory hx
    have hpid : process.pid = s.kernel.nextPid := createProcess_pid hx
    split at h
    · cases h
    · rename_i p kernel hsp
      cases h
      rw [hpid] at hsp
      refine ⟨⟨.loaded process.entryPoint process.userStackTop, ?_⟩, by rw [hx]⟩
      simp only [Kernel.step, Kernel.sysExec, hsp]

theorem sysExec_event {ptr len : Nat} (h : s.sysExec checks parse heap ptr len = some (r, s')) :
    (∃ image, s.kernel.step (.exec image) = some (r, s'.kernel)) ∧
      (s'.memory = s.memory ∨ ∃ path data, s.vfs.readFile path = .ok data ∧
        s'.memory = (exec (createProcess checks parse s.kernel.nextPid data) s.memory).2) := by
  unfold sysExec at h
  split at h
  · cases h
    exact ⟨⟨.missing .badAddress, rfl⟩, Or.inl rfl⟩
  · obtain ⟨bytes, -, h⟩ := Option.bind_eq_some_iff.1 h
    split at h
    · cases h
      exact ⟨⟨.missing .badUtf8, rfl⟩, Or.inl rfl⟩
    · rename_i path hpath
      split at h
      · split at h
        · rename_i e he
          cases h
          exact ⟨⟨.missing e, rfl⟩, Or.inl rfl⟩
        · rename_i data hdata
          obtain ⟨hevent, hmem⟩ := execFile_event h
          exact ⟨hevent, Or.inr ⟨path, data, hdata, hmem⟩⟩
      · cases h

/-- A system call is an event of the kernel or leaves it alone, and only `sys_exec` of a file changes the machine. -/
theorem dispatch_event {nr a0 a1 a2 : Nat} {out : List UInt8}
    (h : s.dispatch checks parse heap nr a0 a1 a2 = some (r, out, s')) :
    (s'.kernel = s.kernel ∨ ∃ e, s.kernel.step e = some (r, s'.kernel)) ∧
      (s'.memory = s.memory ∨ ∃ path data, s.vfs.readFile path = .ok data ∧
        s'.memory = (exec (createProcess checks parse s.kernel.nextPid data) s.memory).2) := by
  unfold dispatch at h
  split at h
  · split at h
    · obtain ⟨p, hp, he⟩ := Option.map_eq_some_iff.1 h
      cases he
      exact ⟨Or.inr ⟨.yield, hp⟩, Or.inl rfl⟩
    · cases h
  · obtain ⟨p, -, he⟩ := Option.map_eq_some_iff.1 h
    cases he
    exact ⟨Or.inl rfl, Or.inl rfl⟩
  · obtain ⟨p, hp, he⟩ := Option.map_eq_some_iff.1 h
    cases he
    obtain ⟨⟨image, hevent⟩, hmem⟩ := sysExec_event hp
    exact ⟨Or.inr ⟨_, hevent⟩, hmem⟩
  · cases h
    exact ⟨Or.inr ⟨.waitpid a0 a1, rfl⟩, Or.inl rfl⟩
  · obtain ⟨p, hp, he⟩ := Option.map_eq_some_iff.1 h
    cases he
    exact ⟨Or.inr ⟨.exit (asI32 a0), hp⟩, Or.inl rfl⟩
  · cases h
    exact ⟨Or.inl rfl, Or.inl rfl⟩

/-- A tick is an event of the kernel, and changes nothing else. -/
theorem timer_eq_some : s.timer heap = some s' ↔ heap = true ∧ (∃ r, s.kernel.step .tick = some (r, s'.kernel)) ∧
    s' = { s with kernel := s'.kernel } ∧ (s.memory.machine.translate (s.localApicBase + 0xB0)).isSome := by
  have hstep : s.kernel.step .tick = s.kernel.timer := rfl
  rw [hstep]
  constructor
  · intro h
    unfold timer at h
    split at h
    · rename_i hheap
      split at h
      · rename_i r kernel x hk hx
        cases h
        exact ⟨hheap, ⟨r, hk⟩, rfl, by rw [hx]; rfl⟩
      · cases h
    · cases h
  · rintro ⟨rfl, ⟨r, hk⟩, hs, hx⟩
    obtain ⟨x, hx⟩ := Option.isSome_iff_exists.1 hx
    rw [timer, if_pos rfl, hk, hx]
    exact congrArg some hs.symm

/-- What no call changes: the tree of files, and the address of the local APIC. -/
def statics (s : Pindos) : VfsTree InitramfsVnode × Nat := (s.vfs, s.localApicBase)

theorem statics_execFile {data : List UInt8} {r : Int} (h : s.execFile checks parse data = some (r, s')) :
    s'.statics = s.statics := by
  unfold execFile at h
  simp only at h
  split at h
  · cases h
  · cases h
    rfl
  · split at h
    · cases h
    · cases h
      rfl

theorem statics_sysExec {ptr len : Nat} {r : Int} (h : s.sysExec checks parse heap ptr len = some (r, s')) :
    s'.statics = s.statics := by
  unfold sysExec at h
  split at h
  · cases h
    rfl
  · obtain ⟨bytes, -, h⟩ := Option.bind_eq_some_iff.1 h
    split at h
    · cases h
      rfl
    · split at h
      · split at h
        · cases h
          rfl
        · exact statics_execFile h
      · cases h

theorem statics_dispatch {nr a0 a1 a2 : Nat} {r : Int} {out : List UInt8}
    (h : s.dispatch checks parse heap nr a0 a1 a2 = some (r, out, s')) : s'.statics = s.statics := by
  unfold dispatch at h
  split at h
  · split at h
    · obtain ⟨p, -, hp⟩ := Option.map_eq_some_iff.1 h
      cases hp
      rfl
    · cases h
  · obtain ⟨p, -, hp⟩ := Option.map_eq_some_iff.1 h
    cases hp
    rfl
  · obtain ⟨p, hp, he⟩ := Option.map_eq_some_iff.1 h
    cases he
    exact statics_sysExec hp
  · cases h
    rfl
  · obtain ⟨p, -, hp⟩ := Option.map_eq_some_iff.1 h
    cases hp
    rfl
  · cases h
    rfl

theorem Run.statics (h : Run checks parse k s₀ s n) : s.statics = s₀.statics := by
  induction h with
  | start => rfl
  | call heap nr a0 a1 a2 _ _ hs ih => exact (statics_dispatch hs).trans ih
  | tick heap _ _ hs ih =>
    obtain ⟨-, -, he, -⟩ := timer_eq_some.1 hs
    rw [he]
    exact ih
  | write mem _ _ ih => exact ih

end Calls

end Pindos

end Hammam
