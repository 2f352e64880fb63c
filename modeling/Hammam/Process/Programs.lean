import Hammam.Process.System

/-!
# The programs in the archive (`main.rs`, `userspace_blob.rs`)

The files of an archive are what every path leads to, from the boot on.  The programs among them that keep off the
memory of the kernel can be executed in any order: the kernel reaches its own memory in every state, and a program
finds itself in frames that are not the kernel's.
-/

namespace Hammam

open Fallible Initramfs SlashPath

/-! ### Files -/

/-- What is at the path with the given parts: a file, a directory, or nothing. -/
def fileAt (files : List (List Str × List UInt8)) (cs : List Str) : Except ExecError (List UInt8) :=
  match files.find? (·.1 = cs) with
  | some f => .ok f.2
  | none => if cs = [] ∨ ∃ f ∈ files, cs <+: f.1 then .error .badFile else .error .notFound

/-- A regular file is read as a whole. -/
theorem VfsTree.readFile_regular {t : VfsTree InitramfsVnode} {path : Str} {v : InitramfsVnode}
    (h : t.lookup path = .ok v) (hk : v.fs.kind = .regular) : t.readFile path = .ok v.fs.data := by
  have hstat : Vnode.stat v = .ok ⟨v.fs.data.length, v.fs.kind⟩ := rfl
  have hread := read_regular hk 0 (List.replicate v.fs.data.length 0)
  simp only [List.length_replicate, Nat.zero_add, Nat.min_self, slice, List.drop_zero, Nat.sub_zero,
    List.take_length] at hread
  unfold VfsTree.readFile
  simp only [h, hstat, hread]
  rw [List.drop_eq_nil_of_le (by rw [List.length_replicate]), List.append_nil]

/-- A directory has a size, but cannot be read. -/
theorem VfsTree.readFile_directory {t : VfsTree InitramfsVnode} {path : Str} {v : InitramfsVnode}
    (h : t.lookup path = .ok v) (hk : v.fs.kind = .directory) : t.readFile path = .error .badFile := by
  have hstat : Vnode.stat v = .ok ⟨v.fs.data.length, v.fs.kind⟩ := rfl
  have hread : ∀ buf, Vnode.read v 0 buf = .error .notAFile := by
    intro buf
    show InitramfsVnode.read v 0 buf = _
    unfold InitramfsVnode.read
    rw [if_pos (by rw [hk]; decide)]
  unfold VfsTree.readFile
  simp only [h, hstat, hread]

/-- The archive of the files is mounted, and a path is read as the files say. -/
theorem Archivable.readFile {files : List (List Str × List UInt8)} (h : Archivable files) :
    ∃ fs root, InitramfsFs.parse (archiveOf files) = some fs ∧ fs.lookupPath ['/'] = .ok root ∧
      ∀ path, (VfsTree.new.mount ['/'] root).readFile path = fileAt files (parts '/' path) := by
  refine ⟨_, _, h.parse_eq, InitramfsFs.lookupPath_canonical _ valid_nil, fun path => ?_⟩
  have hv : Valid '/' (parts '/' path) := valid_parts path
  have hlookup := lookup_mounted ((treeOf (Archivable.entries files)).vnodeAt []
    (treeOf (Archivable.entries files)).root) path
  generalize parts '/' path = cs at hv hlookup
  unfold fileAt
  cases hfind : files.find? (·.1 = cs) with
  | some f =>
    have hf : f ∈ files := List.mem_of_find?_eq_some hfind
    obtain rfl : f.1 = cs := by simpa using List.find?_some hfind
    obtain ⟨ch, hwalk⟩ := h.walk_file hf
    exact VfsTree.readFile_regular (hlookup.trans hwalk) rfl
  | none =>
    have hno : ∀ f ∈ files, f.1 ≠ cs := by
      intro f hf
      have := List.find?_eq_none.1 hfind f hf
      simpa using this
    simp only
    split
    · rename_i hdir
      -- the root, or a directory above a file
      by_cases hcs : cs = []
      · subst hcs
        exact VfsTree.readFile_directory hlookup rfl
      · obtain ⟨f, hf, hp⟩ := hdir.resolve_left hcs
        obtain ⟨ch, hwalk⟩ := h.walk_prefix hf hp (hno f hf).symm
        exact VfsTree.readFile_directory (hlookup.trans hwalk) rfl
    · rename_i hdir
      obtain ⟨hcs, hnone⟩ := not_or.1 hdir
      obtain ⟨e, hwalk⟩ := h.walk_error hv hcs fun f hf hp => hnone ⟨f, hf, hp⟩
      unfold VfsTree.readFile
      simp only [hlookup, hwalk]

section Names

variable {files : List (List Str × List UInt8)}

/-- The file at a path is the only one of this name. -/
theorem Archivable.fileAt_eq (h : Archivable files) {f : List Str × List UInt8} (hf : f ∈ files) :
    fileAt files f.1 = .ok f.2 := by
  unfold fileAt
  cases hfind : files.find? (·.1 = f.1) with
  | none => simpa using List.find?_eq_none.1 hfind f hf
  | some g =>
    have hg : g.1 = f.1 := by simpa using List.find?_some hfind
    rw [List.inj_on_of_nodup_map h.distinct (List.mem_of_find?_eq_some hfind) hf (by rw [hg])]

theorem fileAt_directory {cs : List Str} (hno : ∀ f ∈ files, f.1 ≠ cs) (hd : cs = [] ∨ ∃ f ∈ files, cs <+: f.1) :
    fileAt files cs = .error .badFile := by
  unfold fileAt
  rw [List.find?_eq_none.2 (by simpa using hno)]
  exact if_pos hd

theorem fileAt_missing {cs : List Str} (hne : cs ≠ []) (hno : ∀ f ∈ files, ¬ cs <+: f.1) :
    fileAt files cs = .error .notFound := by
  unfold fileAt
  rw [List.find?_eq_none.2 fun f hf he => hno f hf (by
    rw [decide_eq_true_eq] at he
    rw [he])]
  refine if_neg ?_
  rintro (he | ⟨f, hf, hp⟩)
  · exact hne he
  · exact hno f hf hp

/-- Bytes that decode are the encoding of the string. -/
theorem encodeUtf8_of_fromUtf8 {bytes : List UInt8} {path : Str} (h : fromUtf8 bytes = some path) :
    bytes = encodeUtf8 path := by
  obtain ⟨a, ha, rfl⟩ := Option.map_eq_some_iff.1 h
  have hsome : bytes.toByteArray.utf8Decode?.isSome := by rw [ha]; rfl
  have hencode := ByteArray.utf8Encode_get_utf8Decode? (b := bytes.toByteArray) (h := hsome)
  simp only [ha, Option.get_some] at hencode
  have hlists := congrArg (fun b : ByteArray => b.data.toList) hencode
  simpa [List.utf8Encode, encodeUtf8] using hlists.symm

/-- What a path leads to is a file of the archive. -/
theorem fileAt_ok {files : List (List Str × List UInt8)} {cs : List Str} {data : List UInt8}
    (h : fileAt files cs = .ok data) : ∃ f ∈ files, f.2 = data := by
  unfold fileAt at h
  split at h
  · rename_i f hf
    cases h
    exact ⟨f, List.mem_of_find?_eq_some hf, rfl⟩
  · split at h
    · cases h
    · cases h

end Names

/-- A processor without SMEP and SMAP, and a kernel heap that serves the boot. -/
structure BootEnv.Fit (env : BootEnv) : Prop where
  smep : env.leaf7.getLsbD 7 = false
  smap : env.leaf7.getLsbD 20 = false
  heap : env.heap = true

namespace Pindos

/-! ### The pages of the programs -/

/-- A page that an execution of one of the files maps. -/
def ProgramPage (parse : List UInt8 → Option ElfFile) (files : List (List Str × List UInt8)) (p : Nat) : Prop :=
  ∃ f ∈ files, MapsPage parse f.2 p

/-- Files that the kernel can be shipped with: those that are executables are fit to be loaded, and keep off the
memory that the kernel accesses by its physical address, and off the page of the local APIC. -/
structure Shipped (parse : List UInt8 → Option ElfFile) (k : KernelImage) (m : Machine) (apicMsr : Nat)
    (files : List (List Str × List UInt8)) : Prop where
  sane : ∀ f ∈ files, ∀ elf, parse f.2 = some elf → elf.Sane f.2
  harmless : ∀ f ∈ files, ∀ elf, parse f.2 = some elf → elf.Harmless f.2
  apart : ∀ x, m.Accessed k x → ¬ ProgramPage parse files (pageNo x)
  apic : ¬ ProgramPage parse files (pageNo (apicBase apicMsr))

/-- From `m` to `t` the kernel has got no more memory to access by its physical address, and only pages of `P` are
translated to something else. -/
structure Grounded (P : Nat → Prop) (k : KernelImage) (m t : Machine) : Prop where
  tables : TableInv t
  accessed : ∀ x, t.Accessed k x → m.Accessed k x
  kept : ∀ {v x}, ¬ P (pageNo v) → m.translate v = some x → t.translate v = some x

namespace Grounded

variable {P P' : Nat → Prop} {k : KernelImage} {m t t' : Machine}

theorem refl (h : TableInv m) : Grounded P k m m := ⟨h, fun _ hx => hx, fun _ hx => hx⟩

/-- The kernel can still reach what it accesses by its physical address. -/
theorem identity (h : Grounded P k m t) (hi : m.Identity k) (hP : ∀ x, m.Accessed k x → ¬ P (pageNo x)) :
    t.Identity k :=
  fun x hx => h.kept (hP x (h.accessed x hx)) (hi x (h.accessed x hx))

theorem contained (h : Grounded P k m t) (c : Contained P' t t') (hP : ∀ p, P' p → P p) : Grounded P k m t' := by
  refine ⟨c.inv, fun x hx => h.accessed x (c.accessed h.tables hx), fun {v x} hv hx => ?_⟩
  rcases c.page v with he | ⟨hp, -⟩
  · exact he.trans (h.kept hv hx)
  · exact absurd (hP _ hp) hv

theorem keeps (h : Grounded P k m t) (hk : Keeps t t') : Grounded P k m t' := by
  refine ⟨hk.inv, fun x hx => h.accessed x ?_, fun hv hx => hk.translate (h.kept hv hx)⟩
  rcases hx with hx | hx | hx
  · exact Or.inl hx
  · rcases hk.new hx with hx | hx
    · exact Or.inr (Or.inl hx)
    · exact Or.inr (Or.inr ((h.tables.sound.freeAt_iff x).1 hx))
  · exact Or.inr (Or.inr (hk.free x hx))

theorem write (h : Grounded P k m t) (w : Twin t t') : Grounded P k m t' := by
  refine ⟨w.inv h.tables, fun x hx => h.accessed x ?_, fun hv hx => ?_⟩
  · rwa [Machine.Accessed, w.isTable_iff, w.alloc] at hx
  · rw [w.translate h.tables]
    exact h.kept hv hx

end Grounded

theorem Shipped.mono {parse : List UInt8 → Option ElfFile} {P : Nat → Prop} {k : KernelImage} {m t : Machine}
    {apicMsr : Nat} {files : List (List Str × List UInt8)} (h : Shipped parse k m apicMsr files)
    (hg : Grounded P k m t) : Shipped parse k t apicMsr files :=
  { h with apart := fun x hx => h.apart x (hg.accessed x hx) }

section Runs

variable {checks : Bool} {parse : List UInt8 → Option ElfFile} {k : KernelImage} {m : Machine} {env : BootEnv}
  {files : List (List Str × List UInt8)} {s₀ s s' : Pindos} {n pid apicMsr : Nat} {memory : KernelState}

/-- Creating a process from a file of the archive. -/
theorem Grounded.create (h : Grounded (ProgramPage parse files) k m memory.machine)
    (hf : Shipped parse k m apicMsr files) {f : List Str × List UInt8} (hm : f ∈ files) :
    (exec (createProcess checks parse pid f.2) memory).1 ≠ .error .halt ∧
      Grounded (ProgramPage parse files) k m (exec (createProcess checks parse pid f.2) memory).2.machine := by
  obtain ⟨hret, hcont⟩ := createProcess_contained h.tables (hf.sane f hm) (hf.harmless f hm)
  exact ⟨hret, h.contained hcont fun p hp => ⟨f, hm, hp⟩⟩

/-- What a boot has done when it is over. -/
theorem boot_cases {cpio : List UInt8} (hb : boot checks parse env cpio memory = some s₀) :
    ∃ fs root data process memory', InitramfsFs.parse cpio = some fs ∧ fs.lookupPath ['/'] = .ok root ∧
      s₀.vfs = VfsTree.new.mount ['/'] root ∧ s₀.vfs.readFile "/init".toList = .ok data ∧
      exec (createProcess checks parse 1 data) memory = (.ok process, memory') ∧
      Kernel.boot process.entryPoint process.userStackTop = some s₀.kernel ∧
      initLocalApic env.apicMsr memory' = some (s₀.localApicBase, s₀.memory) := by
  unfold boot at hb
  obtain ⟨-, -, hb⟩ := Option.bind_eq_some_iff.1 hb
  split at hb
  · split at hb
    · cases hb
    · rename_i fs hfs
      split at hb
      · cases hb
      · rename_i root hroot
        simp only at hb
        split at hb
        · cases hb
        · rename_i data hdata
          split at hb
          · cases hb
          · rename_i process memory' hx
            obtain ⟨kernel, hkernel, hb⟩ := Option.bind_eq_some_iff.1 hb
            obtain ⟨⟨base, memory''⟩, hapic, hb⟩ := Option.bind_eq_some_iff.1 hb
            cases hb
            exact ⟨fs, root, data, process, memory', hfs, hroot, rfl, hdata, hx, hkernel, hapic⟩
  · cases hb

/-- Booting mounts the archive. -/
theorem readFile_boot (h : Archivable files) (hb : boot checks parse env (archiveOf files) memory = some s₀)
    (path : Str) : s₀.vfs.readFile path = fileAt files (parts '/' path) := by
  obtain ⟨fs, root, hparse, hroot, hread⟩ := h.readFile
  obtain ⟨fs', root', -, -, -, hparse', hroot', hvfs, -⟩ := boot_cases hb
  rw [hparse, Option.some.injEq] at hparse'
  subst hparse'
  rw [hroot, Except.ok.injEq] at hroot'
  rw [hvfs, ← hroot', hread]

theorem Run.readFile (h : Archivable files) (hb : boot checks parse env (archiveOf files) memory = some s₀)
    (hr : Run checks parse k s₀ s n) (path : Str) : s.vfs.readFile path = fileAt files (parts '/' path) := by
  have hvfs : s.vfs = s₀.vfs := congrArg Prod.fst hr.statics
  rw [hvfs, readFile_boot h hb]

theorem grounded_boot (h : Archivable files) (hf : Shipped parse k memory.machine env.apicMsr files)
    (hi : TableInv memory.machine)
    (hb : boot checks parse env (archiveOf files) memory = some s₀) :
    Grounded (ProgramPage parse files) k memory.machine s₀.memory.machine ∧
      (s₀.localApicBase = 0 ∨ s₀.localApicBase = apicBase env.apicMsr ∧
        (s₀.memory.machine.translate s₀.localApicBase).isSome) := by
  obtain ⟨-, -, data, process, memory', -, -, -, hdata, hx, -, hapic⟩ := boot_cases hb
  rw [readFile_boot h hb] at hdata
  obtain ⟨f, hm, rfl⟩ := fileAt_ok hdata
  have hcreate := (@Grounded.create checks parse _ _ _ 1 _ _ (.refl hi) hf f hm).2
  rw [hx] at hcreate
  obtain ⟨hkeeps, -, hbase⟩ := initLocalApic_keeps hcreate.tables hapic
  exact ⟨hcreate.keeps hkeeps, hbase⟩

/-- Calls and ticks, and writes of the programs: what each step preserves, and so every run. -/
theorem Run.grounded (hf : Shipped parse k m apicMsr files)
    (h : Grounded (ProgramPage parse files) k m s₀.memory.machine)
    (hread : ∀ path, s₀.vfs.readFile path = fileAt files (parts '/' path)) (hr : Run checks parse k s₀ s n) :
    Grounded (ProgramPage parse files) k m s.memory.machine := by
  induction hr with
  | start => exact h
  | @call s s' n r out heap nr a0 a1 a2 hr hh hs ih =>
    have hvfs : s.vfs = s₀.vfs := congrArg Prod.fst hr.statics
    obtain ⟨-, hmem | ⟨path, data, hdata, hmem⟩⟩ := dispatch_event hs
    · rw [hmem]
      exact ih
    · rw [hvfs, hread] at hdata
      obtain ⟨f, hm, rfl⟩ := fileAt_ok hdata
      rw [hmem]
      exact (ih.create hf hm).2
  | tick heap hr hh hs ih =>
    obtain ⟨-, -, he, -⟩ := timer_eq_some.1 hs
    rw [he]
    exact ih
  | write mem hr hmem ih => exact ih.write ⟨rfl, rfl, fun x hx => hmem x (Or.inl (Or.inr (Or.inl hx)))⟩

end Runs

end Pindos

section Exec

variable {checks : Bool} {parse : List UInt8 → Option ElfFile} {files : List (List Str × List UInt8)}
  {memory : KernelState} {s₀ s : Pindos} {k : KernelImage} {memoryMap : List MemoryRegion} {fs : FrameState}
  {mem : Memory} {env : BootEnv} {n : Nat}

/-- After booting with an archive of any files whose programs are fit to be loaded, and whatever has happened since,
the kernel can reach its own memory, and `sys_exec` starts exactly the file whose name has the parts of the path; with
a directory or with a path that leads nowhere it has done nothing. -/
theorem exec_follows_files (h : Archivable files) (b : BootLayout k memoryMap fs)
    (hmem : memory.machine = Machine.boot mem fs.alloc)
    (hf : Pindos.Shipped parse k memory.machine env.apicMsr files)
    (hb : Pindos.boot checks parse env (archiveOf files) memory = some s₀) (hr : Pindos.Run checks parse k s₀ s n)
    {ptr len p l : Nat} (hv : s.memory.machine.validateUserSlice ptr len = .ok (p, l)) {bytes : List UInt8}
    (hbytes : s.memory.machine.readSlice p l = some bytes) :
    s.memory.machine.Identity k ∧
    (∀ f ∈ files, ∀ path, bytes = encodeUtf8 path → parts '/' path = f.1 →
      s.sysExec checks parse true ptr len = s.execFile checks parse f.2) ∧
    (∀ path, bytes = encodeUtf8 path → (∀ f ∈ files, f.1 ≠ parts '/' path) →
      (parts '/' path = [] ∨ ∃ f ∈ files, parts '/' path <+: f.1) →
      s.sysExec checks parse true ptr len = some (-5, s)) ∧
    (∀ path, bytes = encodeUtf8 path → parts '/' path ≠ [] → (∀ f ∈ files, ¬ parts '/' path <+: f.1) →
      s.sysExec checks parse true ptr len = some (-2, s)) ∧
    ((∀ path, bytes ≠ encodeUtf8 path) → ∀ heap, s.sysExec checks parse heap ptr len = some (-22, s)) := by
  have hpath : ∀ {path}, bytes = encodeUtf8 path → fromUtf8 bytes = some path := fun hp => hp ▸ fromUtf8_encodeUtf8 _
  have hok : ∀ {path data}, bytes = encodeUtf8 path → fileAt files (parts '/' path) = .ok data →
      s.sysExec checks parse true ptr len = s.execFile checks parse data := by
    intro path data hp hfile
    simp only [Pindos.sysExec, hv, hbytes, Option.bind_eq_bind, Option.bind_some, hpath hp, hr.readFile h hb, hfile,
      if_true]
  have herror : ∀ {path e}, bytes = encodeUtf8 path → fileAt files (parts '/' path) = .error e →
      s.sysExec checks parse true ptr len = some (e.errno, s) := by
    intro path e hp hfile
    simp only [Pindos.sysExec, hv, hbytes, Option.bind_eq_bind, Option.bind_some, hpath hp, hr.readFile h hb, hfile,
      if_true]
  refine ⟨?_, fun f hf path hp hparts => ?_, fun path hp hno hd => ?_, fun path hp hne hno => ?_, fun hno heap => ?_⟩
  · obtain ⟨hi, hid⟩ := b.started hmem
    exact (hr.grounded hf (Pindos.grounded_boot h hf hi hb).1 (Pindos.readFile_boot h hb)).identity hid hf.apart
  · exact hok hp (hparts ▸ h.fileAt_eq hf)
  · exact herror hp (fileAt_directory hno hd)
  · exact herror hp (fileAt_missing hne hno)
  · have hnone : fromUtf8 bytes = none := by
      cases hu : fromUtf8 bytes with
      | none => rfl
      | some path => exact absurd (encodeUtf8_of_fromUtf8 hu) (hno path)
    simp only [Pindos.sysExec, hv, hbytes, Option.bind_eq_bind, Option.bind_some, hnone]
    rfl

end Exec

/-! ### From the archive to the first process -/

section Boot

variable {checks : Bool} {parse : List UInt8 → Option ElfFile} {files : List (List Str × List UInt8)}
  {data : List UInt8} {elf : ElfFile} {memory : KernelState} {k : KernelImage} {memoryMap : List MemoryRegion}
  {fs : FrameState} {mem : Memory} {env : BootEnv}

/-- An archive with a harmless `/init` boots. -/
theorem Pindos.boot_ok (h : Archivable files) (hm : (["init".toList], data) ∈ files) (hparse : parse data = some elf)
    (henv : env.Fit) (hi : TableInv memory.machine) (hs : elf.Sane data) (hh : elf.Harmless data)
    (hn : 5 * elf.callPages.length + 4 ≤ memory.machine.alloc.freeFrames) :
    ∃ s g m, Pindos.boot checks parse env (archiveOf files) memory = some s ∧ elf.relocated data = some g ∧
      Held (· ∈ elf.callPages) (· ∈ elf.callPages) memory.machine m (stackPages.foldl VMem.forget g) ∧
      Pindos.Keeps m s.memory.machine ∧
      (∃ n, s.memory.scKernelRsp = 4096 * n + 0x1000 ∧ FreeAt memory.machine.alloc (4096 * n) ∧
        ∀ v x, pageNo v ∈ elf.callPages → m.translate v = some x → x / 4096 ≠ n) ∧
      Kernel.boot (elf.entryPoint + elf.loadOffset) (userStackVaddr + userStackPages * 0x1000) = some s.kernel := by
  obtain ⟨initramfs, root, hfs, hroot, hread⟩ := h.readFile
  obtain ⟨p, k', g, hx, hg, held, -, rfl, hcount⟩ :=
    @createProcess_ok checks parse 1 data elf _ hparse hi hs hh (by omega)
  obtain ⟨⟨base, memory'⟩, hapic⟩ := Pindos.initLocalApic_isSome env.apicMsr held.conf.inv (by omega)
  obtain ⟨hkeeps, hrsp, -⟩ := Pindos.initLocalApic_keeps held.conf.inv hapic
  have hstack := (createProcess_stack hparse hi hs).of_ok hx
  have hinit : fileAt files (parts '/' "/init".toList) = .ok data := h.fileAt_eq hm
  refine ⟨⟨_, memory', VfsTree.new.mount ['/'] root, base⟩, g, k'.machine, ?_, hg, held, hkeeps, hrsp ▸ hstack, rfl⟩
  unfold Pindos.boot enableSmepSmap
  simp only [henv.smep, henv.smap, henv.heap, hfs, hroot, hread, hinit, hx, hapic]
  rfl

/-- A program in the machine that the boot code leaves lies in frames that are not the kernel's. -/
theorem Pindos.pages_not_owned (b : BootLayout k memoryMap fs) (hmem : memory.machine = Machine.boot mem fs.alloc)
    {s : Pindos} {m : Machine} {g : VMem}
    (held : Held (· ∈ elf.callPages) (· ∈ elf.callPages) memory.machine m g) (hk : Pindos.Keeps m s.memory.machine)
    (hstack : ∃ n, s.memory.scKernelRsp = 4096 * n + 0x1000 ∧ FreeAt memory.machine.alloc (4096 * n) ∧
      ∀ v x, pageNo v ∈ elf.callPages → m.translate v = some x → x / 4096 ≠ n)
    {v : Nat} (hv : pageNo v ∈ elf.callPages) :
    ∃ x, s.memory.machine.translate v = some x ∧ FreeAt memory.machine.alloc x ∧
      ∀ y, y / 4096 = x / 4096 → ¬ s.memory.Owns k y := by
  obtain ⟨x, hx, hfree, ht, hf⟩ := held.own v hv
  obtain ⟨n, hrsp, -, hne⟩ := hstack
  have hsound := held.conf.inv.sound
  have hsound₀ : memory.machine.alloc.Sound := by
    rw [hmem]
    exact b.alloc.sound b.map
  refine ⟨x, hk.translate hx, hfree, fun y hy howns => ?_⟩
  have hpage : ∀ {a : BuddyAllocator} {x y : Nat}, a.Sound → y / 4096 = x / 4096 → FreeAt a x → FreeAt a y :=
    fun ha he hx => (ha.freeAt_iff _).1 (he ▸ (ha.freeAt_iff _).2 hx)
  have hy₀ : FreeAt memory.machine.alloc y := hpage hsound₀ hy hfree
  have hyf : ¬ FreeAt m.alloc y := fun h => hf (hpage hsound hy.symm h)
  rcases howns with (himage | htable | hfree') | hrange
  · rw [hmem] at hy₀
    exact b.not_image hy₀ himage
  · exact hk.not_table hsound (hy ▸ ht) hyf htable
  · exact hyf (hk.free y hfree')
  · refine hne v x hv hx ?_
    omega

/-- `NET_SERVER_SERVICE`. -/
def netServerService : List UInt8 :=
  encodeUtf8 ("[Unit]\nDescription=PINDOS Network Stack\n\n[Service]\nType=simple\n" ++
    "ExecStart=/usr/bin/net-server\nRestart=on-failure\n").toList

/-- The files of `build_initramfs`. -/
def initramfsFiles (dealduckElf netServerElf : List UInt8) : List (List Str × List UInt8) :=
  [(["init".toList], dealduckElf), (["usr".toList, "bin".toList, "net-server".toList], netServerElf),
    (["etc".toList, "pindos".toList, "system".toList, "net-server.service".toList], netServerService)]

theorem archivable_initramfsFiles {dealduckElf netServerElf : List UInt8} (hd : dealduckElf.length < 2 ^ 32 - 1)
    (hn : netServerElf.length < 2 ^ 32 - 1) : Archivable (initramfsFiles dealduckElf netServerElf) := by
  refine ⟨?_, ?_, ?_, ?_⟩
  · simp only [initramfsFiles, List.forall_mem_cons, List.not_mem_nil, false_implies, implies_true, and_true, Valid]
    decide
  · simp only [initramfsFiles, List.map_cons, List.map_nil]
    decide
  · simp only [initramfsFiles, List.forall_mem_cons, List.not_mem_nil, false_implies, implies_true, and_true]
    decide
  · simp only [initramfsFiles, List.forall_mem_cons, List.not_mem_nil, false_implies, implies_true, and_true]
    exact ⟨⟨by decide, hd⟩, ⟨by decide, hn⟩, by decide, by decide +kernel⟩

end Boot

/-! ### Two programs -/

/-- The archive with two programs of one page. -/
def twoPrograms : List (List Str × List UInt8) := initramfsFiles (onePageFile 0x10000000) (onePageFile 0x20000000)

/-- A processor without SMEP and SMAP, with its local APIC at the usual place. -/
def sampleEnv : BootEnv := ⟨0, 0xFEE00900, true⟩

theorem sampleEnv_fit : sampleEnv.Fit := ⟨by decide, by decide, rfl⟩

theorem onePageFile_length (v : Nat) : (onePageFile v).length < 2 ^ 32 - 1 := by
  simp [onePageFile, toBytes]

theorem archivable_twoPrograms : Archivable twoPrograms :=
  archivable_initramfsFiles (onePageFile_length _) (onePageFile_length _)

/-- The archive with two programs of one page is shipped with the small machine. -/
theorem twoPrograms_shipped : Pindos.Shipped onePageParse smallKernel smallMachine sampleEnv.apicMsr twoPrograms := by
  have hservice : onePageParse netServerService = none := by decide +kernel
  have hsecond : onePageParse (onePageFile 0x20000000) = some (onePage 0x20000000) := by decide
  -- both programs lie above the usable memory, and below the local APIC
  have hexec : ∀ f ∈ twoPrograms, ∀ elf, onePageParse f.2 = some elf → ∃ v, f.2 = onePageFile v ∧ elf = onePage v ∧
      onePageParse (onePageFile v) = some (onePage v) ∧ 0xC00000 ≤ v ∧ v < 2 ^ 30 ∧ 4096 ∣ v := by
    intro f hf elf helf
    simp only [twoPrograms, initramfsFiles, List.mem_cons, List.not_mem_nil, or_false] at hf
    rcases hf with rfl | rfl | rfl
    · refine ⟨0x10000000, rfl, ?_, onePageParse_first, by decide, by decide, by decide⟩
      exact (Option.some.inj (onePageParse_first.symm.trans helf)).symm
    · refine ⟨0x20000000, rfl, ?_, hsecond, by decide, by decide, by decide⟩
      exact (Option.some.inj (hsecond.symm.trans helf)).symm
    · simp only [hservice] at helf
      cases helf
  refine ⟨fun f hf elf helf => ?_, fun f hf elf helf => ?_, fun x hx hpage => ?_, fun hpage => ?_⟩
  · obtain ⟨v, hv, rfl, -, h1, h2, -⟩ := hexec f hf elf helf
    exact onePage_sane (by omega) (by omega) _
  · obtain ⟨v, hv, rfl, -, h1, h2, -⟩ := hexec f hf elf helf
    rw [hv]
    exact (onePage_plain (by omega) (by omega) (Nat.lt_trans (onePageFile_length v) (by decide))).harmless
  · obtain ⟨f, hf, elf, helf, hp⟩ := hpage
    obtain ⟨v, -, rfl, hparse, h1, h2, h3⟩ := hexec f hf elf helf
    exact (onePage_fits (fun _ h => h) hparse h1 (by omega) h3).apart x hx ⟨_, hparse, hp⟩
  · obtain ⟨f, hf, elf, helf, hp⟩ := hpage
    obtain ⟨v, -, rfl, -, h1, h2, h3⟩ := hexec f hf elf helf
    have happic : pageNo (apicBase sampleEnv.apicMsr) = 0xFEE00 := by decide
    rw [happic, ElfFile.callPages, onePage_loadPages (by omega) h3, List.mem_append, List.mem_singleton] at hp
    rcases hp with hp | hp
    · rw [pageNo] at hp
      omega
    · revert hp
      decide

/-- Bytes that can be read one by one are read as a slice. -/
theorem Machine.readSlice_eq {m : Machine} {bytes : List UInt8} {ptr : Nat}
    (h : ∀ i b, bytes[i]? = some b → m.readByte (ptr + i) = some b) : m.readSlice ptr bytes.length = some bytes := by
  induction bytes generalizing ptr with
  | nil => rfl
  | cons b bytes ih =>
    have hfirst : m.readByte ptr = some b := h 0 b rfl
    have hrest := @ih (ptr + 1) fun i b hb => by
      rw [Nat.add_assoc, Nat.add_comm 1 i]
      exact h (i + 1) b hb
    rw [List.length_cons, Machine.readSlice, hfirst, hrest]
    rfl

/-- `/usr/bin/net-server`, as a program writes it. -/
def serverPath : List UInt8 := encodeUtf8 "/usr/bin/net-server".toList

/-- The small machine boots with this archive, and the first program writes the path of the second one into its
page. -/
theorem twoPrograms_run : ∃ s₀ s,
    Pindos.boot false onePageParse sampleEnv (archiveOf twoPrograms) ⟨smallMachine, 0, 0⟩ = some s₀ ∧
    Pindos.Run false onePageParse smallKernel s₀ s 0 ∧
    s.memory.machine.validateUserSlice 0x10000100 serverPath.length = .ok (0x10000100, serverPath.length) ∧
    s.memory.machine.readSlice 0x10000100 serverPath.length = some serverPath := by
  have hlen : (onePageFile 0x10000000).length < 2 ^ 64 := Nat.lt_trans (onePageFile_length _) (by decide)
  have hframes : 5 * (onePage 0x10000000).callPages.length + 4 ≤ smallMachine.alloc.freeFrames := by
    rw [small_frames, onePage_length (by decide) (by decide)]
    decide
  obtain ⟨s₀, g, m, hb, -, held, hkeeps, hstack, -⟩ := @Pindos.boot_ok false _ _ _ _ ⟨smallMachine, 0, 0⟩ sampleEnv
    archivable_twoPrograms List.mem_cons_self onePageParse_first sampleEnv_fit small_inv
    (onePage_sane (by decide) (by decide) _) (onePage_plain (by decide) (by decide) hlen).harmless hframes
  obtain ⟨x, hx, -, hfree⟩ := Pindos.pages_not_owned small_layout rfl held hkeeps hstack
    (show pageNo 0x10000100 ∈ (onePage 0x10000000).callPages by decide)
  have hpage : ∀ v, pageNo v = 0x10000 → s₀.memory.machine.translate v = some (4096 * (x / 4096) + v % 4096) :=
    fun v hv => hkeeps.inv.translate_page hx hv
  let addr := 4096 * (x / 4096) + 0x100
  have haddr : ∀ i, i < 0x100 → s₀.memory.machine.translate (0x10000100 + i) = some (addr + i) := by
    intro i hi
    rw [hpage _ (by unfold pageNo; omega), Option.some.injEq]
    show _ = 4096 * (x / 4096) + 0x100 + i
    omega
  let mem : Memory := fun y =>
    if addr ≤ y ∧ y < addr + serverPath.length then serverPath.getD (y - addr) 0 else s₀.memory.machine.mem y
  have hshort : serverPath.length < 0x100 := by decide
  have hmem : ∀ y, s₀.memory.Owns smallKernel y → mem y = s₀.memory.machine.mem y := by
    intro y hy
    refine if_neg fun hin => hfree y ?_ hy
    have hin : 4096 * (x / 4096) + 0x100 ≤ y ∧ y < 4096 * (x / 4096) + 0x100 + serverPath.length := hin
    omega
  have tw : Twin s₀.memory.machine { s₀.memory.machine with mem := mem } :=
    ⟨rfl, rfl, fun y hy => hmem y (Or.inl (Or.inr (Or.inl hy)))⟩
  refine ⟨s₀, _, hb, .write mem .start hmem, ?_, ?_⟩
  · refine (Machine.validateUserSlice_ok (by decide)).2 ⟨rfl, by decide, by decide, fun a h1 h2 => ?_⟩
    rw [tw.translate hkeeps.inv, hpage _ (by unfold pageNo; omega)]
    exact Option.some_ne_none _
  · refine Machine.readSlice_eq fun i b hi => ?_
    obtain ⟨hlt, -⟩ := List.getElem?_eq_some_iff.1 hi
    have hbyte : mem (addr + i) = b := by
      show (if addr ≤ addr + i ∧ addr + i < addr + serverPath.length then _ else _) = b
      rw [if_pos ⟨Nat.le_add_right _ _, Nat.add_lt_add_left hlt _⟩, Nat.add_sub_cancel_left,
        List.getD_eq_getElem?_getD, hi, Option.getD_some]
    rw [Machine.readByte, (tw.inv hkeeps.inv).hwTranslate, tw.translate hkeeps.inv, haddr i (by omega)]
    exact congrArg some hbyte

/-- A program that names the file of the other one starts exactly that one. -/
theorem exec_follows_files_two : ∃ s : Pindos,
    s.memory.machine.readSlice 0x10000100 serverPath.length = some serverPath ∧
      s.sysExec false onePageParse true 0x10000100 serverPath.length =
        s.execFile false onePageParse (onePageFile 0x20000000) := by
  obtain ⟨s₀, s, hb, hr, hv, hread⟩ := twoPrograms_run
  obtain ⟨-, hfile, -⟩ :=
    exec_follows_files archivable_twoPrograms small_layout rfl twoPrograms_shipped hb hr hv hread
  have hm : (["usr".toList, "bin".toList, "net-server".toList], onePageFile 0x20000000) ∈ twoPrograms := by
    simp [twoPrograms, initramfsFiles]
  have hparts : parts '/' "/usr/bin/net-server".toList = ["usr".toList, "bin".toList, "net-server".toList] := by
    decide
  have hpath : serverPath = encodeUtf8 "/usr/bin/net-server".toList := by rw [serverPath]
  have hexec := hfile _ hm "/usr/bin/net-server".toList hpath hparts
  exact ⟨s, hread, hexec⟩

end Hammam
