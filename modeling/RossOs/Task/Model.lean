import RossOs.Paging.Model

/-!
# Tasks

`spawn_process` of `ross-kernel/src/task.rs` with the ELF structures of `elf.rs`, the scheduler,
and the memory system calls of `syscall.rs` (`sys_brk`, `sys_mmap`, and `sys_exit`). The file
`spawn_process` reads through the VFS is an argument here, its bytes or the failure to open or read
it. A read outside those bytes, which the code makes through raw pointers, is the fault
`outOfBounds`; sums that leave 64 bits panic, and so does a reference or a slice at an address that
is not aligned for its type, in the debug build that `boot.sh` starts. The heap gives out buffers
at multiples of 8, but an empty vector has none and points to 1.
-/

namespace RossOs

open ByteMem Paging

/-! ## ELF files -/

namespace Elf

/-- `ElfHeader`, the fields that the loader reads. -/
structure ElfHeader where
  magic : List UInt8
  elfClass : UInt8
  entry : ℕ
  phoff : ℕ
  phnum : ℕ
deriving DecidableEq, Repr

/-- `ProgramHeader`, without `p_paddr` and `p_align`, which nothing reads. -/
structure ProgramHeader where
  type : ℕ
  flags : ℕ
  offset : ℕ
  vaddr : ℕ
  filesz : ℕ
  memsz : ℕ
deriving DecidableEq, Repr

/-- `PT_LOAD`. -/
def ptLoad : ℕ := 1

/-- The header at the start of a file. -/
def header (data : List UInt8) : ElfHeader where
  magic := slice data 0 4
  elfClass := data.getD 4 0
  entry := field data 24 8
  phoff := field data 32 8
  phnum := field data 56 2

/-- `ElfHeader::is_valid`. -/
def ElfHeader.isValid (h : ElfHeader) : Bool :=
  h.magic == [0x7F, 0x45, 0x4C, 0x46] && h.elfClass == 2

/-- How far into the file `is_valid` reads: it comes to the class only behind the right magic
number. -/
def validReach (data : List UInt8) : ℕ :=
  if (header data).magic = [0x7F, 0x45, 0x4C, 0x46] then 5 else 4

/-- How far into the file the fields go that the loader reads of a valid header: `e_phnum` is the
last of them. -/
def headerReach : ℕ := 58

/-- The program header at `o`. -/
def programHeader (data : List UInt8) (o : ℕ) : ProgramHeader where
  type := field data o 4
  flags := field data (o + 4) 4
  offset := field data (o + 8) 8
  vaddr := field data (o + 16) 8
  filesz := field data (o + 32) 8
  memsz := field data (o + 40) 8

/-- `ElfHeader::program_headers`: the entries are 56 bytes apart, whatever `e_phentsize` says. -/
def programHeaders (data : List UInt8) : List ProgramHeader :=
  (List.range (header data).phnum).map fun i => programHeader data ((header data).phoff + 56 * i)

/-- The first page of a segment. -/
def ProgramHeader.pageStart (ph : ProgramHeader) : ℕ := frameOf ph.vaddr

/-- The end of the last page of a segment. -/
def ProgramHeader.pageEnd (ph : ProgramHeader) : ℕ := frameOf (ph.vaddr + ph.memsz + 4095)

/-- The flags a page of a segment is mapped with. -/
def ProgramHeader.pageFlags (ph : ProgramHeader) : ℕ :=
  0x1 ||| 0x4 ||| if ph.flags &&& 0x2 ≠ 0 then 0x2 else 0

/-- The part of a segment's file bytes that belongs to a page: where in the page it goes, where in
the segment it comes from. -/
def ProgramHeader.pageOffset (ph : ProgramHeader) (page : ℕ) : ℕ :=
  if page < ph.vaddr then ph.vaddr - page else 0

@[inherit_doc ProgramHeader.pageOffset]
def ProgramHeader.fileOffset (ph : ProgramHeader) (page : ℕ) : ℕ :=
  (if page < ph.vaddr then ph.vaddr else page) - ph.vaddr

end Elf

open Elf

/-! ## Tasks and the scheduler -/

/-- `TaskState`. -/
inductive TaskState
  | ready
  | running
  | blocked
  | dead
deriving DecidableEq, Repr

/-- The frame `Task::new` writes at the top of the kernel stack for `iretq`, above fifteen zeroed
registers. -/
structure Context where
  rip : ℕ
  cs : ℕ
  rflags : ℕ
  rsp : ℕ
  ss : ℕ
deriving DecidableEq, Repr

/-- `Task`, without the descriptor table. The kernel stack is the frame on it. -/
structure Task where
  id : ℕ
  stack : Context
  kernelStackTop : ℕ
  rsp : ℕ
  cr3 : ℕ
  state : TaskState
  isUser : Bool
  heapEnd : ℕ
deriving DecidableEq, Repr

/-- `Task::new`, for the `TaskId` it takes and the end of the kernel stack it allocates. -/
def Task.new (id internalStackTop entryPoint stackTop cr3 : ℕ) (isUser : Bool) : Task where
  id := id
  stack :=
    { rip := entryPoint
      cs := if isUser then 0x23 else 0x08
      rflags := 0x202
      rsp := if stackTop = 0 then internalStackTop else stackTop
      ss := if isUser then 0x1B else 0x10 }
  kernelStackTop := internalStackTop
  rsp := internalStackTop - 8 * 20
  cr3 := cr3
  state := .ready
  isUser := isUser
  heapEnd := 0

/-- `Scheduler`. -/
structure Scheduler where
  tasks : List Task
  currentTask : Option Task
deriving Repr

/-- `Scheduler::add_task`. -/
def Scheduler.addTask (s : Scheduler) (t : Task) : Scheduler := { s with tasks := s.tasks ++ [t] }

/-- The queue after `pick_next` put the current task back: a dead one is dropped. -/
def Scheduler.requeue (s : Scheduler) (currentRsp : ℕ) : List Task :=
  match s.currentTask with
  | none => s.tasks
  | some t =>
    if t.state = .dead then s.tasks
    else s.tasks ++ [{ t with rsp := currentRsp, state := .ready }]

/-- `Scheduler::pick_next`, with the `rsp` and `cr3` it switches to (`cr3` is the register's value
when there is no task). -/
def Scheduler.pickNext (currentRsp cr3 : ℕ) (s : Scheduler) : (ℕ × ℕ) × Scheduler :=
  match s.requeue currentRsp with
  | [] => ((currentRsp, cr3), ⟨[], none⟩)
  | t :: tasks => ((t.rsp, t.cr3), ⟨tasks, some { t with state := .running }⟩)

/-- The kernel's state: the machine, the scheduler, and `NEXT_ID`. -/
structure Kernel (σ : Type) where
  machine : Machine σ
  scheduler : Scheduler
  nextId : ℕ

/-- The tasks of the scheduler, the current one first. -/
def Scheduler.all (s : Scheduler) : List Task := s.currentTask.toList ++ s.tasks

/-! ## Loading an executable -/

section
variable {σ : Type} [PageAllocator σ]

/-- `copy_nonoverlapping(data + o, ptr, n)`. -/
def copyFrom (data : List UInt8) (o ptr n : ℕ) : Exec Unit (Machine σ) PUnit :=
  if o + n ≤ data.length then
    modify fun s => { s with mem := write s.mem (ptr - kernelVmaBase) (slice data o n) }
  else throw .outOfBounds

/-- The frame for a page of a segment: the one an earlier segment mapped there, or a new one that
is mapped and zeroed. -/
def pageFrame (cr3 page flags : ℕ) : Exec Unit (Machine σ) ℕ := do
  match ← lookupPage cr3 page with
  | some phys => physToVirt phys
  | none =>
    match ← allocPage with
    | none => Exec.fail ()
    | some phys =>
      let ptr ← physToVirt phys
      mapUserPage cr3 page phys flags
      zeroPage ptr
      pure ptr

/-- One turn of the page loop of `spawn_process`. -/
def loadPage (data : List UInt8) (cr3 : ℕ) (ph : ProgramHeader) (page : ℕ) :
    Exec Unit (Machine σ) PUnit := do
  let ptr ← pageFrame cr3 page ph.pageFlags
  if ph.fileOffset page < ph.filesz then
    let bytesToCopy := min (ph.filesz - ph.fileOffset page) (4096 - ph.pageOffset page)
    if ph.offset + ph.fileOffset page < 2 ^ 64 then
      copyFrom data (ph.offset + ph.fileOffset page) (ptr + ph.pageOffset page) bytesToCopy
    else Exec.panic

/-- The page loop of a segment, from `page` on for `n` pages. -/
def loadPages (data : List UInt8) (cr3 : ℕ) (ph : ProgramHeader) :
    (n page : ℕ) → Exec Unit (Machine σ) PUnit
  | 0, _ => pure ⟨⟩
  | n + 1, page => do
    loadPage data cr3 ph page
    loadPages data cr3 ph n (page + 4096)

/-- One turn of the loop over the program headers: load a `PT_LOAD` segment, and raise
`heap_end`. -/
def loadSegment (data : List UInt8) (cr3 : ℕ) (ph : ProgramHeader) (heapEnd : ℕ) :
    Exec Unit (Machine σ) ℕ := do
  if ph.type = ptLoad then
    if ph.vaddr + ph.memsz + 4095 < 2 ^ 64 then
      loadPages data cr3 ph ((ph.pageEnd - ph.pageStart) / 4096) ph.pageStart
      pure (if ph.pageEnd > heapEnd then ph.pageEnd else heapEnd)
    else Exec.panic
  else pure heapEnd

/-- The loop over the program headers from the one at `o` on. -/
def loadSegments (data : List UInt8) (cr3 : ℕ) : (n o heapEnd : ℕ) → Exec Unit (Machine σ) ℕ
  | 0, _, heapEnd => pure heapEnd
  | n + 1, o, heapEnd => do
    if o + 56 ≤ data.length then
      let heapEnd ← loadSegment data cr3 (programHeader data o) heapEnd
      loadSegments data cr3 n (o + 56) heapEnd
    else throw .outOfBounds

/-- `stack_vaddr`. -/
def stackVaddr : ℕ := 0x500000
/-- `stack_pages`. -/
def stackPages : ℕ := 8

/-- The stack loop of `spawn_process`. -/
def mapStack (cr3 : ℕ) : Exec Unit (Machine σ) PUnit :=
  (List.range stackPages).forM fun i => do
    match ← allocPage with
    | none => Exec.fail ()
    | some phys => mapUserPage cr3 (stackVaddr + i * 4096) phys (0x2 ||| 0x4)

/-- The slice that `program_headers` makes, also of no headers: its address has to be that of a
`ProgramHeader`. -/
def sliceHeaders (data : List UInt8) : Exec Unit (Machine σ) PUnit :=
  if data.length < headerReach then throw .outOfBounds
  else if (header data).phoff % 8 = 0 then pure ⟨⟩
  else Exec.panic

/-- `spawn_process` up to the address space it builds: its PML4 and `heap_end`. The reference to the
header is the first thing to panic, on an empty file. -/
def loadProcess (K : KernelTables) (data : List UInt8) : Exec Unit (Machine σ) (ℕ × ℕ) := do
  if data = [] then Exec.panic
  else if data.length < validReach data then throw .outOfBounds
  else if !(header data).isValid then Exec.fail ()
  else
    let cr3 ← createUserAddressSpace K
    sliceHeaders data
    let heapEnd ← loadSegments data cr3 (header data).phnum (header data).phoff 0
    mapStack cr3
    pure (cr3, heapEnd)

/-- `stack_top`. -/
def stackTop : ℕ := (stackVaddr + stackPages * 4096) &&& 0xFFFFFFFFFFFFFFF0

/-- The run of a function of the machine inside the kernel. -/
def onMachine {ε α : Type} (x : Exec ε (Machine σ) α) : Exec ε (Kernel σ) α :=
  Exec.zoom Kernel.machine (fun s k => { k with machine := s }) x

/-- The task `spawn_process` queues. -/
def newTask (k : Kernel σ) (data : List UInt8) (internalStackTop cr3 heapEnd : ℕ) : Task :=
  { Task.new k.nextId internalStackTop (header data).entry stackTop cr3 true with
    heapEnd := heapEnd }

/-- `spawn_process`, for the file's bytes (`none` when it cannot be opened or read) and the end of
the kernel stack the task gets. -/
def spawnProcess (K : KernelTables) (file : Option (List UInt8)) (internalStackTop : ℕ) :
    Exec Unit (Kernel σ) PUnit := do
  match file with
  | none => Exec.fail ()
  | some data =>
    let (cr3, heapEnd) ← onMachine (loadProcess K data)
    modify fun k =>
      { k with
        scheduler := k.scheduler.addTask (newTask k data internalStackTop cr3 heapEnd)
        nextId := (k.nextId + 1) % 2 ^ 64 }

/-! ## System calls -/

/-- The loop of `sys_brk`: `n` pages from `addr` on, as far as there are frames; the address it
stopped at. -/
def brkLoop (cr3 : ℕ) : (n addr : ℕ) → Exec Empty (Machine σ) ℕ
  | 0, addr => pure addr
  | n + 1, addr => do
    match ← allocPage with
    | none => pure addr
    | some phys =>
      zeroPage (← physToVirt phys)
      mapUserPage cr3 addr phys 0x7
      if addr + 4096 < 2 ^ 64 then brkLoop cr3 n (addr + 4096) else Exec.panic

/-- How many turns `while addr < new_brk` takes. -/
def brkPages (heapEnd newBrk : ℕ) : ℕ := (newBrk - heapEnd + 4095) / 4096

/-- `sys_brk` on a task: the new `heap_end`, which is also what the call returns. -/
def brkTask (t : Task) (newBrk : ℕ) : Exec Empty (Machine σ) ℕ :=
  if newBrk = 0 then pure t.heapEnd
  else if newBrk > t.heapEnd then brkLoop t.cr3 (brkPages t.heapEnd newBrk) t.heapEnd
  else pure t.heapEnd

/-- `u64::MAX`, the error value of the system calls. -/
def u64Max : ℕ := 2 ^ 64 - 1

/-- `sys_mmap` on a task, for a length that is not zero: the value returned and the new
`heap_end`. -/
def mmapTask (t : Task) (len : ℕ) : Exec Empty (Machine σ) (ℕ × ℕ) := do
  if len + 4095 < 2 ^ 64 then
    let pages := (len + 4095) / 4096
    match ← Exec.attempt (allocAnon t.cr3 t.heapEnd pages) with
    | .ok _ =>
      if t.heapEnd + pages * 4096 < 2 ^ 64 then pure (t.heapEnd, t.heapEnd + pages * 4096)
      else Exec.panic
    | .error _ => pure (u64Max, t.heapEnd)
  else Exec.panic

/-- The kernel with another `heap_end` in its current task. -/
def Kernel.setHeapEnd (k : Kernel σ) (heapEnd : ℕ) : Kernel σ :=
  { k with
    scheduler := { k.scheduler with
      currentTask := k.scheduler.currentTask.map fun t => { t with heapEnd := heapEnd } } }

/-- `sys_brk`. -/
def sysBrk (newBrk : ℕ) : Exec Empty (Kernel σ) ℕ := do
  match (← get).scheduler.currentTask with
  | none => pure 0
  | some t =>
    let heapEnd ← onMachine (brkTask t newBrk)
    modify fun k => k.setHeapEnd heapEnd
    pure heapEnd

/-- `sys_mmap`. -/
def sysMmap (len : ℕ) : Exec Empty (Kernel σ) ℕ := do
  if len = 0 then pure u64Max
  else
    match (← get).scheduler.currentTask with
    | none => pure u64Max
    | some t =>
      let (r, heapEnd) ← onMachine (mmapTask t len)
      modify fun k => k.setHeapEnd heapEnd
      pure r

/-- `sys_exit`, and the timer interrupt that drops the task later is `tick`. -/
def sysExit : Exec Empty (Kernel σ) ℕ := do
  modify fun k =>
    { k with
      scheduler := { k.scheduler with
        currentTask := k.scheduler.currentTask.map fun t => { t with state := .dead } } }
  pure 0

/-- The timer interrupt: `pick_next`. -/
def tick (rsp cr3 : ℕ) : Exec Empty (Kernel σ) (ℕ × ℕ) := fun k =>
  let r := k.scheduler.pickNext rsp cr3
  .ok r.1 { k with scheduler := r.2 }

end

end RossOs
