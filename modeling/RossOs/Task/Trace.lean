import RossOs.Lib.Log
import RossOs.Task.Heap

/-!
# The memory calls with a log

`spawn_process`, `sys_brk` and `sys_mmap` again, with a log of what they do to the file and to the
allocator: the parts of the file that are read, the sums of 64 bits that the loader computes from
the program headers, the calls of `map_user_page`, and the `expect`s that an `alloc_page` without a
frame runs into. Each function is the one of the model with notes, and agrees with it when the log
is left out.
-/

namespace RossOs

open ByteMem Paging Elf Exec

/-- What the memory calls note. -/
inductive Event where
  /-- A valid header is used, all 64 bytes of it as the code has it. -/
  | header
  /-- The slice of the program headers is made. -/
  | headers
  /-- `n` bytes of the file are read at `o`. -/
  | read (o n : ℕ)
  /-- A sum of 64 bits comes to `v`. -/
  | sum (v : ℕ)
  /-- `map_user_page` is called for the address `v`. -/
  | map (v : ℕ)
  /-- An `alloc_page` without a frame is followed by `expect`. -/
  | expect
deriving DecidableEq, Repr

namespace Trace

section
variable {ε σ : Type} [PageAllocator σ]

/-! ## Address spaces -/

/-- `alloc_page().expect(..)`. -/
def allocPageExpect : Exec ε (Machine σ × List Event) ℕ := do
  match ← quiet allocPage with
  | none => do
    note .expect
    Exec.panic
  | some f => pure f

/-- One turn of the loop of `create_user_address_space`. -/
def identityDirectory (pdpt pdptIdx : ℕ) : Exec ε (Machine σ × List Event) PUnit := do
  let pdPhys ← allocPageExpect
  let pd ← quiet (physToVirt pdPhys)
  quiet (zeroPage pd)
  quiet ((List.range 512).forM fun pdIdx =>
    if pdptIdx = 0 ∧ pdIdx = 2 then pure ⟨⟩
    else setEntry pd pdIdx ((pdptIdx * 512 + pdIdx) * 0x200000 ||| 0x80 ||| 0x2 ||| 0x1))
  quiet (setEntry pdpt pdptIdx (pdPhys ||| 0x4 ||| 0x2 ||| 0x1))

/-- `create_user_address_space`. -/
def createUserAddressSpace (K : KernelTables) : Exec ε (Machine σ × List Event) ℕ := do
  let pml4Phys ← allocPageExpect
  let pml4 ← quiet (physToVirt pml4Phys)
  quiet (zeroPage pml4)
  quiet (setEntry pml4 511 (← quiet (getEntry (K.pml4 + kernelVmaBase) 511)))
  let pdptPhys ← allocPageExpect
  let pdpt ← quiet (physToVirt pdptPhys)
  quiet (zeroPage pdpt)
  (List.range 4).forM (identityDirectory pdpt)
  quiet (setEntry pml4 0 (pdptPhys ||| 0x4 ||| 0x2 ||| 0x1))
  pure pml4Phys

/-- The step that `map_user_page` takes at each of the three upper levels. -/
def getOrCreate (table i : ℕ) : Exec ε (Machine σ × List Event) ℕ := do
  if (← quiet (getEntry table i)) = 0 then
    let phys ← allocPageExpect
    quiet (zeroPage (← quiet (physToVirt phys)))
    quiet (setEntry table i (phys ||| present ||| writable ||| user))
  quiet (physToVirt (frameOf (← quiet (getEntry table i))))

/-- `map_user_page`. -/
def mapUserPage (pml4Phys vaddr paddr flags : ℕ) : Exec ε (Machine σ × List Event) PUnit := do
  note (.map vaddr)
  let pml4 ← quiet (physToVirt pml4Phys)
  let pdpt ← getOrCreate pml4 (index 39 vaddr)
  let pd ← getOrCreate pdpt (index 30 vaddr)
  let pt ← getOrCreate pd (index 21 vaddr)
  quiet (setEntry pt (index 12 vaddr) (paddr ||| flags ||| present ||| user))

/-- The loop of `alloc_anon`. -/
def allocAnonFrom (cr3 base : ℕ) :
    (pages i : ℕ) → Exec String (Machine σ × List Event) PUnit
  | 0, _ => pure ⟨⟩
  | pages + 1, i => do
    if base + i * 4096 < 2 ^ 64 then
      match ← quiet allocPage with
      | none => Exec.fail "mmap: OOM"
      | some phys =>
        quiet (zeroPage (← quiet (physToVirt phys)))
        mapUserPage cr3 (base + i * 4096) phys 0x7
        allocAnonFrom cr3 base pages (i + 1)
    else Exec.panic

/-- `mmap::alloc_anon`. -/
def allocAnon (cr3 base pages : ℕ) : Exec String (Machine σ × List Event) PUnit :=
  allocAnonFrom cr3 base pages 0

/-! ## Loading an executable -/

/-- `copy_nonoverlapping(data + o, ptr, n)`. -/
def copyFrom (data : List UInt8) (o ptr n : ℕ) : Exec Unit (Machine σ × List Event) PUnit := do
  note (.read o n)
  quiet (RossOs.copyFrom data o ptr n)

/-- The frame for a page of a segment. -/
def pageFrame (cr3 page flags : ℕ) : Exec Unit (Machine σ × List Event) ℕ := do
  match ← quiet (lookupPage cr3 page) with
  | some phys => quiet (physToVirt phys)
  | none =>
    match ← quiet allocPage with
    | none => Exec.fail ()
    | some phys =>
      let ptr ← quiet (physToVirt phys)
      mapUserPage cr3 page phys flags
      quiet (zeroPage ptr)
      pure ptr

/-- One turn of the page loop of `spawn_process`. -/
def loadPage (data : List UInt8) (cr3 : ℕ) (ph : ProgramHeader) (page : ℕ) :
    Exec Unit (Machine σ × List Event) PUnit := do
  let ptr ← pageFrame cr3 page ph.pageFlags
  if ph.fileOffset page < ph.filesz then
    let bytesToCopy := min (ph.filesz - ph.fileOffset page) (4096 - ph.pageOffset page)
    note (.sum (ph.offset + ph.fileOffset page))
    if ph.offset + ph.fileOffset page < 2 ^ 64 then
      copyFrom data (ph.offset + ph.fileOffset page) (ptr + ph.pageOffset page) bytesToCopy
    else Exec.panic

/-- The page loop of a segment. -/
def loadPages (data : List UInt8) (cr3 : ℕ) (ph : ProgramHeader) :
    (n page : ℕ) → Exec Unit (Machine σ × List Event) PUnit
  | 0, _ => pure ⟨⟩
  | n + 1, page => do
    loadPage data cr3 ph page
    loadPages data cr3 ph n (page + 4096)

/-- One turn of the loop over the program headers. -/
def loadSegment (data : List UInt8) (cr3 : ℕ) (ph : ProgramHeader) (heapEnd : ℕ) :
    Exec Unit (Machine σ × List Event) ℕ := do
  if ph.type = ptLoad then
    note (.sum (ph.vaddr + ph.memsz + 4095))
    if ph.vaddr + ph.memsz + 4095 < 2 ^ 64 then
      loadPages data cr3 ph ((ph.pageEnd - ph.pageStart) / 4096) ph.pageStart
      pure (if ph.pageEnd > heapEnd then ph.pageEnd else heapEnd)
    else Exec.panic
  else pure heapEnd

/-- The loop over the program headers. -/
def loadSegments (data : List UInt8) (cr3 : ℕ) :
    (n o heapEnd : ℕ) → Exec Unit (Machine σ × List Event) ℕ
  | 0, _, heapEnd => pure heapEnd
  | n + 1, o, heapEnd => do
    note (.read o 56)
    if o + 56 ≤ data.length then
      let heapEnd ← loadSegment data cr3 (programHeader data o) heapEnd
      loadSegments data cr3 n (o + 56) heapEnd
    else throw .outOfBounds

/-- The stack loop of `spawn_process`. -/
def mapStack (cr3 : ℕ) : Exec Unit (Machine σ × List Event) PUnit :=
  (List.range stackPages).forM fun i => do
    match ← quiet allocPage with
    | none => Exec.fail ()
    | some phys => mapUserPage cr3 (stackVaddr + i * 4096) phys (0x2 ||| 0x4)

/-- The slice that `program_headers` makes. -/
def sliceHeaders (data : List UInt8) : Exec Unit (Machine σ × List Event) PUnit := do
  note .header
  note (.read 0 headerReach)
  if data.length < headerReach then throw .outOfBounds
  else if (Elf.header data).phoff % 8 = 0 then note .headers
  else Exec.panic

/-- `spawn_process` up to the address space it builds. -/
def loadProcess (K : KernelTables) (data : List UInt8) :
    Exec Unit (Machine σ × List Event) (ℕ × ℕ) := do
  if data = [] then Exec.panic
  else
    note (.read 0 (validReach data))
    if data.length < validReach data then throw .outOfBounds
    else if !(Elf.header data).isValid then Exec.fail ()
    else
      let cr3 ← createUserAddressSpace K
      sliceHeaders data
      let heapEnd ← loadSegments data cr3 (Elf.header data).phnum (Elf.header data).phoff 0
      mapStack cr3
      pure (cr3, heapEnd)

/-- The run of a function of the machine inside the kernel. -/
def onMachine {α : Type} (y : Exec ε (Machine σ × List Event) α) :
    Exec ε (Kernel σ × List Event) α :=
  zoomLog Kernel.machine (fun s k => { k with machine := s }) y

omit [PageAllocator σ] in
/-- A logged call on the machine that returns. -/
theorem onMachine_ok {α : Type} {y : Exec ε (Machine σ × List Event) α} {k : Kernel σ}
    {log : List Event} {a : α} {t : Machine σ × List Event} (h : y (k.machine, log) = .ok a t) :
    onMachine y (k, log) = .ok a ({ k with machine := t.1 }, t.2) := by
  simp only [onMachine, zoomLog, zoom, h]

omit [PageAllocator σ] in
/-- A logged call on the machine that fails. -/
theorem onMachine_error {α : Type} {y : Exec ε (Machine σ × List Event) α} {k : Kernel σ}
    {log : List Event} {e : Fault ε} {t : Machine σ × List Event}
    (h : y (k.machine, log) = .error e t) :
    onMachine y (k, log) = .error e ({ k with machine := t.1 }, t.2) := by
  simp only [onMachine, zoomLog, zoom, h]

/-- `spawn_process`. -/
def spawnProcess (K : KernelTables) (file : Option (List UInt8)) (internalStackTop : ℕ) :
    Exec Unit (Kernel σ × List Event) PUnit := do
  match file with
  | none => Exec.fail ()
  | some data =>
    let (cr3, heapEnd) ← onMachine (loadProcess K data)
    quiet (modify fun k =>
      { k with
        scheduler := k.scheduler.addTask (newTask k data internalStackTop cr3 heapEnd)
        nextId := (k.nextId + 1) % 2 ^ 64 })

/-! ## System calls -/

/-- The loop of `sys_brk`. -/
def brkLoop (cr3 : ℕ) : (n addr : ℕ) → Exec Empty (Machine σ × List Event) ℕ
  | 0, addr => pure addr
  | n + 1, addr => do
    match ← quiet allocPage with
    | none => pure addr
    | some phys =>
      quiet (zeroPage (← quiet (physToVirt phys)))
      mapUserPage cr3 addr phys 0x7
      if addr + 4096 < 2 ^ 64 then brkLoop cr3 n (addr + 4096) else Exec.panic

/-- `sys_brk` on a task. -/
def brkTask (t : Task) (newBrk : ℕ) : Exec Empty (Machine σ × List Event) ℕ :=
  if newBrk = 0 then pure t.heapEnd
  else if newBrk > t.heapEnd then brkLoop t.cr3 (brkPages t.heapEnd newBrk) t.heapEnd
  else pure t.heapEnd

/-- `sys_mmap` on a task. -/
def mmapTask (t : Task) (len : ℕ) : Exec Empty (Machine σ × List Event) (ℕ × ℕ) := do
  if len + 4095 < 2 ^ 64 then
    let pages := (len + 4095) / 4096
    match ← Exec.attempt (allocAnon t.cr3 t.heapEnd pages) with
    | .ok _ =>
      if t.heapEnd + pages * 4096 < 2 ^ 64 then pure (t.heapEnd, t.heapEnd + pages * 4096)
      else Exec.panic
    | .error _ => pure (u64Max, t.heapEnd)
  else Exec.panic

/-- `sys_brk`. -/
def sysBrk (newBrk : ℕ) : Exec Empty (Kernel σ × List Event) ℕ := do
  match (← quiet get).scheduler.currentTask with
  | none => pure 0
  | some t =>
    let heapEnd ← onMachine (brkTask t newBrk)
    quiet (modify fun k => k.setHeapEnd heapEnd)
    pure heapEnd

/-- `sys_mmap`. -/
def sysMmap (len : ℕ) : Exec Empty (Kernel σ × List Event) ℕ := do
  if len = 0 then pure u64Max
  else
    match (← quiet get).scheduler.currentTask with
    | none => pure u64Max
    | some t =>
      let (r, heapEnd) ← onMachine (mmapTask t len)
      quiet (modify fun k => k.setHeapEnd heapEnd)
      pure r

/-! ## Without the log -/

/-- The logged allocation is a copy of the kernel's. -/
theorem logs_allocPageExpect : Logs (allocPageExpect : Exec ε (Machine σ × List Event) ℕ)
    Paging.allocPageExpect := by
  refine .bind (.quiet _) fun o => ?_
  cases o with
  | none => exact .noted _ (.throw _)
  | some f => exact .pure f

/-- The logged directory of the identity map is a copy of the kernel's. -/
theorem logs_identityDirectory (pdpt pdptIdx : ℕ) :
    Logs (identityDirectory pdpt pdptIdx : Exec ε (Machine σ × List Event) PUnit)
      (Paging.identityDirectory pdpt pdptIdx) :=
  .bind logs_allocPageExpect fun _ => .bind (.quiet _) fun _ => .bind (.quiet _) fun _ =>
    .bind (.quiet _) fun _ => .quiet _

/-- The logged `create_user_address_space` is a copy of the kernel's. -/
theorem logs_createUserAddressSpace (K : KernelTables) :
    Logs (createUserAddressSpace K : Exec ε (Machine σ × List Event) ℕ)
      (Paging.createUserAddressSpace K) := by
  refine .bind logs_allocPageExpect fun f4 => .bind (.quiet _) fun _ => .bind (.quiet _) fun _ =>
    .bind (.quiet _) fun _ => .bind (.quiet _) fun _ => ?_
  refine .bind logs_allocPageExpect fun f3 => .bind (.quiet _) fun pdpt => .bind (.quiet _)
    fun _ => ?_
  exact .bind (.forM _ (logs_identityDirectory pdpt)) fun _ => .bind (.quiet _) fun _ => .pure f4

/-- The logged `get_or_create` is a copy of the kernel's. -/
theorem logs_getOrCreate (table i : ℕ) :
    Logs (getOrCreate table i : Exec ε (Machine σ × List Event) ℕ)
      (Paging.getOrCreate table i) := by
  refine .bind (.quiet _) fun e => ?_
  have hrest : Logs (quiet (getEntry table i) >>= fun e => quiet (physToVirt (frameOf e)) :
      Exec ε (Machine σ × List Event) ℕ)
      (getEntry table i >>= fun e => physToVirt (frameOf e)) :=
    .bind (.quiet _) fun _ => .quiet _
  split
  · exact .bind logs_allocPageExpect fun _ => .bind (.quiet _) fun _ => .bind (.quiet _)
      fun _ => .bind (.quiet _) fun _ => hrest
  · exact hrest

/-- The logged `map_user_page` is a copy of the kernel's. -/
theorem logs_mapUserPage (pml4Phys vaddr paddr flags : ℕ) :
    Logs (mapUserPage pml4Phys vaddr paddr flags : Exec ε (Machine σ × List Event) PUnit)
      (Paging.mapUserPage pml4Phys vaddr paddr flags) :=
  .noted _ (.bind (.quiet _) fun _ => .bind (logs_getOrCreate _ _) fun _ =>
    .bind (logs_getOrCreate _ _) fun _ => .bind (logs_getOrCreate _ _) fun _ => .quiet _)

/-- The logged loop of `alloc_anon` is a copy of the kernel's. -/
theorem logs_allocAnonFrom (cr3 base pages i : ℕ) :
    Logs (allocAnonFrom cr3 base pages i : Exec String (Machine σ × List Event) PUnit)
      (Paging.allocAnonFrom cr3 base pages i) := by
  induction pages generalizing i with
  | zero => exact .pure _
  | succ pages ih =>
    rw [allocAnonFrom, Paging.allocAnonFrom]
    refine .ite (.bind (.quiet _) fun o => ?_) (.throw _)
    cases o with
    | none => exact .throw _
    | some phys =>
      exact .bind (.quiet _) fun _ => .bind (.quiet _) fun _ => .bind (logs_mapUserPage _ _ _ _)
        fun _ => ih (i + 1)

/-- The logged frame of a page is a copy of the kernel's. -/
theorem logs_pageFrame (cr3 page flags : ℕ) :
    Logs (pageFrame cr3 page flags : Exec Unit (Machine σ × List Event) ℕ)
      (RossOs.pageFrame cr3 page flags) := by
  refine .bind (.quiet _) fun o => ?_
  cases o with
  | some phys => exact .quiet _
  | none =>
    refine .bind (.quiet _) fun o => ?_
    cases o with
    | none => exact .throw _
    | some phys =>
      exact .bind (.quiet _) fun ptr => .bind (logs_mapUserPage _ _ _ _) fun _ =>
        .bind (.quiet _) fun _ => .pure ptr

/-- The logged load of a page is a copy of the kernel's. -/
theorem logs_loadPage (data : List UInt8) (cr3 : ℕ) (ph : ProgramHeader) (page : ℕ) :
    Logs (loadPage data cr3 ph page : Exec Unit (Machine σ × List Event) PUnit)
      (RossOs.loadPage data cr3 ph page) :=
  .bind (logs_pageFrame _ _ _) fun _ =>
    .ite (.noted _ (.ite (.noted _ (.quiet _)) (.throw _))) (.pure _)

/-- The logged load of pages is a copy of the kernel's. -/
theorem logs_loadPages (data : List UInt8) (cr3 : ℕ) (ph : ProgramHeader) (n page : ℕ) :
    Logs (loadPages data cr3 ph n page : Exec Unit (Machine σ × List Event) PUnit)
      (RossOs.loadPages data cr3 ph n page) := by
  induction n generalizing page with
  | zero => exact .pure _
  | succ n ih => exact .bind (logs_loadPage data cr3 ph page) fun _ => ih (page + 4096)

/-- The logged load of a segment is a copy of the kernel's. -/
theorem logs_loadSegment (data : List UInt8) (cr3 : ℕ) (ph : ProgramHeader) (heapEnd : ℕ) :
    Logs (loadSegment data cr3 ph heapEnd : Exec Unit (Machine σ × List Event) ℕ)
      (RossOs.loadSegment data cr3 ph heapEnd) :=
  .ite (.noted _ (.ite (.bind (logs_loadPages _ _ _ _ _) fun _ => .pure _) (.throw _))) (.pure _)

/-- The logged load of the segments is a copy of the kernel's. -/
theorem logs_loadSegments (data : List UInt8) (cr3 n o heapEnd : ℕ) :
    Logs (loadSegments data cr3 n o heapEnd : Exec Unit (Machine σ × List Event) ℕ)
      (RossOs.loadSegments data cr3 n o heapEnd) := by
  induction n generalizing o heapEnd with
  | zero => exact .pure heapEnd
  | succ n ih =>
    exact .noted _ (.ite (.bind (logs_loadSegment _ _ _ _) fun h => ih (o + 56) h) (.throw _))

/-- The logged map of the stack is a copy of the kernel's. -/
theorem logs_mapStack (cr3 : ℕ) :
    Logs (mapStack cr3 : Exec Unit (Machine σ × List Event) PUnit) (RossOs.mapStack cr3) := by
  refine .forM _ fun i => .bind (.quiet _) fun o => ?_
  cases o with
  | none => exact .throw _
  | some phys => exact logs_mapUserPage _ _ _ _

omit [PageAllocator σ] in
/-- The logged slice of the headers is a copy of the kernel's. -/
theorem logs_sliceHeaders (data : List UInt8) :
    Logs (sliceHeaders data : Exec Unit (Machine σ × List Event) PUnit)
      (RossOs.sliceHeaders data) :=
  .noted _ (.noted _ (.ite (.throw _) (.ite (.noted _ (.pure _)) (.throw _))))

/-- The logged `load_process` is a copy of the kernel's. -/
theorem logs_loadProcess (K : KernelTables) (data : List UInt8) :
    Logs (loadProcess K data : Exec Unit (Machine σ × List Event) (ℕ × ℕ))
      (RossOs.loadProcess K data) := by
  refine .ite (.throw _) (.noted _ (.ite (.throw _) (.ite (.throw _) ?_)))
  refine .bind (logs_createUserAddressSpace K) fun _ => .bind (logs_sliceHeaders data) fun _ => ?_
  exact .bind (logs_loadSegments _ _ _ _ _) fun _ => .bind (logs_mapStack _) fun _ => .pure _

/-- `spawn_process` is what the log is about. -/
theorem logs_spawnProcess (K : KernelTables) (file : Option (List UInt8)) (top : ℕ) :
    Logs (spawnProcess K file top : Exec Unit (Kernel σ × List Event) PUnit)
      (RossOs.spawnProcess K file top) := by
  cases file with
  | none => exact .throw _
  | some data => exact .bind (.zoom (logs_loadProcess K data)) fun _ => .quiet _

/-- The logged loop of `sys_brk` is a copy of the kernel's. -/
theorem logs_brkLoop (cr3 n addr : ℕ) :
    Logs (brkLoop cr3 n addr : Exec Empty (Machine σ × List Event) ℕ)
      (RossOs.brkLoop cr3 n addr) := by
  induction n generalizing addr with
  | zero => exact .pure addr
  | succ n ih =>
    refine .bind (.quiet _) fun o => ?_
    cases o with
    | none => exact .pure addr
    | some phys =>
      exact .bind (.quiet _) fun _ => .bind (.quiet _) fun _ => .bind (logs_mapUserPage _ _ _ _)
        fun _ => .ite (ih (addr + 4096)) (.throw _)

/-- The logged `sys_brk` of a task is a copy of the kernel's. -/
theorem logs_brkTask (t : Task) (newBrk : ℕ) :
    Logs (brkTask t newBrk : Exec Empty (Machine σ × List Event) ℕ)
      (RossOs.brkTask t newBrk) :=
  .ite (.pure _) (.ite (logs_brkLoop _ _ _) (.pure _))

/-- The logged `sys_mmap` of a task is a copy of the kernel's. -/
theorem logs_mmapTask (t : Task) (len : ℕ) :
    Logs (mmapTask t len : Exec Empty (Machine σ × List Event) (ℕ × ℕ))
      (RossOs.mmapTask t len) := by
  refine .ite (.bind (.attempt (logs_allocAnonFrom _ _ _ _)) fun r => ?_) (.throw _)
  cases r with
  | ok _ => exact .ite (.pure _) (.throw _)
  | error _ => exact .pure _

/-- `sys_brk` is what the log is about. -/
theorem logs_sysBrk (newBrk : ℕ) :
    Logs (sysBrk newBrk : Exec Empty (Kernel σ × List Event) ℕ) (RossOs.sysBrk newBrk) := by
  refine .bind (.quiet _) fun k => ?_
  cases k.scheduler.currentTask with
  | none => exact .pure 0
  | some t => exact .bind (.zoom (logs_brkTask t newBrk)) fun h => .bind (.quiet _) fun _ => .pure h

/-- `sys_mmap` is what the log is about. -/
theorem logs_sysMmap (len : ℕ) :
    Logs (sysMmap len : Exec Empty (Kernel σ × List Event) ℕ) (RossOs.sysMmap len) := by
  refine .ite (.pure _) (.bind (.quiet _) fun k => ?_)
  cases k.scheduler.currentTask with
  | none => exact .pure u64Max
  | some t =>
    exact .bind (.zoom (logs_mmapTask t len)) fun r => .bind (.quiet _) fun _ => .pure r.1

end

end Trace

end RossOs
