import RossOs.Fd
import RossOs.Ipc
import RossOs.Kbuf
import RossOs.Task.Model

/-!
# The system calls on descriptors

`sys_pipe`, `sys_read`, `sys_open`, `sys_close` and `sys_exit` of `ross-kernel/src/syscall.rs`, on
tasks with their descriptor tables. A system call runs with interrupts masked, so that it is one
step. The path of `sys_open` is an argument here, and the bytes `sys_read` puts into the caller's
buffer are part of its result; what the two do in the caller's memory is left to
`RossOs.Syscall.Memory`.
-/

namespace RossOs

open ByteMem Ipc

/-- `Task` with its descriptor table. -/
structure Proc extends Task where
  fdTable : FdTable

/-- What the system calls on descriptors work on: the scheduler, the pipes, the keyboard buffer,
the mounted file systems, and the disk. -/
structure SysState where
  tasks : List Proc
  currentTask : Option Proc
  pipes : PipeTable
  keyboard : Kbuf.State UInt8
  vfs : VfsRoot
  disk : Disk

namespace SysState

/-- The tasks of the scheduler, the current one first. -/
def all (s : SysState) : List Proc := s.currentTask.toList ++ s.tasks

/-- The scheduler without the descriptor tables. -/
def scheduler (s : SysState) : Scheduler := ⟨s.tasks.map (·.toTask), s.currentTask.map (·.toTask)⟩

/-! ## The scheduler -/

/-- `Scheduler::add_task`. -/
def addTask (t : Proc) (s : SysState) : SysState := { s with tasks := s.tasks ++ [t] }

/-- The queue after `pick_next` put the current task back: a dead one is dropped. -/
def requeue (s : SysState) (currentRsp : ℕ) : List Proc :=
  match s.currentTask with
  | none => s.tasks
  | some t =>
    if t.state = .dead then s.tasks
    else s.tasks ++ [{ t with rsp := currentRsp, state := .ready }]

/-- `Scheduler::pick_next`, in a timer interrupt. -/
def tick (currentRsp : ℕ) (s : SysState) : SysState :=
  match s.requeue currentRsp with
  | [] => { s with tasks := [], currentTask := none }
  | t :: tasks => { s with tasks := tasks, currentTask := some { t with state := .running } }

/-- The table of the current task. -/
def fdTable (s : SysState) : Option FdTable := s.currentTask.map (·.fdTable)

/-- Another table for the current task. -/
def setTable (t : FdTable) (s : SysState) : SysState :=
  { s with currentTask := s.currentTask.map fun p => { p with fdTable := t } }

end SysState

/-- Taking the descriptor tables along does not change what the scheduler does. -/
theorem SysState.scheduler_tick (s : SysState) (rsp cr3 : ℕ) :
    (s.tick rsp).scheduler = (s.scheduler.pickNext rsp cr3).2 := by
  have hrequeue : s.scheduler.requeue rsp = (s.requeue rsp).map (·.toTask) := by
    rw [Scheduler.requeue, SysState.scheduler, SysState.requeue]
    cases s.currentTask with
    | none => rfl
    | some t =>
      simp only [Option.map_some]
      split
      · rfl
      · rw [List.map_append]
        rfl
  rw [SysState.tick, Scheduler.pickNext, hrequeue]
  cases s.requeue rsp with
  | nil => rfl
  | cons t tasks => rfl

/-! ## The calls -/

/-- Run on the disk. -/
def onFiles {ε α : Type} (x : Exec ε Disk α) : Exec ε SysState α :=
  Exec.zoom SysState.disk (fun d s => { s with disk := d }) x

/-- `task.fd_table.alloc(entry)` on the current task, as the value of the system call. -/
def allocFd (e : FdEntry) : Exec Empty SysState ℕ := do
  match (← get).fdTable with
  | none => pure u64Max
  | some t =>
    modify (SysState.setTable (t.alloc e).2)
    pure ((t.alloc e).1.getD u64Max)

/-- `sys_pipe`. -/
def sysPipe : Exec Empty SysState ℕ := do
  let created := Ipc.create (← get).pipes
  modify fun s => { s with pipes := created.2 }
  match created.1 with
  | none => pure u64Max
  | some id => allocFd (.pipe id)

/-- `sys_open`, for the path it finds in the caller's memory. -/
def sysOpen (fuel : ℕ) (path : List Char) : Exec Empty SysState ℕ := do
  match ← Exec.attempt (onFiles ((← get).vfs.openPath fuel path)) with
  | .ok node => allocFd (.vfsFile node 0)
  | .error _ => pure u64Max

/-- `sys_close`. -/
def sysClose (fd : ℕ) : Exec Empty SysState ℕ := do
  match (← get).fdTable with
  | none => pure u64Max
  | some t =>
    modify (SysState.setTable (t.close fd).2)
    pure (if (t.close fd).1 then 0 else u64Max)

/-- `sys_exit` on a task with its table. -/
def SysState.exit (s : SysState) : SysState :=
  { s with currentTask := s.currentTask.map fun t => { t with state := .dead } }

/-- The loop of `sys_read` over the keyboard buffer. -/
def popKeys : ℕ → Kbuf.State UInt8 → List UInt8 × Kbuf.State UInt8
  | 0, k => ([], k)
  | n + 1, k =>
    if k.tail = k.head then ([], k)
    else (k.buffer k.tail :: (popKeys n (Kbuf.sysPop k)).1, (popKeys n (Kbuf.sysPop k)).2)

/-- `ReadTarget`: what `sys_read` takes out of the descriptor table. -/
inductive ReadTarget
  | pipe (id : ℕ)
  | file (node : Node) (offset : ℕ)

@[inherit_doc ReadTarget]
def SysState.readTarget (s : SysState) (fd : ℕ) : Option ReadTarget :=
  s.fdTable.bind fun t => match t.get fd with
    | some (.pipe id) => some (.pipe id)
    | some (.vfsFile node offset) => some (.file node offset)
    | _ => none

/-- The offset of a file descriptor, moved on by `n`. -/
def SysState.advance (fd n : ℕ) (s : SysState) : SysState :=
  match s.fdTable with
  | none => s
  | some t =>
    match t.get fd with
    | some (.vfsFile node offset) => s.setTable (t.set fd (some (.vfsFile node (offset + n))))
    | _ => s

/-- `sys_read` from a pipe. -/
def readPipe (id len : ℕ) : Exec Empty SysState (ℕ × List UInt8) := do
  let drained := Ipc.read id (List.replicate len 0) (← get).pipes
  modify fun s => { s with pipes := drained.2 }
  match drained.1 with
  | .ok r => pure (r.1, r.2.take r.1)
  | .error _ => pure (u64Max, [])

/-- `sys_read` from a file. -/
def readFile (fd : ℕ) (node : Node) (offset len : ℕ) : Exec Empty SysState (ℕ × List UInt8) := do
  match ← Exec.attempt (onFiles (node.read offset (List.replicate len 0))) with
  | .ok r =>
    modify (SysState.advance fd r.1)
    pure (r.1, r.2.take r.1)
  | .error _ => pure (u64Max, [])

/-- `sys_read`: the value it returns, and what it puts at the start of the caller's buffer of `len`
bytes. -/
def sysRead (fd len : ℕ) : Exec Empty SysState (ℕ × List UInt8) := do
  if len = 0 then pure (0, [])
  else if fd = 0 then
    let popped := popKeys len (← get).keyboard
    modify fun s => { s with keyboard := popped.2 }
    pure (popped.1.length, popped.1)
  else
    match (← get).readTarget fd with
    | some (.pipe id) => readPipe id len
    | some (.file node offset) => readFile fd node offset len
    | none => pure (u64Max, [])

/-! ## What the calls do -/

namespace SysState

/-- The table just set is the current task's. -/
theorem fdTable_setTable {s : SysState} {t₀ : FdTable} (h : s.fdTable = some t₀) (t : FdTable) :
    (s.setTable t).fdTable = some t := by
  rw [fdTable] at h ⊢
  rw [setTable]
  cases hc : s.currentTask with
  | none =>
    rw [hc] at h
    cases h
  | some p => rfl

end SysState

section
variable {s : SysState}

/-- `alloc` on the current task in one formula. -/
theorem allocFd_run {t : FdTable} (ht : s.fdTable = some t) (e : FdEntry) :
    allocFd e s = .ok ((t.alloc e).1.getD u64Max) (s.setTable (t.alloc e).2) := by
  rw [allocFd, Exec.bind_of_ok (Exec.get_apply s)]
  simp only [ht]
  rfl

/-- Without a task there is no descriptor. -/
theorem allocFd_none (ht : s.fdTable = none) (e : FdEntry) : allocFd e s = .ok u64Max s := by
  rw [allocFd, Exec.bind_of_ok (Exec.get_apply s)]
  simp only [ht]
  rfl

/-- Without a free pipe `sys_pipe` fails and changes nothing. -/
theorem sysPipe_of_none (h : (Ipc.create s.pipes).1 = none) : sysPipe s = .ok u64Max s := by
  have hpipes := create_none h
  rw [sysPipe, Exec.bind_of_ok (Exec.get_apply s), Exec.bind_of_ok (Exec.modify_apply _ s)]
  simp only [h, hpipes]
  rfl

/-- With a free pipe `sys_pipe` opens a descriptor for it. -/
theorem sysPipe_of_some {id : ℕ} (h : (Ipc.create s.pipes).1 = some id) :
    sysPipe s = allocFd (.pipe id) { s with pipes := (Ipc.create s.pipes).2 } := by
  rw [sysPipe, Exec.bind_of_ok (Exec.get_apply s), Exec.bind_of_ok (Exec.modify_apply _ s)]
  simp only [h]

/-- An attempt at a run on the disk that changes nothing. -/
theorem attempt_onFiles_of_ok {ε α : Type} {x : Exec ε Disk α} {a : α}
    (h : x s.disk = .ok a s.disk) :
    (Exec.attempt (onFiles x) : Exec Empty SysState (Except ε α)) s = .ok (.ok a) s := by
  have hzoom : onFiles x s = .ok a { s with disk := s.disk } := Exec.zoom_of_ok h
  unfold Exec.attempt
  rw [hzoom]

/-- An error of the file system is caught. -/
theorem attempt_onFiles_of_err {ε α : Type} {x : Exec ε Disk α} {e : ε}
    (h : x s.disk = .error (.err e) s.disk) :
    (Exec.attempt (onFiles x) : Exec Empty SysState (Except ε α)) s = .ok (.error e) s := by
  have hzoom : onFiles x s = .error (.err e) { s with disk := s.disk } := Exec.zoom_of_error h
  unfold Exec.attempt
  rw [hzoom]

/-- A fault that is no error, as the fault of a run that has no errors. -/
def stopOf {ε : Type} : Fault ε → Option (Fault Empty)
  | .err _ => none
  | .panic => some .panic
  | .outOfBounds => some .outOfBounds
  | .fuel => some .fuel

/-- A stop in the file system is a stop. -/
theorem attempt_onFiles_of_stop {ε α : Type} {x : Exec ε Disk α} {e : Fault ε} {e' : Fault Empty}
    (h : x s.disk = .error e s.disk) (he : stopOf e = some e') :
    (Exec.attempt (onFiles x) : Exec Empty SysState (Except ε α)) s = .error e' s := by
  have hzoom : onFiles x s = .error e { s with disk := s.disk } := Exec.zoom_of_error h
  unfold Exec.attempt
  rw [hzoom]
  cases e with
  | err e => cases he
  | panic | outOfBounds | fuel =>
    obtain rfl := Option.some.inj he
    rfl

/-- `sys_open` stores the node the path leads to, or changes nothing. -/
theorem sysOpen_cases (s : SysState) (fuel : ℕ) (path : List Char) :
    (∃ node, s.vfs.openPath fuel path s.disk = .ok node s.disk ∧
      sysOpen fuel path s = allocFd (.vfsFile node 0) s) ∨
    (∃ e, s.vfs.openPath fuel path s.disk = .error e s.disk) ∧
      (sysOpen fuel path s = .ok u64Max s ∨ ∃ e, sysOpen fuel path s = .error e s) := by
  rw [sysOpen, Exec.bind_of_ok (Exec.get_apply s)]
  rcases (openPath_readOnly s.vfs fuel path).outcome s.disk with ⟨node, hr⟩ | ⟨e, he⟩
  · refine .inl ⟨node, hr, ?_⟩
    rw [Exec.bind_of_ok (attempt_onFiles_of_ok hr)]
  · refine .inr ⟨⟨e, he⟩, ?_⟩
    cases e with
    | err e =>
      rw [Exec.bind_of_ok (attempt_onFiles_of_err he)]
      exact .inl rfl
    | panic | outOfBounds | fuel =>
      exact .inr ⟨_, Exec.bind_of_error (attempt_onFiles_of_stop he rfl)⟩

/-- A descriptor that is neither a pipe nor a file. -/
theorem sysRead_of_none {fd len : ℕ} (hlen : len ≠ 0) (hfd : fd ≠ 0)
    (h : s.readTarget fd = none) : sysRead fd len s = .ok (u64Max, []) s := by
  rw [sysRead, if_neg hlen, if_neg hfd, Exec.bind_of_ok (Exec.get_apply s)]
  simp only [h]
  rfl

/-- `sys_read` on the descriptor of a pipe reads from the pipe. -/
theorem sysRead_of_pipe {fd len id : ℕ} (hlen : len ≠ 0) (hfd : fd ≠ 0)
    (h : s.readTarget fd = some (.pipe id)) : sysRead fd len s = readPipe id len s := by
  rw [sysRead, if_neg hlen, if_neg hfd, Exec.bind_of_ok (Exec.get_apply s)]
  simp only [h]

/-- `sys_read` on the descriptor of a file reads from the file. -/
theorem sysRead_of_file {fd len offset : ℕ} {node : Node} (hlen : len ≠ 0) (hfd : fd ≠ 0)
    (h : s.readTarget fd = some (.file node offset)) :
    sysRead fd len s = readFile fd node offset len s := by
  rw [sysRead, if_neg hlen, if_neg hfd, Exec.bind_of_ok (Exec.get_apply s)]
  simp only [h]

/-- `sys_read` from a file that reads: the offset moves on. -/
theorem readFile_of_ok {fd len offset : ℕ} {node : Node} {r : ℕ × List UInt8}
    (h : node.read offset (List.replicate len 0) s.disk = .ok r s.disk) :
    readFile fd node offset len s = .ok (r.1, r.2.take r.1) (s.advance fd r.1) := by
  rw [readFile, Exec.bind_of_ok (attempt_onFiles_of_ok h)]
  rfl

/-- `sys_read` from a file that does not read changes nothing. -/
theorem readFile_of_error {fd len offset : ℕ} {node : Node} {e : Fault Unit}
    (h : node.read offset (List.replicate len 0) s.disk = .error e s.disk) :
    e = .err () ∧ readFile fd node offset len s = .ok (u64Max, []) s ∨
      ∃ e, readFile fd node offset len s = .error e s := by
  rw [readFile]
  cases e with
  | err e =>
    rw [Exec.bind_of_ok (attempt_onFiles_of_err h)]
    exact .inl ⟨rfl, rfl⟩
  | panic | outOfBounds | fuel => exact .inr ⟨_, Exec.bind_of_error (attempt_onFiles_of_stop h rfl)⟩

end

end RossOs
