import RossOs.Syscall.Memory
import RossOs.Syscall.Pipes

/-!
# Closed descriptors

`sys_close` empties a slot of the caller's table, and only `sys_open` and `sys_pipe` fill one again.
`sys_read` and `sys_write` look at the table for most descriptors, but not for 0, 1 and 2: a read of
0 takes keys, and a write to 1 or 2 puts bytes out, whatever the table says. `closed_refused_iff`
says that these calls are the only ones that a closed descriptor does not refuse, besides a write
with a pointer that the kernel cannot make a slice of: the slice comes first, and panics.
-/

namespace RossOs

open ByteMem Paging Ipc

/-! ## Runs -/

/-- A run of the machine: the processor, the number of the next task, and which descriptors are
closed. -/
structure Session where
  cpu : Cpu
  /-- `NEXT_ID`. -/
  nextId : ℕ
  /-- The descriptors for which `sys_close` returned 0, each after the id of its task, until
  `sys_open` or `sys_pipe` returns them to it. -/
  closed : List (ℕ × ℕ)

/-- A step of the machine. -/
inductive CpuAction
  | addTask (t : Task)
  | tick (rsp : ℕ)
  | sysPipe
  | sysOpen (fuel : ℕ) (path : List Char)
  | sysClose (fd : ℕ)
  | sysRead (wp : Bool) (fd ptr len : ℕ)
  | sysWrite (wp : Bool) (fd ptr len : ℕ)
  | sysExit
  /-- All that leaves the descriptors alone: the programs run, keys come in, files change, and the
  other system calls move the end of the heap. -/
  | other (c : Cpu) (heapEnd : ℕ)

namespace Session

/-- A system call of the current task. The value it returns decides what it means for the closed
descriptors; a call that faults has none. -/
def call (s : Session) (x : Proc → Exec Empty Cpu ℕ)
    (close : ℕ → ℕ → List (ℕ × ℕ) → List (ℕ × ℕ)) : Session :=
  match s.cpu.sys.currentTask with
  | none => s
  | some p =>
    match x p s.cpu with
    | .ok v c => { s with cpu := c, closed := close p.id v s.closed }
    | .error _ c => { s with cpu := c }

/-- A descriptor that a task got is no longer closed. -/
def reopen (id fd : ℕ) (closed : List (ℕ × ℕ)) : List (ℕ × ℕ) := closed.filter (· ≠ (id, fd))

/-- `sys_close` succeeded when it returns 0. -/
def closing (fd id v : ℕ) (closed : List (ℕ × ℕ)) : List (ℕ × ℕ) :=
  if v = 0 then (id, fd) :: closed else closed

/-- The other calls open and close nothing. -/
def unchanged (_ _ : ℕ) (closed : List (ℕ × ℕ)) : List (ℕ × ℕ) := closed

/-- One step. A new task gets the next id and the table of `Task::new`. -/
def step (s : Session) : CpuAction → Session
  | .addTask t =>
    { s with
      cpu := { s.cpu with
        sys := s.cpu.sys.addTask { t with id := s.nextId, fdTable := .withStdio } }
      nextId := s.nextId + 1 }
  | .tick rsp => { s with cpu := { s.cpu with sys := s.cpu.sys.tick rsp } }
  | .sysPipe => s.call (fun _ => onSys RossOs.sysPipe) reopen
  | .sysOpen fuel path => s.call (fun _ => onSys (RossOs.sysOpen fuel path)) reopen
  | .sysClose fd => s.call (fun _ => onSys (RossOs.sysClose fd)) (closing fd)
  | .sysRead wp fd ptr len => s.call (fun p => sysReadAt p.cr3 wp fd ptr len) unchanged
  | .sysWrite wp fd ptr len => s.call (fun p => sysWriteAt p.cr3 wp fd ptr len) unchanged
  | .sysExit => { s with cpu := { s.cpu with sys := s.cpu.sys.exit } }
  | .other c heapEnd =>
    { s with
      cpu := { c with
        sys := { c.sys with
          tasks := s.cpu.sys.tasks
          currentTask := s.cpu.sys.currentTask.map fun p => { p with heapEnd := heapEnd }
          pipes := s.cpu.sys.pipes } } }

/-- After boot, with memory and devices as in `c`. -/
def boot (main : Task) (c : Cpu) : Session where
  cpu := { c with sys := .boot main c.sys.keyboard c.sys.vfs c.sys.disk }
  nextId := main.id + 1
  closed := []

/-! ## The law -/

/-- The current task has closed the descriptor. -/
def Closed (s : Session) (fd : ℕ) : Prop := ∃ p ∈ s.cpu.sys.currentTask, (p.id, fd) ∈ s.closed

/-- The call returns `u64::MAX` and does nothing else. -/
def Fails (s : Session) (x : Proc → Exec Empty Cpu ℕ) : Prop :=
  ∀ p ∈ s.cpu.sys.currentTask, x p s.cpu = .ok u64Max s.cpu

/-- A read or a write of at least one byte on a closed descriptor fails. -/
def Refused (s : Session) : CpuAction → Prop
  | .sysRead wp fd ptr len => s.Closed fd → len ≠ 0 → s.Fails fun p => sysReadAt p.cr3 wp fd ptr len
  | .sysWrite wp fd ptr len =>
    s.Closed fd → len ≠ 0 → s.Fails fun p => sysWriteAt p.cr3 wp fd ptr len
  | _ => True

/-- The call is no read of the keyboard and no write to the screen or the serial port by the number
of a closed descriptor, and no write that ends at its slice. -/
def ByTable (s : Session) : CpuAction → Prop
  | .sysRead _ fd _ len => s.Closed fd → len ≠ 0 → fd ≠ 0
  | .sysWrite _ fd ptr len => s.Closed fd → len ≠ 0 → SliceOk ptr len ∧ fd ≠ 1 ∧ fd ≠ 2
  | _ => True

end Session

/-! ## What the calls do to the tables -/

/-- What is free in the one table is free in the other. -/
def FdTable.Keeps (t t' : FdTable) : Prop := ∀ fd, t.get fd = none → t'.get fd = none

/-- The step changes no task but the current one, and of that one only the table. -/
structure Retabled (t' : FdTable) (s s' : SysState) : Prop where
  tasks : s'.tasks = s.tasks
  currentTask : s'.currentTask = s.currentTask.map fun p => { p with fdTable := t' }

section
variable {s : SysState} {t : FdTable}

/-- A state is itself with the table it has. -/
theorem Retabled.refl (ht : s.fdTable = some t) : Retabled t s s := by
  refine ⟨rfl, ?_⟩
  obtain ⟨p, hp, rfl⟩ := Option.map_eq_some_iff.1 ht
  rw [hp]
  rfl

/-- The table of the current task is set. -/
theorem Retabled.setTable (s : SysState) (t' : FdTable) : Retabled t' s (s.setTable t') :=
  ⟨rfl, rfl⟩

/-- A state with the same tasks has the same tables. -/
theorem Retabled.of_eq {t' : FdTable} {s₁ s₂ : SysState} (h : Retabled t' s₁ s₂)
    (htasks : s₁.tasks = s.tasks) (hcurrent : s₁.currentTask = s.currentTask) :
    Retabled t' s s₂ :=
  ⟨h.tasks.trans htasks, h.currentTask.trans (by rw [hcurrent])⟩

/-- A table keeps its own free descriptors. -/
theorem FdTable.Keeps.refl (t : FdTable) : t.Keeps t := fun _ h => h

/-- A free descriptor stays free, but for the one that is returned. -/
theorem FdTable.get_alloc {t : FdTable} {e : FdEntry} {fd : ℕ} (hfree : t.get fd = none)
    (hne : fd ≠ (t.alloc e).1.getD u64Max) : (t.alloc e).2.get fd = none := by
  rcases t.alloc_spec e with ⟨i, -, hi, -, heq⟩ | ⟨-, heq⟩
  · rw [heq] at hne ⊢
    rw [FdTable.get_set hi, if_neg (show fd ≠ i from hne)]
    exact hfree
  · rwa [heq]

/-- What `sys_pipe` and `sys_open` do to the table. -/
def Opens (s : SysState) (t : FdTable) (r : Exec.Outcome Empty SysState ℕ) : Prop :=
  ∃ t', Retabled t' s r.state ∧
    ∀ fd, t.get fd = none → (∀ v s', r = .ok v s' → fd ≠ v) → t'.get fd = none

/-- One descriptor is opened, the one that is returned. -/
theorem allocFd_opens (ht : s.fdTable = some t) (e : FdEntry) : Opens s t (allocFd e s) := by
  rw [allocFd_run ht]
  refine ⟨(t.alloc e).2, .setTable s _, fun fd hfree hne => ?_⟩
  exact FdTable.get_alloc hfree (hne _ _ rfl)

/-- A call that does not get as far as the table. -/
theorem Opens.of_state {r : Exec.Outcome Empty SysState ℕ} (ht : s.fdTable = some t)
    (h : r.state = s) : Opens s t r :=
  ⟨t, by rw [h]; exact .refl ht, fun _ hfree _ => hfree⟩

/-- `sys_pipe` opens the descriptor it returns. -/
theorem sysPipe_opens (ht : s.fdTable = some t) : Opens s t (sysPipe s) := by
  cases hcreate : (Ipc.create s.pipes).1 with
  | none =>
    rw [sysPipe_of_none hcreate]
    exact .of_state ht rfl
  | some id =>
    rw [sysPipe_of_some hcreate]
    obtain ⟨t', hre, hfree⟩ := allocFd_opens
      (s := { s with pipes := (Ipc.create s.pipes).2 }) ht (.pipe id)
    exact ⟨t', hre.of_eq rfl rfl, hfree⟩

/-- `sys_open` opens the descriptor it returns. -/
theorem sysOpen_opens (ht : s.fdTable = some t) (fuel : ℕ) (path : List Char) :
    Opens s t (sysOpen fuel path s) := by
  rcases sysOpen_cases s fuel path with ⟨node, -, heq⟩ | ⟨-, heq | ⟨e, heq⟩⟩
  · rw [heq]
    exact allocFd_opens ht _
  · rw [heq]
    exact .of_state ht rfl
  · rw [heq]
    exact .of_state ht rfl

/-- `sys_close` returns 0 with the descriptor free, or changes nothing. -/
theorem sysClose_spec (ht : s.fdTable = some t) (fd : ℕ) :
    ∃ v t', sysClose fd s = .ok v (s.setTable t') ∧ t.Keeps t' ∧ (v = 0 → t'.get fd = none) := by
  have hrun : sysClose fd s =
      .ok (if (t.close fd).1 then 0 else u64Max) (s.setTable (t.close fd).2) := by
    rw [sysClose, Exec.bind_of_ok (Exec.get_apply s)]
    simp only [ht]
    rfl
  refine ⟨_, _, hrun, ?_⟩
  rcases t.close_spec fd with ⟨e, hget, heq⟩ | ⟨hfree, heq⟩
  · have hlt := FdTable.lt_of_get hget
    rw [heq]
    constructor
    · intro fd' hfree
      rw [FdTable.get_set hlt, hfree]
      exact ite_self none
    · intro _
      rw [FdTable.get_set hlt, if_pos rfl]
  · rw [heq]
    exact ⟨.refl t, fun h => absurd (show u64Max = 0 from h) (by decide)⟩

/-- The offset of a descriptor is no descriptor. -/
theorem advance_retabled (ht : s.fdTable = some t) (fd n : ℕ) :
    ∃ t', Retabled t' s (s.advance fd n) ∧ t.Keeps t' := by
  rw [SysState.advance]
  simp only [ht]
  split
  · rename_i node offset hget
    refine ⟨_, .setTable s _, fun fd' hfree => ?_⟩
    rw [FdTable.get_set (FdTable.lt_of_get hget), if_neg]
    · exact hfree
    · rintro rfl
      rw [hfree] at hget
      cases hget
  · exact ⟨t, .refl ht, .refl t⟩

/-- `sys_read` moves at most the offset of a descriptor. -/
theorem sysRead_retabled (ht : s.fdTable = some t) (fd len : ℕ) :
    ∃ t', Retabled t' s (Exec.Outcome.state (sysRead fd len s)) ∧ t.Keeps t' := by
  have hsame : ∀ {r : Exec.Outcome Empty SysState (ℕ × List UInt8)}, r.state.tasks = s.tasks →
      r.state.currentTask = s.currentTask → ∃ t', Retabled t' s r.state ∧ t.Keeps t' := by
    intro r htasks hcurrent
    have hre : Retabled t s s := .refl ht
    exact ⟨t, ⟨htasks, hcurrent.trans hre.currentTask⟩, .refl t⟩
  by_cases hlen : len = 0
  · rw [sysRead, if_pos hlen]
    exact hsame rfl rfl
  by_cases hfd : fd = 0
  · rw [sysRead, if_neg hlen, if_pos hfd, Exec.bind_of_ok (Exec.get_apply s),
      Exec.bind_of_ok (Exec.modify_apply _ s)]
    exact hsame rfl rfl
  cases htarget : s.readTarget fd with
  | none =>
    rw [sysRead_of_none hlen hfd htarget]
    exact hsame rfl rfl
  | some target =>
    cases target with
    | pipe id =>
      rw [sysRead_of_pipe hlen hfd htarget, readPipe, Exec.bind_of_ok (Exec.get_apply s),
        Exec.bind_of_ok (Exec.modify_apply _ s)]
      cases (Ipc.read id (List.replicate len 0) s.pipes).1 with
      | ok r => exact hsame rfl rfl
      | error e => exact hsame rfl rfl
    | file node offset =>
      rw [sysRead_of_file hlen hfd htarget]
      rcases (node.read_readOnly offset (List.replicate len 0)).outcome s.disk with
        ⟨r, hr⟩ | ⟨e, he⟩
      · rw [readFile_of_ok hr]
        exact advance_retabled ht fd r.1
      · rcases readFile_of_error he with ⟨-, heq⟩ | ⟨e', heq⟩
        · rw [heq]
          exact hsame rfl rfl
        · rw [heq]
          exact hsame rfl rfl

end

/-! ## The invariant -/

/-- The ids and the tables of the tasks. -/
def SysState.tables (s : SysState) : List (ℕ × FdTable) := s.all.map fun p => (p.id, p.fdTable)

/-- A closed descriptor is free in the table of its task, the only one with its id. -/
structure Session.Sound (s : Session) : Prop where
  nodup : (s.cpu.sys.tables.map Prod.fst).Nodup
  tasks_lt : ∀ x ∈ s.cpu.sys.tables, x.1 < s.nextId
  closed_lt : ∀ x ∈ s.closed, x.1 < s.nextId
  free : ∀ x ∈ s.cpu.sys.tables, ∀ fd, (x.1, fd) ∈ s.closed → x.2.get fd = none

/-- A call on the system that returned. -/
theorem onSys_eq_ok {α : Type} {x : Exec Empty SysState α} {c c' : Cpu} {a : α}
    (h : onSys x c = .ok a c') : x c.sys = .ok a c'.sys := by
  cases hx : x c.sys with
  | ok b s =>
    rw [onSys_of_ok hx] at h
    cases h
    rfl
  | error e s =>
    rw [onSys_of_error hx] at h
    cases h

/-- A call on the system that stopped. -/
theorem onSys_eq_error {α : Type} {x : Exec Empty SysState α} {c c' : Cpu} {e : Fault Empty}
    (h : onSys x c = .error e c') : x c.sys = .error e c'.sys := by
  cases hx : x c.sys with
  | ok b s =>
    rw [onSys_of_ok hx] at h
    cases h
  | error e s =>
    rw [onSys_of_error hx] at h
    cases h
    rfl

section
variable {s s' : Session} {p : Proc}

/-- The tables of the tasks, that of the current one first. -/
theorem tables_of_some (hp : s.cpu.sys.currentTask = some p) : s.cpu.sys.tables =
    (p.id, p.fdTable) :: s.cpu.sys.tasks.map fun q => (q.id, q.fdTable) := by
  rw [SysState.tables, SysState.all, hp]
  rfl

namespace Session

/-- A closed descriptor of the current task is free. -/
theorem Sound.free_current (h : s.Sound) (hp : s.cpu.sys.currentTask = some p) {fd : ℕ}
    (hfd : (p.id, fd) ∈ s.closed) : p.fdTable.get fd = none := by
  refine h.free (p.id, p.fdTable) ?_ fd hfd
  rw [tables_of_some hp]
  exact List.mem_cons_self

/-- Tasks change their order, and some go away. -/
theorem Sound.of_subperm (h : s.Sound) (htables : s'.cpu.sys.tables.Subperm s.cpu.sys.tables)
    (hnext : s'.nextId = s.nextId) (hclosed : s'.closed = s.closed) : s'.Sound where
  nodup := by
    obtain ⟨l, hperm, hsub⟩ := htables
    exact (hperm.map Prod.fst).nodup_iff.1 (h.nodup.sublist (hsub.map Prod.fst))
  tasks_lt := fun x hx => hnext ▸ h.tasks_lt x (htables.subset hx)
  closed_lt := fun x hx => hnext ▸ h.closed_lt x (hclosed ▸ hx)
  free := fun x hx fd hfd => h.free x (htables.subset hx) fd (hclosed ▸ hfd)

/-- The current task gets another table, in which its closed descriptors are free. -/
theorem Sound.retable (h : s.Sound) (hp : s.cpu.sys.currentTask = some p) {t' : FdTable} {c : Cpu}
    {closed : List (ℕ × ℕ)} (hre : Retabled t' s.cpu.sys c.sys)
    (hsub : ∀ x ∈ closed, x ∈ s.closed ∨ x.1 = p.id)
    (hfree : ∀ fd, (p.id, fd) ∈ closed → t'.get fd = none) :
    Sound { s with cpu := c, closed := closed } := by
  have hold := tables_of_some hp
  have hnew : c.sys.tables = (p.id, t') :: s.cpu.sys.tasks.map fun q => (q.id, q.fdTable) := by
    rw [SysState.tables, SysState.all, hre.currentTask, hp, hre.tasks]
    rfl
  have hids : c.sys.tables.map Prod.fst = s.cpu.sys.tables.map Prod.fst := by rw [hold, hnew]; rfl
  have hother : ∀ x ∈ s.cpu.sys.tasks.map fun q => (q.id, q.fdTable),
      x.1 ≠ p.id ∧ x ∈ s.cpu.sys.tables := by
    intro x hx
    have hnodup := h.nodup
    rw [hold] at hnodup ⊢
    refine ⟨fun heq => (List.nodup_cons.1 hnodup).1 ?_, List.mem_cons_of_mem _ hx⟩
    exact List.mem_map.2 ⟨x, hx, heq⟩
  have hlt : p.id < s.nextId := h.tasks_lt (p.id, p.fdTable) (hold ▸ List.mem_cons_self)
  constructor
  · exact hids ▸ h.nodup
  · intro x hx
    obtain ⟨y, hy, heq⟩ := List.mem_map.1 (hids ▸ List.mem_map_of_mem hx)
    exact heq ▸ h.tasks_lt y hy
  · intro x hx
    rcases hsub x hx with hx | heq
    · exact h.closed_lt x hx
    · exact heq.trans_lt hlt
  · intro x hx fd hfd
    rcases List.mem_cons.1 (hnew ▸ hx) with rfl | hx
    · exact hfree fd hfd
    · obtain ⟨hne, hx⟩ := hother x hx
      exact h.free x hx fd ((hsub _ hfd).resolve_right hne)

/-- A system call that leaves the closed descriptors free. -/
theorem Sound.call (h : s.Sound) {x : Proc → Exec Empty Cpu ℕ}
    {close : ℕ → ℕ → List (ℕ × ℕ) → List (ℕ × ℕ)}
    (hok : ∀ p v c, s.cpu.sys.currentTask = some p → x p s.cpu = .ok v c →
      (∀ y ∈ close p.id v s.closed, y ∈ s.closed ∨ y.1 = p.id) ∧
      ∃ t', Retabled t' s.cpu.sys c.sys ∧
        ∀ fd, (p.id, fd) ∈ close p.id v s.closed → t'.get fd = none)
    (herror : ∀ p e c, s.cpu.sys.currentTask = some p → x p s.cpu = .error e c →
      ∃ t', Retabled t' s.cpu.sys c.sys ∧ ∀ fd, (p.id, fd) ∈ s.closed → t'.get fd = none) :
    (s.call x close).Sound := by
  rw [Session.call]
  cases hp : s.cpu.sys.currentTask with
  | none => exact h
  | some p =>
    simp only
    cases hx : x p s.cpu with
    | ok v c =>
      obtain ⟨hsub, t', hre, hfree⟩ := hok p v c hp hx
      exact h.retable hp hre hsub hfree
    | error e c =>
      obtain ⟨t', hre, hfree⟩ := herror p e c hp hx
      exact h.retable hp hre (fun y hy => .inl hy) hfree

/-- A system call that returns a descriptor. -/
theorem Sound.opens (h : s.Sound) {x : Exec Empty SysState ℕ}
    (hx : ∀ t, s.cpu.sys.fdTable = some t → Opens s.cpu.sys t (x s.cpu.sys)) :
    (s.call (fun _ => onSys x) reopen).Sound := by
  have htable : ∀ {p}, s.cpu.sys.currentTask = some p → s.cpu.sys.fdTable = some p.fdTable :=
    fun hp => by rw [SysState.fdTable, hp]; rfl
  refine h.call ?_ ?_
  · intro p v c hp hrun
    refine ⟨fun y hy => .inl (List.mem_of_mem_filter hy), ?_⟩
    obtain ⟨t', hre, hfree⟩ := hx _ (htable hp)
    have hxc := onSys_eq_ok hrun
    rw [hxc] at hre
    refine ⟨t', hre, fun fd hfd => ?_⟩
    obtain ⟨hclosed, hne⟩ := List.mem_filter.1 hfd
    refine hfree fd (h.free_current hp hclosed) fun v' s' heq => ?_
    rw [hxc] at heq
    cases heq
    rintro rfl
    exact of_decide_eq_true hne rfl
  · intro p e c hp hrun
    obtain ⟨t', hre, hfree⟩ := hx _ (htable hp)
    have hxc := onSys_eq_error hrun
    rw [hxc] at hre
    refine ⟨t', hre, fun fd hfd => hfree fd (h.free_current hp hfd) fun v' s' heq => ?_⟩
    rw [hxc] at heq
    cases heq

/-- `sys_close` keeps every closed descriptor free. -/
theorem Sound.sysClose (h : s.Sound) (fd : ℕ) : (s.step (.sysClose fd)).Sound := by
  have hspec : ∀ {p}, s.cpu.sys.currentTask = some p → ∃ v t',
      RossOs.sysClose fd s.cpu.sys = .ok v (s.cpu.sys.setTable t') ∧ p.fdTable.Keeps t' ∧
        (v = 0 → t'.get fd = none) :=
    fun hp => sysClose_spec (by rw [SysState.fdTable, hp]; rfl) fd
  show (s.call (fun _ => onSys (RossOs.sysClose fd)) (closing fd)).Sound
  refine h.call ?_ ?_
  · intro p v c hp hrun
    obtain ⟨v', t', hclose, hkeeps, hzero⟩ := hspec hp
    obtain ⟨rfl, hsys⟩ := EStateM.Result.ok.inj (hclose.symm.trans (onSys_eq_ok hrun))
    have hre : Retabled t' s.cpu.sys c.sys := hsys ▸ .setTable _ t'
    rw [closing]
    split
    · rename_i hv
      refine ⟨fun y hy => ?_, t', hre, fun fd' hfd => ?_⟩
      · rcases List.mem_cons.1 hy with rfl | hy
        · exact .inr rfl
        · exact .inl hy
      · rcases List.mem_cons.1 hfd with heq | hfd
        · cases heq
          exact hzero hv
        · exact hkeeps fd' (h.free_current hp hfd)
    · exact ⟨fun y hy => .inl hy, t', hre, fun fd' hfd => hkeeps fd' (h.free_current hp hfd)⟩
  · intro p e c hp hrun
    obtain ⟨v', t', hclose, -⟩ := hspec hp
    cases hclose.symm.trans (onSys_eq_error hrun)

/-- A system call that keeps the free descriptors free and says nothing of closed ones. -/
theorem Sound.keeps (h : s.Sound) {x : Proc → Exec Empty Cpu ℕ}
    (hx : ∀ p, s.cpu.sys.currentTask = some p →
      ∃ t', Retabled t' s.cpu.sys (Exec.Outcome.state (x p s.cpu)).sys ∧ p.fdTable.Keeps t') :
    (s.call x unchanged).Sound := by
  refine h.call ?_ ?_
  · intro p v c hp hrun
    obtain ⟨t', hre, hkeeps⟩ := hx p hp
    rw [hrun] at hre
    exact ⟨fun y hy => .inl hy, t', hre, fun fd hfd => hkeeps fd (h.free_current hp hfd)⟩
  · intro p e c hp hrun
    obtain ⟨t', hre, hkeeps⟩ := hx p hp
    rw [hrun] at hre
    exact ⟨t', hre, fun fd hfd => hkeeps fd (h.free_current hp hfd)⟩

/-- A step that changes neither the tasks nor their tables. -/
theorem Sound.of_tables (h : s.Sound) (htables : s'.cpu.sys.tables = s.cpu.sys.tables)
    (hnext : s'.nextId = s.nextId) (hclosed : s'.closed = s.closed) : s'.Sound :=
  h.of_subperm (htables ▸ List.Subperm.refl _) hnext hclosed

/-- A new task keeps every closed descriptor free. -/
theorem Sound.addTask (h : s.Sound) (t : Task) : (s.step (.addTask t)).Sound := by
  have htables : (s.step (.addTask t)).cpu.sys.tables =
      s.cpu.sys.tables ++ [(s.nextId, FdTable.withStdio)] := by
    have hall : (s.step (.addTask t)).cpu.sys.all =
        s.cpu.sys.all ++ [{ t with id := s.nextId, fdTable := .withStdio }] :=
      (List.append_assoc _ _ _).symm
    rw [SysState.tables, hall, List.map_append]
    rfl
  have hmem : ∀ {x}, x ∈ (s.step (.addTask t)).cpu.sys.tables →
      x ∈ s.cpu.sys.tables ∨ x = (s.nextId, FdTable.withStdio) := by
    intro x hx
    rw [htables] at hx
    exact (List.mem_append.1 hx).imp_right List.mem_singleton.1
  constructor
  · rw [htables, List.map_append]
    refine List.nodup_append.2 ⟨h.nodup, List.nodup_singleton _, fun a ha b hb hab => ?_⟩
    obtain ⟨x, hx, rfl⟩ := List.mem_map.1 ha
    have hid : x.1 = s.nextId := hab.trans (List.mem_singleton.1 hb)
    exact absurd (h.tasks_lt x hx) hid.not_lt
  · intro x hx
    rcases hmem hx with hx | rfl
    · exact Nat.lt_succ_of_lt (h.tasks_lt x hx)
    · exact Nat.lt_succ_self _
  · exact fun x hx => Nat.lt_succ_of_lt (h.closed_lt x hx)
  · intro x hx fd hfd
    rcases hmem hx with hx | rfl
    · exact h.free x hx fd hfd
    · exact absurd (h.closed_lt _ hfd) (lt_irrefl _)

/-- A timer interrupt keeps every closed descriptor free. -/
theorem Sound.tick (h : s.Sound) (rsp : ℕ) : (s.step (.tick rsp)).Sound := by
  refine h.of_subperm ?_ rfl rfl
  have hnext : (s.step (.tick rsp)).cpu.sys = s.cpu.sys.tick rsp := rfl
  have hqueue : (s.cpu.sys.tick rsp).tables =
      (s.cpu.sys.requeue rsp).map fun q => (q.id, q.fdTable) := by
    rw [SysState.tables, SysState.all, SysState.tick]
    cases s.cpu.sys.requeue rsp with
    | nil => rfl
    | cons q tasks => rfl
  rw [hnext, hqueue, SysState.requeue]
  cases hp : s.cpu.sys.currentTask with
  | none =>
    rw [SysState.tables, SysState.all, hp]
    exact List.Subperm.refl _
  | some p =>
    rw [tables_of_some hp]
    simp only
    split
    · exact (List.sublist_cons_self _ _).subperm
    · rw [List.map_append]
      exact (List.perm_append_singleton _ _).subperm

end Session

end

/-! ## Accesses -/

/-- The run leaves the system as it is. -/
def KeepsSys {α : Type} (x : Exec Empty Cpu α) : Prop :=
  ∀ c, Exec.Sat (x c) (fun _ c' => c'.sys = c.sys) fun _ c' => c'.sys = c.sys

section
variable {α β : Type}

/-- A value leaves the system. -/
theorem KeepsSys.pure (a : α) : KeepsSys (pure a) := fun _ => Exec.sat_ok.2 rfl

/-- Two runs that leave the system do so together. -/
theorem KeepsSys.bind {x : Exec Empty Cpu α} {f : α → Exec Empty Cpu β} (hx : KeepsSys x)
    (hf : ∀ a, KeepsSys (f a)) : KeepsSys (x >>= f) := by
  intro c
  refine Exec.Sat.bind ((hx c).mono (fun a c' hc' => ?_) fun _ _ hc' => hc')
  rw [← hc']
  exact hf a c'

/-- A change of the rest of the machine leaves the system. -/
theorem KeepsSys.modify {f : Cpu → Cpu} (hf : ∀ c, (f c).sys = c.sys) :
    KeepsSys (modify f : Exec Empty Cpu PUnit) := fun c => Exec.sat_ok.2 (hf c)

/-- An access to memory leaves the system. -/
theorem access_keepsSys (m : Mem) (cr3 : ℕ) (wp store : Bool) (va : ℕ) :
    KeepsSys (access m cr3 wp store va) := by
  intro c
  rcases access_cases m cr3 wp store va c with ⟨phys, h⟩ | h
  · rw [h]
    exact Exec.sat_ok.2 rfl
  · rw [h]
    exact Exec.sat_error.2 rfl

/-- Storing bytes leaves the system. -/
theorem storeBytes_keepsSys (m : Mem) (cr3 : ℕ) (wp : Bool) (bs : List UInt8) (ptr : ℕ) :
    KeepsSys (storeBytes m cr3 wp ptr bs) := by
  induction bs generalizing ptr with
  | nil => exact .pure _
  | cons b bs ih =>
    rw [storeBytes]
    refine (access_keepsSys m cr3 wp true _).bind fun phys => ?_
    exact .bind (.modify fun _ => rfl) fun _ => ih (ptr + 1)

/-- Loading bytes leaves the system. -/
theorem loadBytes_keepsSys (m : Mem) (cr3 : ℕ) (wp : Bool) (n ptr : ℕ) :
    KeepsSys (loadBytes m cr3 wp ptr n) := by
  induction n generalizing ptr with
  | zero => exact .pure _
  | succ n ih =>
    rw [loadBytes]
    refine (access_keepsSys m cr3 wp false _).bind fun phys => ?_
    exact (ih (ptr + 1)).bind fun bs => .pure _

end

section
variable {c : Cpu} {p : Proc}

/-- `sys_read` at the level of the machine. -/
theorem sysReadAt_retabled (hp : c.sys.currentTask = some p) (cr3 : ℕ) (wp : Bool)
    (fd ptr len : ℕ) : ∃ t',
      Retabled t' c.sys (Exec.Outcome.state (sysReadAt cr3 wp fd ptr len c)).sys ∧
        p.fdTable.Keeps t' := by
  obtain ⟨t', hre, hkeeps⟩ := sysRead_retabled (s := c.sys) (t := p.fdTable)
    (by rw [SysState.fdTable, hp]; rfl) fd len
  rcases readSlice_cases fd ptr len c with ⟨hslice, -⟩ | ⟨hslice, -⟩
  case inr =>
    refine ⟨p.fdTable, ?_, .refl _⟩
    rw [sysReadAt, Exec.bind_of_error hslice]
    exact .refl (by rw [SysState.fdTable, hp]; rfl)
  refine ⟨t', ?_, hkeeps⟩
  rw [sysReadAt_of_slice hslice]
  cases hrun : sysRead fd len c.sys with
  | error e s' =>
    rw [hrun] at hre
    rw [Exec.bind_of_error (onSys_of_error hrun)]
    exact hre
  | ok r s' =>
    rw [hrun] at hre
    rw [Exec.bind_of_ok (onSys_of_ok hrun), Exec.bind_of_ok (Exec.get_apply _)]
    have hstore := ((storeBytes_keepsSys c.mem cr3 wp r.2 ptr).bind fun _ => .pure r.1)
      { c with sys := s' }
    rw [hstore.state]
    exact hre

/-- A run that keeps the system calls' state, seen from the tables. -/
theorem Retabled.of_sys {c' : Cpu} (hp : c.sys.currentTask = some p) (h : c'.sys = c.sys) :
    Retabled p.fdTable c.sys c'.sys := by
  rw [h]
  exact .refl (by rw [SysState.fdTable, hp]; rfl)

/-- Fetching a buffer of the task and handing it to a device keeps the system calls' state. -/
theorem loadThen_keepsSys (cr3 : ℕ) (wp : Bool) (ptr n r : ℕ) {f : List UInt8 → Cpu → Cpu}
    (hf : ∀ data c, (f data c).sys = c.sys) (m : Mem) :
    KeepsSys (do
      let data ← loadBytes m cr3 wp ptr n
      modify (f data)
      pure r) :=
  (loadBytes_keepsSys m cr3 wp n ptr).bind fun data =>
    .bind (.modify (hf data)) fun _ => .pure r

/-- A write into a pipe changes no table. -/
theorem writePipe_retabled (hp : c.sys.currentTask = some p) (cr3 : ℕ) (wp : Bool)
    (id ptr len : ℕ) :
    Retabled p.fdTable c.sys (Exec.Outcome.state (writePipe cr3 wp id ptr len c)).sys := by
  rw [writePipe, Exec.bind_of_ok (Exec.get_apply c)]
  cases Ipc.takes c.sys.pipes id len with
  | none => exact .of_sys hp rfl
  | some n =>
    simp only
    rw [Exec.bind_of_ok (Exec.get_apply c)]
    have hrun := loadBytes_keepsSys c.mem cr3 wp n ptr c
    cases hdata : loadBytes c.mem cr3 wp ptr n c with
    | error e c' =>
      rw [hdata] at hrun
      rw [Exec.bind_of_error hdata]
      exact .of_sys hp (hrun.of_error rfl)
    | ok data c' =>
      rw [hdata] at hrun
      rw [Exec.bind_of_ok hdata, Exec.bind_of_ok (Exec.modify_apply _ _)]
      have hre : Retabled p.fdTable c.sys c'.sys := .of_sys hp (hrun.of_ok rfl)
      -- the write touches the pipes alone
      exact ⟨hre.tasks, hre.currentTask⟩

/-- `sys_write` changes no table. -/
theorem sysWriteAt_retabled (hp : c.sys.currentTask = some p) (cr3 : ℕ) (wp : Bool)
    (fd ptr len : ℕ) :
    Retabled p.fdTable c.sys (Exec.Outcome.state (sysWriteAt cr3 wp fd ptr len c)).sys := by
  by_cases hlen : len = 0
  · rw [sysWriteAt, if_pos hlen]
    exact .of_sys hp rfl
  by_cases hok : SliceOk ptr len
  case neg =>
    rw [sysWriteAt_panic hlen hok]
    exact .of_sys hp rfl
  rw [sysWriteAt_of_slice hlen hok, writeSlice]
  by_cases h1 : fd = 1
  · rw [if_pos h1, Exec.bind_of_ok (Exec.get_apply c)]
    have hrun := loadThen_keepsSys cr3 wp ptr len len
      (f := fun data c => { c with screen := c.screen ++ data.filter isPrinted }) (fun _ _ => rfl)
      c.mem c
    exact .of_sys hp hrun.state
  rw [if_neg h1]
  by_cases h2 : fd = 2
  · rw [if_pos h2, Exec.bind_of_ok (Exec.get_apply c)]
    have hrun := loadThen_keepsSys cr3 wp ptr len len
      (f := fun data c => { c with serial := c.serial ++ data }) (fun _ _ => rfl) c.mem c
    exact .of_sys hp hrun.state
  rw [if_neg h2, Exec.bind_of_ok (Exec.get_apply c)]
  cases c.sys.pipeOf fd with
  | none => exact .of_sys hp rfl
  | some id => exact writePipe_retabled hp cr3 wp id ptr len

end

/-! ## Runs keep the invariant -/

namespace Session

section
variable {s : Session}

/-- At boot no descriptor was closed. -/
theorem Sound.boot (main : Task) (c : Cpu) : (boot main c).Sound where
  nodup := List.nodup_singleton _
  tasks_lt := fun x hx => by
    obtain rfl := List.mem_singleton.1 hx
    exact Nat.lt_succ_self main.id
  closed_lt := nofun
  free := nofun

/-- Every step keeps closed descriptors free. -/
theorem Sound.step (h : s.Sound) (a : CpuAction) : (s.step a).Sound := by
  have htable : ∀ {t p}, s.cpu.sys.fdTable = some t → s.cpu.sys.currentTask = some p →
      t = p.fdTable := by
    intro t p ht hp
    rw [SysState.fdTable, hp] at ht
    exact (Option.some.inj ht).symm
  cases a with
  | addTask t => exact h.addTask t
  | tick rsp => exact h.tick rsp
  | sysPipe => exact h.opens fun t ht => sysPipe_opens ht
  | sysOpen fuel path => exact h.opens fun t ht => sysOpen_opens ht fuel path
  | sysClose fd => exact h.sysClose fd
  | sysRead wp fd ptr len => exact h.keeps fun p hp => sysReadAt_retabled hp p.cr3 wp fd ptr len
  | sysWrite wp fd ptr len =>
    exact h.keeps fun p hp =>
      ⟨p.fdTable, sysWriteAt_retabled hp p.cr3 wp fd ptr len, .refl _⟩
  | sysExit =>
    refine h.of_tables ?_ rfl rfl
    have hexit : (s.step .sysExit).cpu.sys = s.cpu.sys.exit := rfl
    rw [hexit, SysState.tables, SysState.tables, SysState.all, SysState.all, SysState.exit]
    cases s.cpu.sys.currentTask with
    | none => rfl
    | some p => rfl
  | other c heapEnd =>
    refine h.of_tables ?_ rfl rfl
    have hcurrent : (s.step (.other c heapEnd)).cpu.sys.currentTask =
        s.cpu.sys.currentTask.map fun p => { p with heapEnd := heapEnd } := rfl
    rw [SysState.tables, SysState.tables, SysState.all, SysState.all, hcurrent]
    cases s.cpu.sys.currentTask with
    | none => rfl
    | some p => rfl

/-! ## Closed descriptors -/

/-- A closed descriptor leads to no pipe and to no file. -/
theorem Sound.refusesRead_iff (h : s.Sound) {fd : ℕ} (hc : s.Closed fd) (ptr len : ℕ) :
    s.cpu.sys.RefusesRead fd ptr len ↔ fd ≠ 0 := by
  obtain ⟨p, hp, hfd⟩ := hc
  have htarget : s.cpu.sys.readTarget fd = none := by
    rw [SysState.readTarget, SysState.fdTable, hp]
    simp only [Option.map_some, Option.bind_some, h.free_current hp hfd]
  rw [SysState.RefusesRead, SysState.FailsRead, SysState.buffered, htarget]
  constructor
  · exact fun hr => hr.1.1
  · intro hfd
    refine ⟨⟨hfd, trivial⟩, fun hb => ?_⟩
    simp [hfd] at hb

/-- Which writes to a closed descriptor are refused. -/
theorem Sound.refusesWrite_iff (h : s.Sound) {fd : ℕ} (hc : s.Closed fd) (ptr len : ℕ) :
    s.cpu.sys.RefusesWrite fd ptr len ↔ SliceOk ptr len ∧ fd ≠ 1 ∧ fd ≠ 2 := by
  obtain ⟨p, hp, hfd⟩ := hc
  have hpipe : s.cpu.sys.pipeOf fd = none := by
    rw [SysState.pipeOf, SysState.fdTable, hp]
    simp only [Option.map_some, Option.bind_some, h.free_current hp hfd]
  refine ⟨fun hr => ⟨hr.1, hr.2.1, hr.2.2.1⟩, fun hne => ⟨hne.1, hne.2.1, hne.2.2, ?_⟩⟩
  intro id hid
  cases hpipe.symm.trans hid

/-- Which calls with a closed descriptor are refused. -/
theorem Sound.refused_iff (h : s.Sound) (a : CpuAction) : s.Refused a ↔ s.ByTable a := by
  cases a with
  | sysRead wp fd ptr len =>
    refine forall_congr' fun hc => forall_congr' fun hlen => ?_
    rw [← h.refusesRead_iff hc ptr len]
    constructor
    · intro hfails
      obtain ⟨p, hp, -⟩ := hc
      exact refusesRead_of_eq hlen (hfails p hp)
    · exact fun hr p hp => sysReadAt_refused hlen hr
  | sysWrite wp fd ptr len =>
    refine forall_congr' fun hc => forall_congr' fun hlen => ?_
    rw [← h.refusesWrite_iff hc ptr len]
    constructor
    · intro hfails
      obtain ⟨p, hp, -⟩ := hc
      exact refusesWrite_of_eq hlen (hfails p hp)
    · exact fun hr p hp => sysWriteAt_refused hlen hr
  | addTask | tick | sysPipe | sysOpen | sysClose | sysExit | other => exact Iff.rfl

end

/-- From every state of every run on, the reads and the writes on closed descriptors fail exactly as
long as none of them is for a device by its number and none of the writes ends at its slice. -/
theorem closed_refused_iff (main : Task) (c : Cpu) (l l' : List CpuAction) :
    Run.Guarded step Refused (l.foldl step (boot main c)) l' ↔
      Run.Guarded step ByTable (l.foldl step (boot main c)) l' := by
  have hsound : (l.foldl step (boot main c)).Sound :=
    List.foldlRecOn l step (Sound.boot main c) fun s hs a _ => hs.step a
  exact Run.guarded_congr (fun s a hs => hs.refused_iff a) (fun s a hs _ => hs.step a) hsound

/-- The main task, whose memory begins with a gigabyte that it may use. -/
def userMapped : Session :=
  .boot ⟨0, ⟨0, 0, 0, 0, 0⟩, 0, 0, 0x1000, .running, false, 0⟩
    { kernelMapped with
      mem := write (setWord (setWord (fun _ => 0) 0x1000 0 0x2007) 0x2000 0 0x87) 0x5000 [0x41] }

/-- A task closes its standard output, and the letter that it writes there still comes to the
screen. -/
theorem closed_stdout_writes :
    ¬ Run.Guarded step Refused userMapped [.sysClose 1, .sysWrite true 1 0x5000 1] ∧
      (([.sysClose 1, .sysWrite true 1 0x5000 1] : List CpuAction).foldl step
        userMapped).cpu.screen = [0x41] := by
  refine ⟨fun h => ?_, by decide +kernel⟩
  have hclosed : (userMapped.step (.sysClose 1)).Closed 1 := ⟨_, rfl, by decide⟩
  have hfails := h.2.1 hclosed (by decide) _ rfl
  exact (refusesWrite_of_eq (by decide) hfails).2.1 rfl

end Session

end RossOs
