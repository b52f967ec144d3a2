import Mathlib.Logic.Function.Basic
import RossOs.Lib.Brackets
import RossOs.Lib.Run

/-!
# Spin locks and interrupts

Which locks the shell commands, the system calls and the timer interrupt take, and in which order on
one processor. The main task runs the commands with interrupts enabled, so that the timer can
preempt it while it holds a lock; the timer handler and the system calls run with interrupts masked
and wait for a held lock for ever. How often a command or a call goes to the disk or takes a page
depends on its data and is an argument here. `no_self_deadlock` says which interrupts and calls do
no harm, and `exec_deadlock` shows one that does.
-/

namespace RossOs

namespace Locks

open LockOp

/-! ## The locks a piece of code takes -/

/-- The spin locks. `DEVICES` is only used by the shell. -/
inductive Lock
  | scheduler
  | vfs
  | port
  | pmm
  | pipes
  | devices
deriving DecidableEq, Repr

/-- The lock operations of a piece of code. -/
abbrev Program := List (LockOp Lock)

/-- `read_sectors`, `write_sectors` and `is_ready`. -/
def transaction : Program := holding .port []

/-- `n` requests to the drive. -/
def transactions (n : ℕ) : Program := turns n transaction

/-- `alloc_page`, `free_pages` and `total_mib`. -/
def page : Program := holding .pmm []

/-- `n` calls of `alloc_page`. -/
def pages (n : ℕ) : Program := turns n page

/-- `vfs::open`, which holds `VFS` while it looks the components up. -/
def openPath (n : ℕ) : Program := holding .vfs (transactions n)

/-- A statement that takes the scheduler's lock. -/
def sched : Program := holding .scheduler []

/-- A function of `ipc.rs`. -/
def pipe : Program := holding .pipes []

/-- The shell commands, with what their data decide: the requests to the drive in `vfs::open` and
after it, the pages, and how far the command gets. Commands without locks are `quiet`. -/
inductive Command
  | quiet
  | memory
  | cd (lookup : ℕ)
  | ls (lookup readdir : ℕ)
  | cat (lookup read : ℕ)
  | write (lookup : ℕ) (create : Option (ℕ × ℕ)) (store : ℕ)
  | lspci
  | disk (ready : Bool)
  | exec (lookup read frames : ℕ) (spawned : Bool)
deriving DecidableEq, Repr

/-- What a command does. `write` opens the file, or creates it in the directory it then opens;
`exec` is `spawn_process`. -/
def Command.program : Command → Program
  | .quiet => []
  | .memory => page ++ page
  | .cd lookup => openPath lookup
  | .ls lookup readdir => openPath lookup ++ transactions readdir
  | .cat lookup read => openPath lookup ++ transactions read
  | .write lookup create store =>
    openPath lookup ++ (match create with
      | none => []
      | some (parent, slot) => openPath parent ++ transactions slot) ++ transactions store
  | .lspci => holding .devices []
  | .disk ready => transaction ++ if ready then transaction else []
  | .exec lookup read frames spawned =>
    openPath lookup ++ transactions read ++ pages frames ++ if spawned then sched else []

/-- The system calls, with what their data decide. Calls that take no lock are `quiet`. -/
inductive Call
  | quiet
  | sysPipe (created : Bool)
  | sysWrite (toPipe : Bool)
  | sysRead
  | sysReadPipe
  | sysReadFile (read : ℕ) (ok : Bool)
  | sysExit
  | sysBrk (frames : ℕ)
  | sysMmap (frames : ℕ) (ok : Bool)
  | sysOpen (lookup : ℕ) (ok : Bool)
  | sysClose
deriving DecidableEq, Repr

/-- What a system call does. `sys_brk` holds the scheduler's lock while it takes pages. -/
def Call.program : Call → Program
  | .quiet => []
  | .sysPipe created => pipe ++ if created then sched else []
  | .sysWrite toPipe => sched ++ if toPipe then pipe else []
  | .sysRead => sched
  | .sysReadPipe => sched ++ pipe
  | .sysReadFile read ok => sched ++ transactions read ++ if ok then sched else []
  | .sysExit => sched
  | .sysBrk frames => holding .scheduler (pages frames)
  | .sysMmap frames ok => sched ++ pages frames ++ if ok then sched else []
  | .sysOpen lookup ok => openPath lookup ++ if ok then sched else []
  | .sysClose => sched

/-- `task_timer_handler`. -/
def timerHandler : Program := sched

/-! ## The processor -/

/-- Who holds a lock: the main task, a user task in a system call, or the timer handler. -/
inductive Owner
  | main
  | user (id : ℕ)
  | handler
deriving DecidableEq, Repr

/-- What the processor runs: a task with interrupts enabled, or the rest of a system call or of the
timer handler with interrupts masked. -/
inductive Mode
  | task (t : Owner)
  | masked (o : Owner) (rest : Program)
deriving DecidableEq

/-- The locks, the processor, and the rest of the main task's command. -/
structure State where
  holder : Lock → Option Owner
  mode : Mode
  command : Program

/-- After boot. -/
def State.start : State := ⟨fun _ => none, .task .main, []⟩

/-- A lock operation of `o`: taking a lock that is held does not get on. -/
def perform (o : Owner) (holder : Lock → Option Owner) : Program → (Lock → Option Owner) × Program
  | [] => (holder, [])
  | .lock l :: p =>
    if holder l = none then (Function.update holder l (some o), p) else (holder, .lock l :: p)
  | .unlock l :: p => (Function.update holder l none, p)

/-- A step: the main task starts a command or gets on with it, the timer interrupts a task, a user
task makes a system call, the masked code gets on, or the timer handler returns to a task. -/
inductive Action
  | command (c : Command)
  | main
  | timer
  | call (c : Call)
  | masked
  | resume (t : Owner)

/-- One step; one that does not apply does nothing. -/
def State.step (s : State) : Action → State
  | .command c =>
    if s.mode = .task .main ∧ s.command = [] then { s with command := c.program } else s
  | .main =>
    if s.mode = .task .main then
      { s with holder := (perform .main s.holder s.command).1
               command := (perform .main s.holder s.command).2 }
    else s
  | .timer =>
    match s.mode with
    | .task _ => { s with mode := .masked .handler timerHandler }
    | .masked _ _ => s
  | .call c =>
    match s.mode with
    | .task (.user u) => { s with mode := .masked (.user u) c.program }
    | _ => s
  | .masked =>
    match s.mode with
    | .masked (.user u) [] => { s with mode := .task (.user u) }
    | .masked o rest =>
      { s with holder := (perform o s.holder rest).1
               mode := .masked o (perform o s.holder rest).2 }
    | .task _ => s
  | .resume t =>
    if s.mode = .masked .handler [] ∧ t ≠ .handler then { s with mode := .task t } else s

/-- The masked processor waits for a lock that a task holds which it interrupted or preempted. -/
def SelfDeadlock (s : State) : Prop :=
  ∃ o l rest t, s.mode = .masked o (.lock l :: rest) ∧ s.holder l = some t ∧ t ≠ o

/-- The timer does not come while the main task holds the scheduler's lock, and no system call is
made that takes a lock which the preempted main task holds. -/
def State.Harmless (s : State) : Action → Prop
  | .timer => s.holder .scheduler ≠ some .main
  | .call c => ∀ l ∈ locks c.program, s.holder l ≠ some .main
  | _ => True

instance (s : State) : ∀ a, Decidable (s.Harmless a)
  | .timer => inferInstanceAs (Decidable (_ ≠ _))
  | .call c => inferInstanceAs (Decidable (∀ l ∈ locks c.program, s.holder l ≠ some .main))
  | .command _ | .main | .masked | .resume _ => inferInstanceAs (Decidable True)

/-! ## The masked code is bracketed -/

/-- Requests to the drive give their lock back. -/
theorem returns_transactions {held : List Lock} (h : .port ∉ held) (n : ℕ) :
    Returns held (transactions n) := .turns n (.holding h .nil)

/-- Allocations give their lock back. -/
theorem returns_pages {held : List Lock} (h : .pmm ∉ held) (n : ℕ) : Returns held (pages n) :=
  .turns n (.holding h .nil)

/-- The scheduler gives its lock back. -/
theorem returns_sched : Returns [] sched := .holding (by decide) .nil

/-- The pipes give their lock back. -/
theorem returns_pipe : Returns [] pipe := .holding (by decide) .nil

/-- A system call ends with no lock. -/
theorem Call.returns (c : Call) : Returns [] c.program := by
  cases c with
  | quiet => exact .nil
  | sysPipe created => exact .append returns_pipe (.ite returns_sched)
  | sysWrite toPipe => exact .append returns_sched (.ite returns_pipe)
  | sysRead => exact returns_sched
  | sysReadPipe => exact .append returns_sched returns_pipe
  | sysReadFile read ok =>
    exact .append (.append returns_sched (returns_transactions (by decide) read))
      (.ite returns_sched)
  | sysExit => exact returns_sched
  | sysBrk frames => exact .holding (by decide) (returns_pages (by decide) frames)
  | sysMmap frames ok =>
    exact .append (.append returns_sched (returns_pages (by decide) frames)) (.ite returns_sched)
  | sysOpen lookup ok =>
    exact .append (.holding (by decide) (returns_transactions (by decide) lookup))
      (.ite returns_sched)
  | sysClose => exact returns_sched

/-! ## The invariant -/

/-- The locks the masked code holds, and what is ahead of it: it brackets them, and takes none that
the main task holds. -/
structure MaskedInv (s : State) (o : Owner) (rest : Program) (held : List Lock) : Prop where
  not_main : o ≠ .main
  nodup : held.Nodup
  holds : ∀ l, s.holder l = some o ↔ l ∈ held
  others : ∀ l t, s.holder l = some t → t = .main ∨ t = o
  bracketed : Bracketed held rest
  ahead : ∀ l ∈ locks rest, s.holder l ≠ some .main

/-- While a task runs with interrupts enabled, only the main task holds locks. -/
def Inv (s : State) : Prop :=
  match s.mode with
  | .task t => t ≠ .handler ∧ ∀ l t, s.holder l = some t → t = .main
  | .masked o rest => ∃ held, MaskedInv s o rest held

/-- Under the invariant no one waits for a lock of its own. -/
theorem Inv.not_deadlock {s : State} (h : Inv s) : ¬ SelfDeadlock s := by
  rintro ⟨o, l, rest, t, hmode, hholder, hne⟩
  rw [Inv, hmode] at h
  obtain ⟨held, h⟩ := h
  rcases h.others l t hholder with rfl | rfl
  · exact h.ahead l lock_mem_locks hholder
  · exact hne rfl

/-- Masked code that starts holds nothing. -/
theorem MaskedInv.start {s : State} {o : Owner} {p : Program} (ho : o ≠ .main)
    (hothers : ∀ l t, s.holder l = some t → t = .main) (hp : Returns [] p)
    (hahead : ∀ l ∈ locks p, s.holder l ≠ some .main) : MaskedInv s o p [] where
  not_main := ho
  nodup := List.nodup_nil
  holds := fun l => ⟨fun h => absurd (hothers l o h) ho, fun h => nomatch h⟩
  others := fun l t h => .inl (hothers l t h)
  bracketed := hp.bracketed
  ahead := hahead

/-- The masked code finds the lock it takes free, and then holds it. -/
theorem MaskedInv.lock {s : State} {o : Owner} {l : Lock} {rest : Program} {held : List Lock}
    (h : MaskedInv s o (.lock l :: rest) held) : s.holder l = none ∧
      MaskedInv { s with holder := Function.update s.holder l (some o), mode := .masked o rest } o
        rest (l :: held) := by
  obtain ⟨hmain, hnodup, hholds, hothers, ⟨hl, hrest⟩, hahead⟩ := h
  have hfree : s.holder l = none := by
    cases hholder : s.holder l with
    | none => rfl
    | some t =>
      rcases hothers l t hholder with rfl | rfl
      · exact absurd hholder (hahead l lock_mem_locks)
      · exact absurd ((hholds l).1 hholder) hl
  refine ⟨hfree, hmain, List.nodup_cons.2 ⟨hl, hnodup⟩, fun l' => ?_, fun l' t ht => ?_, hrest,
    fun l' hl' => ?_⟩
  · by_cases heq : l' = l
    · subst heq
      exact iff_of_true (Function.update_self ..) List.mem_cons_self
    · show Function.update s.holder l (some o) l' = some o ↔ l' ∈ l :: held
      rw [Function.update_of_ne heq, hholds, List.mem_cons, or_iff_right heq]
  · have ht' : Function.update s.holder l (some o) l' = some t := ht
    by_cases heq : l' = l
    · subst heq
      rw [Function.update_self] at ht'
      exact .inr (Option.some.inj ht').symm
    · rw [Function.update_of_ne heq] at ht'
      exact hothers l' t ht'
  · show Function.update s.holder l (some o) l' ≠ some .main
    by_cases heq : l' = l
    · subst heq
      rw [Function.update_self]
      exact fun h => hmain (Option.some.inj h)
    · rw [Function.update_of_ne heq]
      exact hahead l' (locks_cons_subset hl')

/-- The masked code gives a lock back. -/
theorem MaskedInv.unlock {s : State} {o : Owner} {l : Lock} {rest : Program} {held : List Lock}
    (h : MaskedInv s o (.unlock l :: rest) held) :
    MaskedInv { s with holder := Function.update s.holder l none, mode := .masked o rest } o rest
      (held.erase l) := by
  obtain ⟨hmain, hnodup, hholds, hothers, ⟨hl, hrest⟩, hahead⟩ := h
  refine ⟨hmain, hnodup.erase l, fun l' => ?_, fun l' t ht => ?_, hrest, fun l' hl' => ?_⟩
  · show Function.update s.holder l none l' = some o ↔ l' ∈ held.erase l
    by_cases heq : l' = l
    · subst heq
      rw [Function.update_self]
      exact iff_of_false nofun hnodup.not_mem_erase
    · rw [Function.update_of_ne heq, hholds, List.mem_erase_of_ne heq]
  · have ht' : Function.update s.holder l none l' = some t := ht
    by_cases heq : l' = l
    · subst heq
      rw [Function.update_self] at ht'
      cases ht'
    · rw [Function.update_of_ne heq] at ht'
      exact hothers l' t ht'
  · show Function.update s.holder l none l' ≠ some .main
    by_cases heq : l' = l
    · subst heq
      rw [Function.update_self]
      exact nofun
    · rw [Function.update_of_ne heq]
      exact hahead l' (locks_cons_subset hl')

/-- A lock operation of the masked code. -/
theorem MaskedInv.perform {s : State} {o : Owner} {op : LockOp Lock} {rest : Program}
    {held : List Lock} (h : MaskedInv s o (op :: rest) held) :
    ∃ held', MaskedInv { s with holder := (perform o s.holder (op :: rest)).1
                                mode := .masked o (perform o s.holder (op :: rest)).2 }
      o (perform o s.holder (op :: rest)).2 held' := by
  cases op with
  | lock l =>
    obtain ⟨hfree, hinv⟩ := h.lock
    have hperform : Locks.perform o s.holder (.lock l :: rest) =
        (Function.update s.holder l (some o), rest) := by
      rw [Locks.perform, if_pos hfree]
    rw [hperform]
    exact ⟨l :: held, hinv⟩
  | unlock l => exact ⟨held.erase l, h.unlock⟩

/-- When the masked code is through, only the main task holds locks. -/
theorem MaskedInv.done {s : State} {o : Owner} {held : List Lock} (h : MaskedInv s o [] held) :
    ∀ l t, s.holder l = some t → t = .main := by
  intro l t ht
  rcases h.others l t ht with hmain | rfl
  · exact hmain
  · have hnil : held = [] := h.bracketed
    have hmem := (h.holds l).1 ht
    rw [hnil] at hmem
    cases hmem

/-- A step of the main task keeps the invariant. -/
theorem Inv.main {s : State} (h : Inv s) : Inv (s.step .main) := by
  rw [State.step]
  split
  case isFalse => exact h
  case isTrue hmode =>
    rw [Inv, hmode] at h
    show Inv { s with holder := _, command := _ }
    rw [Inv]
    simp only [hmode]
    refine ⟨h.1, fun l t ht => ?_⟩
    cases hc : s.command with
    | nil =>
      rw [hc] at ht
      exact h.2 l t ht
    | cons op p =>
      rw [hc] at ht
      cases op with
      | lock l' =>
        rw [perform] at ht
        split at ht
        · have ht' : Function.update s.holder l' (some .main) l = some t := ht
          by_cases heq : l = l'
          · subst heq
            rw [Function.update_self] at ht'
            exact (Option.some.inj ht').symm
          · rw [Function.update_of_ne heq] at ht'
            exact h.2 l t ht'
        · exact h.2 l t ht
      | unlock l' =>
        have ht' : Function.update s.holder l' none l = some t := ht
        by_cases heq : l = l'
        · subst heq
          rw [Function.update_self] at ht'
          cases ht'
        · rw [Function.update_of_ne heq] at ht'
          exact h.2 l t ht'

/-- A timer interrupt keeps it, where the main task does not hold the scheduler's lock. -/
theorem Inv.timer {s : State} (h : Inv s) (ha : s.Harmless .timer) : Inv (s.step .timer) := by
  rw [State.step]
  cases hmode : s.mode with
  | masked o rest => exact h
  | task t =>
    rw [Inv, hmode] at h
    refine ⟨[], MaskedInv.start (by decide) h.2 returns_sched fun l hl => ?_⟩
    obtain rfl : l = .scheduler := List.mem_singleton.1 hl
    exact ha

/-- A system call keeps it, where the main task holds none of its locks. -/
theorem Inv.call {s : State} (h : Inv s) {c : Call} (ha : s.Harmless (.call c)) :
    Inv (s.step (.call c)) := by
  rw [State.step]
  cases hmode : s.mode with
  | masked o rest => exact h
  | task t =>
    rw [Inv, hmode] at h
    cases t with
    | user u => exact ⟨[], MaskedInv.start (by simp) h.2 c.returns ha⟩
    | main | handler =>
      rw [Inv]
      simp only [hmode]
      exact h

/-- A step of the masked code keeps it. -/
theorem Inv.masked {s : State} (h : Inv s) : Inv (s.step .masked) := by
  cases hmode : s.mode with
  | task t =>
    have hstep : s.step .masked = s := by simp only [State.step, hmode]
    rwa [hstep]
  | masked o rest =>
    rw [Inv, hmode] at h
    obtain ⟨held, h⟩ := h
    cases rest with
    | nil =>
      cases o with
      | user u =>
        have hstep : s.step .masked = { s with mode := .task (.user u) } := by
          simp only [State.step, hmode]
        rw [hstep]
        exact ⟨by simp, h.done⟩
      | main => exact absurd rfl h.not_main
      | handler =>
        have hstep : s.step .masked = s := by
          obtain ⟨holder, mode, command⟩ := s
          obtain rfl : mode = _ := hmode
          rfl
        rw [hstep, Inv, hmode]
        exact ⟨held, h⟩
    | cons op rest =>
      have hstep : s.step .masked =
          { s with holder := (perform o s.holder (op :: rest)).1
                   mode := .masked o (perform o s.holder (op :: rest)).2 } := by
        simp only [State.step, hmode]
      rw [hstep]
      exact h.perform

/-- A return from the timer interrupt keeps it. -/
theorem Inv.resume {s : State} (h : Inv s) (t : Owner) : Inv (s.step (.resume t)) := by
  rw [State.step]
  split
  case isFalse => exact h
  case isTrue hc =>
    rw [Inv, hc.1] at h
    obtain ⟨held, h⟩ := h
    exact ⟨hc.2, h.done⟩

/-- Every harmless step keeps the invariant. -/
theorem Inv.step {s : State} (h : Inv s) {a : Action} (ha : s.Harmless a) : Inv (s.step a) := by
  cases a with
  | command c =>
    rw [State.step]
    split
    case isFalse => exact h
    case isTrue hc =>
      rw [Inv, hc.1] at h
      rw [Inv]
      simp only [hc.1]
      exact h
  | main => exact h.main
  | timer => exact h.timer ha
  | call c => exact h.call ha
  | masked => exact h.masked
  | resume t => exact h.resume t

/-- No harmless run deadlocks. -/
theorem no_self_deadlock (l : List Action)
    (h : Run.Guarded State.step State.Harmless .start l) :
    ¬ SelfDeadlock (l.foldl State.step .start) := by
  have hstart : Inv .start := ⟨by decide, fun l t ht => nomatch ht⟩
  exact (Run.invariant (I := Inv) (fun _ _ hs ha => hs.step ha) hstart h).not_deadlock

/-- The shell lists a directory on the disk and is preempted while it holds `VFS`; a user task
exits, and the shell goes on. -/
theorem no_self_deadlock_ls : ¬ SelfDeadlock (List.foldl State.step .start
    [.command (.ls 1 1), .main, .main, .timer, .masked, .masked, .resume (.user 2), .call .sysExit,
      .masked, .masked, .masked, .timer, .masked, .masked, .resume .main, .main]) :=
  no_self_deadlock _ (by decide)

/-- The timer comes while `spawn_process`, which has taken 42 pages for the new task, queues it: the
handler waits for the lock that the main task holds. And when the main task is preempted inside
`vfs::open`, a user task that opens a file waits for `VFS`. -/
theorem exec_deadlock : SelfDeadlock (List.foldl State.step .start
      (.command (.exec 0 0 42 true) :: List.replicate 87 .main ++ [.timer])) ∧
    SelfDeadlock (List.foldl State.step .start
      [.command (.cat 0 0), .main, .timer, .masked, .masked, .resume (.user 2),
        .call (.sysOpen 0 true)]) :=
  ⟨⟨.handler, .scheduler, [.unlock .scheduler], .main, by decide +kernel,
      by decide +kernel, by decide⟩,
    ⟨.user 2, .vfs, [.unlock .vfs, .lock .scheduler, .unlock .scheduler], .main, by decide,
      by decide, by decide⟩⟩

end Locks

end RossOs
