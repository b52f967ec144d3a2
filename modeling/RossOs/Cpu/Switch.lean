import RossOs.Cpu.Stubs
import RossOs.Lib.Run

/-!
# Switching tasks

The timer interrupt as the processor runs it: `timer_handler_stub` around `task_timer_handler`, on
the kernel stacks that `Task::new` lays out. The tasks share one processor and one memory, but each
of them sees the processor as if it had one of its own that stops now and then (`Turns`):
`switch_transparent` says so of every run of tasks, timer interrupts, new tasks and exits.
-/

namespace RossOs

open ByteMem

namespace Cpu

/-! ## The handler -/

/-- What the handler works on: the scheduler, `TSS.rsp0`, and the tick count. -/
structure Ctl where
  scheduler : Scheduler
  rsp0 : ℕ
  ticks : ℕ

/-- What the compiled handler leaves where it may leave anything. -/
structure Junk where
  reg : Reg → UInt64
  zf : Bool
  mem : Mem

/-- `task_timer_handler`: the stack pointer comes in `rdi`, and the pair that `pick_next` returns
goes to `rax` and `rdx`. The end-of-interrupt is left out. -/
def taskTimerHandler (junk : Junk) (s : State Ctl) : State Ctl :=
  let r := s.kernel.scheduler.pickNext (s.core.reg .rdi).toNat s.core.cr3.toNat
  let reg := fun q => if q ∈ calleeSaved then s.core.reg q else junk.reg q
  { core := { s.core with
      reg := Function.update (Function.update reg .rax (UInt64.ofNat r.1.1)) .rdx
        (UInt64.ofNat r.1.2)
      zf := junk.zf }
    mem := junk.mem
    kernel :=
      { scheduler := r.2
        rsp0 := setTssStack s.kernel.rsp0 r.2.currentTask
        ticks := (s.kernel.ticks + 1) % 2 ^ 64 } }

/-! ## Kernel stacks -/

section
variable (kstack : ℕ) (t : Task)

/-- Where the kernel stack of a task starts. The main task has `KERNEL_STACK`, at `kstack`. -/
def stackLow : ℕ := if t.kernelStackTop = 0 then kstack else t.kernelStackTop - 0x2000

/-- Where it ends. -/
def stackHigh : ℕ := if t.kernelStackTop = 0 then kstack + 0x4000 else t.kernelStackTop

end

/-- The stack that `Task::new` fills: zeroes, and the frame at its end. -/
def newStack (m : Mem) (t : Task) : Mem :=
  pushAll (clear m (t.kernelStackTop - 0x2000) 0x2000) t.kernelStackTop
    ([.ofNat t.stack.ss, .ofNat t.stack.rsp, .ofNat t.stack.rflags, .ofNat t.stack.cs,
      .ofNat t.stack.rip] ++ List.replicate 15 0)

/-- What a new task starts with. -/
def initialView (t : Task) : View where
  reg := fun _ => 0
  rip := .ofNat t.stack.rip
  cs := .ofNat t.stack.cs
  rflags := .ofNat t.stack.rflags
  rsp := .ofNat t.stack.rsp
  ss := .ofNat t.stack.ss

/-! ## Runs -/

/-- What happens: the current task runs for a while and leaves the processor and memory as it likes,
the timer interrupts it, it adds a task, or it exits. -/
inductive Event
  | run (v : View) (seg : Seg → UInt16) (m : Mem)
  | timer (junk : Junk)
  | spawn (id internalStackTop entryPoint stackTop cr3 heapEnd : ℕ) (isUser : Bool)
  | exit

/-- The task that `spawn` adds. -/
def spawned (id internalStackTop entryPoint stackTop cr3 heapEnd : ℕ) (isUser : Bool) : Task :=
  { Task.new id internalStackTop entryPoint stackTop cr3 isUser with heapEnd := heapEnd }

/-- The machine takes a step. -/
def step (s : State Ctl) : Event → State Ctl
  | .run v seg m => { s with core := { s.core with toView := v, seg := seg }, mem := m }
  | .timer junk =>
    exec (taskTimerHandler junk) 0 timerHandlerStub (interrupt (.ofNat s.kernel.rsp0) s)
  | .spawn id internalStackTop entryPoint stackTop cr3 heapEnd isUser =>
    let t := spawned id internalStackTop entryPoint stackTop cr3 heapEnd isUser
    { s with
      mem := newStack s.mem t
      kernel := { s.kernel with scheduler := s.kernel.scheduler.addTask t } }
  | .exit => { s with kernel := { s.kernel with scheduler := s.kernel.scheduler.exit } }

/-- Tasks with a processor each, of which one runs: what each of them sees, and whose turn it is,
the running one first. -/
structure Turns where
  own : ℕ → View
  turn : List ℕ
  /-- The running one exited. -/
  finished : Bool

/-- The same events there. Only the running task changes what it sees, and the timer hands the turn
on. -/
def Turns.step (a : Turns) : Event → Turns
  | .run v _ _ => { a with own := Function.update a.own (a.turn.headD 0) v }
  | .timer _ =>
    { a with
      turn := if a.finished then a.turn.tail else a.turn.tail ++ a.turn.take 1
      finished := false }
  | .spawn id internalStackTop entryPoint stackTop cr3 heapEnd isUser =>
    let t := spawned id internalStackTop entryPoint stackTop cr3 heapEnd isUser
    { a with own := Function.update a.own id (initialView t), turn := a.turn ++ [id] }
  | .exit => { a with finished := true }

/-- What a task may leave in the processor: its own ring, and at ring 0 a stack pointer in its stack
with room for a frame. -/
structure Fits (kstack : ℕ) (t : Task) (v : View) : Prop where
  ring : v.User ↔ t.isUser
  stack : t.isUser = false →
    stackLow kstack t + 175 ≤ v.rsp.toNat ∧ v.rsp.toNat ≤ stackHigh kstack t

/-- What the code that runs keeps to. A task leaves the stacks of the others alone, and so does the
handler, which works below the frame; a new task gets an identifier and a stack that no task has;
only tasks at ring 3 exit. -/
def Allowed (kstack : ℕ) (s : State Ctl) : Event → Prop
  | .run v _ m => ∀ t, s.kernel.scheduler.currentTask = some t → Fits kstack t v ∧
      ∀ u ∈ s.kernel.scheduler.tasks, Intact s.mem m (stackLow kstack u) (stackHigh kstack u)
  | .timer junk =>
    let top := entryTop (.ofNat s.kernel.rsp0) s.core.toView
    let m := pushAll s.mem top s.core.words
    (∀ t, s.kernel.scheduler.currentTask = some t →
      Intact m junk.mem (top - 160) (stackHigh kstack t)) ∧
      ∀ u ∈ s.kernel.scheduler.tasks, Intact m junk.mem (stackLow kstack u) (stackHigh kstack u)
  | .spawn id internalStackTop _ stackTop cr3 _ isUser =>
    0x2000 ≤ internalStackTop ∧ internalStackTop < 2 ^ 64 ∧ cr3 < 2 ^ 64 ∧
      (isUser = false → stackTop = 0) ∧ ∀ u ∈ s.kernel.scheduler.all, u.id ≠ id ∧
        (stackHigh kstack u ≤ internalStackTop - 0x2000 ∨ internalStackTop ≤ stackLow kstack u)
  | .exit => ∀ t, s.kernel.scheduler.currentTask = some t → t.isUser

/-- The machine when interrupts are enabled: the main task runs, at ring 0 on `KERNEL_STACK`. -/
structure Boot (kstack : ℕ) (s : State Ctl) : Prop where
  scheduler : ∃ id, s.kernel.scheduler = Scheduler.new.setMain (Task.mainTask id s.core.cr3.toNat)
  ring : ¬ s.core.User
  stack : kstack + 175 ≤ s.core.rsp.toNat ∧ s.core.rsp.toNat ≤ kstack + 0x4000
  inMemory : kstack + 0x4000 < 2 ^ 64

/-- The tasks at the start. -/
def Turns.start (s : State Ctl) : Turns where
  own := fun _ => s.core.toView
  turn := s.kernel.scheduler.all.map Task.id
  finished := false

/-! ## What holds between the two -/

/-- Two tasks have different identifiers and stacks. -/
def Apart (kstack : ℕ) (t u : Task) : Prop :=
  t.id ≠ u.id ∧ (stackHigh kstack t ≤ stackLow kstack u ∨ stackHigh kstack u ≤ stackLow kstack t)

/-- Two tasks are apart from each other. -/
theorem Apart.symm {kstack : ℕ} {t u : Task} (h : Apart kstack t u) : Apart kstack u t :=
  ⟨h.1.symm, h.2.symm⟩

/-- The stack of a task is large enough for a frame and in memory. -/
structure Placed (kstack : ℕ) (t : Task) : Prop where
  room : stackLow kstack t + 0x2000 ≤ stackHigh kstack t
  inMemory : stackHigh kstack t < 2 ^ 64
  cr3 : t.cr3 < 2 ^ 64
  user : t.isUser → t.kernelStackTop ≠ 0

/-- A task that waits has what it sees in a frame on its stack. -/
structure Parked (kstack : ℕ) (m : Mem) (t : Task) (v : View) : Prop where
  low : stackLow kstack t ≤ t.rsp
  high : t.rsp + 160 ≤ stackHigh kstack t
  frame : frame m t.rsp = v

/-- The current task has the processor. -/
structure Running (s : State Ctl) (a : Turns) (t : Task) : Prop where
  current : s.kernel.scheduler.currentTask = some t
  view : s.core.toView = a.own t.id
  cr3 : s.core.cr3.toNat = t.cr3
  finished : t.state = .dead ↔ a.finished
  exits : a.finished → t.isUser
  tss : t.isUser → s.kernel.rsp0 = t.kernelStackTop

/-- The machine and the tasks with a processor each. -/
structure Shares (kstack : ℕ) (s : State Ctl) (a : Turns) : Prop where
  turn : s.kernel.scheduler.all.map Task.id = a.turn
  apart : s.kernel.scheduler.all.Pairwise (Apart kstack)
  placed : ∀ t ∈ s.kernel.scheduler.all, Placed kstack t
  fits : ∀ t ∈ s.kernel.scheduler.all, Fits kstack t (a.own t.id)
  kernel : ∃ t ∈ s.kernel.scheduler.all, t.isUser = false
  parked : ∀ t ∈ s.kernel.scheduler.tasks, Parked kstack s.mem t (a.own t.id)
  running : ∃ t, Running s a t

/-! ## The timer -/

section
variable {kstack : ℕ} {s : State Ctl} {a : Turns} {t : Task} {junk : Junk}

/-- All tasks are the current one and those in the queue. -/
theorem all_eq (h : s.kernel.scheduler.currentTask = some t) :
    s.kernel.scheduler.all = t :: s.kernel.scheduler.tasks := by
  unfold Scheduler.all
  rw [h]
  rfl

/-- The current task is one of them. -/
theorem Shares.mem_current (_ : Shares kstack s a) (hr : Running s a t) :
    t ∈ s.kernel.scheduler.all := by
  rw [all_eq hr.current]
  exact List.mem_cons_self

/-- The frame of an interrupt lies in the stack of the current task. -/
theorem Shares.entryTop_bounds (h : Shares kstack s a) (hr : Running s a t) :
    stackLow kstack t + 160 ≤ entryTop (.ofNat s.kernel.rsp0) s.core.toView ∧
      entryTop (.ofNat s.kernel.rsp0) s.core.toView ≤ stackHigh kstack t := by
  have hmem := h.mem_current hr
  have hp := h.placed t hmem
  have hf := h.fits t hmem
  rw [← hr.view] at hf
  have hroom := hp.room
  have hin := hp.inMemory
  unfold entryTop
  by_cases huser : s.core.User
  · have hrsp0 : s.kernel.rsp0 = stackHigh kstack t := by
      rw [hr.tss (hf.ring.1 huser), stackHigh, if_neg (hp.user (hf.ring.1 huser))]
    have htop : (UInt64.ofNat s.kernel.rsp0).toNat = s.kernel.rsp0 :=
      UInt64.toNat_ofNat_of_lt' (by rw [hrsp0]; exact hin)
    rw [if_pos huser, htop, hrsp0]
    omega
  · have hkernel : t.isUser = false := by
      rw [← Bool.not_eq_true, ← hf.ring]
      exact huser
    obtain ⟨hlow, hhigh⟩ := hf.stack hkernel
    rw [if_neg huser]
    omega

/-- The current task once it was put back in the queue. -/
def Task.preempted (t : Task) (rsp : ℕ) : Task := { t with rsp := rsp, state := .ready }

/-- The queue when the current task goes back to it, unless it finished. -/
theorem requeue_eq (hr : Running s a t) (rsp : ℕ) : s.kernel.scheduler.requeue rsp =
    s.kernel.scheduler.tasks ++ if a.finished then [] else [Task.preempted t rsp] := by
  unfold Scheduler.requeue
  rw [hr.current]
  by_cases hfin : a.finished
  · simp only [if_pos (hr.finished.2 hfin), if_pos hfin, List.append_nil]
  · simp only [if_neg fun hdead => hfin (hr.finished.1 hdead), if_neg hfin]
    rfl

/-- What is in the queue was there, or is the current task. -/
theorem requeue_mem (hr : Running s a t) {rsp : ℕ} {u : Task}
    (hu : u ∈ s.kernel.scheduler.requeue rsp) :
    u ∈ s.kernel.scheduler.tasks ∨ a.finished = false ∧ u = Task.preempted t rsp := by
  rw [requeue_eq hr, List.mem_append] at hu
  refine hu.imp_right fun hu => ?_
  by_cases hfin : a.finished
  · simp [hfin] at hu
  · rw [if_neg hfin, List.mem_singleton] at hu
    exact ⟨by simpa using hfin, hu⟩

/-- Whatever holds of the tasks, and does not change when one is preempted, holds of the queue. -/
theorem requeue_forall (hr : Running s a t) (rsp : ℕ) {Q : Task → Prop}
    (h : ∀ u ∈ s.kernel.scheduler.all, Q u) (hpre : Q t → Q (Task.preempted t rsp)) :
    ∀ u ∈ s.kernel.scheduler.requeue rsp, Q u := by
  intro u hu
  rw [all_eq hr.current] at h
  rcases requeue_mem hr hu with hu | ⟨-, rfl⟩
  · exact h u (List.mem_cons_of_mem _ hu)
  · exact hpre (h t List.mem_cons_self)

/-- The queue's order is the turn, with the current task at its end unless it finished. -/
theorem requeue_ids (h : Shares kstack s a) (hr : Running s a t) (rsp : ℕ) :
    (s.kernel.scheduler.requeue rsp).map Task.id =
      if a.finished then a.turn.tail else a.turn.tail ++ a.turn.take 1 := by
  have hturn := h.turn
  rw [all_eq hr.current, List.map_cons] at hturn
  rw [requeue_eq hr, List.map_append, ← hturn]
  by_cases hfin : a.finished
  · simp [hfin]
  · simp [hfin, Task.preempted]

/-- The tasks of the queue are apart. -/
theorem requeue_apart (h : Shares kstack s a) (hr : Running s a t) (rsp : ℕ) :
    (s.kernel.scheduler.requeue rsp).Pairwise (Apart kstack) := by
  have hapart := h.apart
  rw [all_eq hr.current, List.pairwise_cons] at hapart
  rw [requeue_eq hr, List.pairwise_append]
  refine ⟨hapart.2, ?_, fun u hu v hv => ?_⟩
  · by_cases hfin : a.finished <;> simp [hfin]
  · by_cases hfin : a.finished
    · simp [hfin] at hv
    · rw [if_neg hfin, List.mem_singleton] at hv
      subst hv
      exact (hapart.1 u hu).symm

/-- There is a kernel task in the queue. -/
theorem requeue_kernel (h : Shares kstack s a) (hr : Running s a t) (rsp : ℕ) :
    ∃ u ∈ s.kernel.scheduler.requeue rsp, u.isUser = false := by
  obtain ⟨u, hu, hkernel⟩ := h.kernel
  rw [all_eq hr.current, List.mem_cons] at hu
  rw [requeue_eq hr]
  rcases hu with rfl | hu
  · have hfin : ¬ a.finished := fun hfin => by
      rw [hr.exits hfin] at hkernel
      cases hkernel
    refine ⟨Task.preempted u rsp, ?_, hkernel⟩
    simp [hfin]
  · exact ⟨u, List.mem_append_left _ hu, hkernel⟩

/-- After the handler each task of the queue has what it sees in a frame on its stack: those that
waited, and the one that was interrupted. -/
theorem requeue_parked (h : Shares kstack s a) (hr : Running s a t)
    (hok : Allowed kstack s (.timer junk)) {rsp : ℕ}
    (hrsp : entryTop (.ofNat s.kernel.rsp0) s.core.toView = rsp + 160) :
    ∀ u ∈ s.kernel.scheduler.requeue rsp, Parked kstack junk.mem u (a.own u.id) := by
  obtain ⟨hlow, hhigh⟩ := h.entryTop_bounds hr
  obtain ⟨hown, hothers⟩ := hok
  simp only [hrsp, Nat.add_sub_cancel] at hown hothers hlow hhigh
  intro u hu
  rcases requeue_mem hr hu with hu | ⟨-, rfl⟩
  · have hpark := h.parked u hu
    have hapart := h.apart
    rw [all_eq hr.current, List.pairwise_cons] at hapart
    have hplow := hpark.low
    have hphigh := hpark.high
    have hdisj := (hapart.1 u hu).2
    have hpush : Intact s.mem (pushAll s.mem (rsp + 160) s.core.words) u.rsp (u.rsp + 160) := by
      intro x hx hx'
      exact pushAll_apply_of_outside (by rw [View.length_words]; omega)
        (by rw [View.length_words]; omega)
    refine ⟨hplow, hphigh, ?_⟩
    rw [frame_congr (hpush.trans ((hothers u hu).mono hplow hphigh)), hpark.frame]
  · have hin := (hown t hr.current).mono (Nat.le_refl _) hhigh
    have hpushed := frame_pushAll s.mem s.core.toView (Nat.le_add_left 160 rsp)
    rw [Nat.add_sub_cancel] at hpushed
    exact ⟨Nat.le_of_add_le_add_right hlow, hhigh, (frame_congr hin).trans (hpushed.trans hr.view)⟩

/-- The first of the queue is resumed. -/
theorem pickNext_cons {sched : Scheduler} {rsp cr3 : ℕ} {u : Task} {rest : List Task}
    (h : sched.requeue rsp = u :: rest) : sched.pickNext rsp cr3 =
      ((u.rsp, u.cr3), ⟨rest, some { u with state := .running }⟩) := by
  unfold Scheduler.pickNext
  rw [h]

/-- The machine after the timer: the processor has what the first task of the queue sees. -/
theorem timer_step (h : Shares kstack s a) (hr : Running s a t)
    (hok : Allowed kstack s (.timer junk)) : ∃ rsp u rest,
      entryTop (.ofNat s.kernel.rsp0) s.core.toView = rsp + 160 ∧
      s.kernel.scheduler.requeue rsp = u :: rest ∧
      (step s (.timer junk)).kernel.scheduler = ⟨rest, some { u with state := .running }⟩ ∧
      (step s (.timer junk)).kernel.rsp0 =
        setTssStack s.kernel.rsp0 (some { u with state := .running }) ∧
      (step s (.timer junk)).mem = junk.mem ∧
      (step s (.timer junk)).core.toView = a.own u.id ∧
      (step s (.timer junk)).core.cr3.toNat = u.cr3 ∧
      (u.isUser → ∀ g, (step s (.timer junk)).core.seg g = 0x1B) := by
  obtain ⟨hlow, hhigh⟩ := h.entryTop_bounds hr
  obtain ⟨rsp, hrsp⟩ : ∃ rsp, entryTop (.ofNat s.kernel.rsp0) s.core.toView = rsp + 160 :=
    ⟨_, (Nat.sub_add_cancel (Nat.le_trans (Nat.le_add_left _ _) hlow)).symm⟩
  have hparked := requeue_parked h hr hok hrsp
  have hplaced := requeue_forall hr rsp h.placed
    fun hp => ⟨hp.room, hp.inMemory, hp.cr3, hp.user⟩
  have hfits := requeue_forall hr rsp h.fits fun hf => ⟨hf.ring, hf.stack⟩
  obtain ⟨s₀, hrdi, -, hkernel, hcr3, -, hrun⟩ := timer_run (taskTimerHandler junk)
    (.ofNat s.kernel.rsp0) s (by omega)
  rw [hrsp, Nat.add_sub_cancel] at hrdi
  cases hq : s.kernel.scheduler.requeue rsp with
  | nil =>
    obtain ⟨u, hu, -⟩ := requeue_kernel h hr rsp
    rw [hq] at hu
    cases hu
  | cons u rest =>
    have hu : u ∈ s.kernel.scheduler.requeue rsp := by
      rw [hq]
      exact List.mem_cons_self
    have hpark := hparked u hu
    have hp := hplaced u hu
    have hhigh := hpark.high
    have hin := hp.inMemory
    have hpick : s₀.kernel.scheduler.pickNext (s₀.core.reg .rdi).toNat s₀.core.cr3.toNat =
        ((u.rsp, u.cr3), ⟨rest, some { u with state := .running }⟩) := by
      rw [hkernel, hrdi]
      exact pickNext_cons hq
    have hursp : (UInt64.ofNat u.rsp).toNat = u.rsp :=
      UInt64.toNat_ofNat_of_lt' (show u.rsp < 2 ^ 64 by omega)
    have hucr3 : (UInt64.ofNat u.cr3).toNat = u.cr3 := UInt64.toNat_ofNat_of_lt' hp.cr3
    have hrax : ((taskTimerHandler junk s₀).core.reg .rax).toNat = u.rsp := by
      simp only [taskTimerHandler, hpick]
      exact hursp
    have hrdx : ((taskTimerHandler junk s₀).core.reg .rdx).toNat = u.cr3 := by
      simp only [taskTimerHandler, hpick]
      exact hucr3
    have hstep := hrun _ rfl (by rw [hrax]; omega)
    simp only [hrax] at hstep
    have hframe : frame (taskTimerHandler junk s₀).mem u.rsp = a.own u.id := hpark.frame
    rw [hframe] at hstep
    refine ⟨rsp, u, rest, hrsp, hq, ?_⟩
    rw [show step s (.timer junk) = _ from hstep]
    refine ⟨?_, ?_, rfl, rfl, hrdx, fun huser g => ?_⟩
    · simp only [taskTimerHandler, hpick]
    · rw [hkernel] at hpick
      simp only [taskTimerHandler, hkernel, hpick]
    · rw [if_pos ((hfits u hu).ring.2 huser)]

/-- Whatever holds of the tasks, and does not change with the state of the first, holds when that is
set. -/
theorem forall_setState {u : Task} {rest : List Task} {Q : Task → Prop} (state : TaskState)
    (h : ∀ v ∈ u :: rest, Q v) (hset : Q u → Q { u with state := state }) :
    ∀ v ∈ { u with state := state } :: rest, Q v := by
  intro v hv
  rcases List.mem_cons.1 hv with rfl | hv
  · exact hset (h u List.mem_cons_self)
  · exact h v (List.mem_cons_of_mem _ hv)

/-- The timer keeps the two together. -/
theorem timer_shares (h : Shares kstack s a) (hok : Allowed kstack s (.timer junk)) :
    Shares kstack (step s (.timer junk)) (a.step (.timer junk)) := by
  obtain ⟨t, hr⟩ := h.running
  obtain ⟨rsp, u, rest, hrsp, hq, hsched, hrsp0, hmem, hview, hcr3, -⟩ := timer_step h hr hok
  have hparked := requeue_parked h hr hok hrsp
  have hplaced := requeue_forall hr rsp h.placed
    fun hp => ⟨hp.room, hp.inMemory, hp.cr3, hp.user⟩
  have hfits := requeue_forall hr rsp h.fits fun hf => ⟨hf.ring, hf.stack⟩
  have hids := requeue_ids h hr rsp
  have hapart := requeue_apart h hr rsp
  have hkernel := requeue_kernel h hr rsp
  rw [hq] at hparked hplaced hfits hids hapart hkernel
  have hall : (step s (.timer junk)).kernel.scheduler.all =
      { u with state := .running } :: rest := by
    rw [hsched]
    rfl
  refine ⟨?_, ?_, ?_, ?_, ?_, ?_, { u with state := .running }, ?_⟩
  · rw [hall]
    exact hids
  · obtain ⟨hfirst, hrest⟩ := List.pairwise_cons.1 hapart
    rw [hall, List.pairwise_cons]
    exact ⟨hfirst, hrest⟩
  · rw [hall]
    exact forall_setState .running hplaced fun hp => ⟨hp.room, hp.inMemory, hp.cr3, hp.user⟩
  · rw [hall]
    exact forall_setState .running hfits fun hf => ⟨hf.ring, hf.stack⟩
  · obtain ⟨v, hv, hvk⟩ := hkernel
    rw [hall]
    rcases List.mem_cons.1 hv with rfl | hv
    · exact ⟨_, List.mem_cons_self, hvk⟩
    · exact ⟨v, List.mem_cons_of_mem _ hv, hvk⟩
  · intro v hv
    rw [hsched] at hv
    rw [hmem]
    exact hparked v (List.mem_cons_of_mem _ hv)
  · refine ⟨by rw [hsched], hview, hcr3, ?_, ?_, fun huser => ?_⟩
    · constructor <;> intro hfin <;> cases hfin
    · intro hfin
      cases hfin
    · rw [hrsp0, setTssStack]
      exact if_pos huser

/-! ## The other events -/

/-- A task that waits is one of all. -/
theorem mem_tasks (hr : Running s a t) {u : Task} (hu : u ∈ s.kernel.scheduler.tasks) :
    u ∈ s.kernel.scheduler.all := by
  rw [all_eq hr.current]
  exact List.mem_cons_of_mem _ hu

/-- It is the current task's turn. -/
theorem Shares.headD (h : Shares kstack s a) (hr : Running s a t) : a.turn.headD 0 = t.id := by
  rw [← h.turn, all_eq hr.current]
  rfl

/-- A task that waits is another one. -/
theorem Shares.ne_current (h : Shares kstack s a) (hr : Running s a t) {u : Task}
    (hu : u ∈ s.kernel.scheduler.tasks) : u.id ≠ t.id := by
  have hapart := h.apart
  rw [all_eq hr.current, List.pairwise_cons] at hapart
  exact (hapart.1 u hu).1.symm

/-- Code of the current task, which changes only its own memory and registers. -/
theorem run_shares (h : Shares kstack s a) {v : View} {seg : Seg → UInt16} {m : Mem}
    (hok : Allowed kstack s (.run v seg m)) :
    Shares kstack (step s (.run v seg m)) (a.step (.run v seg m)) := by
  obtain ⟨t, hr⟩ := h.running
  obtain ⟨hfits, hintact⟩ := hok t hr.current
  have hown : (a.step (.run v seg m)).own = Function.update a.own t.id v := by
    rw [Turns.step, h.headD hr]
  have hother : ∀ u ∈ s.kernel.scheduler.tasks,
      (a.step (.run v seg m)).own u.id = a.own u.id := fun u hu => by
    rw [hown, Function.update_of_ne (h.ne_current hr hu)]
  have hself : (a.step (.run v seg m)).own t.id = v := by
    rw [hown, Function.update_self]
  refine ⟨h.turn, h.apart, h.placed, fun u hu => ?_, h.kernel, fun u hu => ?_,
    t, hr.current, hself.symm, hr.cr3, hr.finished, hr.exits, hr.tss⟩
  · have hu' : u ∈ t :: s.kernel.scheduler.tasks := by
      rw [← all_eq hr.current]
      exact hu
    rcases List.mem_cons.1 hu' with rfl | htail
    · rw [hself]
      exact hfits
    · rw [hother u htail]
      exact h.fits u hu
  · have hpark := h.parked u hu
    rw [hother u hu]
    exact ⟨hpark.low, hpark.high,
      (frame_congr ((hintact u hu).mono hpark.low hpark.high)).trans hpark.frame⟩

/-- An exit marks the current task, and it has finished. -/
theorem exit_shares (h : Shares kstack s a) (hok : Allowed kstack s .exit) :
    Shares kstack (step s .exit) (a.step .exit) := by
  obtain ⟨t, hr⟩ := h.running
  have huser := hok t hr.current
  have hcurrent : (step s .exit).kernel.scheduler.currentTask = some { t with state := .dead } := by
    simp only [step, Scheduler.exit, hr.current, Option.map_some]
  have hall : (step s .exit).kernel.scheduler.all =
      { t with state := .dead } :: s.kernel.scheduler.tasks := all_eq hcurrent
  have hplaced := h.placed
  have hfits := h.fits
  have hturn := h.turn
  have hapart := h.apart
  obtain ⟨w, hw, hwk⟩ := h.kernel
  rw [all_eq hr.current] at hplaced hfits hturn hapart hw
  refine ⟨?_, ?_, ?_, ?_, ⟨w, ?_, hwk⟩, h.parked, { t with state := .dead }, ?_⟩
  · rw [hall]
    exact hturn
  · obtain ⟨hfirst, hrest⟩ := List.pairwise_cons.1 hapart
    rw [hall, List.pairwise_cons]
    exact ⟨hfirst, hrest⟩
  · rw [hall]
    exact forall_setState .dead hplaced fun hp => ⟨hp.room, hp.inMemory, hp.cr3, hp.user⟩
  · rw [hall]
    exact forall_setState .dead hfits fun hf => ⟨hf.ring, hf.stack⟩
  · rw [hall]
    rcases List.mem_cons.1 hw with rfl | hw
    · rw [huser] at hwk
      cases hwk
    · exact List.mem_cons_of_mem _ hw
  · exact ⟨hcurrent, hr.view, hr.cr3, ⟨fun _ => rfl, fun _ => rfl⟩, fun _ => huser, hr.tss⟩

section
variable {id internalStackTop entryPoint stackTop cr3 heapEnd : ℕ} {isUser : Bool}

/-- Filling the stack of a new task changes nothing outside it. -/
theorem newStack_intact (m : Mem) {t : Task} (htop : 0x2000 ≤ t.kernelStackTop) {lo hi : ℕ}
    (h : hi ≤ t.kernelStackTop - 0x2000 ∨ t.kernelStackTop ≤ lo) :
    Intact m (newStack m t) lo hi := by
  intro x hx hx'
  unfold newStack
  rw [pushAll_apply_of_outside (by simp; omega) (by simp; omega),
    clear_apply_of_outside (by omega)]

/-- The frame of a new task. -/
theorem newStack_frame (m : Mem) {t : Task} (htop : 0x2000 ≤ t.kernelStackTop) :
    frame (newStack m t) (t.kernelStackTop - 160) = initialView t :=
  frame_pushAll _ (initialView t) (by omega)

/-- A new task is parked at its entry point. -/
theorem spawned_parked (m : Mem) (htop : 0x2000 ≤ internalStackTop) :
    let t := spawned id internalStackTop entryPoint stackTop cr3 heapEnd isUser
    Parked kstack (newStack m t) t (initialView t) := by
  intro t
  have hne : t.kernelStackTop ≠ 0 := show internalStackTop ≠ 0 by omega
  have hlow : stackLow kstack t = internalStackTop - 0x2000 := if_neg hne
  have hhigh : stackHigh kstack t = internalStackTop := if_neg hne
  refine ⟨?_, ?_, newStack_frame m htop⟩
  · rw [hlow]
    exact Nat.sub_le_sub_left (by decide) _
  · rw [hhigh]
    exact Nat.le_of_eq (Nat.sub_add_cancel (by omega))

/-- The frame of a new task fits its stack. -/
theorem spawned_fits (htop : 0x2000 ≤ internalStackTop) (hlt : internalStackTop < 2 ^ 64)
    (hstack : isUser = false → stackTop = 0) :
    let t := spawned id internalStackTop entryPoint stackTop cr3 heapEnd isUser
    Fits kstack t (initialView t) := by
  intro t
  have hne : t.kernelStackTop ≠ 0 := show internalStackTop ≠ 0 by omega
  have hlow : stackLow kstack t = internalStackTop - 0x2000 := if_neg hne
  have hhigh : stackHigh kstack t = internalStackTop := if_neg hne
  refine ⟨?_, fun hkernel => ?_⟩
  · change (UInt64.ofNat (if isUser then 0x23 else 0x08) &&& 3 = 3) ↔ isUser
    cases isUser <;> decide
  · have hrsp : (initialView t).rsp = UInt64.ofNat internalStackTop := by
      change UInt64.ofNat (if stackTop = 0 then internalStackTop else stackTop) = _
      rw [if_pos (hstack hkernel)]
    have hnat : (UInt64.ofNat internalStackTop).toNat = internalStackTop :=
      UInt64.toNat_ofNat_of_lt' hlt
    rw [hrsp, hnat, hlow, hhigh]
    omega

/-- A new task starts in its initial frame, at the end of the turn. -/
theorem spawn_shares (h : Shares kstack s a)
    (hok : Allowed kstack s
      (.spawn id internalStackTop entryPoint stackTop cr3 heapEnd isUser)) :
    Shares kstack
      (step s (.spawn id internalStackTop entryPoint stackTop cr3 heapEnd isUser))
      (a.step (.spawn id internalStackTop entryPoint stackTop cr3 heapEnd isUser)) := by
  obtain ⟨t, hr⟩ := h.running
  obtain ⟨htop, hlt, hcr3, hstack, hfresh⟩ := hok
  obtain ⟨t', ht'⟩ :
      ∃ t', spawned id internalStackTop entryPoint stackTop cr3 heapEnd isUser = t' :=
    ⟨_, rfl⟩
  have hid : t'.id = id := by rw [← ht']; rfl
  have hkst : t'.kernelStackTop = internalStackTop := by rw [← ht']; rfl
  have hlow : stackLow kstack t' = internalStackTop - 0x2000 := by
    rw [stackLow, hkst, if_neg (by omega)]
  have hhigh : stackHigh kstack t' = internalStackTop := by
    rw [stackHigh, hkst, if_neg (by omega)]
  have hpark : Parked kstack (newStack s.mem t') t' (initialView t') := by
    rw [← ht']
    exact spawned_parked s.mem htop
  have hfits : Fits kstack t' (initialView t') := by
    rw [← ht']
    exact spawned_fits htop hlt hstack
  have hplaced : Placed kstack t' := by
    refine ⟨by omega, by omega, ?_, fun _ => by omega⟩
    rw [← ht']
    exact hcr3
  rw [← hid, ← hkst] at hfresh
  have hother : ∀ u ∈ s.kernel.scheduler.all,
      Function.update a.own t'.id (initialView t') u.id = a.own u.id := fun u hu =>
    Function.update_of_ne (hfresh u hu).1 _ _
  have hself : Function.update a.own t'.id (initialView t') t'.id = initialView t' :=
    Function.update_self _ _ _
  have hall : (s.kernel.scheduler.addTask t').all = s.kernel.scheduler.all ++ [t'] := by
    simp only [Scheduler.all, Scheduler.addTask, List.append_assoc]
  have hs : step s (.spawn id internalStackTop entryPoint stackTop cr3 heapEnd isUser) =
      { s with
        mem := newStack s.mem t'
        kernel := { s.kernel with scheduler := s.kernel.scheduler.addTask t' } } := by
    simp only [step, ht']
  have ha : a.step (.spawn id internalStackTop entryPoint stackTop cr3 heapEnd isUser) =
      { a with
        own := Function.update a.own t'.id (initialView t')
        turn := a.turn ++ [t'.id] } := by
    simp only [Turns.step, ht', hid]
  have hintact : ∀ u ∈ s.kernel.scheduler.all,
      Intact s.mem (newStack s.mem t') (stackLow kstack u) (stackHigh kstack u) := fun u hu =>
    newStack_intact s.mem (by rw [hkst]; exact htop) (hfresh u hu).2
  rw [hs, ha]
  generalize newStack s.mem t' = m at hpark hintact
  refine ⟨?_, ?_, ?_, ?_, ?_, ?_, t, hr.current, ?_, hr.cr3, hr.finished, hr.exits, hr.tss⟩
  · change (s.kernel.scheduler.addTask t').all.map Task.id = a.turn ++ [t'.id]
    rw [hall, List.map_append, h.turn]
    rfl
  · change (s.kernel.scheduler.addTask t').all.Pairwise (Apart kstack)
    rw [hall, List.pairwise_append]
    refine ⟨h.apart, List.pairwise_singleton _ _, fun u hu v hv => ?_⟩
    obtain rfl := List.mem_singleton.1 hv
    refine ⟨(hfresh u hu).1, ?_⟩
    rw [hlow, hhigh, ← hkst]
    exact (hfresh u hu).2
  · change ∀ u ∈ (s.kernel.scheduler.addTask t').all, Placed kstack u
    rw [hall]
    exact List.forall_mem_append.2 ⟨h.placed, List.forall_mem_singleton.2 hplaced⟩
  · change ∀ u ∈ (s.kernel.scheduler.addTask t').all,
      Fits kstack u (Function.update a.own t'.id (initialView t') u.id)
    rw [hall]
    refine List.forall_mem_append.2 ⟨fun u hu => ?_, List.forall_mem_singleton.2 ?_⟩
    · rw [hother u hu]
      exact h.fits u hu
    · rw [hself]
      exact hfits
  · obtain ⟨w, hw, hwk⟩ := h.kernel
    refine ⟨w, ?_, hwk⟩
    change w ∈ (s.kernel.scheduler.addTask t').all
    rw [hall]
    exact List.mem_append_left _ hw
  · change ∀ u ∈ (s.kernel.scheduler.addTask t').tasks, Parked kstack m u
      (Function.update a.own t'.id (initialView t') u.id)
    rw [Scheduler.addTask]
    refine List.forall_mem_append.2 ⟨fun u hu => ?_, List.forall_mem_singleton.2 ?_⟩
    · have hmem := mem_tasks hr hu
      have hp := h.parked u hu
      rw [hother u hmem]
      exact ⟨hp.low, hp.high,
        (frame_congr ((hintact u hmem).mono hp.low hp.high)).trans hp.frame⟩
    · rw [hself]
      exact hpark
  · exact hr.view.trans (hother t (h.mem_current hr)).symm

end

/-- An event keeps the two together. -/
theorem step_shares (h : Shares kstack s a) (e : Event) (hok : Allowed kstack s e) :
    Shares kstack (step s e) (a.step e) := by
  cases e with
  | run v seg m => exact run_shares h hok
  | timer junk => exact timer_shares h hok
  | spawn id internalStackTop entryPoint stackTop cr3 heapEnd isUser => exact spawn_shares h hok
  | exit => exact exit_shares h hok

/-- A run of events keeps the two together. -/
theorem foldl_shares (h : Shares kstack s a) (events : List Event)
    (hok : Run.Guarded step (Allowed kstack) s events) :
    Shares kstack (events.foldl step s) (events.foldl Turns.step a) := by
  induction events generalizing s a with
  | nil => exact h
  | cons e events ih => exact ih (step_shares h e hok.1) hok.2

/-- At boot the main task has the processor, and no other task is there. -/
theorem boot_shares (h : Boot kstack s) : Shares kstack s (Turns.start s) := by
  obtain ⟨id, hsched⟩ := h.scheduler
  obtain ⟨hlow, hhigh⟩ := h.stack
  have hall : s.kernel.scheduler.all = [Task.mainTask id s.core.cr3.toNat] := by
    rw [hsched]
    rfl
  have hring : s.core.User ↔ (Task.mainTask id s.core.cr3.toNat).isUser = true :=
    ⟨fun huser => absurd huser h.ring, fun huser => by cases huser⟩
  refine ⟨rfl, ?_, ?_, ?_, ?_, ?_, Task.mainTask id s.core.cr3.toNat, ?_⟩
  · rw [hall]
    exact List.pairwise_singleton _ _
  · rw [hall]
    refine List.forall_mem_singleton.2
      ⟨?_, h.inMemory, UInt64.toNat_lt _, fun huser => by cases huser⟩
    exact Nat.add_le_add_left (by decide) kstack
  · rw [hall]
    exact List.forall_mem_singleton.2 ⟨hring, fun _ => ⟨hlow, hhigh⟩⟩
  · rw [hall]
    exact ⟨_, List.mem_cons_self, rfl⟩
  · rw [hsched]
    intro u hu
    cases hu
  · refine ⟨by rw [hsched]; rfl, rfl, rfl, ?_, ?_, ?_⟩
    · constructor <;> intro hdead <;> cases hdead
    · intro hfin
      cases hfin
    · intro huser
      cases huser

/-- The processor is with the task whose turn it is: it has what that task left in its own, in its
address space, and at ring 3 with its kernel stack in the TSS. -/
structure HasTurn (s : State Ctl) (a : Turns) : Prop where
  turn : s.kernel.scheduler.all.map Task.id = a.turn
  running : ∃ t, s.kernel.scheduler.currentTask = some t ∧ s.core.toView = a.own t.id ∧
    s.core.cr3.toNat = t.cr3 ∧ (t.isUser → s.kernel.rsp0 = t.kernelStackTop)

/-- The processor runs the task that has the turn. -/
theorem Shares.hasTurn (h : Shares kstack s a) : HasTurn s a := by
  obtain ⟨t, hr⟩ := h.running
  exact ⟨h.turn, t, hr.current, hr.view, hr.cr3, hr.tss⟩

/-- Each task sees the processor as if it had one of its own, after any run; and a timer interrupt
then gives the processor back to a task at ring 3 with the data segments of ring 3. -/
theorem switch_transparent (hboot : Boot kstack s) (events : List Event)
    (hok : Run.Guarded step (Allowed kstack) s events) :
    let s' := events.foldl step s
    let a := events.foldl Turns.step (Turns.start s)
    HasTurn s' a ∧ ∀ junk, Allowed kstack s' (.timer junk) →
      HasTurn (step s' (.timer junk)) (a.step (.timer junk)) ∧
        ((step s' (.timer junk)).core.User → ∀ g, (step s' (.timer junk)).core.seg g = 0x1B) := by
  intro s' a
  have hshares : Shares kstack s' a := foldl_shares (boot_shares hboot) events hok
  refine ⟨hshares.hasTurn, fun junk hjunk =>
    ⟨(timer_shares hshares hjunk).hasTurn, fun huser => ?_⟩⟩
  obtain ⟨t, hr⟩ := hshares.running
  obtain ⟨rsp, u, rest, -, hq, -, -, -, hview, -, hseg⟩ := timer_step hshares hr hjunk
  have hfits := requeue_forall hr rsp hshares.fits fun hf => ⟨hf.ring, hf.stack⟩
  have hu : u ∈ s'.kernel.scheduler.requeue rsp := by
    rw [hq]
    exact List.mem_cons_self
  rw [hview] at huser
  exact hseg ((hfits u hu).ring.1 huser)

end

/-- The processor when interrupts are enabled, with the main task on a stack at `0x10000`. -/
def bootState : State Ctl where
  core :=
    { reg := fun _ => 7
      rip := 0xFFFFFFFF80001000
      cs := 0x08
      rflags := 0x202
      rsp := 0x13FF8
      ss := 0x10
      zf := false
      seg := fun _ => 0x10
      cr3 := 0x2000 }
  mem := fun _ => 0
  kernel := ⟨Scheduler.new.setMain (Task.mainTask 0 0x2000), 0, 0⟩

/-- The heartbeat task. -/
def heartbeat : Event := .spawn 1 0x42000 0x80002000 0 0x2000 0 false

/-- A timer interrupt with a handler that leaves memory as it finds it. -/
def quietTimer (s : State Ctl) : Event :=
  .timer ⟨fun _ => 0, false,
    pushAll s.mem (entryTop (.ofNat s.kernel.rsp0) s.core.toView) s.core.words⟩

/-- The machine may boot so. -/
theorem bootState_boot : Boot 0x10000 bootState where
  scheduler := ⟨0, rfl⟩
  ring := by decide
  stack := by decide
  inMemory := by decide

/-- A timer interrupt may come. -/
theorem quietTimer_allowed (s : State Ctl) : Allowed 0x10000 s (quietTimer s) := by
  simp only [Allowed, quietTimer]
  refine ⟨fun t _ => ?_, fun u _ => ?_⟩
  · exact Intact.refl _ _ _
  · exact Intact.refl _ _ _

/-- A task at ring 3. -/
def userTask : Event := .spawn 2 0x50000 0x400010 0x500000 0x3000 0x401000 true

/-- The processor when both tasks are in the queue. -/
def bothQueued : State Ctl := step (step bootState heartbeat) userTask

/-- One timer interrupt later. -/
def heartbeatTurn : State Ctl := step bothQueued (quietTimer bothQueued)

/-- The heartbeat task may be added. -/
theorem heartbeat_allowed : Allowed 0x10000 bootState heartbeat := by
  refine ⟨by decide, by decide, by decide, fun _ => rfl, fun u hu => ?_⟩
  obtain rfl := List.mem_singleton.1 hu
  exact ⟨by decide, .inl (by decide)⟩

/-- The task of the user may be added. -/
theorem userTask_allowed : Allowed 0x10000 (step bootState heartbeat) userTask := by
  refine ⟨by decide, by decide, by decide, fun huser => Bool.noConfusion huser, fun u hu => ?_⟩
  rcases List.mem_pair.1 hu with rfl | rfl
  · exact ⟨by decide, .inl (by decide)⟩
  · exact ⟨by decide, .inl (by decide)⟩

/-- The second timer interrupt gives the processor to the task at ring 3, which sees it as it was
laid out for it. -/
theorem switch_transparent_userTask :
    let s := step heartbeatTurn (quietTimer heartbeatTurn)
    let a := [heartbeat, userTask, quietTimer bothQueued, quietTimer heartbeatTurn].foldl Turns.step
      (Turns.start bootState)
    HasTurn s a ∧ s.core.rip = 0x400010 ∧ s.core.User ∧ ∀ g, s.core.seg g = 0x1B := by
  intro s a
  have hrun := switch_transparent bootState_boot [heartbeat, userTask, quietTimer bothQueued]
    ⟨heartbeat_allowed, userTask_allowed, quietTimer_allowed bothQueued, trivial⟩
  obtain ⟨hturn, hseg⟩ : HasTurn s a ∧ (s.core.User → ∀ g, s.core.seg g = 0x1B) :=
    hrun.2 _ (quietTimer_allowed heartbeatTurn)
  obtain ⟨t, hcurrent, hview, -⟩ := hturn.running
  have hids := hturn.turn
  rw [all_eq hcurrent] at hids
  have hid : t.id = 2 := (List.cons_eq_cons.1 hids).1
  rw [hid] at hview
  have huser : View.User s.core.toView := by
    rw [hview]
    decide
  exact ⟨hturn, congrArg View.rip hview, huser, hseg huser⟩

end Cpu

end RossOs
