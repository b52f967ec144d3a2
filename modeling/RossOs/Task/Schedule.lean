import RossOs.Lib.Run
import RossOs.Task.Model

/-!
# The scheduler over whole runs

Runs of the scheduler of `ross-kernel/src/task.rs`: `set_main` once, then any order of `add_task`,
timer interrupts and `sys_exit`. `Traced` keeps, beside the scheduler and `TSS.rsp0`, a ledger of
what happened so far (which tasks were added, which exited, where each was preempted last), and
`scheduler_law` compares the two.
-/

namespace RossOs

/-! ## The steps -/

/-- `Task::main_task`, for the `TaskId` it takes and the value of the `cr3` register. -/
def Task.mainTask (id cr3 : ℕ) : Task where
  id := id
  stack := ⟨0, 0, 0, 0, 0⟩
  kernelStackTop := 0
  rsp := 0
  cr3 := cr3
  state := .running
  isUser := false
  heapEnd := 0

/-- `Scheduler::new`. -/
def Scheduler.new : Scheduler := ⟨[], none⟩

/-- `Scheduler::set_main`. -/
def Scheduler.setMain (s : Scheduler) (t : Task) : Scheduler := { s with currentTask := some t }

/-- What `sys_exit` does to the scheduler. -/
def Scheduler.exit (s : Scheduler) : Scheduler :=
  { s with currentTask := s.currentTask.map fun t => { t with state := .dead } }

/-- `TSS.rsp0` after `pick_next` made `next` the current task. -/
def setTssStack (rsp0 : ℕ) (next : Option Task) : ℕ :=
  match next with
  | none => rsp0
  | some t => if t.isUser then t.kernelStackTop else rsp0

/-- A step of the system. -/
inductive SchedAction
  | addTask (t : Task)
  | tick (rsp cr3 : ℕ)
  | exit

/-- The scheduler and `TSS.rsp0`, and the ledger of a run: the main task and the added ones as they
were then, the tasks that called `sys_exit`, those of them that a timer interrupt dropped, and for
each task where it was preempted last, or its first `rsp`. -/
structure Traced where
  scheduler : Scheduler
  rsp0 : ℕ
  added : List Task
  exited : List ℕ
  dropped : List ℕ
  saved : ℕ → ℕ

/-- After `set_main`. -/
def Traced.start (main : Task) (rsp0 : ℕ) : Traced where
  scheduler := Scheduler.new.setMain main
  rsp0 := rsp0
  added := [main]
  exited := []
  dropped := []
  saved := fun _ => main.rsp

/-- The current task's id, if there is one. -/
def Traced.currentId (s : Traced) : Option ℕ := s.scheduler.currentTask.map (·.id)

/-- One step, and its record in the ledger. -/
def Traced.step (s : Traced) : SchedAction → Traced
  | .addTask t =>
    { s with
      scheduler := s.scheduler.addTask t
      added := s.added ++ [t]
      saved := Function.update s.saved t.id t.rsp }
  | .tick rsp cr3 =>
    let next := (s.scheduler.pickNext rsp cr3).2
    { s with
      scheduler := next
      rsp0 := setTssStack s.rsp0 next.currentTask
      dropped := s.dropped ++ s.currentId.toList.filter (· ∈ s.exited)
      saved := s.currentId.elim s.saved fun i => Function.update s.saved i rsp }
  | .exit =>
    { s with
      scheduler := s.scheduler.exit
      exited := s.exited ++ s.currentId.toList }

/-- What the callers keep to: an added task is ready and has an id of its own, and the main task
does not exit. -/
def Traced.Allowed (main : ℕ) (s : Traced) : SchedAction → Prop
  | .addTask t => t.state = .ready ∧ t.id ∉ s.added.map (·.id)
  | .tick _ _ => True
  | .exit => s.currentId ≠ some main

instance (main : ℕ) (s : Traced) : ∀ a, Decidable (s.Allowed main a)
  | .addTask t => inferInstanceAs (Decidable (t.state = .ready ∧ t.id ∉ s.added.map (·.id)))
  | .tick _ _ => inferInstanceAs (Decidable True)
  | .exit => inferInstanceAs (Decidable (s.currentId ≠ some main))

/-- The state after a run. -/
def Traced.after (main : Task) (rsp0 : ℕ) (l : List SchedAction) : Traced :=
  l.foldl Traced.step (.start main rsp0)

/-! ## The law -/

/-- What holds at any time. The tasks of the scheduler and the dropped ones are the main task and
the added ones, each once. -/
structure SchedulerLaw (s : Traced) : Prop where
  conserved : (s.scheduler.all.map (·.id) ++ s.dropped).Perm (s.added.map (·.id))
  unique : (s.added.map (·.id)).Nodup
  exited : ∀ i ∈ s.dropped, i ∈ s.exited
  queued : ∀ t ∈ s.scheduler.tasks, t.state = .ready
  stack : ∀ t, s.scheduler.currentTask = some t → t.isUser → s.rsp0 = t.kernelStackTop

/-- What a timer interrupt resumes: a task `t` at the `rsp` of its last preemption, which can be
this one, with the `cr3` it was added with, and not one that exited. -/
def Resumes (s : Traced) (rsp cr3 : ℕ) : Prop :=
  ∃ t, (s.step (.tick rsp cr3)).scheduler.currentTask = some t ∧
    (s.scheduler.pickNext rsp cr3).1.1 = (s.step (.tick rsp cr3)).saved t.id ∧
    (∃ a ∈ s.added, a.id = t.id ∧ (s.scheduler.pickNext rsp cr3).1.2 = a.cr3) ∧
    t.id ∉ s.exited

/-! ## The invariant -/

/-- A task of the queue: it is ready, did not exit, and its `rsp` and `cr3` are those of the
ledger. -/
structure Waiting (s : Traced) (t : Task) : Prop where
  ready : t.state = .ready
  running : t.id ∉ s.exited
  rsp : t.rsp = s.saved t.id
  cr3 : ∃ a ∈ s.added, a.id = t.id ∧ t.cr3 = a.cr3

/-- The current task: it is dead when it exited, and its `cr3` is that of the ledger. -/
structure Current (s : Traced) (t : Task) : Prop where
  dead : t.state = .dead ↔ t.id ∈ s.exited
  cr3 : ∃ a ∈ s.added, a.id = t.id ∧ t.cr3 = a.cr3
  stack : t.isUser → s.rsp0 = t.kernelStackTop

/-- The invariant. The main task is always there, so that a timer interrupt always finds a task. -/
structure SchedInv (main : ℕ) (s : Traced) : Prop where
  conserved : (s.scheduler.all.map (·.id) ++ s.dropped).Perm (s.added.map (·.id))
  unique : (s.added.map (·.id)).Nodup
  dropped : ∀ i ∈ s.dropped, i ∈ s.exited
  exited : ∀ i ∈ s.exited, i ∈ s.added.map (·.id)
  waiting : ∀ t ∈ s.scheduler.tasks, Waiting s t
  current : ∀ t, s.scheduler.currentTask = some t → Current s t
  main_mem : main ∈ s.added.map (·.id)
  main_notMem : main ∉ s.exited

section
variable {main : ℕ} {s : Traced}

/-- The invariant holds at boot. -/
theorem SchedInv.start (t : Task) (h : t.state = .running) (hu : t.isUser = false) (rsp0 : ℕ) :
    SchedInv t.id (.start t rsp0) where
  conserved := List.Perm.refl _
  unique := List.nodup_singleton _
  dropped := fun _ h => nomatch h
  exited := fun _ h => nomatch h
  waiting := fun _ h => nomatch h
  current := by
    intro u hu'
    obtain rfl : t = u := Option.some.inj hu'
    refine ⟨⟨fun hd => ?_, fun hx => nomatch hx⟩, ⟨t, List.mem_singleton.2 rfl, rfl, rfl⟩,
      fun h => absurd h (by simp [hu])⟩
    rw [h] at hd
    cases hd
  main_mem := List.mem_singleton.2 rfl
  main_notMem := fun h => nomatch h

/-- The ids of the scheduler's tasks are pairwise different. -/
theorem SchedInv.nodup (h : SchedInv main s) : (s.scheduler.all.map (·.id) ++ s.dropped).Nodup :=
  h.conserved.nodup_iff.2 h.unique

/-- A ready task with a fresh id keeps the invariant. -/
theorem SchedInv.addTask (h : SchedInv main s) {t : Task} (hready : t.state = .ready)
    (hfresh : t.id ∉ s.added.map (·.id)) : SchedInv main (s.step (.addTask t)) where
  conserved := by
    have hall : (s.step (.addTask t)).scheduler.all = s.scheduler.all ++ [t] :=
      (List.append_assoc _ _ _).symm
    show ((s.step (.addTask t)).scheduler.all.map (·.id) ++ s.dropped).Perm
      ((s.added ++ [t]).map (·.id))
    rw [hall, List.map_append, List.map_append, List.append_assoc]
    refine (List.Perm.append_left _ List.perm_append_comm).trans ?_
    rw [← List.append_assoc]
    exact h.conserved.append_right _
  unique := by
    show ((s.added ++ [t]).map (·.id)).Nodup
    rw [List.map_append]
    refine List.nodup_append.2 ⟨h.unique, List.nodup_singleton _, fun a ha b hb hab => hfresh ?_⟩
    obtain rfl : b = t.id := List.mem_singleton.1 hb
    rwa [← hab]
  dropped := h.dropped
  exited := fun i hi => by
    show i ∈ (s.added ++ [t]).map (·.id)
    rw [List.map_append]
    exact List.mem_append_left _ (h.exited i hi)
  waiting := by
    intro u hu
    rcases List.mem_append.1 (show u ∈ s.scheduler.tasks ++ [t] from hu) with hu | hu
    · obtain ⟨hr, hx, hsp, a, ha, hid, hcr⟩ := h.waiting u hu
      refine ⟨hr, hx, ?_, a, List.mem_append_left _ ha, hid, hcr⟩
      have hne : u.id ≠ t.id := fun heq =>
        hfresh (heq ▸ hid ▸ List.mem_map_of_mem ha)
      rw [hsp]
      exact (Function.update_of_ne hne _ _).symm
    · obtain rfl := List.mem_singleton.1 hu
      refine ⟨hready, fun hx => hfresh (h.exited _ hx), ?_, u, ?_, rfl, rfl⟩
      · exact (Function.update_self u.id u.rsp s.saved).symm
      · exact List.mem_append_right _ (List.mem_singleton.2 rfl)
  current := by
    intro u hu
    obtain ⟨hd, ⟨a, ha, hid, hcr⟩, hst⟩ := h.current u hu
    exact ⟨hd, ⟨a, List.mem_append_left _ ha, hid, hcr⟩, hst⟩
  main_mem := by
    show main ∈ (s.added ++ [t]).map (·.id)
    rw [List.map_append]
    exact List.mem_append_left _ h.main_mem
  main_notMem := h.main_notMem

/-- Without a task there is none to exit. -/
theorem step_exit_of_none (hc : s.scheduler.currentTask = none) : s.step .exit = s := by
  obtain ⟨⟨tasks, current⟩, rsp0, added, exited, dropped, saved⟩ := s
  obtain rfl : current = none := hc
  simp [Traced.step, Scheduler.exit, Traced.currentId]

/-- `exit` marks the current task. -/
theorem currentTask_exit (s : Traced) : (s.step .exit).scheduler.currentTask =
    s.scheduler.currentTask.map fun t => { t with state := .dead } := rfl

/-- `exit` keeps the tasks that there are. -/
theorem ids_exit (s : Traced) :
    (s.step .exit).scheduler.all.map (·.id) = s.scheduler.all.map (·.id) := by
  rw [Scheduler.all, Scheduler.all, currentTask_exit]
  cases s.scheduler.currentTask <;> rfl

/-- An exit of another task than the main one keeps the invariant. -/
theorem SchedInv.exit (h : SchedInv main s) (hmain : s.currentId ≠ some main) :
    SchedInv main (s.step .exit) := by
  cases hc : s.scheduler.currentTask with
  | none => rwa [step_exit_of_none hc]
  | some t =>
    have hid : s.currentId = some t.id := by rw [Traced.currentId, hc]; rfl
    have hall : s.scheduler.all = t :: s.scheduler.tasks := by rw [Scheduler.all, hc]; rfl
    have hexited : (s.step .exit).exited = s.exited ++ [t.id] := by
      show s.exited ++ s.currentId.toList = _
      rw [hid]
      rfl
    have hcurrent : (s.step .exit).scheduler.currentTask = some { t with state := .dead } := by
      rw [currentTask_exit, hc]
      rfl
    have hnodup := h.nodup
    rw [hall, List.map_cons, List.cons_append, List.nodup_cons, List.mem_append] at hnodup
    obtain ⟨hdead, hcr3, hstack⟩ := h.current t hc
    refine ⟨?_, h.unique, ?_, ?_, ?_, ?_, h.main_mem, ?_⟩
    · rw [ids_exit]
      exact h.conserved
    · intro i hi
      rw [hexited]
      exact List.mem_append_left _ (h.dropped i hi)
    · intro i hi
      rw [hexited] at hi
      rcases List.mem_append.1 hi with hi | hi
      · exact h.exited i hi
      · obtain ⟨a, ha, haid, -⟩ := hcr3
        rw [List.mem_singleton.1 hi, ← haid]
        exact List.mem_map_of_mem ha
    · intro u hu
      obtain ⟨hr, hx, hsp, hcr⟩ := h.waiting u hu
      refine ⟨hr, ?_, hsp, hcr⟩
      rw [hexited]
      intro hmem
      rcases List.mem_append.1 hmem with hmem | hmem
      · exact hx hmem
      · exact hnodup.1 (.inl (List.mem_singleton.1 hmem ▸ List.mem_map_of_mem hu))
    · intro u hu
      obtain rfl : { t with state := .dead } = u := Option.some.inj (hcurrent.symm.trans hu)
      refine ⟨⟨fun _ => ?_, fun _ => rfl⟩, hcr3, hstack⟩
      rw [hexited]
      exact List.mem_append_right _ (List.mem_singleton.2 rfl)
    · rw [hexited]
      intro hmem
      rcases List.mem_append.1 hmem with hmem | hmem
      · exact h.main_notMem hmem
      · exact hmain (by rw [hid, List.mem_singleton.1 hmem])

/-- The ledger after a timer interrupt that finds `t`. -/
theorem Traced.step_tick_of_some {t : Task} (hc : s.scheduler.currentTask = some t) (rsp cr3 : ℕ) :
    (s.step (.tick rsp cr3)).dropped = s.dropped ++ (if t.id ∈ s.exited then [t.id] else []) ∧
      (s.step (.tick rsp cr3)).saved = Function.update s.saved t.id rsp := by
  have hid : s.currentId = some t.id := by rw [Traced.currentId, hc]; rfl
  constructor
  · show s.dropped ++ s.currentId.toList.filter (· ∈ s.exited) = _
    rw [hid]
    by_cases hx : t.id ∈ s.exited <;> simp [hx]
  · show s.currentId.elim s.saved _ = _
    rw [hid]
    rfl

/-- The queue from which a timer interrupt takes the next task: nothing is lost but a task that
exited, and all tasks in it can be resumed. -/
structure Requeued (s : Traced) (rsp cr3 : ℕ) : Prop where
  conserved : ((s.scheduler.requeue rsp).map (·.id) ++ (s.step (.tick rsp cr3)).dropped).Perm
    (s.added.map (·.id))
  dropped : ∀ i ∈ (s.step (.tick rsp cr3)).dropped, i ∈ s.exited
  waiting : ∀ t ∈ s.scheduler.requeue rsp, Waiting (s.step (.tick rsp cr3)) t

/-- Without a current task the queue is as it was. -/
theorem SchedInv.requeued_none (h : SchedInv main s) (hc : s.scheduler.currentTask = none)
    (rsp cr3 : ℕ) : Requeued s rsp cr3 := by
  have hq : s.scheduler.requeue rsp = s.scheduler.tasks := by rw [Scheduler.requeue, hc]
  have hall : s.scheduler.all = s.scheduler.tasks := by rw [Scheduler.all, hc]; rfl
  have hid : s.currentId = none := by rw [Traced.currentId, hc]; rfl
  have hdropped : (s.step (.tick rsp cr3)).dropped = s.dropped := by
    show s.dropped ++ s.currentId.toList.filter (· ∈ s.exited) = _
    rw [hid]
    exact List.append_nil _
  have hsaved : (s.step (.tick rsp cr3)).saved = s.saved := by
    show s.currentId.elim s.saved _ = _
    rw [hid]
    rfl
  refine ⟨?_, ?_, ?_⟩
  · rw [hq, hdropped, ← hall]
    exact h.conserved
  · rw [hdropped]
    exact h.dropped
  · intro u hu
    rw [hq] at hu
    obtain ⟨hr, hx, hsp, hcr⟩ := h.waiting u hu
    exact ⟨hr, hx, by rw [hsaved]; exact hsp, hcr⟩

/-- The current task goes back to the queue, unless it exited. -/
theorem SchedInv.requeued_some (h : SchedInv main s) {t : Task}
    (hc : s.scheduler.currentTask = some t) (rsp cr3 : ℕ) : Requeued s rsp cr3 := by
  obtain ⟨hdropped, hsaved⟩ := Traced.step_tick_of_some hc rsp cr3
  obtain ⟨hdead, hcr3, -⟩ := h.current t hc
  have hall : s.scheduler.all = t :: s.scheduler.tasks := by rw [Scheduler.all, hc]; rfl
  have hnodup := h.nodup
  rw [hall, List.map_cons, List.cons_append, List.nodup_cons, List.mem_append] at hnodup
  have hconserved := h.conserved
  rw [hall] at hconserved
  have hold : ∀ u ∈ s.scheduler.tasks, Waiting (s.step (.tick rsp cr3)) u := by
    intro u hu
    obtain ⟨hr, hx, hsp, hcr⟩ := h.waiting u hu
    refine ⟨hr, hx, ?_, hcr⟩
    have hne : u.id ≠ t.id := fun heq => hnodup.1 (.inl (heq ▸ List.mem_map_of_mem hu))
    rw [hsaved, Function.update_of_ne hne, hsp]
  by_cases hx : t.id ∈ s.exited
  · have hq : s.scheduler.requeue rsp = s.scheduler.tasks := by
      rw [Scheduler.requeue, hc]
      exact if_pos (hdead.2 hx)
    rw [if_pos hx] at hdropped
    refine ⟨?_, ?_, ?_⟩
    · rw [hq, hdropped, ← List.append_assoc]
      exact List.perm_append_comm.trans hconserved
    · intro i hi
      rw [hdropped] at hi
      rcases List.mem_append.1 hi with hi | hi
      · exact h.dropped i hi
      · exact List.mem_singleton.1 hi ▸ hx
    · rw [hq]
      exact hold
  · have hq : s.scheduler.requeue rsp =
        s.scheduler.tasks ++ [{ t with rsp := rsp, state := .ready }] := by
      rw [Scheduler.requeue, hc]
      exact if_neg (mt hdead.1 hx)
    rw [if_neg hx, List.append_nil] at hdropped
    refine ⟨?_, ?_, ?_⟩
    · rw [hq, hdropped, List.map_append]
      exact (List.perm_append_comm.append_right _).trans hconserved
    · rw [hdropped]
      exact h.dropped
    · intro u hu
      rw [hq] at hu
      rcases List.mem_append.1 hu with hu | hu
      · exact hold u hu
      · obtain rfl := List.mem_singleton.1 hu
        refine ⟨rfl, hx, ?_, hcr3⟩
        rw [hsaved]
        exact (Function.update_self t.id rsp s.saved).symm

/-- At every timer interrupt nothing is lost but a task that exited. -/
theorem SchedInv.requeued (h : SchedInv main s) (rsp cr3 : ℕ) : Requeued s rsp cr3 := by
  cases hc : s.scheduler.currentTask with
  | none => exact h.requeued_none hc rsp cr3
  | some t => exact h.requeued_some hc rsp cr3

/-- A timer interrupt takes the first task of that queue, which has one since the main task is in
it. -/
theorem SchedInv.pickNext (h : SchedInv main s) (rsp cr3 : ℕ) :
    ∃ t tasks, s.scheduler.requeue rsp = t :: tasks ∧
      s.scheduler.pickNext rsp cr3 =
        ((t.rsp, t.cr3), ⟨tasks, some { t with state := .running }⟩) := by
  have hq := h.requeued rsp cr3
  cases hr : s.scheduler.requeue rsp with
  | nil =>
    have hconserved := hq.conserved
    rw [hr] at hconserved
    exact absurd (hq.dropped _ (hconserved.mem_iff.2 h.main_mem)) h.main_notMem
  | cons t tasks =>
    refine ⟨t, tasks, rfl, ?_⟩
    rw [Scheduler.pickNext, hr]

/-- A timer interrupt keeps the invariant. -/
theorem SchedInv.tick (h : SchedInv main s) (rsp cr3 : ℕ) :
    SchedInv main (s.step (.tick rsp cr3)) := by
  obtain ⟨t, tasks, hr, hp⟩ := h.pickNext rsp cr3
  obtain ⟨hconserved, hdropped, hwaiting⟩ := h.requeued rsp cr3
  rw [hr] at hconserved hwaiting
  have hs : (s.step (.tick rsp cr3)).scheduler = ⟨tasks, some { t with state := .running }⟩ := by
    show (s.scheduler.pickNext rsp cr3).2 = _
    rw [hp]
  have hrsp0 : (s.step (.tick rsp cr3)).rsp0 = if t.isUser then t.kernelStackTop else s.rsp0 := by
    show setTssStack s.rsp0 (s.scheduler.pickNext rsp cr3).2.currentTask = _
    rw [hp]
    rfl
  obtain ⟨-, hx, -, hcr3⟩ := hwaiting t List.mem_cons_self
  refine ⟨?_, h.unique, hdropped, h.exited, ?_, ?_, h.main_mem, h.main_notMem⟩
  · rw [hs]
    exact hconserved
  · rw [hs]
    exact fun u hu => hwaiting u (List.mem_cons_of_mem _ hu)
  · intro u hu
    rw [hs] at hu
    obtain rfl := Option.some.inj hu
    refine ⟨⟨fun hd => (nomatch hd), fun hx' => absurd hx' hx⟩, hcr3, fun huser => ?_⟩
    rw [hrsp0]
    exact if_pos huser

/-- Every step keeps the invariant. -/
theorem SchedInv.step (h : SchedInv main s) {a : SchedAction} (ha : s.Allowed main a) :
    SchedInv main (s.step a) := by
  cases a with
  | addTask t => exact h.addTask ha.1 ha.2
  | tick rsp cr3 => exact h.tick rsp cr3
  | exit => exact h.exit ha

/-- The law of the scheduler follows. -/
theorem SchedInv.law (h : SchedInv main s) : SchedulerLaw s where
  conserved := h.conserved
  unique := h.unique
  exited := h.dropped
  queued := fun t ht => (h.waiting t ht).ready
  stack := fun t ht => (h.current t ht).stack

/-- So does what an interrupt resumes. -/
theorem SchedInv.resumes (h : SchedInv main s) (rsp cr3 : ℕ) : Resumes s rsp cr3 := by
  obtain ⟨t, tasks, hr, hp⟩ := h.pickNext rsp cr3
  have ht : t ∈ s.scheduler.requeue rsp := by
    rw [hr]
    exact List.mem_cons_self
  obtain ⟨-, hx, hsp, hcr3⟩ := (h.requeued rsp cr3).waiting t ht
  refine ⟨{ t with state := .running }, ?_, ?_, ?_, hx⟩
  · show (s.scheduler.pickNext rsp cr3).2.currentTask = _
    rw [hp]
  · rw [hp]
    exact hsp
  · rw [hp]
    exact hcr3

end

/-- Every run keeps the law, and every timer interrupt resumes a task as the ledger has it. -/
theorem scheduler_law (mainId mainCr3 rsp0 : ℕ) (l : List SchedAction)
    (h : Run.Guarded Traced.step (Traced.Allowed mainId)
      (.start (.mainTask mainId mainCr3) rsp0) l) :
    SchedulerLaw (.after (.mainTask mainId mainCr3) rsp0 l) ∧
      ∀ rsp cr3, Resumes (.after (.mainTask mainId mainCr3) rsp0 l) rsp cr3 := by
  have hinv : SchedInv mainId (.after (.mainTask mainId mainCr3) rsp0 l) :=
    Run.invariant (fun _ _ hs ha => SchedInv.step hs ha)
      (SchedInv.start (.mainTask mainId mainCr3) rfl rfl rsp0) h
  exact ⟨hinv.law, hinv.resumes⟩

/-- A user task is added, resumed, and exits; the next timer interrupt drops it. -/
theorem scheduler_law_one_task : SchedulerLaw (.after (.mainTask 1 0x1000) 0
      [.addTask (.new 2 0x9000 0x400000 0x508000 0x2000 true), .tick 0x7000 0x1000, .exit]) ∧
    Resumes (.after (.mainTask 1 0x1000) 0
      [.addTask (.new 2 0x9000 0x400000 0x508000 0x2000 true), .tick 0x7000 0x1000, .exit])
      0x8F00 0x2000 := by
  have h := scheduler_law 1 0x1000 0
    [.addTask (.new 2 0x9000 0x400000 0x508000 0x2000 true), .tick 0x7000 0x1000, .exit]
    (by decide)
  exact ⟨h.1, h.2 0x8F00 0x2000⟩

end RossOs
