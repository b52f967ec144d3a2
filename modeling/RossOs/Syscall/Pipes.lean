import RossOs.Lib.Run
import RossOs.Syscall.Model

/-!
# Pipes and descriptors

A pipe occupies a slot of the pipe table, and the descriptors of the tasks refer to it. No system
call gives a slot back (`ipc::close` has no caller), so that a slot whose last descriptor goes away
stays occupied for ever (`pipe_leaked`). `pipes_not_leaked` says that this is the only way to lose
one.
-/

namespace RossOs

open Ipc

/-! ## Runs -/

/-- A step of the system: a new task, a timer interrupt, or a system call of the current task. -/
inductive SysAction
  | addTask (t : Task)
  | tick (rsp : ℕ)
  | sysPipe
  | sysOpen (fuel : ℕ) (path : List Char)
  | sysClose (fd : ℕ)
  | sysExit

/-- One step. A new task has the table of `Task::new`. -/
def SysState.step (s : SysState) : SysAction → SysState
  | .addTask t => s.addTask { t with fdTable := .withStdio }
  | .tick rsp => s.tick rsp
  | .sysPipe => Exec.Outcome.state (RossOs.sysPipe s)
  | .sysOpen fuel path => Exec.Outcome.state (RossOs.sysOpen fuel path s)
  | .sysClose fd => Exec.Outcome.state (RossOs.sysClose fd s)
  | .sysExit => s.exit

/-- After boot: the main task runs, and there is no pipe. -/
def SysState.boot (main : Task) (keyboard : Kbuf.State UInt8) (vfs : VfsRoot) (disk : Disk) :
    SysState where
  tasks := []
  currentTask := some { main with fdTable := .withStdio }
  pipes := []
  keyboard := keyboard
  vfs := vfs
  disk := disk

/-! ## The law -/

/-- A task of the scheduler has a descriptor for the pipe. -/
def SysState.Refers (s : SysState) (id : ℕ) : Prop := ∃ t ∈ s.all, id ∈ t.fdTable.pipes

instance (s : SysState) (id : ℕ) : Decidable (s.Refers id) :=
  inferInstanceAs (Decidable (∃ t ∈ s.all, id ∈ t.fdTable.pipes))

/-- Every occupied slot of the pipe table has a descriptor. -/
def SysState.NoLeak (s : SysState) : Prop := ∀ id, (getPipe s.pipes id).isSome → s.Refers id

/-- When no slot is left for a new pipe, all of them have descriptors. -/
def SysState.RefusedOnlyWhenHeld (s : SysState) : Prop :=
  (Ipc.create s.pipes).1 = none → ∀ id < maxPipes, s.Refers id

/-- The step takes no pipe's descriptor away: `sys_close` is not for a pipe, `sys_pipe` finds a free
slot in the descriptor table or no pipe, and a timer interrupt drops no task with a pipe. -/
def SysState.KeepsPipes (s : SysState) : SysAction → Prop
  | .tick _ => s.currentTask.all fun t => t.state ≠ .dead ∨ t.fdTable.pipes = []
  | .sysPipe => (Ipc.create s.pipes).1 = none ∨
    s.fdTable.any fun t => (List.range' 3 (fdMax - 3)).any fun i => (t.get i).isNone
  | .sysClose fd => s.fdTable.all fun t => match t.get fd with
    | some (.pipe _) => false
    | _ => true
  | _ => True

instance (s : SysState) : ∀ a, Decidable (s.KeepsPipes a)
  | .tick _ => inferInstanceAs (Decidable (_ = true))
  | .sysPipe => inferInstanceAs (Decidable (_ ∨ _ = true))
  | .sysClose _ => inferInstanceAs (Decidable (_ = true))
  | .addTask _ | .sysOpen _ _ | .sysExit => inferInstanceAs (Decidable True)

section
variable {s : SysState}

/-- When `create` refuses, all slots are occupied. -/
theorem isSome_of_create_none {t : PipeTable} (h : (Ipc.create t).1 = none) {id : ℕ}
    (hid : id < maxPipes) : (getPipe t id).isSome := by
  rw [Ipc.create] at h
  cases hfind : t.findIdx? (·.isNone) with
  | some i =>
    rw [hfind] at h
    cases h
  | none =>
    rw [hfind] at h
    simp only at h
    split at h
    · rename_i hlen
      have hlt : id < t.length := Nat.lt_of_lt_of_le hid hlen
      have hsome := List.findIdx?_eq_none_iff.1 hfind t[id] (List.getElem_mem hlt)
      rw [getPipe, List.getElem?_eq_getElem hlt]
      cases hx : t[id] with
      | none =>
        rw [hx] at hsome
        cases hsome
      | some p => rfl
    · cases h

/-- Without a leak a pipe is refused only when all are held. -/
theorem SysState.NoLeak.refused (h : s.NoLeak) : s.RefusedOnlyWhenHeld := fun hnone id hid =>
  h id (isSome_of_create_none hnone hid)

/-- A descriptor in the table that is put in. -/
theorem SysState.refers_setTable {id : ℕ} {t t' : FdTable} (ht : s.fdTable = some t)
    (hmem : id ∈ t'.pipes) : (s.setTable t').Refers id := by
  rw [SysState.fdTable, Option.map_eq_some_iff] at ht
  obtain ⟨c, hc, -⟩ := ht
  refine ⟨{ c with fdTable := t' }, List.mem_append_left _ ?_, hmem⟩
  rw [SysState.setTable, hc]
  exact List.mem_singleton.2 rfl

/-- A change of the current table keeps the descriptors when the new table has those of the old. -/
theorem SysState.Refers.setTable {id : ℕ} (h : s.Refers id) {t t' : FdTable}
    (ht : s.fdTable = some t) (hsub : id ∈ t.pipes → id ∈ t'.pipes) :
    (s.setTable t').Refers id := by
  obtain ⟨p, hp, hmem⟩ := h
  rcases List.mem_append.1 hp with hp | hp
  · have heq : s.fdTable = some p.fdTable := by
      rw [SysState.fdTable, Option.mem_toList.1 hp]
      rfl
    obtain rfl := Option.some.inj (ht.symm.trans heq)
    exact SysState.refers_setTable ht (hsub hmem)
  · exact ⟨p, List.mem_append_right _ hp, hmem⟩

/-- A new entry keeps the descriptors of a table. -/
theorem FdTable.mem_pipes_set {t : FdTable} {id i : ℕ} (hi : i < fdMax) (hfree : t.get i = none)
    (e : Option FdEntry) (h : id ∈ t.pipes) : id ∈ (t.set i e).pipes := by
  obtain ⟨fd, hget⟩ := FdTable.mem_pipes.1 h
  refine FdTable.mem_pipes.2 ⟨fd, ?_⟩
  rw [FdTable.get_set hi, if_neg, hget]
  rintro rfl
  rw [hfree] at hget
  cases hget

/-- A new descriptor leaves those there are. -/
theorem SysState.Refers.alloc {id : ℕ} (h : s.Refers id) {t : FdTable} (ht : s.fdTable = some t)
    (e : FdEntry) : (s.setTable (t.alloc e).2).Refers id := by
  refine h.setTable ht fun hmem => ?_
  rcases t.alloc_spec e with ⟨i, -, hi, hfree, heq⟩ | ⟨-, heq⟩
  · rw [heq]
    exact FdTable.mem_pipes_set hi hfree _ hmem
  · rwa [heq]

/-- A new descriptor leaks no pipe. -/
theorem SysState.NoLeak.allocFd (h : s.NoLeak) (e : FdEntry) :
    (Exec.Outcome.state (RossOs.allocFd e s)).NoLeak := by
  cases ht : s.fdTable with
  | none =>
    rw [allocFd_none ht]
    exact h
  | some t =>
    rw [allocFd_run ht]
    exact fun id hid => (h id hid).alloc ht e

/-- A timer interrupt leaves the pipes. -/
theorem SysState.tick_pipes (s : SysState) (rsp : ℕ) : (s.tick rsp).pipes = s.pipes := by
  rw [SysState.tick]
  cases s.requeue rsp with
  | nil => rfl
  | cons t tasks => rfl

/-- A timer interrupt keeps the tables of the tasks, but for one of a dead task. -/
theorem SysState.Refers.tick {id : ℕ} (h : s.Refers id) {rsp : ℕ} (hk : s.KeepsPipes (.tick rsp)) :
    (s.tick rsp).Refers id := by
  have hall : (s.tick rsp).all.map (·.fdTable) = (s.requeue rsp).map (·.fdTable) := by
    rw [SysState.tick]
    cases s.requeue rsp with
    | nil => rfl
    | cons t tasks => rfl
  have hqueue : ∃ f ∈ (s.requeue rsp).map (·.fdTable), id ∈ f.pipes := by
    obtain ⟨p, hp, hmem⟩ := h
    rw [SysState.all] at hp
    rw [SysState.requeue]
    cases hc : s.currentTask with
    | none =>
      rw [hc] at hp
      exact ⟨p.fdTable, List.mem_map_of_mem hp, hmem⟩
    | some c =>
      rw [hc] at hp
      simp only
      rcases List.mem_cons.1 hp with rfl | hp
      · rw [if_neg]
        · exact ⟨p.fdTable, List.mem_map.2 ⟨{ p with rsp := rsp, state := .ready },
            List.mem_append_right _ (List.mem_singleton.2 rfl), rfl⟩, hmem⟩
        · intro hdead
          have hk' : s.currentTask.all (fun t => t.state ≠ .dead ∨ t.fdTable.pipes = []) := hk
          rw [hc] at hk'
          rcases of_decide_eq_true hk' with hne | hnil
          · exact hne hdead
          · rw [hnil] at hmem
            cases hmem
      · split
        · exact ⟨p.fdTable, List.mem_map_of_mem hp, hmem⟩
        · exact ⟨p.fdTable, List.mem_map_of_mem (List.mem_append_left _ hp), hmem⟩
  rw [← hall] at hqueue
  obtain ⟨f, hf, hmem⟩ := hqueue
  obtain ⟨t, ht, rfl⟩ := List.mem_map.1 hf
  exact ⟨t, ht, hmem⟩

/-- `sys_open` leaks no pipe. -/
theorem SysState.NoLeak.sysOpen (h : s.NoLeak) (fuel : ℕ) (path : List Char) :
    (s.step (.sysOpen fuel path)).NoLeak := by
  show (Exec.Outcome.state (RossOs.sysOpen fuel path s)).NoLeak
  rcases sysOpen_cases s fuel path with ⟨node, -, heq⟩ | ⟨-, heq | ⟨e, heq⟩⟩
  · rw [heq]
    exact h.allocFd _
  · rw [heq]
    exact h
  · rw [heq]
    exact h

/-- `sys_close` leaks no pipe unless it closes the last descriptor of one. -/
theorem SysState.NoLeak.sysClose (h : s.NoLeak) {fd : ℕ} (hk : s.KeepsPipes (.sysClose fd)) :
    (s.step (.sysClose fd)).NoLeak := by
  show (Exec.Outcome.state (RossOs.sysClose fd s)).NoLeak
  rw [RossOs.sysClose, Exec.bind_of_ok (Exec.get_apply s)]
  have hk' : s.fdTable.all (fun t => match t.get fd with
    | some (.pipe _) => false
    | _ => true) := hk
  cases ht : s.fdTable with
  | none => exact h
  | some t =>
    rw [ht] at hk'
    show (s.setTable (t.close fd).2).NoLeak
    refine fun id hid => (h id hid).setTable ht fun hmem => ?_
    rcases t.close_spec fd with ⟨e, hget, heq⟩ | ⟨-, heq⟩
    · obtain ⟨fd', hget'⟩ := FdTable.mem_pipes.1 hmem
      rw [heq]
      refine FdTable.mem_pipes.2 ⟨fd', ?_⟩
      rw [FdTable.get_set (FdTable.lt_of_get hget), if_neg, hget']
      rintro rfl
      simp only [Option.all_some, hget'] at hk'
      cases hk'
    · rwa [heq]

/-- `sys_pipe` leaks no pipe when it has a descriptor for it. -/
theorem SysState.NoLeak.sysPipe (h : s.NoLeak) (hk : s.KeepsPipes .sysPipe) :
    (s.step .sysPipe).NoLeak := by
  show (Exec.Outcome.state (RossOs.sysPipe s)).NoLeak
  cases hcreate : (Ipc.create s.pipes).1 with
  | none =>
    rw [sysPipe_of_none hcreate]
    exact h
  | some id =>
    obtain ⟨-, -, hother, -⟩ := create_spec hcreate
    have hfree := Or.resolve_left hk (by rw [hcreate]; exact nofun)
    cases ht : s.fdTable with
    | none =>
      rw [ht] at hfree
      cases hfree
    | some t =>
      rw [ht] at hfree
      obtain ⟨i, hi, hnone⟩ := List.any_eq_true.1 hfree
      obtain ⟨hi3, hi64⟩ := List.mem_range'_1.1 hi
      rw [sysPipe_of_some hcreate,
        allocFd_run (s := { s with pipes := (Ipc.create s.pipes).2 }) ht]
      intro id' hid'
      show (s.setTable _).Refers id'
      by_cases heq : id' = id
      · rw [heq]
        rcases t.alloc_spec (.pipe id) with ⟨j, -, hj, -, halloc⟩ | ⟨hfull, -⟩
        · rw [halloc]
          refine SysState.refers_setTable ht (FdTable.mem_pipes.2 ⟨j, ?_⟩)
          rw [FdTable.get_set hj, if_pos rfl]
        · exact absurd (Option.isNone_iff_eq_none.1 hnone) (hfull i hi3 hi64)
      · refine (h id' ?_).alloc ht _
        rwa [← hother id' heq]

/-- Every step that keeps its pipes leaks none. -/
theorem SysState.NoLeak.step (h : s.NoLeak) {a : SysAction} (hk : s.KeepsPipes a) :
    (s.step a).NoLeak := by
  cases a with
  | addTask t =>
    intro id hid
    obtain ⟨p, hp, hmem⟩ := h id hid
    refine ⟨p, ?_, hmem⟩
    rcases List.mem_append.1 hp with hp | hp
    · exact List.mem_append_left _ hp
    · exact List.mem_append_right _ (List.mem_append_left _ hp)
  | tick rsp =>
    intro id hid
    refine (h id ?_).tick hk
    rwa [← SysState.tick_pipes s rsp]
  | sysPipe => exact h.sysPipe hk
  | sysOpen fuel path => exact h.sysOpen fuel path
  | sysClose fd => exact h.sysClose hk
  | sysExit =>
    intro id hid
    obtain ⟨p, hp, hmem⟩ := h id hid
    have hall : s.exit.all.map (·.fdTable) = s.all.map (·.fdTable) := by
      rw [SysState.all, SysState.all, SysState.exit]
      cases s.currentTask with
      | none => rfl
      | some t => rfl
    have hf := List.mem_map_of_mem (f := (·.fdTable)) hp
    rw [← hall] at hf
    obtain ⟨t, ht, heq⟩ := List.mem_map.1 hf
    exact ⟨t, ht, heq ▸ hmem⟩

end

/-- No slot is lost while no descriptor of a pipe is taken away. -/
theorem pipes_not_leaked (main : Task) (keyboard : Kbuf.State UInt8) (vfs : VfsRoot) (disk : Disk)
    (l : List SysAction)
    (h : Run.Guarded SysState.step SysState.KeepsPipes (.boot main keyboard vfs disk) l) :
    (l.foldl SysState.step (.boot main keyboard vfs disk)).NoLeak ∧
      (l.foldl SysState.step (.boot main keyboard vfs disk)).RefusedOnlyWhenHeld := by
  have hinv : (l.foldl SysState.step (.boot main keyboard vfs disk)).NoLeak :=
    Run.invariant (fun _ _ hs ha => SysState.NoLeak.step hs ha) (fun _ hid => nomatch hid) h
  exact ⟨hinv, hinv.refused⟩

/-- The system after boot, with no file system mounted. -/
def bareSystem : SysState :=
  .boot ⟨1, ⟨0, 0, 0, 0, 0⟩, 0, 0, 0x1000, .running, false, 0⟩ (.start fun _ => 0) ⟨none, none⟩
    emptyDisk

/-- A task makes a pipe and is preempted; another one exits without a pipe. -/
theorem pipes_not_leaked_two_tasks :
    (([.addTask ⟨2, ⟨0, 0, 0, 0, 0⟩, 0, 0, 0x2000, .ready, true, 0⟩, .sysPipe, .tick 0, .sysExit,
      .tick 0] : List SysAction).foldl SysState.step bareSystem).NoLeak :=
  (pipes_not_leaked _ _ _ _ _ (by decide)).1

/-- A task makes a pipe and closes its descriptor: the pipe's slot stays occupied. -/
theorem pipe_leaked :
    ¬ (([.sysPipe, .sysClose 3] : List SysAction).foldl SysState.step bareSystem).NoLeak := by
  intro h
  exact absurd (h 0 (by decide)) (by decide)

end RossOs
