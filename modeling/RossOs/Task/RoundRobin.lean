import RossOs.Task.Schedule

/-!
# Turns of the scheduler

`pick_next` takes tasks from the front of the queue, and tasks come in at its back only. A task with
`k` tasks ahead of it is therefore resumed by the `k + 1`-st timer interrupt from now on, and a task
that was preempted is resumed after each of those that waited then has had one turn (`round_robin`).
Neither depends on how many tasks are added or exit meanwhile.
-/

namespace RossOs

/-- The ids of the tasks in the queue, the front first. -/
def Traced.queue (s : Traced) : List ℕ := s.scheduler.tasks.map (·.id)

/-- What each `pick_next` of a run resumes. -/
def Traced.picks : Traced → List SchedAction → List (Option ℕ)
  | _, [] => []
  | s, .tick rsp cr3 :: l => (s.step (.tick rsp cr3)).currentId :: picks (s.step (.tick rsp cr3)) l
  | s, .addTask t :: l => picks (s.step (.addTask t)) l
  | s, .exit :: l => picks (s.step .exit) l

/-- An added task has an id of its own. -/
def Traced.Fresh (s : Traced) : SchedAction → Prop
  | .addTask t => t.id ∉ s.added.map (·.id)
  | .tick _ _ => True
  | .exit => True

instance (s : Traced) : ∀ a, Decidable (s.Fresh a)
  | .addTask t => inferInstanceAs (Decidable (t.id ∉ s.added.map (·.id)))
  | .tick _ _ => inferInstanceAs (Decidable True)
  | .exit => inferInstanceAs (Decidable True)

/-- The order of the turns from a state on. -/
structure RoundRobin (s : Traced) : Prop where
  /-- A task with `k` tasks ahead of it is first resumed by the `k + 1`-st `pick_next`. -/
  waits : ∀ k t, s.scheduler.tasks[k]? = some t → ∀ l, k < (s.picks l).length →
    (s.picks l)[k]? = some (some t.id) ∧ ∀ j < k, (s.picks l)[j]? ≠ some (some t.id)
  /-- When the current task `t` is preempted and resumed again by the last `pick_next`, and by none
  before, each task that waited at the start was resumed once in between. -/
  turns : ∀ t, s.scheduler.currentTask = some t → t.state ≠ .dead → ∀ rsp cr3 l between,
    s.picks (.tick rsp cr3 :: l) = between ++ [some t.id] → some t.id ∉ between →
      ∀ u ∈ s.scheduler.tasks, between.count (some u.id) = 1

/-- What the turns rest on: the tasks of the scheduler have different ids, which have been added. -/
structure Distinct (s : Traced) : Prop where
  nodup : (s.scheduler.all.map (·.id)).Nodup
  added : ∀ t ∈ s.scheduler.all, t.id ∈ s.added.map (·.id)

section
variable {s : Traced} {t : Task} {rsp cr3 : ℕ}

/-! ## One step -/

/-- A new task goes to the end of the queue. -/
theorem queue_addTask (s : Traced) (t : Task) : (s.step (.addTask t)).queue = s.queue ++ [t.id] :=
  List.map_append

/-- The ids from which a timer interrupt takes the first one. -/
def Traced.requeued (s : Traced) (rsp : ℕ) : List ℕ := (s.scheduler.requeue rsp).map (·.id)

/-- A timer interrupt puts the current task to the end of the queue. -/
theorem requeued_of_alive (hc : s.scheduler.currentTask = some t) (halive : t.state ≠ .dead)
    (rsp : ℕ) : s.requeued rsp = s.queue ++ [t.id] := by
  rw [Traced.requeued, Scheduler.requeue, hc]
  simp only [if_neg halive, List.map_append]
  rfl

/-- The tasks that wait stay in front. -/
theorem queue_prefix_requeued (s : Traced) (rsp : ℕ) : s.queue <+: s.requeued rsp := by
  rw [Traced.requeued, Scheduler.requeue]
  split
  · exact List.prefix_rfl
  · split
    · exact List.prefix_rfl
    · rw [List.map_append]
      exact List.prefix_append _ _

/-- The task in front is resumed. -/
theorem tick_of_requeued {i : ℕ} {ids : List ℕ} (h : s.requeued rsp = i :: ids) (cr3 : ℕ) :
    (s.step (.tick rsp cr3)).currentId = some i ∧ (s.step (.tick rsp cr3)).queue = ids := by
  obtain ⟨u, tasks, hr, rfl, rfl⟩ := List.map_eq_cons_iff.1 h
  have hnext : (s.step (.tick rsp cr3)).scheduler = ⟨tasks, some { u with state := .running }⟩ := by
    show (s.scheduler.pickNext rsp cr3).2 = _
    rw [Scheduler.pickNext, hr]
  rw [Traced.currentId, Traced.queue, hnext]
  exact ⟨rfl, rfl⟩

/-! ## Runs -/

/-- A timer interrupt takes the front off, and the rest comes next. -/
theorem picks_tick {l : List SchedAction} {k i : ℕ} (hq : (s.requeued rsp)[k]? = some i)
    (hk : k < (s.picks (.tick rsp cr3 :: l)).length)
    (hrest : ∀ k, (s.step (.tick rsp cr3)).queue[k]? = some i →
      k < ((s.step (.tick rsp cr3)).picks l).length →
      ((s.step (.tick rsp cr3)).picks l)[k]? = some (some i)) :
    (s.picks (.tick rsp cr3 :: l))[k]? = some (some i) := by
  cases hr : s.requeued rsp with
  | nil =>
    rw [hr] at hq
    cases hq
  | cons j ids =>
    rw [hr] at hq
    obtain ⟨hcurrent, hnext⟩ := tick_of_requeued hr cr3
    rw [Traced.picks, hcurrent]
    cases k with
    | zero =>
      cases hq
      rfl
    | succ k => exact hrest k (hnext ▸ hq) (Nat.lt_of_succ_lt_succ hk)

/-- The queue is what comes next, whatever the run does. -/
theorem picks_of_queue (l : List SchedAction) {s : Traced} {k i : ℕ} (hq : s.queue[k]? = some i)
    (hk : k < (s.picks l).length) : (s.picks l)[k]? = some (some i) := by
  have hlt := (List.getElem?_eq_some_iff.1 hq).1
  induction l generalizing s k with
  | nil => exact absurd hk (Nat.not_lt_zero k)
  | cons a l ih =>
    cases a with
    | addTask t =>
      have hq' : (s.step (.addTask t)).queue[k]? = some i := by
        rw [queue_addTask, List.getElem?_append_left hlt]
        exact hq
      exact ih hq' hk (List.getElem?_eq_some_iff.1 hq').1
    | exit => exact ih hq hk hlt
    | tick rsp cr3 =>
      obtain ⟨ids, hids⟩ := queue_prefix_requeued s rsp
      refine picks_tick (s := s) ?_ hk fun k hq hk => ih hq hk (List.getElem?_eq_some_iff.1 hq).1
      rw [← hids, List.getElem?_append_left hlt]
      exact hq

/-! ## Turns -/

/-- No task waits twice. -/
theorem Distinct.nodup_queue (h : Distinct s) : s.queue.Nodup := by
  have hnodup := h.nodup
  rw [Scheduler.all, List.map_append] at hnodup
  exact hnodup.of_append_right

/-- The current task does not wait. -/
theorem Distinct.notMem_queue (h : Distinct s) (hc : s.scheduler.currentTask = some t) :
    t.id ∉ s.queue := by
  have hnodup := h.nodup
  rw [Scheduler.all, hc] at hnodup
  exact (List.nodup_cons.1 hnodup).1

/-- Between two turns of a task come the tasks that waited at its preemption, in their order. -/
theorem Distinct.between_eq (h : Distinct s) (hc : s.scheduler.currentTask = some t)
    (halive : t.state ≠ .dead) {l : List SchedAction} {between : List (Option ℕ)}
    (hpicks : s.picks (.tick rsp cr3 :: l) = between ++ [some t.id])
    (hfirst : some t.id ∉ between) : between = s.queue.map some := by
  have hreq := requeued_of_alive hc halive rsp
  have hget : ∀ k i, (s.requeued rsp)[k]? = some i → k < between.length + 1 →
      (between ++ [some t.id])[k]? = some (some i) := by
    intro k i hq hk
    rw [← hpicks]
    refine picks_tick hq ?_ fun k hq hk => picks_of_queue l hq hk
    rw [hpicks, List.length_append]
    exact hk
  have hqueue : ∀ k (hk : k < s.queue.length), (s.requeued rsp)[k]? = some s.queue[k] := by
    intro k hk
    rw [hreq, List.getElem?_append_left hk, List.getElem?_eq_getElem hk]
  have hlast : (s.requeued rsp)[s.queue.length]? = some t.id := by
    rw [hreq, List.getElem?_concat_length]
  -- the next turn of the task comes after as many turns of others as waited
  have hlen : between.length = s.queue.length := by
    rcases Nat.lt_trichotomy between.length s.queue.length with hlt | heq | hgt
    · have hend := hget _ _ (hqueue _ hlt) (Nat.lt_succ_self _)
      rw [List.getElem?_concat_length] at hend
      have hid : t.id = s.queue[between.length] := Option.some.inj (Option.some.inj hend)
      exact absurd (hid ▸ List.getElem_mem hlt) (h.notMem_queue hc)
    · exact heq
    · have hearly := hget _ _ hlast (Nat.lt_succ_of_lt hgt)
      rw [List.getElem?_append_left hgt] at hearly
      exact absurd (List.mem_of_getElem? hearly) hfirst
  refine List.ext_getElem (by rw [hlen, List.length_map]) fun k hk hk' => ?_
  have hturn := hget k _ (hqueue k (hlen ▸ hk)) (Nat.lt_succ_of_lt hk)
  rw [List.getElem?_append_left hk, List.getElem?_eq_getElem hk] at hturn
  rw [List.getElem_map]
  exact Option.some.inj hturn

/-- With distinct ids the tasks take turns. -/
theorem Distinct.roundRobin (h : Distinct s) : RoundRobin s where
  waits := by
    intro k t ht l hk
    have hqueue : ∀ (j : ℕ) (u : Task), s.scheduler.tasks[j]? = some u →
        s.queue[j]? = some u.id := by
      intro j u hu
      rw [Traced.queue, List.getElem?_map, hu]
      rfl
    refine ⟨picks_of_queue l (hqueue k t ht) hk, fun j hj hearly => ?_⟩
    obtain ⟨hlt, -⟩ := List.getElem?_eq_some_iff.1 ht
    have hj' := hqueue j _ (List.getElem?_eq_getElem (hj.trans hlt))
    rw [picks_of_queue l hj' (hj.trans hk)] at hearly
    have hid := Option.some.inj (Option.some.inj hearly)
    obtain ⟨hjlt, hjget⟩ := List.getElem?_eq_some_iff.1 hj'
    obtain ⟨hklt, hkget⟩ := List.getElem?_eq_some_iff.1 (hqueue k t ht)
    have := h.nodup_queue.getElem_inj_iff.1 (hjget.trans (hid.trans hkget.symm))
    omega
  turns := by
    intro t hc halive rsp cr3 l between hpicks hfirst u hu
    rw [h.between_eq hc halive hpicks hfirst]
    refine List.count_eq_one_of_mem ?_ (List.mem_map_of_mem (List.mem_map_of_mem hu))
    exact h.nodup_queue.map (Option.some_injective ℕ)

/-! ## The tasks keep different ids -/

/-- At boot the main task is the only one. -/
theorem Distinct.start (main : Task) (rsp0 : ℕ) : Distinct (.start main rsp0) where
  nodup := List.nodup_singleton _
  added := by
    intro t ht
    exact List.mem_map_of_mem ht

/-- A task with a fresh id keeps the ids distinct. -/
theorem Distinct.addTask (h : Distinct s) (hfresh : t.id ∉ s.added.map (·.id)) :
    Distinct (s.step (.addTask t)) := by
  have hall : (s.step (.addTask t)).scheduler.all = s.scheduler.all ++ [t] :=
    (List.append_assoc _ _ _).symm
  have hadded : (s.step (.addTask t)).added.map (·.id) = s.added.map (·.id) ++ [t.id] :=
    List.map_append
  constructor
  · rw [hall, List.map_append]
    refine List.nodup_append.2 ⟨h.nodup, List.nodup_singleton _, fun a ha b hb hab => hfresh ?_⟩
    obtain ⟨u, hu, rfl⟩ := List.mem_map.1 ha
    have hid : u.id = t.id := hab.trans (List.mem_singleton.1 hb)
    exact hid ▸ h.added u hu
  · intro u hu
    rw [hall] at hu
    rw [hadded]
    rcases List.mem_append.1 hu with hu | hu
    · exact List.mem_append_left _ (h.added u hu)
    · exact List.mem_append_right _ (List.mem_singleton.1 hu ▸ List.mem_singleton.2 rfl)

/-- A step that keeps the ids, up to their order and to some that it drops. -/
theorem Distinct.of_subperm (h : Distinct s) {s' : Traced}
    (hids : (s'.scheduler.all.map (·.id)).Subperm (s.scheduler.all.map (·.id)))
    (hadded : s'.added = s.added) : Distinct s' where
  nodup := by
    obtain ⟨l, hperm, hsub⟩ := hids
    exact hperm.nodup_iff.1 (h.nodup.sublist hsub)
  added := by
    intro t ht
    obtain ⟨u, hu, hid⟩ := List.mem_map.1 (hids.subset (List.mem_map_of_mem ht))
    rw [hadded, ← hid]
    exact h.added u hu

/-- An exit keeps the ids distinct. -/
theorem Distinct.exit (h : Distinct s) : Distinct (s.step .exit) := by
  refine h.of_subperm ?_ rfl
  rw [ids_exit]

/-- A timer interrupt keeps the ids distinct. -/
theorem Distinct.tick (h : Distinct s) (rsp cr3 : ℕ) : Distinct (s.step (.tick rsp cr3)) := by
  refine h.of_subperm ?_ rfl
  have hrequeued : (s.requeued rsp).Subperm (s.scheduler.all.map (·.id)) := by
    rw [Scheduler.all, List.map_append]
    cases hc : s.scheduler.currentTask with
    | none =>
      rw [Traced.requeued, Scheduler.requeue, hc]
      exact List.Subperm.refl _
    | some t =>
      by_cases hdead : t.state = .dead
      · rw [Traced.requeued, Scheduler.requeue, hc]
        simp only [if_pos hdead]
        exact (List.sublist_append_right _ _).subperm
      · rw [requeued_of_alive hc hdead]
        exact List.perm_append_comm.subperm
  refine List.Subperm.trans ?_ hrequeued
  have hnext : (s.step (.tick rsp cr3)).scheduler = (s.scheduler.pickNext rsp cr3).2 := rfl
  rw [hnext, Traced.requeued, Scheduler.pickNext]
  cases s.scheduler.requeue rsp with
  | nil => exact List.Subperm.refl _
  | cons u tasks => exact List.Subperm.refl _

/-- Every step keeps the ids distinct. -/
theorem Distinct.step (h : Distinct s) {a : SchedAction} (ha : s.Fresh a) :
    Distinct (s.step a) := by
  cases a with
  | addTask t => exact h.addTask ha
  | tick rsp cr3 => exact h.tick rsp cr3
  | exit => exact h.exit

end

/-- From every state of every run the tasks take turns. -/
theorem round_robin (main : Task) (rsp0 : ℕ) (l : List SchedAction)
    (h : Run.Guarded Traced.step Traced.Fresh (.start main rsp0) l) :
    RoundRobin (.after main rsp0 l) := by
  have hdistinct : Distinct (.after main rsp0 l) :=
    Run.invariant (fun _ _ hs ha => hs.step ha) (.start main rsp0) h
  exact hdistinct.roundRobin

/-- The main task and a user task that was just resumed. -/
theorem round_robin_two : RoundRobin (.after (.mainTask 1 0x1000) 0
    [.addTask (.new 2 0x9000 0x400000 0x508000 0x2000 true), .tick 0x7000 0x1000]) :=
  round_robin (.mainTask 1 0x1000) 0
    [.addTask (.new 2 0x9000 0x400000 0x508000 0x2000 true), .tick 0x7000 0x1000] (by decide)

end RossOs
