import RossOs.Paging.Frames
import RossOs.Task.Heap

/-!
# All tasks at once

The system takes steps: a process is spawned, the current task grows its heap or exits, the timer
switches tasks. `SystemInv` is the invariant over all address spaces at once, each with frames of
its own, and `frames_not_shared` what it means for the tables in memory: no frame is behind two
4 KB pages, and none is both a page and a table. The static tables of the kernel, which all address
spaces share, are never frames of the allocator here.
-/

namespace RossOs

open ByteMem Paging Elf

variable {σ : Type} [PageAllocator σ]

/-! ## Steps of the system -/

/-- The user tasks of the scheduler, the current one first. -/
def Scheduler.users (s : Scheduler) : List Task := s.all.filter (·.isUser)

/-- One step of the system, whether the call returns or stops with an error. Every page address to
be mapped is a user address. -/
inductive SystemStep (K : KernelTables) : Kernel σ → Kernel σ → Prop
  | spawn {k : Kernel σ} (file : Option (List UInt8)) (top : ℕ) :
    (∀ data, file = some data → ∀ p ∈ segPages (programHeaders data), UserPage p) →
    SystemStep K k (Exec.Outcome.state (spawnProcess K file top k))
  | call {k : Kernel σ} {t : Task} (c : HeapCall) :
    k.scheduler.currentTask = some t → t.isUser = true → (∀ p ∈ c.pages t, UserPage p) →
    SystemStep K k (Exec.Outcome.state (c.run k))
  | exit {k : Kernel σ} : SystemStep K k (Exec.Outcome.state (sysExit k))
  | tick {k : Kernel σ} (rsp cr3 : ℕ) : SystemStep K k (Exec.Outcome.state (tick rsp cr3 k))

/-- The kernel before its first user task: the static tables are as `paging::init` leaves them, and
they are in use, so that the allocator does not hand them out. -/
structure SystemStart (K : KernelTables) (k : Kernel σ) : Prop where
  words : KernelWords K k.machine.mem
  live : ∀ f ∈ K.frames, f ∉ PageAllocator.free k.machine.pages
  users : k.scheduler.users = []

/-- No frame is behind two 4 KB leaf entries, in one task or in two, and no table of a task and no
static table is behind one. -/
structure FramesApart (K : KernelTables) (k : Kernel σ) : Prop where
  pages : ∀ {i j : ℕ} {t u : Task} {va wa : ℕ} {l l' : Leaf},
    k.scheduler.users[i]? = some t → k.scheduler.users[j]? = some u →
    walk k.machine.mem t.cr3 va = some l → l.level = 0 →
    walk k.machine.mem u.cr3 wa = some l' → l'.level = 0 →
    l.phys / 4096 = l'.phys / 4096 → i = j ∧ pagePath va = pagePath wa
  tables : ∀ {t u : Task} {va wa : ℕ} {l : Leaf}, t ∈ k.scheduler.users → u ∈ k.scheduler.users →
    walk k.machine.mem t.cr3 va = some l → l.level = 0 →
    l.phys / 4096 * 4096 ∉ tables k.machine.mem u.cr3 wa
  static : ∀ {t : Task} {va : ℕ} {l : Leaf}, t ∈ k.scheduler.users →
    walk k.machine.mem t.cr3 va = some l → l.level = 0 → l.phys / 4096 * 4096 ∉ K.frames

/-! ## The address spaces of a list of tasks -/

/-- The address spaces of the user tasks in a list: PML4 and `heap_end`. -/
def spacesOf (l : List Task) : List (ℕ × ℕ) := (l.filter (·.isUser)).map fun t => (t.cr3, t.heapEnd)

/-- The spaces of two lists of tasks are those of the one and the other. -/
theorem spacesOf_append (l l' : List Task) : spacesOf (l ++ l') = spacesOf l ++ spacesOf l' := by
  rw [spacesOf, List.filter_append, List.map_append]
  rfl

/-- What the scheduler writes into a task does not concern its address space. -/
theorem spacesOf_singleton_switch (t : Task) (rsp : ℕ) (state : TaskState) :
    spacesOf [{ t with rsp := rsp, state := state }] = spacesOf [t] := by
  cases t with
  | mk _ _ _ _ _ _ isUser _ => cases isUser <;> rfl

/-- The timer interrupt changes the order of the tasks and may drop one. -/
theorem spacesOf_tick (s : Scheduler) (rsp cr3 : ℕ) :
    (spacesOf (s.pickNext rsp cr3).2.all).Subperm (spacesOf s.all) := by
  have hqueue : (spacesOf (s.requeue rsp)).Subperm (spacesOf s.all) := by
    obtain ⟨tasks, current⟩ := s
    cases current with
    | none => exact List.Subperm.refl _
    | some t =>
      simp only [Scheduler.requeue, Scheduler.all, Option.toList_some, spacesOf_append]
      split
      · exact (List.sublist_append_right _ _).subperm
      · rw [spacesOf_append, spacesOf_singleton_switch]
        exact List.perm_append_comm.subperm
  rw [Scheduler.pickNext]
  split
  case h_1 => exact List.nil_subperm
  case h_2 t tasks heq =>
    rw [heq] at hqueue
    have hhead : spacesOf [{ t with state := .running }] = spacesOf [t] :=
      spacesOf_singleton_switch t t.rsp .running
    have hall : spacesOf ([{ t with state := .running }] ++ tasks) = spacesOf (t :: tasks) := by
      rw [spacesOf_append, hhead, ← spacesOf_append]
      rfl
    rw [show (⟨tasks, some { t with state := .running }⟩ : Scheduler).all =
      [{ t with state := .running }] ++ tasks from rfl, hall]
    exact hqueue

/-! ## The invariant -/

/-- Every user task has an address space in memory with frames of its own. `S` gives the address
space of a PML4. -/
structure SystemInv (K : KernelTables) (k : Kernel σ) (S : ℕ → Space) : Prop where
  words : KernelWords K k.machine.mem
  live : ∀ f ∈ K.frames, f ∉ PageAllocator.free k.machine.pages
  owned : ∀ a ∈ spacesOf k.scheduler.all, Owned (K.pdptHigh + 7) k.machine (S a.1)
  root : ∀ a ∈ spacesOf k.scheduler.all, (S a.1).table [] = some a.1
  aligned : ∀ a ∈ spacesOf k.scheduler.all, 4096 ∣ a.2
  static : ∀ a ∈ spacesOf k.scheduler.all, ∀ f ∈ K.frames, f ∉ (S a.1).owned
  apart : (spacesOf k.scheduler.all).Pairwise fun a b => Disjoint (S a.1).owned (S b.1).owned

section
variable {K : KernelTables} {k k' : Kernel σ} {S : ℕ → Space}

/-- The root of a space is one of its frames. -/
theorem Space.root_mem_owned {A : Space} {cr3 : ℕ} (h : A.table [] = some cr3) : cr3 ∈ A.owned :=
  .inl ⟨[], h⟩

/-- Steps that only take frames, for no task. -/
theorem SystemInv.onlyFresh (h : SystemInv K k S) (hfresh : OnlyFresh k.machine k'.machine)
    (hall : k'.scheduler.all = k.scheduler.all) : SystemInv K k' S := by
  refine ⟨hfresh.kernelWords h.words h.live, fun f hf hfree => h.live f hf (hfresh.free hfree), ?_,
    ?_, ?_, ?_, ?_⟩ <;> rw [hall]
  · intro a ha
    refine (h.owned a ha).of_sameOutside hfresh.mem (fun f hf => ?_) hfresh.free
    exact ⟨PageAllocator.aligned hf.1, fun hmem => ((h.owned a ha).mem_owned (.inl hmem)).2.2 hf.1⟩
  · exact h.root
  · exact h.aligned
  · exact h.static
  · exact h.apart

/-- The scheduler reorders the tasks or drops some. -/
theorem SystemInv.subperm (h : SystemInv K k S) (hmachine : k'.machine = k.machine)
    (hsub : (spacesOf k'.scheduler.all).Subperm (spacesOf k.scheduler.all)) :
    SystemInv K k' S := by
  have hmem : ∀ a ∈ spacesOf k'.scheduler.all, a ∈ spacesOf k.scheduler.all :=
    fun a ha => hsub.subset ha
  obtain ⟨l, hperm, hsublist⟩ := hsub
  refine ⟨hmachine ▸ h.words, hmachine ▸ h.live, fun a ha => hmachine ▸ h.owned a (hmem a ha),
    fun a ha => h.root a (hmem a ha), fun a ha => h.aligned a (hmem a ha),
    fun a ha => h.static a (hmem a ha), ?_⟩
  exact hperm.pairwise (h.apart.sublist hsublist) fun hab => hab.symm

/-- The address space of another task has another PML4. -/
theorem ne_of_disjoint {A B : Space} {a b : ℕ} (ha : A.table [] = some a) (hb : B.table [] = some b)
    (hdisj : Disjoint A.owned B.owned) : b ≠ a := by
  rintro rfl
  exact Set.disjoint_left.1 hdisj (Space.root_mem_owned ha) (Space.root_mem_owned hb)

/-- The current task changes its own address space. -/
theorem SystemInv.evolves {cr3 e e' n : ℕ} {rest : List (ℕ × ℕ)} {A' : Space} (h : SystemInv K k S)
    (hall : spacesOf k.scheduler.all = (cr3, e) :: rest)
    (hev : Evolves (K.pdptHigh + 7) n k.machine (S cr3) k'.machine A')
    (hall' : spacesOf k'.scheduler.all = (cr3, e') :: rest) (he' : 4096 ∣ e') :
    SystemInv K k' (Function.update S cr3 A') := by
  have hhead : (cr3, e) ∈ spacesOf k.scheduler.all := hall ▸ List.mem_cons_self
  have hrest : ∀ {b}, b ∈ rest → b ∈ spacesOf k.scheduler.all :=
    fun hb => hall ▸ List.mem_cons_of_mem _ hb
  have hown := h.owned _ hhead
  have hapart := h.apart
  rw [hall] at hapart
  obtain ⟨hfirst, hlater⟩ := List.pairwise_cons.1 hapart
  -- the other tasks keep their address spaces
  have hne : ∀ {b}, b ∈ rest → b.1 ≠ cr3 := fun {b} hb =>
    ne_of_disjoint (h.root _ hhead) (h.root _ (hrest hb)) (hfirst b hb)
  have hkeep : ∀ {b}, b ∈ rest → Function.update S cr3 A' b.1 = S b.1 :=
    fun hb => Function.update_of_ne (hne hb) _ _
  have hself : Function.update S cr3 A' cr3 = A' := Function.update_self _ _ _
  have hstatic : ∀ f ∈ K.frames, f ∉ (S cr3).owned ∪
      (PageAllocator.free k.machine.pages \ PageAllocator.free k'.machine.pages) := by
    rintro f hf (hin | hin)
    · exact h.static _ hhead f hf hin
    · exact h.live f hf hin.1
  refine ⟨h.words.of_sameOutside hev.mem fun f hf => ⟨?_, fun hK => hstatic f hK hf⟩,
    fun f hf hfree => h.live f hf (hev.free hfree), ?_, ?_, ?_, ?_, ?_⟩
  · rcases hf with hf | hf
    · exact (hown.mem_owned hf).1
    · exact PageAllocator.aligned hf.1
  all_goals rw [hall']
  · refine List.forall_mem_cons.2 ⟨?_, fun b hb => ?_⟩
    · rw [hself]
      exact hev.owned
    · rw [hkeep hb]
      exact (hev.other (h.owned b (hrest hb)) hown (hfirst b hb)).1
  · refine List.forall_mem_cons.2 ⟨?_, fun b hb => ?_⟩
    · rw [hself]
      exact hev.root.trans (h.root _ hhead)
    · rw [hkeep hb]
      exact h.root b (hrest hb)
  · exact List.forall_mem_cons.2 ⟨he', fun b hb => h.aligned b (hrest hb)⟩
  · refine List.forall_mem_cons.2 ⟨fun f hf hin => ?_, fun b hb => ?_⟩
    · rw [hself] at hin
      exact hstatic f hf (hev.grow hin)
    · rw [hkeep hb]
      exact h.static b (hrest hb)
  · refine List.pairwise_cons.2 ⟨fun b hb => ?_, hlater.imp_of_mem fun {b c} hb hc hbc => ?_⟩
    · rw [hself, hkeep hb]
      exact (hev.other (h.owned b (hrest hb)) hown (hfirst b hb)).2
    · rw [hkeep hb, hkeep hc]
      exact hbc

/-- A new task with an address space of frames just taken. -/
theorem SystemInv.add {cr3 e : ℕ} {A : Space} (h : SystemInv K k S)
    (hfresh : OnlyFresh k.machine k'.machine) (hA : Owned (K.pdptHigh + 7) k'.machine A)
    (hroot : A.table [] = some cr3) (he : 4096 ∣ e)
    (hown : A.owned ⊆ PageAllocator.free k.machine.pages \ PageAllocator.free k'.machine.pages)
    (hall : spacesOf k'.scheduler.all = spacesOf k.scheduler.all ++ [(cr3, e)]) :
    SystemInv K k' (Function.update S cr3 A) := by
  -- the tasks there are keep their address spaces
  have hold : SystemInv K { k with machine := k'.machine } S := h.onlyFresh hfresh rfl
  have hdisj : ∀ b ∈ spacesOf k.scheduler.all, Disjoint (S b.1).owned A.owned := fun b hb =>
    Set.disjoint_left.2 fun f hf hfA => ((h.owned b hb).mem_owned hf).2.2 (hown hfA).1
  have hkeep : ∀ {b}, b ∈ spacesOf k.scheduler.all → Function.update S cr3 A b.1 = S b.1 :=
    fun {b} hb => Function.update_of_ne
      (ne_of_disjoint hroot (h.root b hb) (hdisj b hb).symm) _ _
  have hself : Function.update S cr3 A cr3 = A := Function.update_self _ _ _
  refine ⟨hold.words, hold.live, ?_, ?_, ?_, ?_, ?_⟩ <;> rw [hall]
  · refine List.forall_mem_append.2 ⟨fun b hb => ?_, List.forall_mem_singleton.2 ?_⟩
    · rw [hkeep hb]
      exact hold.owned b hb
    · rw [hself]
      exact hA
  · refine List.forall_mem_append.2 ⟨fun b hb => ?_, List.forall_mem_singleton.2 ?_⟩
    · rw [hkeep hb]
      exact h.root b hb
    · rw [hself]
      exact hroot
  · exact List.forall_mem_append.2 ⟨h.aligned, List.forall_mem_singleton.2 he⟩
  · refine List.forall_mem_append.2 ⟨fun b hb => ?_, List.forall_mem_singleton.2 fun f hf hin => ?_⟩
    · rw [hkeep hb]
      exact h.static b hb
    · rw [hself] at hin
      exact h.live f hf (hown hin).1
  · refine List.pairwise_append.2 ⟨h.apart.imp_of_mem fun {b c} hb hc hbc => ?_,
      List.pairwise_singleton _ _, fun b hb c hc => ?_⟩
    · rw [hkeep hb, hkeep hc]
      exact hbc
    · rw [List.mem_singleton.1 hc, hkeep hb, hself]
      exact hdisj b hb

/-- `spawn_process`, whether it returns or not. -/
theorem SystemInv.spawn (h : SystemInv K k S) {file : Option (List UInt8)} {top : ℕ}
    (hpages : ∀ data, file = some data → ∀ p ∈ segPages (programHeaders data), UserPage p) :
    ∃ S', SystemInv K (Exec.Outcome.state (spawnProcess K file top k)) S' := by
  cases file with
  | none => exact ⟨S, h⟩
  | some data =>
    have hspec := loadProcess_spec K k.machine (hpages data rfl)
    rcases spawnProcess_run K data top k with ⟨cr3, heapEnd, s', hload, hok⟩ | ⟨e, s', hload, herr⟩
    · obtain ⟨-, A, hA⟩ := hspec.of_ok hload
      simp only at hA
      rw [h.words.shared h.live (hA.own (Space.root_mem_owned hA.root)).1] at hA
      rw [hok]
      refine ⟨_, h.add hA.fresh hA.owned hA.root (e := heapEnd) ?_ hA.own ?_⟩
      · rw [hA.heapEnd_eq]
        exact dvd_segEnd (Nat.dvd_zero _) hA.nowrap
      · show spacesOf (k.scheduler.addTask (newTask k data top cr3 heapEnd)).all = _
        rw [Scheduler.all, Scheduler.addTask, ← List.append_assoc, spacesOf_append]
        rfl
    · rw [herr]
      exact ⟨S, h.onlyFresh (hspec.of_error hload).1 rfl⟩

/-- The address spaces when the current task is a user task. -/
theorem spacesOf_current {s : Scheduler} {t : Task} (hcur : s.currentTask = some t)
    (huser : t.isUser = true) : spacesOf s.all = (t.cr3, t.heapEnd) :: spacesOf s.tasks := by
  rw [Scheduler.all, hcur, Option.toList_some, spacesOf_append]
  simp [spacesOf, huser]

/-- A heap call, whether it returns or not. -/
theorem SystemInv.call (h : SystemInv K k S) {c : HeapCall} {t : Task}
    (hcur : k.scheduler.currentTask = some t) (huser : t.isUser = true)
    (hpages : ∀ p ∈ c.pages t, UserPage p) :
    ∃ S', SystemInv K (Exec.Outcome.state (c.run k)) S' := by
  have hall := spacesOf_current hcur huser
  have hhead : (t.cr3, t.heapEnd) ∈ spacesOf k.scheduler.all := hall ▸ List.mem_cons_self
  have halign := h.aligned _ hhead
  have hspec := HeapCall.run_spec (h.owned _ hhead) (h.root _ hhead) hcur halign hpages
  cases hrun : c.run k with
  | ok v k' =>
    obtain ⟨j, A', heff⟩ := hspec.of_ok hrun
    have hall' : spacesOf k'.scheduler.all =
        (t.cr3, t.heapEnd + 4096 * j) :: spacesOf k.scheduler.tasks := by
      rw [heff.scheduler]
      exact spacesOf_current (t := { t with heapEnd := t.heapEnd + 4096 * j }) rfl huser
    obtain ⟨n, hev⟩ : ∃ n, Evolves (K.pdptHigh + 7) n k.machine (S t.cr3) k'.machine A' := by
      rcases heff.machine with ⟨n, hmap⟩ | ⟨-, -, -, hev⟩
      · exact ⟨n, hmap.evolves⟩
      · exact hev
    exact ⟨_, h.evolves hall hev hall' (Nat.dvd_add halign ⟨j, rfl⟩)⟩
  | error e k' =>
    obtain ⟨hsched, -, n, A', hev⟩ := hspec.of_error hrun
    exact ⟨_, h.evolves hall hev (hsched ▸ hall) halign⟩

/-- Every step keeps the invariant. -/
theorem SystemInv.step (h : SystemInv K k S) (hstep : SystemStep K k k') :
    ∃ S', SystemInv K k' S' := by
  cases hstep with
  | spawn file top hpages => exact h.spawn hpages
  | call c hcur huser hpages => exact h.call hcur huser hpages
  | exit =>
    refine ⟨S, h.subperm rfl ?_⟩
    obtain ⟨machine, ⟨tasks, current⟩, nextId⟩ := k
    cases current with
    | none => exact List.Subperm.refl _
    | some t =>
      show (spacesOf ([{ t with state := .dead }] ++ tasks)).Subperm (spacesOf ([t] ++ tasks))
      rw [spacesOf_append, spacesOf_append, spacesOf_singleton_switch t t.rsp .dead]
  | tick rsp cr3 => exact ⟨S, h.subperm rfl (spacesOf_tick _ rsp cr3)⟩

/-- The invariant holds at boot. -/
theorem SystemStart.inv (h : SystemStart K k) :
    SystemInv K k fun _ => ⟨fun _ => none, fun _ => 0⟩ := by
  have hnone : spacesOf k.scheduler.all = [] := by
    rw [spacesOf, show k.scheduler.all.filter (·.isUser) = [] from h.users, List.map_nil]
  refine ⟨h.words, h.live, ?_, ?_, ?_, ?_, ?_⟩ <;> rw [hnone]
  · exact fun a ha => absurd ha List.not_mem_nil
  · exact fun a ha => absurd ha List.not_mem_nil
  · exact fun a ha => absurd ha List.not_mem_nil
  · exact fun a ha => absurd ha List.not_mem_nil
  · exact List.Pairwise.nil

/-- The invariant in every state that the system reaches. -/
theorem SystemStart.inv_of_run {k₀ : Kernel σ} (hstart : SystemStart K k₀)
    (hrun : Relation.ReflTransGen (SystemStep K) k₀ k) : ∃ S, SystemInv K k S := by
  induction hrun with
  | refl => exact ⟨_, hstart.inv⟩
  | tail _ hstep ih =>
    obtain ⟨S, hS⟩ := ih
    exact hS.step hstep

/-! ## What it means for the tables -/

/-- The frame at the end of a walk that ends in a 4 KB page is one of the task's pages. -/
theorem SystemInv.walk_target (h : SystemInv K k S) {t : Task} {va : ℕ} {l : Leaf}
    (ht : t ∈ k.scheduler.users) (hwalk : walk k.machine.mem t.cr3 va = some l) (hl : l.level = 0) :
    l.phys / 4096 * 4096 ∈ (S t.cr3).targets := by
  have ha : (t.cr3, t.heapEnd) ∈ spacesOf k.scheduler.all := List.mem_map_of_mem ht
  obtain ⟨hleaf, hphys⟩ := (h.owned _ ha).walk_leaf h.words (h.root _ ha) hwalk hl
  exact ⟨_, hleaf, hphys.symm⟩

/-- Address spaces at different places of the scheduler have no frame in common. -/
theorem SystemInv.disjoint (h : SystemInv K k S) {i j : ℕ} {t u : Task}
    (hi : k.scheduler.users[i]? = some t) (hj : k.scheduler.users[j]? = some u) (hij : i ≠ j) :
    Disjoint (S t.cr3).owned (S u.cr3).owned := by
  have hspaces : ∀ {i : ℕ} {t : Task}, k.scheduler.users[i]? = some t →
      (spacesOf k.scheduler.all)[i]? = some (t.cr3, t.heapEnd) := by
    intro i t hi
    rw [spacesOf, List.getElem?_map, show (k.scheduler.all.filter (·.isUser))[i]? = some t from hi]
    rfl
  obtain ⟨hi', hti⟩ := List.getElem?_eq_some_iff.1 (hspaces hi)
  obtain ⟨hj', huj⟩ := List.getElem?_eq_some_iff.1 (hspaces hj)
  have hall := List.pairwise_iff_getElem.1 h.apart
  rcases Nat.lt_or_gt_of_ne hij with hlt | hlt
  · have := hall i j hi' hj' hlt
    rwa [hti, huj] at this
  · have := hall j i hj' hi' hlt
    rw [hti, huj] at this
    exact this.symm

/-- The invariant keeps the frames of two tasks apart. -/
theorem SystemInv.framesApart (h : SystemInv K k S) : FramesApart K k where
  pages {i j t u va wa l l'} hi hj hwalk hl hwalk' hl' hphys := by
    have htarget := h.walk_target (List.mem_of_getElem? hi) hwalk hl
    have htarget' := h.walk_target (List.mem_of_getElem? hj) hwalk' hl'
    obtain rfl : i = j := by
      by_contra hij
      refine Set.disjoint_left.1 (h.disjoint hi hj hij) (.inr htarget) (.inr ?_)
      rwa [hphys]
    obtain rfl : t = u := Option.some.inj (hi.symm.trans hj)
    have ha : (t.cr3, t.heapEnd) ∈ spacesOf k.scheduler.all :=
      List.mem_map_of_mem (List.mem_of_getElem? hi)
    obtain ⟨hleaf, hframe⟩ := (h.owned _ ha).walk_leaf h.words (h.root _ ha) hwalk hl
    obtain ⟨hleaf', hframe'⟩ := (h.owned _ ha).walk_leaf h.words (h.root _ ha) hwalk' hl'
    exact ⟨rfl, (h.owned _ ha).pageInj hleaf hleaf' (by rw [← hframe, ← hframe', hphys])⟩
  tables {t u va wa l} ht hu hwalk hl hmem := by
    have htarget := h.walk_target ht hwalk hl
    have ha : (t.cr3, t.heapEnd) ∈ spacesOf k.scheduler.all := List.mem_map_of_mem ht
    have hb : (u.cr3, u.heapEnd) ∈ spacesOf k.scheduler.all := List.mem_map_of_mem hu
    rcases (h.owned _ hb).tables_subset h.words (h.root _ hb) _ hmem with hin | hin
    · obtain ⟨i, hi⟩ := List.mem_iff_getElem?.1 ht
      obtain ⟨j, hj⟩ := List.mem_iff_getElem?.1 hu
      rcases eq_or_ne i j with rfl | hij
      · obtain rfl : t = u := Option.some.inj (hi.symm.trans hj)
        exact ((h.owned _ ha).target htarget).2.2.2 hin
      · exact Set.disjoint_left.1 (h.disjoint hi hj hij) (.inr htarget) (.inl hin)
    · exact h.static _ ha _ hin (.inr htarget)
  static {t va l} ht hwalk hl hin :=
    h.static _ (List.mem_map_of_mem ht) _ hin (.inr (h.walk_target ht hwalk hl))

/-- **No frame is shared.** In every state that the system reaches from its start, no frame is
behind two 4 KB pages, in one task or in two, and no frame is behind a page and used as a table. -/
theorem frames_not_shared {k₀ : Kernel σ} (hstart : SystemStart K k₀)
    (hrun : Relation.ReflTransGen (SystemStep K) k₀ k) : FramesApart K k := by
  obtain ⟨S, hS⟩ := hstart.inv_of_run hrun
  exact hS.framesApart

/-- Two processes of the small executable after boot: their frames are apart. -/
theorem frames_not_shared_boot : ∃ k : Kernel PmmState,
    Relation.ReflTransGen (SystemStep bootTables) bootKernel k ∧ k.scheduler.users.length = 2 ∧
      FramesApart bootTables k := by
  have hstart : SystemStart bootTables bootKernel := ⟨kernelWords_boot, bootTables_not_free, rfl⟩
  have hpages : ∀ data, some (tinyElf 0x400010) = some data →
      ∀ p ∈ segPages (programHeaders data), UserPage p := by
    rintro _ ⟨⟩
    exact loadableElf_tinyElf.userPage
  have hboot : PageAllocator.avail bootKernel.machine.pages = 256 := avail_bootPages
  obtain ⟨k₁, hrun₁⟩ := loadableElf_tinyElf.spawnProcess_ok (k := bootKernel) (K := bootTables)
    0x8000 (by rw [phoff_tinyElf]) (by rw [loadFrames_tinyElf, hboot]; decide)
  obtain ⟨hav, hsched₁⟩ : 214 ≤ PageAllocator.avail k₁.machine.pages ∧
      k₁.scheduler.users.length = 1 := by
    rcases spawnProcess_run bootTables (tinyElf 0x400010) 0x8000 bootKernel with
      ⟨cr3, heapEnd, s', hload, hok⟩ | ⟨e, s', -, herr⟩
    case inr => rw [herr] at hrun₁; cases hrun₁
    rw [hok] at hrun₁
    cases hrun₁
    obtain ⟨-, A, hA⟩ := (loadProcess_spec bootTables bootKernel.machine
      loadableElf_tinyElf.userPage).of_ok hload
    have havail := hA.avail
    rw [hboot, loadFrames_tinyElf] at havail
    exact ⟨by show 214 ≤ PageAllocator.avail s'.pages; omega, rfl⟩
  obtain ⟨k₂, hrun₂⟩ := loadableElf_tinyElf.spawnProcess_ok (k := k₁) (K := bootTables) 0xC000
    (by rw [phoff_tinyElf]) (by rw [loadFrames_tinyElf]; omega)
  have hsteps : Relation.ReflTransGen (SystemStep bootTables) bootKernel k₂ := by
    have h₁ := SystemStep.spawn (K := bootTables) (k := bootKernel) _ 0x8000 hpages
    have h₂ := SystemStep.spawn (K := bootTables) (k := k₁) _ 0xC000 hpages
    rw [hrun₁] at h₁
    rw [hrun₂] at h₂
    exact (Relation.ReflTransGen.single h₁).tail h₂
  refine ⟨k₂, hsteps, ?_, frames_not_shared hstart hsteps⟩
  rcases spawnProcess_run bootTables (tinyElf 0x400010) 0xC000 k₁ with
    ⟨cr3, heapEnd, s', -, hok⟩ | ⟨e, s', -, herr⟩
  case inr => rw [herr] at hrun₂; cases hrun₂
  rw [hok] at hrun₂
  cases hrun₂
  show ((k₁.scheduler.currentTask.toList ++ (k₁.scheduler.tasks ++ [_])).filter _).length = 2
  rw [← List.append_assoc, List.filter_append, List.length_append]
  exact congrArg (· + 1) hsched₁

end

end RossOs
