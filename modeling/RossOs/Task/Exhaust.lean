import RossOs.Task.Fate
import RossOs.Task.Steady

/-!
# Memory running out

Whether `spawn_process`, `sys_brk` and `sys_mmap` reach an `expect` for want of a frame.
`noExpect_iff` has the two sides of it: with a frame for every page and three tables for each no
call does, whatever the memory holds; and where the addresses are the task's own, a call does
exactly when the request that finds no frame is one for a page table.
-/

namespace RossOs

open ByteMem Paging Elf Exec

section
variable {ε ε' σ α β : Type} [PageAllocator σ]

/-! ## Runs that take a bounded number of frames -/

/-- From `t` to `u` the run took `n` frames at most and met no `expect`. -/
def Took (n : ℕ) (t u : Machine σ × List Event) : Prop :=
  .expect ∉ u.2 ∧ PageAllocator.avail t.1.pages ≤ PageAllocator.avail u.1.pages + n

/-- With `n` frames the run meets no `expect`, and it takes `n` at most. -/
def Takes (n : ℕ) (y : Exec ε (Machine σ × List Event) α) : Prop :=
  ∀ t, n ≤ PageAllocator.avail t.1.pages → .expect ∉ t.2 →
    Sat (y t) (fun _ u => Took n t u) fun _ u => Took n t u

namespace Takes

variable {n k : ℕ} {y : Exec ε (Machine σ × List Event) α}

/-- More frames are enough. -/
theorem mono (h : Takes n y) (hnk : n ≤ k) : Takes k y := fun t ht hlog =>
  (h t (hnk.trans ht) hlog).mono (fun _ _ hu => ⟨hu.1, by have := hu.2; omega⟩)
    fun _ _ hu => ⟨hu.1, by have := hu.2; omega⟩

/-- A value needs no frame. -/
theorem pure (a : α) : Takes 0 (Pure.pure a : Exec ε (Machine σ × List Event) α) :=
  fun _ _ hlog => sat_ok.2 ⟨hlog, le_rfl⟩

/-- An error needs no frame. -/
theorem throw (e : Fault ε) : Takes 0 (MonadExcept.throw e : Exec ε (Machine σ × List Event) α) :=
  fun _ _ hlog => sat_error.2 ⟨hlog, le_rfl⟩

/-- The frames of two runs in sequence add up. -/
theorem bind {g : α → Exec ε (Machine σ × List Event) β} (h : Takes n y)
    (hg : ∀ a, Takes k (g a)) : Takes (n + k) (y >>= g) := by
  intro t ht hlog
  refine Sat.bind ((h t (by omega) hlog).mono ?_ ?_)
  · intro a u hu
    have hleft := hu.2
    have hrest : ∀ v, Took k u v → Took (n + k) t v := fun v hv =>
      ⟨hv.1, by have := hv.2; omega⟩
    exact (hg a u (by omega) hu.1).mono (fun _ v => hrest v) fun _ v => hrest v
  · intro e u hu
    exact ⟨hu.1, by have := hu.2; omega⟩

/-- A branch, each side under its own condition. -/
theorem ite {p : Prop} [Decidable p] {y' : Exec ε (Machine σ × List Event) α} (h : p → Takes n y)
    (h' : ¬ p → Takes n y') : Takes n (if p then y else y') := by
  split
  case isTrue hp => exact h hp
  case isFalse hp => exact h' hp

/-- A note needs no frame. -/
theorem noted {w : Event} (hw : w ≠ .expect) (h : Takes n y) : Takes n (note w >>= fun _ => y) := by
  intro t ht hlog
  refine h (t.1, t.2 ++ [w]) ht fun hmem => ?_
  rcases List.mem_append.1 hmem with hmem | hmem
  · exact hlog hmem
  · exact hw (List.mem_singleton.1 hmem).symm

/-- A run that leaves the allocator alone needs no frame. -/
theorem quiet {x : Exec ε (Machine σ) α} (h : Along SamePages x) : Takes 0 (quiet x) := by
  intro t _ hlog
  have hsame : ∀ s', SamePages t.1 s' → Took 0 t (s', t.2) := by
    intro s' hs
    exact ⟨hlog, by rw [show s'.pages = t.1.pages from hs]; exact le_rfl⟩
  exact quiet_sat ((h.sat t.1).mono (fun _ s' hs => hsame s' hs) fun _ s' hs => hsame s' hs)

/-- A run that leaves the allocator alone, before one that does not. -/
theorem quiet_bind {x : Exec ε (Machine σ) α} {g : α → Exec ε (Machine σ × List Event) β}
    (h : Along SamePages x) (hg : ∀ a, Takes n (g a)) : Takes n (Exec.quiet x >>= g) := by
  rw [← Nat.zero_add n]
  exact (quiet h).bind hg

/-- An allocation needs one frame. -/
theorem alloc : Takes 1 (Exec.quiet allocPage : Exec ε (Machine σ × List Event) (Option ℕ)) := by
  intro t ht hlog
  refine quiet_sat ?_
  cases ha : PageAllocator.allocPage t.1.pages with
  | none =>
    have := PageAllocator.avail_none ha
    omega
  | some p =>
    rw [allocPage_some ha]
    exact sat_ok.2 ⟨hlog, (PageAllocator.avail_some ha).le⟩

/-- A loop needs the frames of a turn for every turn. -/
theorem forM {g : β → Exec ε (Machine σ × List Event) PUnit} (l : List β)
    (h : ∀ b, Takes n (g b)) : Takes (n * l.length) (l.forM g) := by
  induction l with
  | nil => exact fun _ _ hlog => sat_ok.2 ⟨hlog, le_rfl⟩
  | cons b l ih =>
    rw [List.length_cons, Nat.mul_succ, Nat.add_comm]
    exact (h b).bind fun _ => ih

/-- A run whose errors are caught needs the frames it needed before. -/
theorem attempt (h : Takes n y) :
    Takes n (Exec.attempt y : Exec ε' (Machine σ × List Event) (Except ε α)) := by
  intro t ht hlog
  refine Sat.attempt ((h t ht hlog).mono (fun _ _ hu => hu) fun _ _ hu => ?_)
  exact ⟨fun _ _ => hu, fun _ => hu⟩

/-- With enough frames no `expect` fails. -/
theorem noExpect (h : Takes n y) {s : Machine σ} (hn : n ≤ PageAllocator.avail s.pages) :
    .expect ∉ (Outcome.state (y (s, []))).2 :=
  ((h (s, []) hn List.not_mem_nil).mono (fun _ _ hu => hu.1) fun _ _ hu => hu.1).state

end Takes

/-! ## The calls -/

/-- An allocation that must not fail needs one frame. -/
theorem takes_allocPageExpect :
    Takes 1 (Trace.allocPageExpect : Exec ε (Machine σ × List Event) ℕ) := by
  intro t ht hlog
  rw [Trace.allocPageExpect]
  cases ha : PageAllocator.allocPage t.1.pages with
  | none =>
    have := PageAllocator.avail_none ha
    omega
  | some p =>
    rw [Exec.bind_of_ok (quiet_of_ok (allocPage_some ha))]
    exact sat_ok.2 ⟨hlog, (PageAllocator.avail_some ha).le⟩

/-- A directory of the identity map needs one frame. -/
theorem takes_identityDirectory (pdpt i : ℕ) :
    Takes 1 (Trace.identityDirectory pdpt i : Exec ε (Machine σ × List Event) PUnit) :=
  takes_allocPageExpect.bind (k := 0) fun _ => .quiet_bind (samePages_physToVirt _)
    fun _ => .quiet_bind (samePages_zeroPage _) fun _ =>
    .quiet_bind (.forM _ fun _ => .ite (fun _ => .pure _) fun _ => samePages_setEntry _ _ _)
    fun _ => .quiet (samePages_setEntry _ _ _)

/-- A new address space needs six frames. -/
theorem takes_createUserAddressSpace (K : KernelTables) :
    Takes 6 (Trace.createUserAddressSpace K : Exec ε (Machine σ × List Event) ℕ) := by
  have hloop : ∀ pdpt, Takes 4 ((List.range 4).forM (Trace.identityDirectory pdpt) :
      Exec ε (Machine σ × List Event) PUnit) := fun pdpt =>
    .forM (n := 1) (List.range 4) (takes_identityDirectory pdpt)
  refine takes_allocPageExpect.bind (k := 5) fun _ => ?_
  refine .quiet_bind (samePages_physToVirt _) fun _ => ?_
  refine .quiet_bind (samePages_zeroPage _) fun _ => ?_
  refine .quiet_bind (samePages_getEntry _ _) fun _ => ?_
  refine .quiet_bind (samePages_setEntry _ _ _) fun _ => ?_
  refine takes_allocPageExpect.bind (k := 4) fun _ => ?_
  refine .quiet_bind (samePages_physToVirt _) fun _ => ?_
  refine .quiet_bind (samePages_zeroPage _) fun _ => ?_
  refine (hloop _).bind (k := 0) fun _ => ?_
  exact .quiet_bind (samePages_setEntry _ _ _) fun _ => .pure _

/-- A table needs one frame, if it is not there. -/
theorem takes_getOrCreate (t i : ℕ) :
    Takes 1 (Trace.getOrCreate t i : Exec ε (Machine σ × List Event) ℕ) := by
  refine .quiet_bind (samePages_getEntry _ _) fun e => ?_
  have hrest : Takes 0 (Exec.quiet (getEntry t i) >>= fun e => Exec.quiet (physToVirt (frameOf e)) :
      Exec ε (Machine σ × List Event) ℕ) :=
    .quiet_bind (samePages_getEntry _ _) fun _ => .quiet (samePages_physToVirt _)
  split
  · exact takes_allocPageExpect.bind (k := 0) fun _ =>
      .quiet_bind (samePages_physToVirt _) fun _ =>
      .quiet_bind (samePages_zeroPage _) fun _ =>
      .quiet_bind (samePages_setEntry _ _ _) fun _ => hrest
  · exact hrest.mono (Nat.zero_le 1)

/-- A page needs three tables at most. -/
theorem takes_mapUserPage (cr3 v paddr flags : ℕ) :
    Takes 3 (Trace.mapUserPage cr3 v paddr flags : Exec ε (Machine σ × List Event) PUnit) := by
  refine .noted (by simp) ?_
  refine .quiet_bind (samePages_physToVirt _) fun _ => ?_
  refine (takes_getOrCreate _ _).bind (k := 2) fun _ => ?_
  refine (takes_getOrCreate _ _).bind (k := 1) fun _ => ?_
  exact (takes_getOrCreate _ _).bind (k := 0) fun _ => .quiet (samePages_setEntry _ _ _)

/-- Anonymous pages need four frames each at most. -/
theorem takes_allocAnonFrom (cr3 base n i : ℕ) :
    Takes (4 * n) (Trace.allocAnonFrom cr3 base n i :
      Exec String (Machine σ × List Event) PUnit) := by
  induction n generalizing i with
  | zero => exact .pure _
  | succ n ih =>
    rw [Trace.allocAnonFrom, show 4 * (n + 1) = 1 + (3 + 4 * n) by omega]
    refine .ite (fun _ => ?_) fun _ => (Takes.throw _).mono (Nat.zero_le _)
    refine Takes.alloc.bind fun o => ?_
    cases o with
    | none => exact (Takes.throw _).mono (Nat.zero_le _)
    | some f =>
      refine .quiet_bind (samePages_physToVirt _) fun _ => ?_
      refine .quiet_bind (samePages_zeroPage _) fun _ => ?_
      exact (takes_mapUserPage _ _ _ _).bind fun _ => ih (i + 1)

/-- Pages of the heap need four frames each at most. -/
theorem takes_brkLoop (cr3 n addr : ℕ) :
    Takes (4 * n) (Trace.brkLoop cr3 n addr : Exec Empty (Machine σ × List Event) ℕ) := by
  induction n generalizing addr with
  | zero => exact .pure _
  | succ n ih =>
    rw [Trace.brkLoop, show 4 * (n + 1) = 1 + (3 + 4 * n) by omega]
    refine Takes.alloc.bind fun o => ?_
    cases o with
    | none => exact (Takes.pure _).mono (Nat.zero_le _)
    | some f =>
      refine .quiet_bind (samePages_physToVirt _) fun _ => ?_
      refine .quiet_bind (samePages_zeroPage _) fun _ => ?_
      refine (takes_mapUserPage _ _ _ _).bind fun _ => ?_
      exact .ite (fun _ => ih _) fun _ => (Takes.throw _).mono (Nat.zero_le _)

/-- A page of a segment needs four frames at most. -/
theorem takes_pageFrame (cr3 page flags : ℕ) :
    Takes 4 (Trace.pageFrame cr3 page flags : Exec Unit (Machine σ × List Event) ℕ) := by
  refine .quiet_bind (samePages_lookupPage _ _) fun o => ?_
  cases o with
  | some f => exact (Takes.quiet (samePages_physToVirt _)).mono (Nat.zero_le _)
  | none =>
    refine Takes.alloc.bind (k := 3) fun o => ?_
    cases o with
    | none => exact (Takes.throw _).mono (Nat.zero_le _)
    | some f =>
      refine .quiet_bind (samePages_physToVirt _) fun ptr => ?_
      exact (takes_mapUserPage _ _ _ _).bind (k := 0) fun _ =>
        .quiet_bind (samePages_zeroPage _) fun _ => .pure ptr

/-- Loading a page takes four frames at most: its bytes need no more. -/
theorem takes_loadPage (data : List UInt8) (cr3 : ℕ) (ph : ProgramHeader) (page : ℕ) :
    Takes 4 (Trace.loadPage data cr3 ph page : Exec Unit (Machine σ × List Event) PUnit) := by
  refine (takes_pageFrame _ _ _).bind (k := 0) fun ptr => ?_
  refine .ite (fun _ => .noted (by simp) (.ite (fun _ => ?_) fun _ => .throw _)) fun _ => .pure _
  exact .noted (by simp) (.quiet (samePages_copyFrom _ _ _ _))

/-- The pages of a segment need four frames each at most. -/
theorem takes_loadPages (data : List UInt8) (cr3 : ℕ) (ph : ProgramHeader) (n page : ℕ) :
    Takes (4 * n) (Trace.loadPages data cr3 ph n page :
      Exec Unit (Machine σ × List Event) PUnit) := by
  induction n generalizing page with
  | zero => exact .pure _
  | succ n ih =>
    rw [Nat.mul_succ, Nat.add_comm]
    exact (takes_loadPage _ _ _ _).bind fun _ => ih _

/-- The segments of a file need the frames of all their pages. -/
theorem takes_loadSegments (data : List UInt8) (cr3 n o heapEnd : ℕ) :
    Takes (segFrames (headersFrom data n o)) (Trace.loadSegments data cr3 n o heapEnd :
      Exec Unit (Machine σ × List Event) ℕ) := by
  induction n generalizing o heapEnd with
  | zero => exact .pure _
  | succ n ih =>
    refine .noted (by simp) (.ite (fun _ => ?_) fun _ => (Takes.throw _).mono (Nat.zero_le _))
    refine .bind ?_ fun heapEnd' => ih (o + 56) heapEnd'
    refine .ite (fun ht => ?_) fun ht => ?_
    · rw [if_pos ht]
      refine .noted (by simp) (.ite (fun _ => ?_) fun _ => (Takes.throw _).mono (Nat.zero_le _))
      exact (takes_loadPages _ _ _ _ _).bind (k := 0) fun _ => .pure _
    · rw [if_neg ht]
      exact .pure _

/-- The stack needs four frames for each of its pages at most. -/
theorem takes_mapStack (cr3 : ℕ) :
    Takes (4 * stackPages) (Trace.mapStack cr3 : Exec Unit (Machine σ × List Event) PUnit) := by
  have hloop : Takes (4 * (List.range stackPages).length)
      (Trace.mapStack cr3 : Exec Unit (Machine σ × List Event) PUnit) := by
    refine .forM _ fun i => Takes.alloc.bind (k := 3) fun o => ?_
    cases o with
    | none => exact (Takes.throw _).mono (Nat.zero_le _)
    | some f => exact takes_mapUserPage _ _ _ _
  rwa [List.length_range] at hloop

/-- The slice of the program headers needs no frame. -/
theorem takes_sliceHeaders (data : List UInt8) :
    Takes 0 (Trace.sliceHeaders data : Exec Unit (Machine σ × List Event) PUnit) := by
  refine .noted (by simp) (.noted (by simp) (.ite (fun _ => .throw _) fun _ => ?_))
  exact .ite (fun _ => .noted (by simp) (.pure _)) fun _ => .throw _

/-- `load_process` needs the frames counted for the file. -/
theorem takes_loadProcess (K : KernelTables) (data : List UInt8) :
    Takes (loadFrames data) (Trace.loadProcess K data :
      Exec Unit (Machine σ × List Event) (ℕ × ℕ)) := by
  refine .ite (fun _ => (Takes.throw _).mono (Nat.zero_le _)) fun _ => ?_
  refine .noted (by simp) (.ite (fun _ => (Takes.throw _).mono (Nat.zero_le _)) fun _ => ?_)
  refine .ite (fun _ => (Takes.throw _).mono (Nat.zero_le _)) fun _ => ?_
  rw [loadFrames, programHeaders_eq, Nat.add_assoc]
  refine (takes_createUserAddressSpace K).bind fun cr3 => ?_
  rw [← Nat.zero_add (_ + _)]
  refine (takes_sliceHeaders data).bind fun _ => ?_
  refine (takes_loadSegments _ _ _ _ _).bind fun heapEnd => ?_
  exact (takes_mapStack _).bind (k := 0) fun _ => .pure _

/-! ## Runs whose end is in the log -/

section
variable {data : List UInt8} {n : ℕ} {l : List Need} {r : Outcome ε (Machine σ × List Event) α}
  {Q : α → Machine σ → Prop}

/-- A run that ends as its needs say meets an `expect` when it is to. -/
theorem Meets.expect_iff (h : Meets data n l Q r) (hw : fate n l ≠ .wild) :
    .expect ∈ (Outcome.state r).2 ↔ fate n l = .dead := by
  cases r with
  | ok a t =>
    obtain ⟨hdone, -, hlog, -⟩ := (h hw).of_ok rfl
    rw [hdone]
    exact iff_of_false hlog.1 (by simp)
  | error e t =>
    have hstops := (h hw).of_error rfl
    revert hstops
    generalize fate n l = f
    intro hstops
    cases hstops with
    | refused _ hlog => exact iff_of_false hlog.1 (by simp)
    | dead _ hmem _ => exact iff_of_true hmem rfl
    | strays _ hmem _ => exact iff_of_false hmem (by simp)
    | halted _ hlog => exact iff_of_false hlog.1 (by simp)

/-- A run that ends as its needs say stays inside the file unless it is to leave it. -/
theorem Meets.inside_iff (h : Meets data n l Q r) (hw : fate n l ≠ .wild) :
    (∀ w ∈ (Outcome.state r).2, w.Inside data) ↔ fate n l ≠ .strays := by
  cases r with
  | ok a t =>
    obtain ⟨hdone, -, hlog, -⟩ := (h hw).of_ok rfl
    rw [hdone]
    exact iff_of_true hlog.2 (by simp)
  | error e t =>
    have hstops := (h hw).of_error rfl
    revert hstops
    generalize fate n l = f
    intro hstops
    cases hstops with
    | refused _ hlog => exact iff_of_true hlog.2 (by simp)
    | dead _ _ hin => exact iff_of_true hin (by simp)
    | strays _ _ hout =>
      refine iff_of_false (fun hin => ?_) (by simp)
      obtain ⟨w, hmem, hnot⟩ := hout
      exact hnot (hin w hmem)
    | halted _ hlog => exact iff_of_true hlog.2 (by simp)

end

/-- A call that takes memory. -/
inductive MemCall
  | spawn (K : KernelTables) (file : Option (List UInt8)) (top : ℕ)
  | brk (newBrk : ℕ)
  | mmap (len : ℕ)

namespace MemCall

/-- What the call notes. -/
def log : MemCall → Kernel σ → List Event
  | .spawn K file top, k => (Outcome.state (Trace.spawnProcess K file top (k, []))).2
  | .brk newBrk, k => (Outcome.state (Trace.sysBrk newBrk (k, []))).2
  | .mmap len, k => (Outcome.state (Trace.sysMmap len (k, []))).2

/-- The call reaches no `expect` for want of a frame. -/
def NoExpect (c : MemCall) (k : Kernel σ) : Prop := .expect ∉ c.log k

/-- The call reports that it is not done: `Err(())`, a break below the one asked for, `u64::MAX`. -/
def Reports : MemCall → Kernel σ → Prop
  | .spawn K file top, k => ∃ k', spawnProcess K file top k = .error (.err ()) k'
  | .brk newBrk, k => ∃ v k', sysBrk newBrk k = .ok v k' ∧ v < newBrk
  | .mmap len, k => ∃ k', sysMmap len k = .ok u64Max k'

/-- A frame for every page of the call, and three for its tables. -/
def frames (k : Kernel σ) : MemCall → ℕ
  | .spawn _ file _ => file.elim 0 loadFrames
  | .brk newBrk => k.scheduler.currentTask.elim 0 fun t => 4 * brkPages t.heapEnd newBrk
  | .mmap len => 4 * mmapPages len

/-- The needs of the call. -/
def needs (k : Kernel σ) : MemCall → List Need
  | .spawn _ file _ => file.elim [.refuse] spawnNeeds
  | .brk newBrk => k.scheduler.currentTask.elim [] fun t =>
    (pathAt k.machine.mem t.cr3).growNeeds (pagesFrom t.heapEnd (brkPages t.heapEnd newBrk))
  | .mmap len => k.scheduler.currentTask.elim [] fun t =>
    if len + 4095 < 2 ^ 64 then
      (pathAt k.machine.mem t.cr3).growNeeds (pagesFrom t.heapEnd (mmapPages len))
    else []

/-- How the call ends. -/
def fate (c : MemCall) (k : Kernel σ) : Fate :=
  RossOs.fate (PageAllocator.avail k.machine.pages) (c.needs k)

/-- The current task has its address space in memory, in frames of its own. -/
def InSpace : MemCall → Kernel σ → Prop
  | .spawn _ _ _, _ => True
  | .brk _, k | .mmap _, k => ∀ t, k.scheduler.currentTask = some t → t.heapEnd < 2 ^ 64 ∧
    ∃ e511 A, Owned e511 k.machine A ∧ A.table [] = some t.cr3

section
variable {data : List UInt8} {K : KernelTables} {top newBrk len : ℕ} {k : Kernel σ} {t : Task}

omit [PageAllocator σ] in
/-- The log of a call is that of its run on the machine. -/
theorem log_onMachine {y : Exec ε (Machine σ × List Event) α}
    {g : α → Exec ε (Kernel σ × List Event) β} (k : Kernel σ)
    (hg : ∀ a t, (Outcome.state (g a t)).2 = t.2) :
    (Outcome.state ((Trace.onMachine y >>= g) (k, []))).2 =
      (Outcome.state (y (k.machine, []))).2 := by
  cases hy : y (k.machine, []) with
  | ok a t =>
    rw [Exec.bind_of_ok (Trace.onMachine_ok hy)]
    exact hg _ _
  | error e t =>
    rw [Exec.bind_of_error (Trace.onMachine_error hy)]
    rfl

/-- `spawn_process` notes what the loader notes. -/
theorem log_spawn : (MemCall.spawn K (some data) top).log k =
    (Outcome.state (Trace.loadProcess K data (k.machine, []))).2 :=
  log_onMachine k fun _ _ => rfl

/-- `spawn_process` ends as the needs of its file say. -/
theorem fate_spawn (k : Kernel σ) : (MemCall.spawn K (some data) top).fate k =
    RossOs.fate (PageAllocator.avail k.machine.pages) (spawnNeeds data) := rfl

/-- `sys_brk` notes what the loop notes. -/
theorem log_brk (hcur : k.scheduler.currentTask = some t) : (MemCall.brk newBrk).log k =
    (Outcome.state (Trace.brkTask t newBrk (k.machine, []))).2 := by
  rw [log, Trace.sysBrk, Exec.bind_of_ok (quiet_of_ok (Exec.get_apply k)), hcur]
  exact log_onMachine k fun _ _ => rfl

/-- `sys_mmap` of some bytes notes what the loop notes. -/
theorem log_mmap (hcur : k.scheduler.currentTask = some t) (hlen : len ≠ 0) :
    (MemCall.mmap len).log k = (Outcome.state (Trace.mmapTask t len (k.machine, []))).2 := by
  rw [log, Trace.sysMmap, if_neg hlen, Exec.bind_of_ok (quiet_of_ok (Exec.get_apply k)), hcur]
  exact log_onMachine k fun _ _ => rfl

/-! ## With frames enough -/

/-- `sys_brk` needs four frames for each new page at most. -/
theorem takes_brkTask (t : Task) (newBrk : ℕ) : Takes (4 * brkPages t.heapEnd newBrk)
    (Trace.brkTask t newBrk : Exec Empty (Machine σ × List Event) ℕ) := by
  refine .ite (fun _ => (Takes.pure _).mono (Nat.zero_le _)) fun _ => ?_
  exact .ite (fun _ => takes_brkLoop _ _ _) fun _ => (Takes.pure _).mono (Nat.zero_le _)

/-- `sys_mmap` needs four frames for each page at most. -/
theorem takes_mmapTask (t : Task) (len : ℕ) : Takes (4 * mmapPages len)
    (Trace.mmapTask t len : Exec Empty (Machine σ × List Event) (ℕ × ℕ)) := by
  refine .ite (fun _ => ?_) fun _ => (Takes.throw _).mono (Nat.zero_le _)
  refine (takes_allocAnonFrom _ _ (mmapPages len) 0).attempt.bind (k := 0) fun r => ?_
  cases r with
  | ok _ => exact .ite (fun _ => .pure _) fun _ => .throw _
  | error _ => exact .pure _

/-- A frame for every page and three for its tables: no call reaches an `expect`. -/
theorem noExpect_of_frames (c : MemCall) (k : Kernel σ)
    (h : c.frames k ≤ PageAllocator.avail k.machine.pages) : c.NoExpect k := by
  cases c with
  | spawn K file top =>
    cases file with
    | none => exact List.not_mem_nil
    | some data =>
      rw [NoExpect, log_spawn]
      exact (takes_loadProcess K data).noExpect h
  | brk newBrk =>
    rcases hcur : k.scheduler.currentTask with _ | t
    · rw [NoExpect, log, Trace.sysBrk, Exec.bind_of_ok (quiet_of_ok (Exec.get_apply k)), hcur]
      exact List.not_mem_nil
    · rw [frames, hcur] at h
      rw [NoExpect, log_brk hcur]
      exact (takes_brkTask t newBrk).noExpect h
  | mmap len =>
    rcases eq_or_ne len 0 with rfl | hlen
    · exact List.not_mem_nil
    rcases hcur : k.scheduler.currentTask with _ | t
    · rw [NoExpect, log, Trace.sysMmap, if_neg hlen,
        Exec.bind_of_ok (quiet_of_ok (Exec.get_apply k)), hcur]
      exact List.not_mem_nil
    · rw [NoExpect, log_mmap hcur hlen]
      exact (takes_mmapTask t len).noExpect h

/-! ## In the task's own space -/

/-- A break that does not rise asks for no page. -/
theorem brkPages_eq_zero {heapEnd newBrk : ℕ} (h : newBrk ≤ heapEnd) :
    brkPages heapEnd newBrk = 0 := by
  rw [brkPages, Nat.sub_eq_zero_of_le h]

omit [PageAllocator σ] in
/-- A page of the loop of `sys_brk` starts below the new break. -/
theorem lt_of_lt_brkPages {heapEnd newBrk j : ℕ} (h : j < brkPages heapEnd newBrk) :
    heapEnd + 4096 * j < newBrk := by
  rw [brkPages] at h
  omega

/-- `sys_brk` is the loop over the pages that are asked for. -/
theorem brkTask_eq (t : Task) (newBrk : ℕ) :
    (Trace.brkTask t newBrk : Exec Empty (Machine σ × List Event) ℕ) =
      Trace.brkLoop t.cr3 (brkPages t.heapEnd newBrk) t.heapEnd := by
  have hstay : newBrk ≤ t.heapEnd →
      (pure t.heapEnd : Exec Empty (Machine σ × List Event) ℕ) =
        Trace.brkLoop t.cr3 (brkPages t.heapEnd newBrk) t.heapEnd := by
    intro hle
    rw [brkPages_eq_zero hle, Trace.brkLoop]
  rw [Trace.brkTask]
  split
  case isTrue hzero => exact hstay (by omega)
  case isFalse =>
    split
    · rfl
    · exact hstay (by omega)

/-- `sys_mmap` on a task: with the pages, with none of them reported, or stopped at an `expect`. -/
theorem mmapTask_fate {F : Footprint} {s : Machine σ} (hP : Placed t.cr3 F s)
    (hlt : t.heapEnd < 2 ^ 64) (hlen : len + 4095 < 2 ^ 64)
    (hw : RossOs.fate (PageAllocator.avail s.pages)
      (F.growNeeds (pagesFrom t.heapEnd (mmapPages len))) ≠ .wild) :
    Sat (Trace.mmapTask t len (s, []))
      (fun r u => .expect ∉ u.2 ∧
        (RossOs.fate (PageAllocator.avail s.pages)
            (F.growNeeds (pagesFrom t.heapEnd (mmapPages len))) = .done ∨
          RossOs.fate (PageAllocator.avail s.pages)
            (F.growNeeds (pagesFrom t.heapEnd (mmapPages len))) = .refused ∧ r.1 = u64Max))
      (fun _ u => RossOs.fate (PageAllocator.avail s.pages)
          (F.growNeeds (pagesFrom t.heapEnd (mmapPages len))) = .dead ∧ .expect ∈ u.2) := by
  have hanon := allocAnonFrom_meets t.heapEnd (mmapPages len) 0 hP (by omega) (calm_nil [])
  rw [Nat.zero_mul, Nat.add_zero, Nat.zero_add] at hanon
  have hstray := fate_growNeeds (PageAllocator.avail s.pages) F
    (pagesFrom t.heapEnd (mmapPages len))
  rw [Trace.mmapTask, if_pos hlen]
  refine Sat.bind (Sat.attempt ((hanon hw).mono ?_ ?_))
  · rintro _ u ⟨hdone, -, hlog, hend⟩
    refine Sat.ite (fun _ => sat_ok.2 ⟨hlog.1, .inl hdone⟩) fun hnot => ?_
    exact absurd hend hnot
  · intro e u hstops
    revert hstops hstray
    generalize RossOs.fate _ _ = f
    intro hstray hstops
    cases hstops with
    | refused he hlog =>
      exact ⟨fun _ _ => sat_ok.2 ⟨hlog.1, .inr ⟨rfl, rfl⟩⟩, fun hne => absurd he hne⟩
    | dead he hmem _ =>
      subst he
      exact ⟨fun _ h => (not_isErr_panic ⟨_, h⟩).elim, fun _ => ⟨rfl, hmem⟩⟩
    | strays => exact absurd rfl hstray.1
    | halted => exact absurd rfl hstray.2

omit [PageAllocator σ] in
/-- What a run says of the `expect` in its log when it stops only there. -/
theorem expect_iff_of_sat {y : Exec ε (Machine σ × List Event) α} {s : Machine σ} {f : Fate}
    {Q : α → Machine σ × List Event → Prop}
    (h : Sat (y (s, [])) (fun a u => .expect ∉ u.2 ∧ (f = .done ∨ f = .refused ∧ Q a u))
      fun _ u => f = .dead ∧ .expect ∈ u.2) :
    .expect ∉ (Outcome.state (y (s, []))).2 ↔ f ≠ .dead := by
  cases hy : y (s, []) with
  | ok a u =>
    obtain ⟨hlog, hf⟩ := h.of_ok hy
    refine iff_of_true hlog ?_
    rcases hf with hf | ⟨hf, -⟩ <;> simp [hf]
  | error e u =>
    obtain ⟨hf, hlog⟩ := h.of_error hy
    exact iff_of_false (fun hnot => hnot hlog) fun hnot => hnot hf

/-- `sys_mmap` of no bytes returns. -/
theorem fate_mmap_zero (k : Kernel σ) : (MemCall.mmap 0).fate k = .done := by
  rw [fate, needs]
  cases k.scheduler.currentTask <;> rfl

/-- A call on the task's own space reaches an `expect` when it is to. -/
theorem noExpect_iff_fate (c : MemCall) (k : Kernel σ) (hspace : c.InSpace k)
    (hw : c.fate k ≠ .wild) : c.NoExpect k ↔ c.fate k ≠ .dead := by
  cases c with
  | spawn K file top =>
    cases file with
    | none => exact iff_of_true List.not_mem_nil (by simp [fate, needs, RossOs.fate])
    | some data =>
      rw [NoExpect, log_spawn]
      exact not_congr ((loadProcess_meets K data k.machine).expect_iff hw)
  | brk newBrk =>
    rcases hcur : k.scheduler.currentTask with _ | t
    · rw [NoExpect, log, Trace.sysBrk, Exec.bind_of_ok (quiet_of_ok (Exec.get_apply k)), hcur]
      exact iff_of_true List.not_mem_nil (by simp [fate, needs, hcur, RossOs.fate])
    · obtain ⟨hlt, e511, A, hA, hroot⟩ := hspace t hcur
      rw [fate, needs, hcur] at hw ⊢
      rw [NoExpect, log_brk hcur, brkTask_eq]
      refine expect_iff_of_sat (Q := fun _ _ => True)
        ((brkLoop_fate _ (hA.placed hroot) hlt (calm_nil []) hw).mono ?_ fun _ _ h => h)
      exact fun _ _ hr => ⟨hr.1.1, hr.2.imp And.left fun h => ⟨h.1, trivial⟩⟩
  | mmap len =>
    rcases eq_or_ne len 0 with rfl | hlen
    · exact iff_of_true List.not_mem_nil (by rw [fate_mmap_zero]; simp)
    rcases hcur : k.scheduler.currentTask with _ | t
    · rw [NoExpect, log, Trace.sysMmap, if_neg hlen,
        Exec.bind_of_ok (quiet_of_ok (Exec.get_apply k)), hcur]
      exact iff_of_true List.not_mem_nil (by simp [fate, needs, hcur, RossOs.fate])
    · obtain ⟨hlt, e511, A, hA, hroot⟩ := hspace t hcur
      rw [fate, needs, hcur, Option.elim_some] at hw ⊢
      rw [NoExpect, log_mmap hcur hlen]
      split at hw
      case isTrue hsum =>
        rw [if_pos hsum]
        exact expect_iff_of_sat (mmapTask_fate (hA.placed hroot) hlt hsum hw)
      case isFalse hsum =>
        rw [Trace.mmapTask, if_neg hsum, if_neg hsum]
        exact iff_of_true List.not_mem_nil (by simp [RossOs.fate])

/-- `spawn_process` returns `Err(())` when its needs say so. -/
theorem reports_spawn (hw : (MemCall.spawn K (some data) top).fate k ≠ .wild) :
    (MemCall.spawn K (some data) top).Reports k ↔
      (MemCall.spawn K (some data) top).fate k = .refused := by
  have hrun := loadProcess_meets K data k.machine hw
  have hlogs := Trace.logs_loadProcess K data (k.machine, [])
  rw [← fate_spawn] at hrun
  cases hr : Trace.loadProcess K data (k.machine, []) with
  | ok a u =>
    rw [hr] at hlogs
    rw [(hrun.of_ok hr).1]
    refine iff_of_false (fun h => ?_) (by simp)
    obtain ⟨k', hk'⟩ := h
    rw [spawnProcess, Exec.bind_of_ok (onMachine_ok hlogs.symm)] at hk'
    cases hk'
  | error e u =>
    rw [hr] at hlogs
    have hspawn : spawnProcess K (some data) top k = .error e { k with machine := u.1 } := by
      rw [spawnProcess, Exec.bind_of_error (onMachine_error hlogs.symm)]
    have hiff : (MemCall.spawn K (some data) top).Reports k ↔ e.IsErr := by
      rw [Reports, hspawn]
      refine ⟨fun h => ?_, fun h => ?_⟩
      · obtain ⟨k', hk'⟩ := h
        injection hk' with he
        exact ⟨(), he⟩
      · obtain ⟨m, rfl⟩ := h
        exact ⟨_, rfl⟩
    rw [hiff]
    have hstops := hrun.of_error hr
    revert hstops
    generalize (MemCall.spawn K (some data) top).fate k = f
    intro hstops
    cases hstops with
    | refused he _ => exact iff_of_true he rfl
    | dead he _ _ => exact iff_of_false (he ▸ not_isErr_panic) (by simp)
    | strays he _ _ => exact iff_of_false he (by simp)
    | halted he _ => exact iff_of_false he (by simp)

/-- A call on the task's own space that finds no frame for a page says so. -/
theorem reports_of_fate (c : MemCall) (k : Kernel σ) (hspace : c.InSpace k)
    (hf : c.fate k = .refused) : c.Reports k := by
  have hw : c.fate k ≠ .wild := by simp [hf]
  cases c with
  | spawn K file top =>
    cases file with
    | none => exact ⟨k, rfl⟩
    | some data => exact (reports_spawn hw).2 hf
  | brk newBrk =>
    rcases hcur : k.scheduler.currentTask with _ | t
    · simp [fate, needs, hcur, RossOs.fate] at hf
    · obtain ⟨hlt, e511, A, hA, hroot⟩ := hspace t hcur
      rw [fate, needs, hcur] at hw hf
      have hrun := brkLoop_fate _ (hA.placed hroot) hlt (calm_nil []) hw
      have hlogs := Trace.logs_brkTask t newBrk (k.machine, [])
      rw [← brkTask_eq] at hrun
      cases hr : Trace.brkTask t newBrk (k.machine, []) with
      | ok a u =>
        rw [hr] at hlogs
        rcases (hrun.of_ok hr).2 with ⟨hdone, -⟩ | ⟨-, -, j, hj, rfl⟩
        · rw [Option.elim_some, hdone] at hf
          cases hf
        · exact ⟨_, _, sysBrk_of_ok hcur hlogs.symm, lt_of_lt_brkPages hj⟩
      | error e u =>
        rw [Option.elim_some, (hrun.of_error hr).1] at hf
        cases hf
  | mmap len =>
    rcases eq_or_ne len 0 with rfl | hlen
    · rw [fate_mmap_zero] at hf
      cases hf
    rcases hcur : k.scheduler.currentTask with _ | t
    · simp [fate, needs, hcur, RossOs.fate] at hf
    · obtain ⟨hlt, e511, A, hA, hroot⟩ := hspace t hcur
      rw [fate, needs, hcur, Option.elim_some] at hw hf
      split at hw
      case isFalse hsum =>
        rw [if_neg hsum] at hf
        cases hf
      case isTrue hsum =>
        rw [if_pos hsum] at hf
        have hrun := mmapTask_fate (hA.placed hroot) hlt hsum hw
        have hlogs := Trace.logs_mmapTask t len (k.machine, [])
        cases hr : Trace.mmapTask t len (k.machine, []) with
        | ok r u =>
          rw [hr] at hlogs
          rcases (hrun.of_ok hr).2 with hdone | ⟨-, hmax⟩
          · rw [hdone] at hf
            cases hf
          · exact ⟨_, hmax ▸ sysMmap_of_ok hlen hcur hlogs.symm⟩
        | error e u =>
          rw [(hrun.of_error hr).1] at hf
          cases hf

end

end MemCall

/-- **Memory running out.** With a frame for every page and three for its tables a call reaches no
`expect`, whatever is in memory. Where the addresses are the task's own it reaches one exactly when
the request that finds no frame is for a page table; when that request is for a page, the call
reports it. -/
theorem noExpect_iff (c : MemCall) (k : Kernel σ) :
    (c.frames k ≤ PageAllocator.avail k.machine.pages → c.NoExpect k) ∧
      (c.InSpace k → c.fate k ≠ .wild →
        (c.NoExpect k ↔ c.fate k ≠ .dead) ∧ (c.fate k = .refused → c.Reports k)) :=
  ⟨c.noExpect_of_frames k, fun hspace hw =>
    ⟨c.noExpect_iff_fate k hspace hw, c.reports_of_fate k hspace⟩⟩

end

/-! ## Few frames -/

/-- The allocator with `n` frames from 16 MB on. -/
@[irreducible] def fewPages (n : ℕ) : PmmState :=
  PmmState.init [⟨0x1000000, n * 4096, .usable⟩] PmmState.new

/-- The kernel after boot, with no task and `n` frames. -/
def fewKernel (n : ℕ) : Kernel PmmState := ⟨⟨init bootTables fun _ => 0, fewPages n⟩, ⟨[], none⟩, 0⟩

/-- The allocator with few pages has that many. -/
theorem avail_fewPages {n : ℕ} (h : n ≤ 256) : PageAllocator.avail (fewPages n) = n := by
  have hfree : (fewPages n).freePages =
      PmmState.usablePages [⟨0x1000000, n * 4096, .usable⟩] := by
    have hinit := PmmState.init_new [⟨0x1000000, n * 4096, .usable⟩]
    unfold fewPages
    exact hinit.1
  rw [PmmState.avail_eq, hfree, ← PmmState.regionPages_toFinset rfl, PmmState.regionPages,
    List.toFinset_card_of_nodup List.nodup_range', List.length_range']
  simp only [Pmm.pageSize, Pmm.maxPages, Pmm.bitmapBytes]
  omega

/-- With 42 frames the small executable starts, and with six it is refused. -/
theorem noExpect_tinyElf :
    (MemCall.spawn bootTables (some (tinyElf 0x400010)) 0x8000).NoExpect (fewKernel 42) ∧
      (MemCall.spawn bootTables (some (tinyElf 0x400010)) 0x8000).NoExpect (fewKernel 6) ∧
      (MemCall.spawn bootTables (some (tinyElf 0x400010)) 0x8000).Reports (fewKernel 6) := by
  let c := MemCall.spawn bootTables (some (tinyElf 0x400010)) 0x8000
  have hframes : c.frames (fewKernel 42) ≤ PageAllocator.avail (fewKernel 42).machine.pages := by
    show loadFrames (tinyElf 0x400010) ≤ PageAllocator.avail (fewPages 42)
    rw [loadFrames_tinyElf, avail_fewPages (by decide)]
  have hfate : c.fate (fewKernel 6) = .refused := by
    rw [MemCall.fate_spawn, fewKernel, avail_fewPages (by decide)]
    decide +kernel
  obtain ⟨hiff, hreports⟩ := (noExpect_iff c (fewKernel 6)).2 trivial (by simp [hfate])
  exact ⟨(noExpect_iff c (fewKernel 42)).1 hframes, hiff.2 (by simp [hfate]), hreports hfate⟩

/-- With seven frames the small executable has its six tables and a frame for its page, and
`map_user_page` finds none for the page table. -/
theorem not_noExpect_tinyElf :
    ¬ (MemCall.spawn bootTables (some (tinyElf 0x400010)) 0x8000).NoExpect (fewKernel 7) := by
  let c := MemCall.spawn bootTables (some (tinyElf 0x400010)) 0x8000
  have hfate : c.fate (fewKernel 7) = .dead := by
    rw [MemCall.fate_spawn, fewKernel, avail_fewPages (by decide)]
    decide +kernel
  exact fun h => (c.noExpect_iff_fate (fewKernel 7) trivial (by simp [hfate])).1 h hfate

end RossOs
