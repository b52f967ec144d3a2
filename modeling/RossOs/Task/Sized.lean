import RossOs.Task.Failed

/-!
# The size of the heap

How far `sys_brk` and `sys_mmap` move `heap_end`, in any state. A `sys_mmap` that returns a base has
asked for exactly the pages of its length. A `sys_brk` that returns has moved `heap_end` by whole
pages, to less than a page above its argument, and it stops short only when no frame is left
(`brkSized_iff` says when it returns). So `heap_end` is a page address for ever.
-/

namespace RossOs

open ByteMem Paging Elf Exec

section
variable {ε σ α β : Type} [PageAllocator σ] {s s' : Machine σ} {k k' : Kernel σ} {t : Task}

/-! ## The pages that are asked for -/

/-- A run that returns has noted nothing. -/
def Silent (y : Exec ε (Machine σ × List Event) α) : Prop :=
  ∀ u, Sat (y u) (fun _ u' => u'.2 = u.2) fun _ _ => True

omit [PageAllocator σ] in
/-- A quiet run notes nothing. -/
theorem Silent.quiet (x : Exec ε (Machine σ) α) :
    Silent (Exec.quiet x : Exec ε (Machine σ × List Event) α) := by
  refine fun u => quiet_sat ?_
  cases x u.1 with
  | ok a s => exact sat_ok.2 rfl
  | error e s => exact sat_error.2 trivial

omit [PageAllocator σ] in
/-- Two runs in sequence that note nothing. -/
theorem Silent.bind {y : Exec ε (Machine σ × List Event) α}
    {g : α → Exec ε (Machine σ × List Event) β} (h : Silent y) (hg : ∀ a, Silent (g a)) :
    Silent (y >>= g) := by
  refine fun u => Sat.bind ((h u).mono (fun a u₁ hu₁ => ?_) fun _ _ he => he)
  exact (hg a u₁).mono (fun _ _ hu₂ => hu₂.trans hu₁) fun _ _ he => he

/-- A table notes nothing but the failure of its allocation. -/
theorem silent_getOrCreate (table i : ℕ) :
    Silent (Trace.getOrCreate table i : Exec ε (Machine σ × List Event) ℕ) := by
  refine .bind (.quiet _) fun e => ?_
  have hrest : Silent (Exec.quiet (getEntry table i) >>= fun e =>
      Exec.quiet (physToVirt (frameOf e)) : Exec ε (Machine σ × List Event) ℕ) :=
    .bind (.quiet _) fun _ => .quiet _
  have halloc : Silent (Trace.allocPageExpect : Exec ε (Machine σ × List Event) ℕ) := fun u =>
    (allocPageExpect_log u.1 u.2).mono (fun _ _ hu => hu.2) fun _ _ _ => trivial
  split
  · exact .bind halloc fun _ => .bind (.quiet _) fun _ => .bind (.quiet _) fun _ =>
      .bind (.quiet _) fun _ => hrest
  · exact hrest

/-- `map_user_page` notes its address. -/
theorem mapUserPage_log (cr3 v paddr flags : ℕ) (u : Machine σ × List Event) :
    Sat ((Trace.mapUserPage cr3 v paddr flags : Exec ε (Machine σ × List Event) PUnit) u)
      (fun _ u' => u'.2 = u.2 ++ [.map v]) fun _ _ => True := by
  have hrest : Silent (do
      let pml4 ← quiet (physToVirt cr3)
      let pdpt ← Trace.getOrCreate pml4 (index 39 v)
      let pd ← Trace.getOrCreate pdpt (index 30 v)
      let pt ← Trace.getOrCreate pd (index 21 v)
      quiet (setEntry pt (index 12 v) (paddr ||| flags ||| present ||| user)) :
      Exec ε (Machine σ × List Event) PUnit) :=
    .bind (.quiet _) fun _ => .bind (silent_getOrCreate _ _) fun _ =>
      .bind (silent_getOrCreate _ _) fun _ => .bind (silent_getOrCreate _ _) fun _ => .quiet _
  unfold Trace.mapUserPage
  refine note_sat ?_
  have hrun := hrest (u.1, u.2 ++ [.map v])
  refine hrun.mono ?_ ?_
  · intro _ u' hu
    rw [hu]
  · exact fun _ _ he => he

/-- `alloc_anon` returns when it has mapped each of its pages once, in order. -/
theorem allocAnonFrom_log (cr3 base n i : ℕ) (u : Machine σ × List Event) :
    Sat (Trace.allocAnonFrom cr3 base n i u)
      (fun _ u' => u'.2 = u.2 ++ (pagesFrom (base + i * 4096) n).map .map) fun _ _ => True := by
  induction n generalizing i u with
  | zero => exact sat_ok.2 (List.append_nil _).symm
  | succ n ih =>
    rw [Trace.allocAnonFrom]
    refine Sat.ite (fun _ => ?_) fun _ => sat_error.2 trivial
    refine Sat.bind ((Silent.quiet allocPage u).mono (fun o u₁ hu₁ => ?_) fun _ _ he => he)
    cases o with
    | none => exact sat_error.2 trivial
    | some f =>
      refine Sat.bind ((Silent.quiet _ u₁).mono (fun _ u₂ hu₂ => ?_) fun _ _ he => he)
      refine Sat.bind ((Silent.quiet _ u₂).mono (fun _ u₃ hu₃ => ?_) fun _ _ he => he)
      refine Sat.bind ((mapUserPage_log _ _ _ _ u₃).mono (fun _ u₄ hu₄ => ?_) fun _ _ he => he)
      refine (ih (i + 1) u₄).mono (fun _ u₅ hu₅ => ?_) fun _ _ he => he
      rw [hu₅, hu₄, hu₃, hu₂, hu₁, pagesFrom, List.map_cons, List.append_assoc,
        List.singleton_append, show base + (i + 1) * 4096 = base + i * 4096 + 4096 by omega]

/-! ## sys_mmap -/

/-- What a `sys_mmap` of `len` bytes that returned `base` has done: it asked for the pages of the
length from `heap_end` on and moved `heap_end` behind them. -/
structure MmapSized (len base : ℕ) (k k' : Kernel σ) : Prop where
  ceil : len ≤ 4096 * mmapPages len ∧ 4096 * mmapPages len < len + 4096
  pos : 1 ≤ mmapPages len
  sum : len + 4095 < 2 ^ 64
  task : ∃ t, k.scheduler.currentTask = some t ∧ t.heapEnd = base ∧
    k'.scheduler.currentTask = some { t with heapEnd := base + 4096 * mmapPages len }
  below : base + 4096 * mmapPages len < 2 ^ 64
  maps : (MemCall.mmap len).log k = (pagesFrom base (mmapPages len)).map .map

/-- `sys_mmap` on a task that does not return `u64::MAX`. -/
theorem mmapTask_sized (t : Task) (len : ℕ) (s : Machine σ) :
    Sat (Trace.mmapTask t len (s, []))
      (fun r u => r.1 ≠ u64Max → len + 4095 < 2 ^ 64 ∧ r.1 = t.heapEnd ∧
        r.2 = t.heapEnd + 4096 * mmapPages len ∧ t.heapEnd + 4096 * mmapPages len < 2 ^ 64 ∧
        u.2 = (pagesFrom t.heapEnd (mmapPages len)).map .map)
      fun _ _ => True := by
  rw [Trace.mmapTask]
  refine Sat.ite (fun hsum => ?_) fun _ => sat_error.2 trivial
  have hlog := allocAnonFrom_log t.cr3 t.heapEnd (mmapPages len) 0 (s, [])
  rw [Nat.zero_mul, Nat.add_zero, List.nil_append] at hlog
  refine Sat.bind (Sat.attempt (hlog.mono (fun _ u hu => ?_) fun _ u _ => ?_))
  · refine Sat.ite (fun hlt => sat_ok.2 fun _ => ⟨hsum, rfl, ?_, ?_, hu⟩) fun _ =>
      sat_error.2 trivial
    · show t.heapEnd + mmapPages len * 4096 = _
      rw [Nat.mul_comm]
    · rw [Nat.mul_comm]
      exact hlt
  · exact ⟨fun _ _ => sat_ok.2 fun hne => absurd rfl hne, fun _ => trivial⟩

/-- A call of `sys_mmap` that succeeds maps the pages for its length. -/
theorem sysMmap_sized {len base : ℕ} (h : sysMmap len k = .ok base k') (hne : base ≠ u64Max) :
    MmapSized len base k k' := by
  have hlen : len ≠ 0 := by
    rintro rfl
    injection h with hmax
    exact hne hmax.symm
  rcases hcur : k.scheduler.currentTask with _ | t
  · rw [sysMmap, if_neg hlen, Exec.bind_of_ok (Exec.get_apply k), hcur] at h
    injection h with hmax
    exact absurd hmax.symm hne
  have hsized := mmapTask_sized t len k.machine
  have hlogs := Trace.logs_mmapTask t len (k.machine, [])
  cases hr : Trace.mmapTask t len (k.machine, []) with
  | error e u =>
    rw [hr] at hlogs
    rw [sysMmap, if_neg hlen, Exec.bind_of_ok (Exec.get_apply k), hcur] at h
    simp only at h
    rw [Exec.bind_of_error (onMachine_error hlogs.symm)] at h
    cases h
  | ok r u =>
    rw [hr] at hlogs
    rw [sysMmap_of_ok hlen hcur hlogs.symm] at h
    injection h with hbase hk
    obtain ⟨hsum, hstart, hend, hbelow, hmaps⟩ := hsized.of_ok hr (by rwa [hbase])
    have hstart' : t.heapEnd = base := hstart.symm.trans hbase
    refine ⟨?_, ?_, hsum, ⟨t, hcur, hstart', ?_⟩, hstart' ▸ hbelow, ?_⟩
    · rw [mmapPages]
      omega
    · rw [mmapPages]
      omega
    · rw [← hk, setHeapEnd_scheduler (k := { k with machine := u.1 }) hcur, hend, hstart']
    · rw [MemCall.log_mmap hcur hlen, hr, ← hstart']
      exact hmaps

/-! ## sys_brk -/

/-- The loop of `sys_brk` from `addr` on: where it stops, whatever is in memory. -/
theorem brkLoop_sized {cr3 : ℕ} (n addr : ℕ) (s : Machine σ) :
    Sat ((brkLoop cr3 n addr : Exec Empty (Machine σ) ℕ) s)
      (fun r s' => (∃ j ≤ n, r = addr + 4096 * j ∧ (j < n → PageAllocator.avail s'.pages = 0)) ∧
        (addr < 2 ^ 64 → r < 2 ^ 64)) fun _ _ => True := by
  induction n generalizing addr s with
  | zero => exact sat_ok.2 ⟨⟨0, le_rfl, rfl, fun h => absurd h (Nat.lt_irrefl 0)⟩, id⟩
  | succ n ih =>
    rw [brkLoop]
    cases ha : PageAllocator.allocPage s.pages with
    | none =>
      rw [Exec.bind_of_ok (allocPage_none ha)]
      exact sat_ok.2 ⟨⟨0, Nat.zero_le _, rfl, fun _ => PageAllocator.avail_none ha⟩, id⟩
    | some p =>
      rw [Exec.bind_of_ok (allocPage_some ha)]
      have hrest : ∀ s₁, Sat ((if addr + 4096 < 2 ^ 64 then brkLoop cr3 n (addr + 4096)
          else Exec.panic : Exec Empty (Machine σ) ℕ) s₁)
          (fun r s' => (∃ j ≤ n + 1, r = addr + 4096 * j ∧
            (j < n + 1 → PageAllocator.avail s'.pages = 0)) ∧ (addr < 2 ^ 64 → r < 2 ^ 64))
          fun _ _ => True := by
        refine fun s₁ => Sat.ite (fun hlt => (ih (addr + 4096) s₁).mono ?_ fun _ _ he => he)
          fun _ => sat_error.2 trivial
        rintro r s' ⟨⟨j, hj, rfl, hfull⟩, hfits⟩
        exact ⟨⟨j + 1, by omega, by omega, fun hlt' => hfull (by omega)⟩, fun _ => hfits hlt⟩
      refine Sat.bind ⟨fun _ => ?_, fun _ => trivial⟩
      refine Sat.bind ⟨fun _ => ?_, fun _ => trivial⟩
      exact Sat.bind ⟨fun _ => hrest _, fun _ => trivial⟩

/-- `sys_brk` moves the break by whole pages, up to what was asked for or memory allows. -/
theorem brkTask_sized (t : Task) (newBrk : ℕ) (s : Machine σ) :
    Sat ((brkTask t newBrk : Exec Empty (Machine σ) ℕ) s)
      (fun r s' => (∃ j ≤ brkPages t.heapEnd newBrk, r = t.heapEnd + 4096 * j ∧
        (j < brkPages t.heapEnd newBrk → PageAllocator.avail s'.pages = 0)) ∧
        (t.heapEnd < 2 ^ 64 → r < 2 ^ 64)) fun _ _ => True := by
  have hstay : newBrk ≤ t.heapEnd → Sat ((pure t.heapEnd : Exec Empty (Machine σ) ℕ) s)
      (fun r s' => (∃ j ≤ brkPages t.heapEnd newBrk, r = t.heapEnd + 4096 * j ∧
        (j < brkPages t.heapEnd newBrk → PageAllocator.avail s'.pages = 0)) ∧
        (t.heapEnd < 2 ^ 64 → r < 2 ^ 64)) fun _ _ => True := by
    intro hle
    rw [MemCall.brkPages_eq_zero hle]
    exact sat_ok.2 ⟨⟨0, le_rfl, rfl, fun h => absurd h (Nat.lt_irrefl 0)⟩, id⟩
  rw [brkTask]
  refine Sat.ite (fun hzero => hstay (by omega)) fun _ => ?_
  exact Sat.ite (fun _ => brkLoop_sized _ _ s) fun hnot => hstay (by omega)

/-- What a `sys_brk` that returned `v` has done: whole pages, to less than a page above the address
asked for, and not short of it while frames are left. -/
structure BrkSized (newBrk v : ℕ) (t : Task) (k' : Kernel σ) : Prop where
  pages : ∃ j, v = t.heapEnd + 4096 * j
  task : k'.scheduler.currentTask = some { t with heapEnd := v }
  below : t.heapEnd < newBrk → v < newBrk + 4096
  full : v < newBrk → PageAllocator.avail k'.machine.pages = 0
  fits : t.heapEnd < 2 ^ 64 → v < 2 ^ 64

/-- When `sys_brk` returns, the value and the new `heap_end` are as they should be. -/
theorem sysBrk_sized {newBrk v : ℕ} (hcur : k.scheduler.currentTask = some t)
    (h : sysBrk newBrk k = .ok v k') : BrkSized newBrk v t k' := by
  cases hr : (brkTask t newBrk : Exec Empty (Machine σ) ℕ) k.machine with
  | error e s' =>
    rw [sysBrk, Exec.bind_of_ok (Exec.get_apply k), hcur] at h
    simp only at h
    rw [Exec.bind_of_error (onMachine_error hr)] at h
    cases h
  | ok r s' =>
    rw [sysBrk_of_ok hcur hr] at h
    injection h with hv hk
    obtain ⟨⟨j, hj, hrj, hfull⟩, hfits⟩ := (brkTask_sized t newBrk k.machine).of_ok hr
    rw [hv] at hrj hfits
    rw [brkPages] at hj hfull
    refine ⟨⟨j, hrj⟩, ?_, fun _ => by omega, fun hlt => ?_, hfits⟩
    · rw [← hk, hv, setHeapEnd_scheduler (k := { k with machine := s' }) hcur]
    · rw [← hk]
      exact hfull (by omega)

/-- `sys_brk` on an address space in memory returns unless it stops at an `expect`. -/
theorem sysBrk_returns_of_placed (newBrk : ℕ) {F : Footprint}
    (hcur : k.scheduler.currentTask = some t) (hlt : t.heapEnd < 2 ^ 64)
    (hP : Placed t.cr3 F k.machine) (hw : fate (PageAllocator.avail k.machine.pages)
      (F.growNeeds (pagesFrom t.heapEnd (brkPages t.heapEnd newBrk))) ≠ .wild) :
    (∃ v k', sysBrk newBrk k = .ok v k') ↔ fate (PageAllocator.avail k.machine.pages)
      (F.growNeeds (pagesFrom t.heapEnd (brkPages t.heapEnd newBrk))) ≠ .dead := by
  have hrun := brkLoop_fate _ hP hlt (calm_nil []) hw
  rw [← MemCall.brkTask_eq] at hrun
  have hlogs := Trace.logs_brkTask t newBrk (k.machine, [])
  cases hr : Trace.brkTask t newBrk (k.machine, []) with
  | ok r u =>
    rw [hr] at hlogs
    refine iff_of_true ⟨_, _, sysBrk_of_ok hcur hlogs.symm⟩ ?_
    rcases (hrun.of_ok hr).2 with ⟨hf, -⟩ | ⟨hf, -⟩ <;> simp [hf]
  | error e u =>
    rw [hr] at hlogs
    refine iff_of_false (fun h => ?_) fun hne => hne (hrun.of_error hr).1
    obtain ⟨v, k', hv⟩ := h
    rw [sysBrk, Exec.bind_of_ok (Exec.get_apply k), hcur] at hv
    simp only at hv
    rw [Exec.bind_of_error (onMachine_error hlogs.symm)] at hv
    cases hv

/-- `sys_brk` on the task's own space moves `heap_end` as it is to unless it stops at an
`expect`. -/
theorem sysBrk_sized_iff {newBrk : ℕ} (hcur : k.scheduler.currentTask = some t)
    (hspace : (MemCall.brk newBrk).InSpace k) (hw : (MemCall.brk newBrk).fate k ≠ .wild) :
    (∃ v k', sysBrk newBrk k = .ok v k' ∧ BrkSized newBrk v t k') ↔
      (MemCall.brk newBrk).fate k ≠ .dead := by
  obtain ⟨hlt, e511, A, hA, hroot⟩ := hspace t hcur
  have hiff := sysBrk_returns_of_placed newBrk hcur hlt (hA.placed hroot)
  rw [MemCall.fate, MemCall.needs, hcur, Option.elim_some] at hw ⊢
  rw [← hiff hw]
  refine ⟨fun h => ?_, fun h => ?_⟩
  · obtain ⟨v, k', hrun, -⟩ := h
    exact ⟨v, k', hrun⟩
  · obtain ⟨v, k', hrun⟩ := h
    exact ⟨v, k', hrun, sysBrk_sized hcur hrun⟩

/-! ## Page addresses -/

/-- The heaps of all tasks end at page addresses. -/
def HeapsAligned (s : Scheduler) : Prop := ∀ t ∈ s.all, 4096 ∣ t.heapEnd

/-- What a call that returns does to the tasks: the heap of the current one grows by pages. -/
theorem HeapCall.run_heapEnd {c : HeapCall} {v : ℕ} (h : c.run k = .ok v k') :
    k'.scheduler = k.scheduler ∨ ∃ t j, k.scheduler.currentTask = some t ∧ k'.scheduler =
      { k.scheduler with currentTask := some { t with heapEnd := t.heapEnd + 4096 * j } } := by
  have hnext : ∀ {t : Task} {s' : Machine σ} {r j : ℕ}, k.scheduler.currentTask = some t →
      r = t.heapEnd + 4096 * j → (Kernel.setHeapEnd { k with machine := s' } r).scheduler =
        { k.scheduler with currentTask := some { t with heapEnd := t.heapEnd + 4096 * j } } := by
    intro t s' r j hcur hr
    rw [hr, setHeapEnd_scheduler (k := { k with machine := s' }) hcur]
  have hsat : Sat (c.run k) (fun _ k' => k'.scheduler = k.scheduler ∨
      ∃ t j, k.scheduler.currentTask = some t ∧ k'.scheduler =
        { k.scheduler with currentTask := some { t with heapEnd := t.heapEnd + 4096 * j } })
      fun _ _ => True := by
    cases c with
    | brk newBrk =>
      rw [HeapCall.run, sysBrk, Exec.bind_of_ok (Exec.get_apply k)]
      rcases hcur : k.scheduler.currentTask with _ | t
      · exact sat_ok.2 (.inl rfl)
      · refine Sat.bind (onMachine_sat ((brkTask_sized t newBrk k.machine).mono ?_ ?_))
        · rintro r s' ⟨⟨j, -, hr, -⟩, -⟩
          exact sat_ok.2 (.inr ⟨t, j, rfl, hnext hcur hr⟩)
        · exact fun _ _ _ => trivial
    | mmap len =>
      rw [HeapCall.run, sysMmap]
      refine Sat.ite (fun _ => sat_ok.2 (.inl rfl)) fun _ => ?_
      rw [Exec.bind_of_ok (Exec.get_apply k)]
      rcases hcur : k.scheduler.currentTask with _ | t
      · exact sat_ok.2 (.inl rfl)
      · have htask : Sat ((mmapTask t len : Exec Empty (Machine σ) (ℕ × ℕ)) k.machine)
            (fun r _ => ∃ j, r.2 = t.heapEnd + 4096 * j) fun _ _ => True := by
          rw [mmapTask]
          refine Sat.ite (fun _ => ?_) fun _ => sat_error.2 trivial
          refine Sat.bind (Sat.attempt ⟨fun _ => ?_, fun _ => ⟨fun _ _ => ?_, fun _ => trivial⟩⟩)
          · exact Sat.ite (fun _ => sat_ok.2 ⟨_, by rw [Nat.mul_comm]⟩) fun _ => sat_error.2 trivial
          · exact sat_ok.2 ⟨0, rfl⟩
        refine Sat.bind (onMachine_sat (htask.mono ?_ fun _ _ _ => trivial))
        rintro r s' ⟨j, hr⟩
        exact sat_ok.2 (.inr ⟨t, j, rfl, hnext hcur hr⟩)
  exact hsat.of_ok h

/-- The `heap_end` that the segments leave is at a page boundary. -/
theorem loadSegments_aligned (data : List UInt8) (cr3 n o heapEnd : ℕ) (h : 4096 ∣ heapEnd)
    (s : Machine σ) : Sat ((loadSegments data cr3 n o heapEnd : Exec Unit (Machine σ) ℕ) s)
      (fun r _ => 4096 ∣ r) fun _ _ => True := by
  induction n generalizing o heapEnd s with
  | zero => exact sat_ok.2 h
  | succ n ih =>
    refine Sat.ite (fun _ => ?_) fun _ => sat_error.2 trivial
    have hseg : Sat ((loadSegment data cr3 (programHeader data o) heapEnd :
        Exec Unit (Machine σ) ℕ) s) (fun r _ => 4096 ∣ r) fun _ _ => True := by
      refine Sat.ite (fun _ => ?_) fun _ => sat_ok.2 h
      refine Sat.ite (fun hsum => ?_) fun _ => sat_error.2 trivial
      refine Sat.bind ⟨fun _ => sat_ok.2 ?_, fun _ => trivial⟩
      split
      · rw [pageEnd_eq hsum]
        exact Nat.dvd_mul_left _ _
      · exact h
    exact Sat.bind (hseg.mono (fun r s₁ hr => ih (o + 56) r hr s₁) fun _ _ he => he)

/-- The heap starts at a page boundary. -/
theorem loadProcess_aligned (K : KernelTables) (data : List UInt8) (s : Machine σ) :
    Sat ((loadProcess K data : Exec Unit (Machine σ) (ℕ × ℕ)) s)
      (fun r _ => 4096 ∣ r.2) fun _ _ => True := by
  rw [loadProcess]
  refine Sat.ite (fun _ => sat_error.2 trivial) fun _ => ?_
  refine Sat.ite (fun _ => sat_error.2 trivial) fun _ => ?_
  refine Sat.ite (fun _ => sat_error.2 trivial) fun _ => ?_
  refine Sat.bind ⟨fun _ => ?_, fun _ => trivial⟩
  refine Sat.bind ⟨fun {_ s₁} _ => ?_, fun _ => trivial⟩
  refine Sat.bind ((loadSegments_aligned data _ _ _ 0 (Nat.dvd_zero _) s₁).mono
    (fun heapEnd s₂ hend => ?_) fun _ _ he => he)
  exact Sat.bind ⟨fun _ => sat_ok.2 hend, fun _ => trivial⟩

/-- Runs of the kernel as far as they concern heaps: heap calls of the current task that return,
new processes, and whatever else sets no `heap_end`. -/
inductive HeapRun : Kernel σ → Kernel σ → Prop
  | refl (k : Kernel σ) : HeapRun k k
  | call {k k₁ k₂ : Kernel σ} {v : ℕ} (c : HeapCall) : HeapRun k k₁ → c.run k₁ = .ok v k₂ →
    HeapRun k k₂
  | spawn {k k₁ : Kernel σ} (K : KernelTables) (file : Option (List UInt8)) (top : ℕ) :
    HeapRun k k₁ → HeapRun k (Outcome.state (spawnProcess K file top k₁))
  | other {k k₁ k₂ : Kernel σ} : HeapRun k k₁ → (∀ t ∈ k₂.scheduler.all,
    ∃ u ∈ k₁.scheduler.all, t.heapEnd = u.heapEnd) → HeapRun k k₂

/-- One call keeps the heaps at page addresses, whatever is in memory. -/
theorem HeapsAligned.call {c : HeapCall} {v : ℕ} (h : HeapsAligned k.scheduler)
    (hrun : c.run k = .ok v k') : HeapsAligned k'.scheduler := by
  rcases HeapCall.run_heapEnd hrun with hsame | ⟨t, j, hcur, hsched⟩
  · rwa [hsame]
  · rw [hsched]
    intro t' ht'
    simp only [Scheduler.all, Option.toList_some, List.singleton_append, List.mem_cons] at ht'
    rcases ht' with rfl | hmem
    · have htask : 4096 ∣ t.heapEnd := h t (by simp [Scheduler.all, hcur])
      exact Nat.dvd_add htask ⟨j, rfl⟩
    · exact h t' (by simp [Scheduler.all, hmem])

/-- A new task has its break at a page boundary. -/
theorem HeapsAligned.spawn (h : HeapsAligned k.scheduler) (K : KernelTables)
    (file : Option (List UInt8)) (top : ℕ) :
    HeapsAligned (Outcome.state (spawnProcess K file top k)).scheduler := by
  cases file with
  | none => exact h
  | some data =>
    rcases spawnProcess_run K data top k with ⟨cr3, heapEnd, s', hload, hok⟩ | ⟨e, s', -, herr⟩
    · rw [hok]
      intro t ht
      have ht' : t ∈ k.scheduler.all ++ [newTask k data top cr3 heapEnd] := by
        rwa [Scheduler.all, List.append_assoc]
      rcases List.mem_append.1 ht' with hmem | hmem
      · exact h t hmem
      · rw [List.mem_singleton.1 hmem]
        exact (loadProcess_aligned K data k.machine).of_ok hload
    · rw [herr]
      exact h

/-- The heaps stay at page addresses along every run. -/
theorem HeapRun.aligned (hrun : HeapRun k k') (h : HeapsAligned k.scheduler) :
    HeapsAligned k'.scheduler := by
  induction hrun with
  | refl => exact h
  | call c _ hc ih => exact ih.call hc
  | spawn K file top _ ih => exact ih.spawn K file top
  | other _ hsame ih =>
    intro t ht
    obtain ⟨u, hu, heq⟩ := hsame t ht
    rw [heq]
    exact ih u hu

/-- **The size of the heap.** In any state: a `sys_mmap` that returns a base has asked for the pages
of its length, one page or more, and nothing has overflowed; a `sys_brk` that returns has moved
`heap_end` by whole pages, as far as asked while there are frames; and no run moves a heap off a
page address. A `sys_brk` on the task's own space returns exactly when it does not stop at an
`expect`. -/
theorem heap_sized (k : Kernel σ) :
    (∀ (len base : ℕ) (k' : Kernel σ), sysMmap len k = .ok base k' → base ≠ u64Max →
      MmapSized len base k k') ∧
    (∀ (newBrk : ℕ) (t : Task), k.scheduler.currentTask = some t →
      (∀ (v : ℕ) (k' : Kernel σ), sysBrk newBrk k = .ok v k' → BrkSized newBrk v t k') ∧
      ((MemCall.brk newBrk).InSpace k → (MemCall.brk newBrk).fate k ≠ .wild →
        ((∃ v k', sysBrk newBrk k = .ok v k' ∧ BrkSized newBrk v t k') ↔
          (MemCall.brk newBrk).fate k ≠ .dead))) ∧
    ∀ k' : Kernel σ, HeapRun k k' → HeapsAligned k.scheduler → HeapsAligned k'.scheduler :=
  ⟨fun _ _ _ => sysMmap_sized, fun _ _ hcur => ⟨fun _ _ => sysBrk_sized hcur,
    sysBrk_sized_iff hcur⟩, fun _ => HeapRun.aligned⟩

end

/-! ## One page of heap -/

/-- The needs of the first page of a heap at 4 MB. -/
def firstPageNeeds : List Need := freshFootprint.growNeeds [0x400000]

/-- `sys_brk` for that page returns exactly when no page table is missing. -/
theorem firstPage_returns_iff {n : ℕ} {k : Kernel PmmState} {t : Task}
    (hcur : k.scheduler.currentTask = some t) (hend : t.heapEnd = 0x400000)
    (hplaced : Placed t.cr3 freshFootprint k.machine)
    (havail : PageAllocator.avail k.machine.pages = n) (hw : fate n firstPageNeeds ≠ .wild) :
    (∃ v k', sysBrk 0x401000 k = .ok v k') ↔ fate n firstPageNeeds ≠ .dead := by
  have hpages : pagesFrom 0x400000 (brkPages 0x400000 0x401000) = [0x400000] := by decide
  have hiff := sysBrk_returns_of_placed 0x401000 hcur (by rw [hend]; decide) hplaced
  rw [hend, hpages, havail] at hiff
  exact hiff hw

/-- Two frames are enough for a page and its table: the heap is a page larger. -/
theorem heap_sized_page : ∃ (cr3 v : ℕ) (s : Machine PmmState) (k' : Kernel PmmState),
    sysBrk 0x401000 (heapKernel cr3 s) = .ok v k' ∧
      BrkSized 0x401000 v (newTask bootKernel (tinyElf 0x400010) 0x8000 cr3 0x400000) k' ∧
      HeapsAligned k'.scheduler := by
  obtain ⟨cr3, s, hplaced, havail⟩ := exists_placed (n := 2) (by decide)
  have hfate : fate 2 firstPageNeeds = .done := by decide +kernel
  obtain ⟨v, k', hrun⟩ := (firstPage_returns_iff (k := heapKernel cr3 s) rfl rfl hplaced havail
    (by simp [hfate])).2 (by simp [hfate])
  obtain ⟨-, hbrk, halign⟩ := heap_sized (heapKernel cr3 s)
  have hstart : HeapsAligned (heapKernel cr3 s).scheduler := by
    intro t ht
    rw [List.mem_singleton.1 ht]
    show 4096 ∣ 0x400000
    decide
  exact ⟨cr3, v, s, k', hrun, (hbrk _ _ rfl).1 v k' hrun,
    halign k' (.call (.brk 0x401000) (.refl _) hrun) hstart⟩

/-- With one frame the page gets it, and `sys_brk` stops at the `expect` for the page table. -/
theorem brk_stops : ¬ ∀ (newBrk : ℕ) (k : Kernel PmmState) (t : Task),
    k.scheduler.currentTask = some t → t.heapEnd < newBrk → newBrk < 2 ^ 64 →
      ∃ v k', sysBrk newBrk k = .ok v k' ∧ BrkSized newBrk v t k' := by
  intro hall
  obtain ⟨cr3, s, hplaced, havail⟩ := exists_placed (n := 1) (by decide)
  have hfate : fate 1 firstPageNeeds = .dead := by decide +kernel
  obtain ⟨v, k', hrun, -⟩ := hall 0x401000 (heapKernel cr3 s) _ rfl
    (show 0x400000 < 0x401000 by decide) (by decide)
  have hiff := firstPage_returns_iff (k := heapKernel cr3 s) rfl rfl hplaced havail
    (by simp [hfate])
  exact hiff.1 ⟨v, k', hrun⟩ hfate

end RossOs
