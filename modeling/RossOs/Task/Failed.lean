import RossOs.Task.Exhaust

/-!
# Calls that fail

What `spawn_process` and `sys_mmap` leave behind when they fail. The kernel has no way back from a
page it has mapped: nothing calls `free_page`, and no function unmaps a page. So the frames that a
failed call has taken are gone (`spawnProcess_err`), and the pages that a failed `sys_mmap` has
mapped stay mapped above `heap_end` (`sysMmap_unchanged_iff`).
-/

namespace RossOs

open ByteMem Paging Elf Exec

section
variable {σ : Type} [PageAllocator σ] {K : KernelTables} {data : List UInt8} {top len : ℕ}
  {s s' : Machine σ} {k k' : Kernel σ} {t : Task}

/-! ## Frames that come back -/

instance : IsPreorder (Kernel σ) fun k k' => Spends k.machine k'.machine where
  refl k := refl_of Spends k.machine
  trans _ _ _ h h' := trans_of Spends h h'

/-- A call on the machine takes frames as the machine does. -/
theorem spends_onMachine {ε α : Type} {x : Exec ε (Machine σ) α} (h : Along Spends x) :
    Along (fun k k' : Kernel σ => Spends k.machine k'.machine) (onMachine x) :=
  h.zoom fun _ _ => rfl

/-- No exec gives a frame back, however it ends. -/
theorem spends_spawnProcess (K : KernelTables) (file : Option (List UInt8)) (top : ℕ) :
    Along (fun k k' : Kernel σ => Spends k.machine k'.machine) (spawnProcess K file top) := by
  cases file with
  | none => exact .throw _
  | some data =>
    exact .bind (spends_onMachine (spends_loadProcess K data)) fun _ k => refl_of Spends k.machine

/-! ## A failed exec -/

/-- An error of the load, after the file is read: the header is refused and nothing is done, or the
address space was there and is lost. -/
theorem loadProcess_err (h : loadProcess K data s = .error (.err ()) s') :
    (header data).isValid = false ∧ s' = s ∨
      (header data).isValid = true ∧ PageAllocator.avail s'.pages + 6 ≤
        PageAllocator.avail s.pages := by
  rw [loadProcess] at h
  split at h
  · cases h
  split at h
  · cases h
  split at h
  case isTrue hvalid =>
    injection h with _ hs
    exact .inl ⟨by simpa using hvalid, hs.symm⟩
  case isFalse hvalid =>
    refine .inr ⟨by simpa using hvalid, ?_⟩
    have hcreate := createUserAddressSpace_built (ε := Unit) K s
    cases hr : (createUserAddressSpace K : Exec Unit (Machine σ) ℕ) s with
    | error e s₁ =>
      rw [Exec.bind_of_error hr] at h
      obtain ⟨rfl, -⟩ := hcreate.of_error hr
      cases h
    | ok cr3 s₁ =>
      rw [Exec.bind_of_ok hr] at h
      obtain ⟨-, havail, -⟩ := hcreate.of_ok hr
      rcases sliceHeaders_cases data s₁ with ⟨hslice, -⟩ | ⟨e, hslice, hne, -⟩
      case inr =>
        rw [Exec.bind_of_error hslice] at h
        injection h with he
        exact absurd he (hne ())
      rw [Exec.bind_of_ok hslice] at h
      have hrest : Along Spends (loadSegments data cr3 (header data).phnum (header data).phoff 0 >>=
          fun heapEnd => mapStack cr3 >>= fun _ => pure (cr3, heapEnd) :
          Exec Unit (Machine σ) (ℕ × ℕ)) :=
        .bind (spends_loadSegments _ _ _ _ _) fun _ => .bind (spends_mapStack _) fun _ => .pure _
      obtain ⟨taken, htaken⟩ := hrest.of_error h
      have := htaken.avail_le
      omega

/-- `spawn_process` returns `Err(())`: the load did, and nothing was queued. -/
theorem spawnProcess_load (h : spawnProcess K (some data) top k = .error (.err ()) k') :
    ∃ s', loadProcess K data k.machine = .error (.err ()) s' ∧ k' = { k with machine := s' } := by
  rcases spawnProcess_run K data top k with ⟨cr3, heapEnd, s', -, hok⟩ | ⟨e, s', hload, herr⟩
  · rw [hok] at h
    cases h
  · rw [herr] at h
    cases h
    exact ⟨s', hload, rfl⟩

/-- No frame is taken if and only if as many are left. -/
theorem TakesFrames.empty_iff {taken : Finset ℕ} (h : TakesFrames taken s s') :
    taken = ∅ ↔ PageAllocator.avail s'.pages = PageAllocator.avail s.pages := by
  rw [← Finset.card_eq_zero]
  have := h.2.2
  omega

/-- **A failed exec.** When `spawn_process` returns `Err(())`, the scheduler and the next id are as
before, and no frame has come back to the allocator: it lacks those the call took. The call took
none when the file cannot be read or its header is refused, and six or more otherwise. -/
theorem spawnProcess_err {file : Option (List UInt8)}
    (h : spawnProcess K file top k = .error (.err ()) k') :
    k'.scheduler = k.scheduler ∧ k'.nextId = k.nextId ∧
      ∃ taken, TakesFrames taken k.machine k'.machine ∧
        (taken = ∅ ↔ ∀ data, file = some data → (header data).isValid = false) ∧
        (taken ≠ ∅ → 6 ≤ taken.card) := by
  obtain ⟨taken, htaken⟩ := (spends_spawnProcess K file top).of_error h
  cases file with
  | none =>
    injection h with _ hk
    subst hk
    have hnone : taken = ∅ := htaken.empty_iff.2 rfl
    exact ⟨rfl, rfl, taken, htaken, iff_of_true hnone (by simp), fun hne => absurd hnone hne⟩
  | some data =>
    obtain ⟨s', hload, rfl⟩ := spawnProcess_load h
    have hcard : PageAllocator.avail k.machine.pages =
        PageAllocator.avail s'.pages + taken.card := htaken.2.2
    rcases loadProcess_err hload with ⟨hinvalid, rfl⟩ | ⟨hvalid, hsix⟩
    · have hnone : taken = ∅ := htaken.empty_iff.2 rfl
      refine ⟨rfl, rfl, taken, htaken, iff_of_true hnone ?_, fun hne => absurd hnone hne⟩
      intro data' hdata
      rwa [← Option.some.inj hdata]
    · have hle : 6 ≤ taken.card := by omega
      refine ⟨rfl, rfl, taken, htaken, iff_of_false (fun hnone => ?_) fun hall => ?_, fun _ => hle⟩
      · rw [hnone, Finset.card_empty] at hle
        exact absurd hle (by decide)
      · rw [hall data rfl] at hvalid
        cases hvalid

/-! ## A failed sys_mmap -/

/-- The value of `lookup_page`. -/
def lookupAt (s : Machine σ) (cr3 va : ℕ) : Except (Fault Empty) (Option ℕ) :=
  match (lookupPage cr3 va : Exec Empty (Machine σ) (Option ℕ)) s with
  | .ok r _ => .ok r
  | .error e _ => .error e

/-- The current task has the same `heap_end` and the same pages, and as many frames are free. -/
structure MmapUnchanged (k k' : Kernel σ) : Prop where
  heapEnd : k'.scheduler.currentTask.map (·.heapEnd) = k.scheduler.currentTask.map (·.heapEnd)
  lookup : ∀ t, k.scheduler.currentTask = some t → ∀ va,
    lookupAt k'.machine t.cr3 va = lookupAt k.machine t.cr3 va
  avail : PageAllocator.avail k'.machine.pages = PageAllocator.avail k.machine.pages

/-- A kernel that did not change is unchanged. -/
theorem MmapUnchanged.refl (k : Kernel σ) : MmapUnchanged k k := ⟨rfl, fun _ _ _ => rfl, rfl⟩

/-- A loop that has a page to map and a frame for it takes the frame, however it ends. -/
theorem allocAnonFrom_takes {cr3 base n i : ℕ} {e : String} (hn : n ≠ 0)
    (havail : PageAllocator.avail s.pages ≠ 0)
    (h : allocAnonFrom cr3 base n i s = .error (.err e) s') :
    PageAllocator.avail s'.pages < PageAllocator.avail s.pages := by
  obtain ⟨n, rfl⟩ := Nat.exists_eq_succ_of_ne_zero hn
  rw [allocAnonFrom] at h
  split at h
  case isFalse => cases h
  case isTrue hlt =>
    cases ha : PageAllocator.allocPage s.pages with
    | none => exact absurd (PageAllocator.avail_none ha) havail
    | some p =>
      rw [Exec.bind_of_ok (allocPage_some ha)] at h
      have hrest : Along Spends (do
          zeroPage (← physToVirt p.1)
          mapUserPage cr3 (base + i * 4096) p.1 0x7
          allocAnonFrom cr3 base n (i + 1) : Exec String (Machine σ) PUnit) :=
        .bind (spends_of_samePages (samePages_physToVirt _)) fun _ =>
          .bind (spends_of_samePages (samePages_zeroPage _)) fun _ =>
          .bind (spends_mapUserPage _ _ _ _) fun _ => spends_allocAnonFrom _ _ _ _
      obtain ⟨taken, htaken⟩ := hrest.of_error h
      have hle := htaken.avail_le
      have hsome := PageAllocator.avail_some ha
      simp only at hle
      omega

/-- `sys_mmap` on a task returns `u64::MAX` only where `alloc_anon` returns an error; then
`heap_end` stays. -/
theorem mmapTask_max (hlen : len ≠ 0) : Sat ((mmapTask t len : Exec Empty (Machine σ) (ℕ × ℕ)) s)
    (fun r s' => r.1 = u64Max → r.2 = t.heapEnd ∧
      ∃ e, allocAnonFrom t.cr3 t.heapEnd (mmapPages len) 0 s = .error (.err e) s')
    fun _ _ => True := by
  have hpages : mmapPages len ≠ 0 := by
    rw [mmapPages]
    omega
  rw [mmapTask]
  split
  case isFalse => exact sat_error.2 trivial
  case isTrue =>
    refine Sat.bind (Sat.attempt ⟨fun {_ s₁} _ => ?_, fun {e s₁} herr => ?_⟩)
    · refine Sat.ite (fun hlt => sat_ok.2 fun hmax => ?_) fun _ => sat_error.2 trivial
      have hlt' : t.heapEnd + mmapPages len * 4096 < 2 ^ 64 := hlt
      have hmax' : t.heapEnd = 2 ^ 64 - 1 := hmax
      omega
    · refine ⟨fun e' he => sat_ok.2 fun _ => ⟨rfl, e', ?_⟩, fun _ => trivial⟩
      rw [← he]
      exact herr

/-- A failed `sys_mmap` leaves the scheduler as it is, and it has no frames left or used one up. -/
theorem sysMmap_max (hlen : len ≠ 0) (hcur : k.scheduler.currentTask = some t)
    (h : sysMmap len k = .ok u64Max k') : k'.scheduler = k.scheduler ∧
      (PageAllocator.avail k.machine.pages = 0 ∧ k' = k ∨
        PageAllocator.avail k'.machine.pages < PageAllocator.avail k.machine.pages) := by
  cases hr : (mmapTask t len : Exec Empty (Machine σ) (ℕ × ℕ)) k.machine with
  | error e s' =>
    rw [sysMmap, if_neg hlen, Exec.bind_of_ok (Exec.get_apply k), hcur] at h
    simp only at h
    rw [Exec.bind_of_error (onMachine_error hr)] at h
    cases h
  | ok r s' =>
    rw [sysMmap_of_ok hlen hcur hr] at h
    injection h with hmax hk
    obtain ⟨hend, e, hanon⟩ := (mmapTask_max hlen).of_ok hr hmax
    have hsched : k'.scheduler = k.scheduler := by
      rw [← hk, hend, setHeapEnd_scheduler (k := { k with machine := s' }) hcur]
      show { k.scheduler with currentTask := some t } = k.scheduler
      rw [← hcur]
    refine ⟨hsched, ?_⟩
    rcases Nat.eq_zero_or_pos (PageAllocator.avail k.machine.pages) with hzero | hpos
    · have hfull := (HeapCall.run_full (c := .mmap len) hzero hcur).of_ok
        (a := u64Max) (s := k') (by rw [HeapCall.run, sysMmap_of_ok hlen hcur hr, hmax, hk])
      exact .inl ⟨hzero, hfull⟩
    · have hpages : mmapPages len ≠ 0 := by
        rw [mmapPages]
        omega
      refine .inr ?_
      rw [← hk]
      exact allocAnonFrom_takes hpages (by omega) hanon

/-- **A failed sys_mmap.** When `sys_mmap` returns `u64::MAX` the scheduler is as before, and
`heap_end` with it. All the rest is as before exactly when the call asked for nothing, there is no
task, or no frame was free at the start. -/
theorem sysMmap_unchanged_iff (h : sysMmap len k = .ok u64Max k') : k'.scheduler = k.scheduler ∧
    (MmapUnchanged k k' ↔ len = 0 ∨ k.scheduler.currentTask = none ∨
      PageAllocator.avail k.machine.pages = 0) := by
  rcases eq_or_ne len 0 with rfl | hlen
  · injection h with _ hk
    subst hk
    exact ⟨rfl, iff_of_true (.refl k) (.inl rfl)⟩
  rcases hcur : k.scheduler.currentTask with _ | t
  · rw [sysMmap, if_neg hlen, Exec.bind_of_ok (Exec.get_apply k), hcur] at h
    injection h with _ hk
    subst hk
    exact ⟨rfl, iff_of_true (.refl k) (.inr (.inl rfl))⟩
  obtain ⟨hsched, ⟨hzero, rfl⟩ | hlt⟩ := sysMmap_max hlen hcur h
  · exact ⟨hsched, iff_of_true (.refl k') (.inr (.inr hzero))⟩
  · refine ⟨hsched, iff_of_false (fun hsame => ?_) ?_⟩
    · have := hsame.avail
      omega
    · have hpos : PageAllocator.avail k.machine.pages ≠ 0 := by omega
      simp [hlen, hpos]

end

/-! ## Few frames -/

/-- With six frames the small executable is refused at its first page; the six are gone. -/
theorem exists_failed_exec : ∃ k',
    spawnProcess bootTables (some (tinyElf 0x400010)) 0x8000 (fewKernel 6) =
      .error (.err ()) k' := by
  have hfate : (MemCall.spawn bootTables (some (tinyElf 0x400010)) 0x8000).fate (fewKernel 6) =
      .refused := by
    rw [MemCall.fate_spawn, fewKernel, avail_fewPages (by decide)]
    decide +kernel
  exact MemCall.reports_of_fate (.spawn _ _ _) _ trivial hfate

/-- The header of the small file is valid. -/
theorem valid_tinyElf : (header (tinyElf 0x400010)).isValid = true := by decide

/-- With six frames the small file is not loaded, and the six are taken. -/
theorem spawnProcess_err_tinyElf : ∃ k' taken,
    spawnProcess bootTables (some (tinyElf 0x400010)) 0x8000 (fewKernel 6) =
      .error (.err ()) k' ∧ k'.scheduler = (fewKernel 6).scheduler ∧
      TakesFrames taken (fewKernel 6).machine k'.machine ∧ 6 ≤ taken.card := by
  obtain ⟨k', hrun⟩ := exists_failed_exec
  obtain ⟨hsched, -, taken, htaken, hiff, hsix⟩ := spawnProcess_err hrun
  refine ⟨k', taken, hrun, hsched, htaken, hsix fun hnone => ?_⟩
  have hinvalid := hiff.1 hnone _ rfl
  rw [valid_tinyElf] at hinvalid
  cases hinvalid

/-- A failed exec that leaves something behind. -/
theorem exec_leaves_frames : ¬ ∀ (K : KernelTables) (file : Option (List UInt8)) (top : ℕ)
    (k k' : Kernel PmmState), spawnProcess K file top k = .error (.err ()) k' →
      PageAllocator.free k'.machine.pages = PageAllocator.free k.machine.pages ∧
        PageAllocator.avail k'.machine.pages = PageAllocator.avail k.machine.pages ∧
        k'.scheduler = k.scheduler := by
  intro hall
  obtain ⟨k', hrun⟩ := exists_failed_exec
  obtain ⟨-, hsame, -⟩ := hall _ _ _ _ _ hrun
  obtain ⟨s', hload, rfl⟩ := spawnProcess_load hrun
  have hsame' : PageAllocator.avail s'.pages =
      PageAllocator.avail (fewKernel 6).machine.pages := hsame
  rcases loadProcess_err hload with ⟨hinvalid, -⟩ | ⟨-, hsix⟩
  · rw [valid_tinyElf] at hinvalid
    cases hinvalid
  · omega

/-- A fresh address space, and the frames that are left. -/
theorem exists_placed {n : ℕ} (h : n + 6 ≤ 256) : ∃ (cr3 : ℕ) (s : Machine PmmState),
    Placed cr3 freshFootprint s ∧ PageAllocator.avail s.pages = n := by
  have hfew : PageAllocator.avail (fewPages (n + 6)) = n + 6 := avail_fewPages h
  have hrun := createUserAddressSpace_meets (ε := Empty) bootTables
    ⟨init bootTables fun _ => 0, fewPages (n + 6)⟩ (calm_nil [])
  rw [hfew] at hrun
  have hdone : fate (n + 6) (List.replicate 6 .table) = .done := by
    rw [fate_tables, if_pos (by omega)]
  have hsat := hrun (by rw [hdone]; simp)
  rw [hdone, frames_tables] at hsat
  cases hr : (Trace.createUserAddressSpace bootTables :
      Exec Empty (Machine PmmState × List Event) ℕ)
      (⟨init bootTables fun _ => 0, fewPages (n + 6)⟩, []) with
  | error e u => cases hsat.of_error hr
  | ok cr3 u =>
    obtain ⟨-, havail, -, hplaced⟩ := hsat.of_ok hr
    exact ⟨cr3, u.1, hplaced, by omega⟩

/-- The kernel while a task runs whose heap starts at 4 MB. -/
def heapKernel (cr3 : ℕ) (s : Machine PmmState) : Kernel PmmState :=
  ⟨s, ⟨[], some (newTask bootKernel (tinyElf 0x400010) 0x8000 cr3 0x400000)⟩, 1⟩

/-- Two frames for two pages: the first page gets one and its table the other. -/
theorem exists_failed_mmap : ∃ (cr3 : ℕ) (s : Machine PmmState) (k' : Kernel PmmState),
    PageAllocator.avail s.pages = 2 ∧ sysMmap 8192 (heapKernel cr3 s) = .ok u64Max k' := by
  obtain ⟨cr3, s, hplaced, havail⟩ := exists_placed (n := 2) (by decide)
  let t := newTask bootKernel (tinyElf 0x400010) 0x8000 cr3 0x400000
  have hfate : fate 2 (freshFootprint.growNeeds (pagesFrom 0x400000 (mmapPages 8192))) =
      .refused := by decide +kernel
  have hrun : Sat (Trace.mmapTask t 8192 (s, [])) _ _ := MemCall.mmapTask_fate hplaced
    (show 0x400000 < 2 ^ 64 by decide) (by decide) (by
      rw [havail]
      exact hfate ▸ by simp)
  rw [havail, show t.heapEnd = 0x400000 from rfl, hfate] at hrun
  have hlogs := Trace.logs_mmapTask t 8192 (s, [])
  cases hr : Trace.mmapTask t 8192 (s, []) with
  | error e u => cases (hrun.of_error hr).1
  | ok r u =>
    rw [hr] at hlogs
    obtain ⟨-, hmax⟩ := (hrun.of_ok hr).2.resolve_left (by simp)
    have hcall : sysMmap 8192 (heapKernel cr3 s) = .ok r.1 _ :=
      sysMmap_of_ok (by decide) rfl hlogs.symm
    exact ⟨cr3, s, _, havail, hmax ▸ hcall⟩

/-- With two frames a call for two pages fails and leaves one mapped. -/
theorem sysMmap_unchanged_iff_full : ∃ (k k' : Kernel PmmState), sysMmap 8192 k = .ok u64Max k' ∧
    k'.scheduler = k.scheduler ∧ ¬ MmapUnchanged k k' := by
  obtain ⟨cr3, s, k', havail, hrun⟩ := exists_failed_mmap
  obtain ⟨hsched, hiff⟩ := sysMmap_unchanged_iff hrun
  refine ⟨_, k', hrun, hsched, fun hsame => ?_⟩
  have hcases := hiff.1 hsame
  have hpages : PageAllocator.avail (heapKernel cr3 s).machine.pages = 2 := havail
  simp [heapKernel, havail] at hcases

/-- A failed `sys_mmap` that changes something. -/
theorem mmap_leaves_pages : ¬ ∀ (len : ℕ) (k k' : Kernel PmmState),
    sysMmap len k = .ok u64Max k' → MmapUnchanged k k' := by
  intro hall
  obtain ⟨cr3, s, k', havail, hrun⟩ := exists_failed_mmap
  have hsame := (hall _ _ _ hrun).avail
  have hpages : PageAllocator.avail (heapKernel cr3 s).machine.pages = 2 := havail
  obtain ⟨-, ⟨hzero, -⟩ | hlt⟩ := sysMmap_max (by decide) rfl hrun
  · omega
  · omega

end RossOs
