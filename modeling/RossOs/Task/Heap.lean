import RossOs.Task.Spawn

/-!
# The heap and the regions of a task

`sys_brk` and `sys_mmap` map fresh pages from `heap_end` on. Nothing in them looks at what is mapped
there: the stack is at a fixed address, 1 MB above the lowest segment, and a heap that grows that
far takes its pages. `taskRun_regions` is the positive side: while every page to be mapped is clear
of the stack, the segments, the stack and the heap are disjoint along every run, and no successful
call changes where a page is.
-/

namespace RossOs

open ByteMem Paging Elf

variable {σ : Type} [PageAllocator σ]

section
variable {e511 cr3 : ℕ} {s s' : Machine σ} {A A' : Space}

/-! ## The loops -/

/-- Taking a frame, zeroing it and mapping it, the turn that both loops make. -/
theorem mapZeroed_spec {ε α : Type} {v f : ℕ} {pages : σ} (h : Owned e511 s A)
    (hroot : A.table [] = some cr3) (hv : UserPage v)
    (ha : PageAllocator.allocPage s.pages = some (f, pages)) {rest : Exec ε (Machine σ) α}
    {Q : α → Machine σ → Prop} {E : Fault ε → Machine σ → Prop}
    (hok : ∀ s₁ A₁, Maps e511 4 {v} s A s₁ A₁ → Exec.Sat (rest s₁) Q E)
    (herr : ∀ s₁ A₁, Evolves e511 4 s A s₁ A₁ → PageAllocator.avail s₁.pages = 0 → E .panic s₁) :
    Exec.Sat ((do
      zeroPage (← physToVirt f)
      mapUserPage cr3 v f 0x7
      rest : Exec ε (Machine σ) α) { s with pages := pages }) Q E := by
  have hlt := PageAllocator.below (PageAllocator.mem_free ha)
  rw [Exec.bind_of_ok (physToVirt_run (by omega)), Exec.bind_of_ok (zeroPage_run _ f)]
  refine Exec.Sat.bind ((mapPage_spec h hroot hv.not_reserved ha sameOutside_clear
    (by decide)).mono ?_ ?_)
  · rintro _ s₁ ⟨A₁, hmap⟩
    exact hok s₁ A₁ hmap
  · rintro _ s₁ ⟨rfl, hnone, A₁, hev⟩
    exact herr s₁ A₁ hev hnone

/-- The pages before and after one page more. -/
theorem pagesBetween_succ {a n : ℕ} (ha : 4096 ∣ a) :
    {a} ∪ pagesBetween (a + 4096) (a + 4096 + 4096 * n) = pagesBetween a (a + 4096 * (n + 1)) := by
  ext p
  obtain ⟨q, rfl⟩ := ha
  refine ⟨?_, ?_⟩
  · rintro (rfl | ⟨hp, h1, h2⟩)
    · exact ⟨⟨q, rfl⟩, le_rfl, by omega⟩
    · exact ⟨hp, by omega, by omega⟩
  · rintro ⟨⟨r, rfl⟩, h1, h2⟩
    rcases Nat.lt_or_ge q r with hr | hr
    · exact .inr ⟨⟨r, rfl⟩, by omega, by omega⟩
    · exact .inl (by rw [Set.mem_singleton_iff]; omega)

/-- Between a break and itself there is no page. -/
theorem pagesBetween_self (a : ℕ) : pagesBetween a a = ∅ :=
  Set.eq_empty_of_forall_notMem fun _ hp => absurd hp.2.1 (by have := hp.2.2; omega)

/-- The loop of `sys_brk`: it maps as many pages as there are frames for. -/
theorem brkLoop_spec (n : ℕ) {addr : ℕ} (h : Owned e511 s A) (hroot : A.table [] = some cr3)
    (halign : 4096 ∣ addr) (hpages : ∀ p ∈ pagesBetween addr (addr + 4096 * n), UserPage p) :
    Exec.Sat ((brkLoop cr3 n addr : Exec Empty (Machine σ) ℕ) s)
      (fun r s' => ∃ j ≤ n, r = addr + 4096 * j ∧ (j < n → PageAllocator.avail s'.pages = 0) ∧
        ∃ A', Maps e511 (4 * j) (pagesBetween addr (addr + 4096 * j)) s A s' A')
      (fun _ s' => PageAllocator.avail s'.pages = 0 ∧ ∃ A', Evolves e511 (4 * n) s A s' A') := by
  induction n generalizing s A addr with
  | zero =>
    refine Exec.sat_ok.2 ⟨0, le_rfl, rfl, fun hlt => absurd hlt (Nat.lt_irrefl 0), A,
      (Maps.refl h).congr le_rfl (pagesBetween_self addr).symm⟩
  | succ n ih =>
    rw [brkLoop]
    cases ha : PageAllocator.allocPage s.pages with
    | none =>
      rw [Exec.bind_of_ok (allocPage_none ha)]
      exact Exec.sat_ok.2 ⟨0, by omega, rfl, fun _ => PageAllocator.avail_none ha, A,
        (Maps.refl h).congr le_rfl (pagesBetween_self addr).symm⟩
    | some r =>
      obtain ⟨f, pages⟩ := r
      rw [Exec.bind_of_ok (allocPage_some ha)]
      have hpage : UserPage addr := hpages addr ⟨halign, le_rfl, by omega⟩
      have hlt := hpage.lt
      refine mapZeroed_spec h hroot hpage ha ?_ ?_
      · intro s₁ A₁ hmap
        rw [if_pos (show addr + 4096 < 2 ^ 64 by omega)]
        have hrest := ih hmap.evolves.owned (hmap.evolves.root.trans hroot)
          (Nat.dvd_add halign ⟨1, rfl⟩) fun p hp => hpages p ⟨hp.1, by have := hp.2.1; omega,
            by have := hp.2.2; omega⟩
        refine hrest.mono ?_ ?_
        · rintro r s' ⟨j, hj, rfl, hstop, A', hmap'⟩
          refine ⟨j + 1, by omega, by omega, fun hlt => hstop (by omega), A',
            (hmap.trans hmap').congr (by omega) (pagesBetween_succ halign)⟩
        · rintro _ s' ⟨hnone, A', hev⟩
          exact ⟨hnone, A', (hmap.evolves.trans hev).weaken (by omega)⟩
      · intro s₁ A₁ hev hnone
        exact ⟨hnone, A₁, hev.weaken (by omega)⟩

/-- The loop of `alloc_anon`: all pages, or an error or a panic for want of a frame. -/
theorem allocAnonFrom_spec {base : ℕ} (n : ℕ) {i : ℕ} (h : Owned e511 s A)
    (hroot : A.table [] = some cr3) (halign : 4096 ∣ base)
    (hpages : ∀ p ∈ pagesBetween (base + 4096 * i) (base + 4096 * i + 4096 * n), UserPage p) :
    Exec.Sat ((allocAnonFrom cr3 base n i : Exec String (Machine σ) PUnit) s)
      (fun _ s' => ∃ A', Maps e511 (4 * n)
        (pagesBetween (base + 4096 * i) (base + 4096 * i + 4096 * n)) s A s' A')
      (fun _ s' => PageAllocator.avail s'.pages = 0 ∧ ∃ A', Evolves e511 (4 * n) s A s' A') := by
  induction n generalizing s A i with
  | zero =>
    exact Exec.sat_ok.2 ⟨A, (Maps.refl h).congr le_rfl (pagesBetween_self _).symm⟩
  | succ n ih =>
    have halign' : 4096 ∣ base + 4096 * i := Nat.dvd_add halign ⟨i, rfl⟩
    have hpage : UserPage (base + 4096 * i) := hpages _ ⟨halign', le_rfl, by omega⟩
    have hlt := hpage.lt
    rw [allocAnonFrom, if_pos (show base + i * 4096 < 2 ^ 64 by omega), Nat.mul_comm i 4096]
    cases ha : PageAllocator.allocPage s.pages with
    | none =>
      rw [Exec.bind_of_ok (allocPage_none ha)]
      exact Exec.sat_error.2
        ⟨PageAllocator.avail_none ha, A, (Evolves.refl h).weaken (Nat.zero_le _)⟩
    | some r =>
      obtain ⟨f, pages⟩ := r
      rw [Exec.bind_of_ok (allocPage_some ha)]
      refine mapZeroed_spec h hroot hpage ha ?_ ?_
      · intro s₁ A₁ hmap
        have hnext : base + 4096 * (i + 1) = base + 4096 * i + 4096 := by omega
        have hrest := ih (i := i + 1) hmap.evolves.owned (hmap.evolves.root.trans hroot)
          (by rw [hnext]; exact fun p hp => hpages p ⟨hp.1, by have := hp.2.1; omega,
            by have := hp.2.2; omega⟩)
        rw [hnext] at hrest
        refine hrest.mono ?_ ?_
        · rintro _ s' ⟨A', hmap'⟩
          exact ⟨A', (hmap.trans hmap').congr (by omega) (pagesBetween_succ halign')⟩
        · rintro _ s' ⟨hnone, A', hev⟩
          exact ⟨hnone, A', (hmap.evolves.trans hev).weaken (by omega)⟩
      · intro s₁ A₁ hev hnone
        exact ⟨hnone, A₁, hev.weaken (by omega)⟩

/-- `sys_brk` on a task maps the pages up to the address that it returns. -/
theorem brkTask_spec {t : Task} {newBrk : ℕ} (h : Owned e511 s A) (hroot : A.table [] = some t.cr3)
    (halign : 4096 ∣ t.heapEnd) (hpages : ∀ p ∈ pagesBetween t.heapEnd
      (t.heapEnd + 4096 * brkPages t.heapEnd newBrk), UserPage p) :
    Exec.Sat ((brkTask t newBrk : Exec Empty (Machine σ) ℕ) s)
      (fun r s' => ∃ j ≤ brkPages t.heapEnd newBrk, r = t.heapEnd + 4096 * j ∧
        ∃ A', Maps e511 (4 * j) (pagesBetween t.heapEnd (t.heapEnd + 4096 * j)) s A s' A')
      (fun _ s' => ∃ n A', Evolves e511 n s A s' A') := by
  have hstay : Exec.Sat ((pure t.heapEnd : Exec Empty (Machine σ) ℕ) s)
      (fun r s' => ∃ j ≤ brkPages t.heapEnd newBrk, r = t.heapEnd + 4096 * j ∧
        ∃ A', Maps e511 (4 * j) (pagesBetween t.heapEnd (t.heapEnd + 4096 * j)) s A s' A')
      (fun _ s' => ∃ n A', Evolves e511 n s A s' A') :=
    Exec.sat_ok.2 ⟨0, Nat.zero_le _, rfl, A, (Maps.refl h).congr le_rfl (pagesBetween_self _).symm⟩
  rw [brkTask]
  split
  case isTrue => exact hstay
  case isFalse =>
    split
    case isFalse => exact hstay
    case isTrue =>
      refine (brkLoop_spec _ h hroot halign hpages).mono ?_ ?_
      · rintro r s' ⟨j, hj, hr, -, hmap⟩
        exact ⟨j, hj, hr, hmap⟩
      · rintro _ s' ⟨-, A', hev⟩
        exact ⟨_, A', hev⟩

/-- How many pages `sys_mmap` asks for. -/
def mmapPages (len : ℕ) : ℕ := (len + 4095) / 4096

/-- `sys_mmap` on a task. A call that fails for want of a frame leaves its pages behind, but no
frame is left either. -/
theorem mmapTask_spec {t : Task} {len : ℕ} (h : Owned e511 s A) (hroot : A.table [] = some t.cr3)
    (halign : 4096 ∣ t.heapEnd)
    (hpages : ∀ p ∈ pagesBetween t.heapEnd (t.heapEnd + 4096 * mmapPages len), UserPage p) :
    Exec.Sat ((mmapTask t len : Exec Empty (Machine σ) (ℕ × ℕ)) s)
      (fun r s' => r.2 = t.heapEnd + 4096 * mmapPages len ∧ (∃ A', Maps e511 (4 * mmapPages len)
          (pagesBetween t.heapEnd (t.heapEnd + 4096 * mmapPages len)) s A s' A') ∨
        r = (u64Max, t.heapEnd) ∧ PageAllocator.avail s'.pages = 0 ∧
          ∃ n A', Evolves e511 n s A s' A')
      (fun _ s' => ∃ n A', Evolves e511 n s A s' A') := by
  rw [mmapTask]
  split
  case isFalse => exact Exec.sat_error.2 ⟨0, A, .refl h⟩
  case isTrue =>
    have hanon : Exec.Sat ((allocAnon t.cr3 t.heapEnd (mmapPages len) :
        Exec String (Machine σ) PUnit) s) _ _ :=
      allocAnonFrom_spec (mmapPages len) h hroot halign hpages
    refine Exec.Sat.bind (Exec.Sat.attempt (hanon.mono ?_ ?_))
    · rintro _ s' ⟨A', hmap⟩
      simp only
      split
      · exact Exec.sat_ok.2 (.inl ⟨by rw [mmapPages]; omega, A', hmap⟩)
      · exact Exec.sat_error.2 ⟨_, A', hmap.evolves⟩
    · rintro _ s' ⟨hnone, A', hev⟩
      exact ⟨fun _ _ => Exec.sat_ok.2 (.inr ⟨rfl, hnone, _, A', hev⟩), fun _ => ⟨_, A', hev⟩⟩

end

/-! ## The calls of a task -/

/-- A call of the current task that may grow its heap. -/
inductive HeapCall
  | brk (newBrk : ℕ)
  | mmap (len : ℕ)
deriving DecidableEq, Repr

/-- The system call. -/
def HeapCall.run : HeapCall → Exec Empty (Kernel σ) ℕ
  | .brk newBrk => sysBrk newBrk
  | .mmap len => sysMmap len

/-- The number of pages a call asks for. -/
def HeapCall.count (t : Task) : HeapCall → ℕ
  | .brk newBrk => brkPages t.heapEnd newBrk
  | .mmap len => mmapPages len

/-- The pages a call asks for. -/
def HeapCall.pages (t : Task) (c : HeapCall) : Set ℕ :=
  pagesBetween t.heapEnd (t.heapEnd + 4096 * c.count t)

/-- What a call does to the kernel when it returns `v`: the current task has `j` pages more, and a
`sys_mmap` that failed has used up the frames. -/
structure HeapCall.Effect (e511 : ℕ) (c : HeapCall) (t : Task) (j v : ℕ) (k : Kernel σ) (A : Space)
    (k' : Kernel σ) (A' : Space) : Prop where
  count : j ≤ c.count t
  scheduler : k'.scheduler =
    { k.scheduler with currentTask := some { t with heapEnd := t.heapEnd + 4096 * j } }
  nextId : k'.nextId = k.nextId
  machine : (∃ n, Maps e511 n (pagesBetween t.heapEnd (t.heapEnd + 4096 * j)) k.machine A
      k'.machine A') ∨
    v = u64Max ∧ j = 0 ∧ PageAllocator.avail k'.machine.pages = 0 ∧
      ∃ n, Evolves e511 n k.machine A k'.machine A'

section
variable {e511 : ℕ} {k k' : Kernel σ} {t : Task} {A : Space} {c : HeapCall} {v : ℕ}

omit [PageAllocator σ] in
/-- The new break goes to the current task. -/
theorem setHeapEnd_scheduler (hcur : k.scheduler.currentTask = some t) (h : ℕ) :
    (k.setHeapEnd h).scheduler =
      { k.scheduler with currentTask := some { t with heapEnd := h } } := by
  rw [Kernel.setHeapEnd, hcur]
  rfl

/-- `sys_brk` returns what it returns on the current task. -/
theorem sysBrk_of_ok {newBrk v : ℕ} {s : Machine σ} (hcur : k.scheduler.currentTask = some t)
    (hrun : (brkTask t newBrk : Exec Empty (Machine σ) ℕ) k.machine = .ok v s) :
    sysBrk newBrk k = .ok v (Kernel.setHeapEnd { k with machine := s } v) := by
  rw [sysBrk, Exec.bind_of_ok (Exec.get_apply k), hcur]
  simp only
  rw [Exec.bind_of_ok (onMachine_ok hrun)]
  rfl

/-- `sys_mmap` returns what it returns on the current task. -/
theorem sysMmap_of_ok {len : ℕ} {r : ℕ × ℕ} {s : Machine σ} (hlen : len ≠ 0)
    (hcur : k.scheduler.currentTask = some t)
    (hrun : (mmapTask t len : Exec Empty (Machine σ) (ℕ × ℕ)) k.machine = .ok r s) :
    sysMmap len k = .ok r.1 (Kernel.setHeapEnd { k with machine := s } r.2) := by
  rw [sysMmap, if_neg hlen, Exec.bind_of_ok (Exec.get_apply k), hcur]
  simp only
  rw [Exec.bind_of_ok (onMachine_ok hrun)]
  rfl

/-- The system calls, on the current task. -/
theorem HeapCall.run_spec (h : Owned e511 k.machine A) (hroot : A.table [] = some t.cr3)
    (hcur : k.scheduler.currentTask = some t) (halign : 4096 ∣ t.heapEnd)
    (hpages : ∀ p ∈ c.pages t, UserPage p) :
    Exec.Sat (c.run k) (fun v k' => ∃ j A', c.Effect e511 t j v k A k' A')
      (fun _ k' => k'.scheduler = k.scheduler ∧ k'.nextId = k.nextId ∧
        ∃ n A', Evolves e511 n k.machine A k'.machine A') := by
  cases c with
  | brk newBrk =>
    rw [HeapCall.run, sysBrk, Exec.bind_of_ok (Exec.get_apply k), hcur]
    refine Exec.Sat.bind (onMachine_sat ((brkTask_spec h hroot halign hpages).mono ?_ ?_))
    · rintro _ s' ⟨j, hj, rfl, A', hmap⟩
      exact Exec.sat_ok.2 ⟨j, A', hj, setHeapEnd_scheduler hcur _, rfl, .inl ⟨_, hmap⟩⟩
    · intro _ s' hev
      exact ⟨rfl, rfl, hev⟩
  | mmap len =>
    rw [HeapCall.run, sysMmap]
    split
    case isTrue hzero =>
      refine Exec.sat_ok.2 ⟨0, A, Nat.zero_le _, ?_, rfl, .inl ⟨0, (Maps.refl h).congr le_rfl
        (pagesBetween_self _).symm⟩⟩
      rw [Nat.mul_zero, Nat.add_zero, ← hcur]
    case isFalse =>
      rw [Exec.bind_of_ok (Exec.get_apply k), hcur]
      refine Exec.Sat.bind (onMachine_sat ((mmapTask_spec h hroot halign hpages).mono ?_ ?_))
      · rintro ⟨v, heapEnd⟩ s' (⟨hend, A', hmap⟩ | ⟨hr, hnone, n, A', hev⟩)
        · simp only at hend
          subst hend
          exact Exec.sat_ok.2 ⟨mmapPages len, A', le_rfl, setHeapEnd_scheduler hcur _, rfl,
            .inl ⟨_, hmap⟩⟩
        · cases hr
          exact Exec.sat_ok.2 ⟨0, A', Nat.zero_le _, setHeapEnd_scheduler hcur _, rfl,
            .inr ⟨rfl, rfl, hnone, n, hev⟩⟩
      · intro _ s' hev
        exact ⟨rfl, rfl, hev⟩

/-- With frames enough, `sys_brk` grows the heap as far as it is asked to. -/
theorem sysBrk_ok (newBrk : ℕ) (h : Owned e511 k.machine A) (hroot : A.table [] = some t.cr3)
    (hcur : k.scheduler.currentTask = some t) (halign : 4096 ∣ t.heapEnd)
    (hnew : t.heapEnd < newBrk) (hpages : ∀ p ∈ HeapCall.pages t (.brk newBrk), UserPage p)
    (havail : 4 * brkPages t.heapEnd newBrk < PageAllocator.avail k.machine.pages) :
    ∃ k' n A', sysBrk newBrk k = .ok (t.heapEnd + 4096 * brkPages t.heapEnd newBrk) k' ∧
      k'.scheduler = { k.scheduler with
        currentTask := some { t with heapEnd := t.heapEnd + 4096 * brkPages t.heapEnd newBrk } } ∧
      Maps e511 n (HeapCall.pages t (.brk newBrk)) k.machine A k'.machine A' := by
  have htask : (brkTask t newBrk : Exec Empty (Machine σ) ℕ) =
      brkLoop t.cr3 (brkPages t.heapEnd newBrk) t.heapEnd := by
    rw [brkTask, if_neg (show newBrk ≠ 0 by omega), if_pos hnew]
  have hloop := brkLoop_spec _ h hroot halign hpages
  rw [HeapCall.count, ← htask] at hloop
  cases hrun : (brkTask t newBrk : Exec Empty (Machine σ) ℕ) k.machine with
  | ok r s' =>
    obtain ⟨j, hj, rfl, hstop, A', hmap⟩ := hloop.of_ok hrun
    obtain rfl : j = brkPages t.heapEnd newBrk := by
      by_contra hne
      have hnone := hstop (by omega)
      have := hmap.evolves.avail
      omega
    let k₁ : Kernel σ := { k with machine := s' }
    refine ⟨k₁.setHeapEnd (t.heapEnd + 4096 * brkPages t.heapEnd newBrk), _, A', ?_,
      setHeapEnd_scheduler (k := k₁) hcur _, hmap⟩
    exact sysBrk_of_ok hcur hrun
  | error e s' =>
    obtain ⟨hnone, A', hev⟩ := hloop.of_error hrun
    have := hev.avail
    omega

/-- With no frame left, `sys_brk` does not move `heap_end`. -/
theorem brkTask_full {s : Machine σ} (hnone : PageAllocator.allocPage s.pages = none) (t : Task)
    (newBrk : ℕ) : (brkTask t newBrk : Exec Empty (Machine σ) ℕ) s = .ok t.heapEnd s := by
  have hloop : ∀ n, (brkLoop t.cr3 n t.heapEnd : Exec Empty (Machine σ) ℕ) s =
      .ok t.heapEnd s := by
    intro n
    cases n with
    | zero => rfl
    | succ n =>
      rw [brkLoop, Exec.bind_of_ok (allocPage_none hnone)]
      rfl
  rw [brkTask]
  split
  · rfl
  · split
    · exact hloop _
    · rfl

/-- With no frame left, `sys_mmap` fails. -/
theorem mmapTask_full {s : Machine σ} (hnone : PageAllocator.allocPage s.pages = none) (t : Task)
    {len : ℕ} (hlen : len ≠ 0) :
    Exec.Sat ((mmapTask t len : Exec Empty (Machine σ) (ℕ × ℕ)) s)
      (fun r s' => r = (u64Max, t.heapEnd) ∧ s' = s) (fun _ _ => True) := by
  rw [mmapTask]
  split
  case isFalse => exact Exec.sat_error.2 trivial
  case isTrue =>
    obtain ⟨n, hn⟩ : ∃ n, (len + 4095) / 4096 = n + 1 := ⟨(len + 4095) / 4096 - 1, by omega⟩
    simp only [hn]
    refine Exec.Sat.bind (Exec.Sat.attempt ?_)
    rw [allocAnon, allocAnonFrom]
    split
    · rw [Exec.bind_of_ok (allocPage_none hnone)]
      exact Exec.sat_error.2 ⟨fun _ _ => Exec.sat_ok.2 ⟨rfl, rfl⟩, fun _ => trivial⟩
    · exact Exec.sat_error.2 ⟨fun _ he => (nomatch he), fun _ => trivial⟩

/-- With no frame left, no call changes anything. -/
theorem HeapCall.run_full (hfull : PageAllocator.avail k.machine.pages = 0)
    (hcur : k.scheduler.currentTask = some t) :
    Exec.Sat (c.run k) (fun _ k' => k' = k) (fun _ _ => True) := by
  have hnone : PageAllocator.allocPage k.machine.pages = none := by
    cases ha : PageAllocator.allocPage k.machine.pages with
    | none => rfl
    | some r =>
      have := PageAllocator.avail_some ha
      omega
  have hstay : k.setHeapEnd t.heapEnd = k := by
    rw [Kernel.setHeapEnd, hcur]
    simp only [Option.map_some]
    rw [← hcur]
  cases c with
  | brk newBrk =>
    rw [HeapCall.run, sysBrk, Exec.bind_of_ok (Exec.get_apply k), hcur]
    simp only
    rw [Exec.bind_of_ok (onMachine_ok (brkTask_full hnone t newBrk))]
    exact Exec.sat_ok.2 hstay
  | mmap len =>
    rw [HeapCall.run, sysMmap]
    split
    case isTrue => exact Exec.sat_ok.2 rfl
    case isFalse hlen =>
      rw [Exec.bind_of_ok (Exec.get_apply k), hcur]
      refine Exec.Sat.bind (onMachine_sat ((mmapTask_full hnone t hlen).mono ?_ ?_))
      · rintro _ _ ⟨rfl, rfl⟩
        exact Exec.sat_ok.2 hstay
      · exact fun _ _ _ => trivial

end

/-! ## Runs of a task -/

/-- What a task does from its start: `spawn_process` returns for the file `data`, and then the task
makes heap calls that return, each under the condition `C`, while the scheduler may stop and resume
it. `h₀` is the `heap_end` it starts with. -/
inductive TaskRun (K : KernelTables) (data : List UInt8) (C : Task → HeapCall → Prop) (h₀ : ℕ) :
    Machine σ → Task → Prop
  | spawn {k k' : Kernel σ} {top : ℕ} {t : Task} :
    spawnProcess K (some data) top k = .ok ⟨⟩ k' →
    k'.scheduler.tasks = k.scheduler.tasks ++ [t] → t.heapEnd = h₀ →
    TaskRun K data C h₀ k'.machine t
  | switch {s : Machine σ} {t : Task} (rsp : ℕ) (state : TaskState) :
    TaskRun K data C h₀ s t → TaskRun K data C h₀ s { t with rsp := rsp, state := state }
  | call {k k' : Kernel σ} {t t' : Task} {c : HeapCall} {v : ℕ} :
    TaskRun K data C h₀ k.machine t → k.scheduler.currentTask = some t → C t c →
    c.run k = .ok v k' → k'.scheduler.currentTask = some t' →
    TaskRun K data C h₀ k'.machine t'

/-- The pages of the segments, the stack and the heap of a task have no page in common. -/
def RegionsDisjoint (data : List UInt8) (h₀ heapEnd : ℕ) : Prop :=
  Disjoint (segPages (programHeaders data)) stackSet ∧
  Disjoint (segPages (programHeaders data)) (pagesBetween h₀ heapEnd) ∧
  Disjoint stackSet (pagesBetween h₀ heapEnd)

/-- Every address of the task's half that was mapped still translates to the same place. -/
def KeepsPages (s s' : Machine σ) (cr3 : ℕ) : Prop :=
  ∀ va leaf, index 39 va ≠ 511 → walk s.mem cr3 va = some leaf → walk s'.mem cr3 va = some leaf

/-- Pages that a task can have beside its stack. -/
def ClearOfStack (P : Set ℕ) : Prop := ∀ p ∈ P, UserPage p ∧ p ∉ stackSet

section
variable {K : KernelTables} {data : List UInt8} {h₀ e511 : ℕ} {k k' : Kernel σ} {s s' : Machine σ}
  {t t' : Task} {A A' : Space} {c : HeapCall} {v : ℕ} {P : Set ℕ}

/-- The invariant of a run: the task's address space, and which pages it has. After a `sys_mmap`
that ran out of frames there are pages above `heap_end`, but then no frame is left. -/
structure TaskInv (data : List UInt8) (h₀ e511 : ℕ) (s : Machine σ) (t : Task) (A : Space) :
    Prop where
  owned : Owned e511 s A
  root : A.table [] = some t.cr3
  aligned : 4096 ∣ t.heapEnd
  start : h₀ = segEnd (programHeaders data) 0
  le : h₀ ≤ t.heapEnd
  seg : ClearOfStack (segPages (programHeaders data))
  heap : ClearOfStack (pagesBetween h₀ t.heapEnd)
  pages : PageAllocator.avail s.pages = 0 ∨ ∀ {p : List ℕ}, A.leaf p ≠ 0 →
    ∃ page ∈ segPages (programHeaders data) ∪ stackSet ∪ pagesBetween h₀ t.heapEnd,
      p = pagePath page

/-- Pages clear of the stack share no address with it. -/
theorem ClearOfStack.disjoint (h : ClearOfStack P) : Disjoint P stackSet :=
  Set.disjoint_left.2 fun p hp => (h p hp).2

/-- The segments end where the heap starts. -/
theorem lt_segEnd {p : ℕ} (hp : p ∈ segPages (programHeaders data)) :
    p < segEnd (programHeaders data) 0 := by
  obtain ⟨ph, hph, ht, -, -, hlt⟩ := hp
  exact Nat.lt_of_lt_of_le hlt (pageEnd_le_segEnd hph ht 0)

/-- The image, the heap and the stack of a task are disjoint. -/
theorem TaskInv.regionsDisjoint (h : TaskInv data h₀ e511 s t A) :
    RegionsDisjoint data h₀ t.heapEnd := by
  refine ⟨h.seg.disjoint, Set.disjoint_left.2 fun p hseg hheap => ?_, h.heap.disjoint.symm⟩
  have hlt := lt_segEnd hseg
  rw [← h.start] at hlt
  exact absurd hheap.2.1 (by omega)

/-- A page of the stack has its address there. -/
theorem userPage_of_mem_stackSet {p : ℕ} (hp : p ∈ stackSet) : UserPage p := by
  obtain ⟨-, h1, h2⟩ := hp
  simp only [stackVaddr, stackPages] at h1 h2
  exact .inl ⟨by omega, by omega⟩

/-- A page of the task, but for those a failed `sys_mmap` left: its address is a user address, and
it is aligned, below `heap_end` or on the stack. -/
theorem TaskInv.page_cases (h : TaskInv data h₀ e511 s t A) {page : ℕ}
    (hpage : page ∈ segPages (programHeaders data) ∪ stackSet ∪ pagesBetween h₀ t.heapEnd) :
    UserPage page ∧ 4096 ∣ page ∧ (page < t.heapEnd ∨ page ∈ stackSet) := by
  rcases hpage with (hseg | hstack) | hheap
  · have hlt := lt_segEnd hseg
    have hle := h.le
    rw [h.start] at hle
    obtain ⟨ph, -, -, hdvd, -⟩ := id hseg
    exact ⟨(h.seg page hseg).1, hdvd, .inl (by omega)⟩
  · exact ⟨userPage_of_mem_stackSet hstack, hstack.1, .inr hstack⟩
  · exact ⟨(h.heap page hheap).1, hheap.1, .inl hheap.2.2⟩

/-- No page of the task is among the pages above `heap_end` that are clear of the stack. -/
theorem TaskInv.not_above (h : TaskInv data h₀ e511 s t A) {b page : ℕ}
    (hclear : ClearOfStack (pagesBetween t.heapEnd b))
    (hpage : page ∈ segPages (programHeaders data) ∪ stackSet ∪ pagesBetween h₀ t.heapEnd)
    {above : ℕ} (habove : above ∈ pagesBetween t.heapEnd b) : pagePath page ≠ pagePath above := by
  intro he
  obtain ⟨huser, hdvd, hwhere⟩ := h.page_cases hpage
  obtain ⟨huser', hstack'⟩ := hclear above habove
  have hlt := huser.lt
  have hlt' := huser'.lt
  have hdiv := (pagePath_eq_iff (by omega) (by omega)).1 he
  obtain ⟨hdvd', hlow, -⟩ := habove
  obtain ⟨q, rfl⟩ := hdvd
  obtain ⟨r, rfl⟩ := hdvd'
  rw [Nat.mul_div_cancel_left _ (by decide), Nat.mul_div_cancel_left _ (by decide)] at hdiv
  subst hdiv
  rcases hwhere with hbelow | hon
  · omega
  · exact hstack' hon

/-- Translations survive while the entries of mapped pages do. -/
theorem keepsPages_of_leaf {cr3 : ℕ} (h : Owned e511 s A) (h' : Owned e511 s' A')
    (hroot : A.table [] = some cr3) (hroot' : A'.table [] = some cr3)
    (hleaf : ∀ p, A.leaf p ≠ 0 → A'.leaf p = A.leaf p) : KeepsPages s s' cr3 := by
  intro va leaf hhalf hwalk
  by_cases hres : Reserved va
  · have hident := hres.resolve_left hhalf
    rw [h.walk_ident hroot hident] at hwalk
    rw [h'.walk_ident hroot' hident, hwalk]
  · rw [h.walk_eq hroot hres] at hwalk
    have hne : A.leaf (pagePath va) ≠ 0 := by
      intro hzero
      rw [hzero] at hwalk
      cases hwalk
    rw [h'.walk_eq hroot' hres, hleaf _ hne, hwalk]

/-- One call: the invariant is kept, and when the call succeeds so is every translation. -/
theorem TaskInv.call (h : TaskInv data h₀ e511 k.machine t A)
    (hcur : k.scheduler.currentTask = some t) (hclear : ClearOfStack (c.pages t))
    (hrun : c.run k = .ok v k') (hcur' : k'.scheduler.currentTask = some t') :
    (∃ A', TaskInv data h₀ e511 k'.machine t' A') ∧
      (v ≠ u64Max → KeepsPages k.machine k'.machine t.cr3) := by
  rcases h.pages with hfull | hpages
  · obtain rfl := (HeapCall.run_full hfull hcur).of_ok hrun
    rw [hcur] at hcur'
    cases hcur'
    exact ⟨⟨A, h⟩, fun _ => fun _ _ _ hwalk => hwalk⟩
  · obtain ⟨j, A', heff⟩ := (HeapCall.run_spec h.owned h.root hcur h.aligned
      fun p hp => (hclear p hp).1).of_ok hrun
    rw [heff.scheduler] at hcur'
    cases hcur'
    have hsub : pagesBetween t.heapEnd (t.heapEnd + 4096 * j) ⊆ c.pages t := fun p hp =>
      ⟨hp.1, hp.2.1, by have := hp.2.2; have := heff.count; omega⟩
    have hclear' : ClearOfStack (pagesBetween t.heapEnd (t.heapEnd + 4096 * j)) :=
      fun p hp => hclear p (hsub hp)
    have hheap : pagesBetween h₀ (t.heapEnd + 4096 * j) =
        pagesBetween h₀ t.heapEnd ∪ pagesBetween t.heapEnd (t.heapEnd + 4096 * j) :=
      Set.ext fun p => ⟨fun hp => (Nat.lt_or_ge p t.heapEnd).imp (fun hlt => ⟨hp.1, hp.2.1, hlt⟩)
        fun hge => ⟨hp.1, hge, hp.2.2⟩, fun hp => hp.elim
          (fun hp => ⟨hp.1, hp.2.1, by have := hp.2.2; omega⟩)
          fun hp => ⟨hp.1, h.le.trans hp.2.1, hp.2.2⟩⟩
    have halign : 4096 ∣ t.heapEnd + 4096 * j := Nat.dvd_add h.aligned ⟨j, rfl⟩
    have hle : h₀ ≤ t.heapEnd + 4096 * j := h.le.trans (Nat.le_add_right _ _)
    have hclearHeap : ClearOfStack (pagesBetween h₀ (t.heapEnd + 4096 * j)) := by
      rw [hheap]
      exact fun p hp => hp.elim (h.heap p) (hclear' p)
    rcases heff.machine with ⟨n, hmap⟩ | ⟨hv, -, hnone, n, hev⟩
    · refine ⟨⟨A', hmap.evolves.owned, hmap.evolves.root.trans h.root, halign, h.start, hle, h.seg,
        hclearHeap, .inr fun {p} hp => ?_⟩, fun _ => ?_⟩
      · by_cases hnew : ∃ page ∈ pagesBetween t.heapEnd (t.heapEnd + 4096 * j), p = pagePath page
        · obtain ⟨page, hpage, he⟩ := hnew
          exact ⟨page, .inr (by rw [hheap]; exact .inr hpage), he⟩
        · rw [hmap.other fun page hpage he => hnew ⟨page, hpage, he⟩] at hp
          obtain ⟨page, hpage, he⟩ := hpages hp
          refine ⟨page, hpage.imp_right fun hin => ?_, he⟩
          rw [hheap]
          exact .inl hin
      · refine keepsPages_of_leaf h.owned hmap.evolves.owned h.root
          (hmap.evolves.root.trans h.root) fun p hp => ?_
        obtain ⟨page, hpage, rfl⟩ := hpages hp
        exact hmap.other fun above habove => h.not_above hclear' hpage habove
    · exact ⟨⟨A', hev.owned, hev.root.trans h.root, halign, h.start, hle, h.seg, hclearHeap,
        .inl hnone⟩, fun hne => absurd hv hne⟩

/-- The task that a load leaves behind. -/
theorem Loaded.taskInv {cr3 heapEnd top : ℕ} (h : Loaded data e511 s cr3 heapEnd s' A)
    (hseg : ClearOfStack (segPages (programHeaders data))) :
    TaskInv data heapEnd e511 s' (newTask k data top cr3 heapEnd) A where
  owned := h.owned
  root := h.root
  aligned := by
    show 4096 ∣ heapEnd
    rw [h.heapEnd_eq]
    exact dvd_segEnd (Nat.dvd_zero _) h.nowrap
  start := h.heapEnd_eq
  le := le_rfl
  seg := hseg
  heap := fun p hp => absurd hp.2.1 (Nat.not_le.2 hp.2.2)
  pages := .inr fun hp => by
    obtain ⟨page, hpage, he⟩ := h.only hp
    exact ⟨page, .inl hpage, he⟩

/-- The invariant along a run whose pages are all clear of the stack. -/
theorem TaskRun.inv (hseg : ClearOfStack (segPages (programHeaders data)))
    (h : TaskRun K data (fun t c => ClearOfStack (c.pages t)) h₀ s t) :
    ∃ e511 A, TaskInv data h₀ e511 s t A := by
  induction h with
  | @spawn k k' top t hrun hlast hstart =>
    rcases spawnProcess_run K data top k with ⟨cr3, heapEnd, s', hload, hok⟩ | ⟨e, s', -, herr⟩
    case inr => rw [herr] at hrun; cases hrun
    rw [hok] at hrun
    cases hrun
    obtain ⟨-, A, hA⟩ := (loadProcess_spec K k.machine fun p hp => (hseg p hp).1).of_ok hload
    obtain rfl : newTask k data top cr3 heapEnd = t := by
      have hlast' := List.append_cancel_left hlast
      injection hlast'
    obtain rfl : heapEnd = h₀ := hstart
    exact ⟨_, A, hA.taskInv hseg⟩
  | switch rsp state _ ih =>
    obtain ⟨e511, A, hA⟩ := ih
    exact ⟨e511, A, hA.owned, hA.root, hA.aligned, hA.start, hA.le, hA.seg, hA.heap, hA.pages⟩
  | call _ hcur hclear hrun hcur' ih =>
    obtain ⟨e511, A, hA⟩ := ih
    exact ⟨e511, (hA.call hcur hclear hrun hcur').1⟩

/-- **The regions of a task do not collide** while no page to be mapped is on the stack: in every
state of such a run the segments, the stack and the heap are disjoint, and no successful call moves
a page that is mapped. -/
theorem taskRun_regions (hseg : ClearOfStack (segPages (programHeaders data)))
    (h : TaskRun K data (fun t c => ClearOfStack (c.pages t)) h₀ k.machine t) :
    RegionsDisjoint data h₀ t.heapEnd ∧
      ∀ (c : HeapCall) (v : ℕ) (k' : Kernel σ), k.scheduler.currentTask = some t →
        ClearOfStack (c.pages t) → c.run k = .ok v k' → v ≠ u64Max →
        KeepsPages k.machine k'.machine t.cr3 := by
  obtain ⟨e511, A, hA⟩ := h.inv hseg
  refine ⟨hA.regionsDisjoint, fun c v k' hcur hclear hrun => ?_⟩
  cases hcur' : k'.scheduler.currentTask with
  | some t' => exact (hA.call hcur hclear hrun hcur').2
  | none =>
    obtain ⟨j, A', heff⟩ := (HeapCall.run_spec hA.owned hA.root hcur hA.aligned
      fun p hp => (hclear p hp).1).of_ok hrun
    rw [heff.scheduler] at hcur'
    cases hcur'

end

/-! ## A heap that meets the stack -/

/-- The one program header of the file below the stack. -/
theorem programHeaders_tinyElf_low : programHeaders (tinyElf 0x4FE010) =
    [⟨1, 5, 120, 0x4FE010, 4, 8⟩] := by decide

/-- The pages of one segment to load. -/
theorem segPages_singleton (ph : ProgramHeader) (h : ph.type = ptLoad) :
    segPages [ph] = ph.pages := by
  ext p
  refine ⟨?_, fun hp => ⟨ph, List.mem_singleton_self _, h, hp⟩⟩
  rintro ⟨q, hq, -, hp⟩
  rwa [List.mem_singleton.1 hq] at hp

/-- After boot the small executable is spawned and gets the processor. -/
theorem exists_taskRun_tinyElf {vaddr h₀ : ℕ} {C : Task → HeapCall → Prop}
    (helf : LoadableElf (tinyElf vaddr)) (hframes : loadFrames (tinyElf vaddr) = 42)
    (hstart : segEnd (programHeaders (tinyElf vaddr)) 0 = h₀) :
    ∃ (k : Kernel PmmState) (t : Task), TaskRun bootTables (tinyElf vaddr) C h₀ k.machine t ∧
      k.scheduler = ⟨[], some t⟩ ∧ t.heapEnd = h₀ ∧ 214 ≤ PageAllocator.avail k.machine.pages ∧
      ∃ e511 A, Owned e511 k.machine A ∧ A.table [] = some t.cr3 ∧
        ∀ page ∈ stackSet, A.leaf (pagePath page) ≠ 0 := by
  have hboot : PageAllocator.avail bootKernel.machine.pages = 256 := avail_bootPages
  obtain ⟨k', hrun⟩ := helf.spawnProcess_ok (k := bootKernel) (K := bootTables) 0x8000
    (by rw [phoff_tinyElf]) (by rw [hframes, hboot]; decide)
  rcases spawnProcess_run bootTables (tinyElf vaddr) 0x8000 bootKernel with
    ⟨cr3, heapEnd, s', hload, hok⟩ | ⟨e, s', -, herr⟩
  case inr => rw [herr] at hrun; cases hrun
  obtain ⟨-, A, hA⟩ := (loadProcess_spec bootTables bootKernel.machine helf.userPage).of_ok hload
  have hrest := hA.avail
  rw [hframes, hboot] at hrest
  have hheap : heapEnd = h₀ := hA.heapEnd_eq.trans hstart
  have hspawn := TaskRun.spawn (C := C) hok rfl hheap
  have hleft : 214 ≤ PageAllocator.avail s'.pages := by omega
  let t : Task := { newTask bootKernel (tinyElf vaddr) 0x8000 cr3 heapEnd with state := .running }
  exact ⟨⟨s', ⟨[], some t⟩, 1⟩, t, hspawn.switch _ .running, rfl, hheap,
    hleft, _, A, hA.owned, hA.root, fun page hpage => hA.stack hpage⟩

/-- The small executable at 4 MB is clear of the stack, and so is a page of heap after it: the heap
grows, and nothing that was mapped moves. -/
theorem taskRun_regions_tinyElf : ∃ (k k' : Kernel PmmState) (t : Task) (v : ℕ),
    TaskRun bootTables (tinyElf 0x400010) (fun t c => ClearOfStack (c.pages t)) 0x401000
      k.machine t ∧
    HeapCall.run (.brk 0x402000) k = .ok v k' ∧ v ≠ u64Max ∧
    RegionsDisjoint (tinyElf 0x400010) 0x401000 t.heapEnd ∧
    KeepsPages k.machine k'.machine t.cr3 := by
  obtain ⟨k, t, hstart, hsched, hheap, havail, e511, A, hA, hroot, -⟩ :=
    exists_taskRun_tinyElf (C := fun t c => ClearOfStack (c.pages t)) loadableElf_tinyElf
      loadFrames_tinyElf (show segEnd (programHeaders (tinyElf 0x400010)) 0 = 0x401000 by
        rw [programHeaders_tinyElf]; decide)
  have hcur : k.scheduler.currentTask = some t := by rw [hsched]
  have hclear : ∀ {b : ℕ}, b ≤ 0x500000 → ClearOfStack (pagesBetween 0x400000 b) :=
    fun hb p hp => ⟨.inl ⟨hp.2.1, by have := hp.2.2; omega⟩, fun hstack => by
      have h1 := hp.2.2
      have h2 := hstack.2.1
      simp only [stackVaddr] at h2
      omega⟩
  have hseg : ClearOfStack (segPages (programHeaders (tinyElf 0x400010))) := by
    rw [programHeaders_tinyElf, segPages_singleton _ rfl]
    exact hclear (b := 0x401000) (by decide)
  have hcount : brkPages t.heapEnd 0x402000 = 1 := by rw [hheap]; rfl
  have hpages : ClearOfStack (HeapCall.pages t (.brk 0x402000)) := by
    rw [HeapCall.pages, HeapCall.count, hcount, hheap]
    exact fun p hp => hclear (b := 0x402000) (by decide) p ⟨hp.1, by have := hp.2.1; omega, hp.2.2⟩
  obtain ⟨k', n, A', hrun, -, -⟩ := sysBrk_ok 0x402000 hA hroot hcur
    (by rw [hheap]; decide) (by omega) (fun p hp => (hpages p hp).1) (by rw [hcount]; omega)
  obtain ⟨hdisj, hkeep⟩ := taskRun_regions hseg hstart
  have hv : t.heapEnd + 4096 * brkPages t.heapEnd 0x402000 ≠ u64Max := by
    rw [hcount, hheap]
    decide
  exact ⟨k, k', t, _, hstart, hrun, hv, hdisj, hkeep (.brk 0x402000) _ k' hcur hpages hrun hv⟩

/-- The file needs 42 frames. -/
theorem loadFrames_tinyElf_low : loadFrames (tinyElf 0x4FE010) = 42 := by
  rw [loadFrames, programHeaders_tinyElf_low]
  decide

/-- The file can be loaded. -/
theorem loadableElf_tinyElf_low : LoadableElf (tinyElf 0x4FE010) :=
  loadableElf_of_segments (by decide) (by decide) (by decide) (by decide) (by decide)

/-- An executable whose last page is two pages below the stack: when the task asks for two pages of
heap, `sys_brk` returns them, the second is the first page of the stack, and the stack there is
gone. -/
theorem brk_replaces_stack : ∃ (k k' : Kernel PmmState) (t t' : Task),
    TaskRun bootTables (tinyElf 0x4FE010) (fun _ _ => True) 0x4FF000 k.machine t ∧
    k.scheduler.currentTask = some t ∧ HeapCall.run (.brk 0x501000) k = .ok 0x501000 k' ∧
    TaskRun bootTables (tinyElf 0x4FE010) (fun _ _ => True) 0x4FF000 k'.machine t' ∧
    ¬ RegionsDisjoint (tinyElf 0x4FE010) 0x4FF000 t'.heapEnd ∧
    ¬ KeepsPages k.machine k'.machine t.cr3 := by
  obtain ⟨k, t, hstart, hsched, hheap, havail, e511, A, hA, hroot, hstack⟩ :=
    exists_taskRun_tinyElf (C := fun _ _ => True) loadableElf_tinyElf_low loadFrames_tinyElf_low
      (show segEnd (programHeaders (tinyElf 0x4FE010)) 0 = 0x4FF000 by
        rw [programHeaders_tinyElf_low]; decide)
  have hcur : k.scheduler.currentTask = some t := by rw [hsched]
  have hpages : HeapCall.pages t (.brk 0x501000) = pagesBetween 0x4FF000 0x501000 := by
    rw [HeapCall.pages, HeapCall.count, hheap]
    rfl
  have hcount : brkPages t.heapEnd 0x501000 = 2 := by rw [hheap]; rfl
  obtain ⟨k', n, A', hrun, hsched', hmap⟩ := sysBrk_ok 0x501000 hA hroot hcur
    (by rw [hheap]; decide) (by omega)
    (by rw [hpages]; exact fun p hp => .inl ⟨by have := hp.2.1; omega, by have := hp.2.2; omega⟩)
    (by rw [hcount]; omega)
  rw [hcount, hheap] at hrun hsched'
  rw [hpages] at hmap
  have hfirst : 0x500000 ∈ stackSet := ⟨by decide, by decide, by decide⟩
  have hmem : 0x500000 ∈ pagesBetween 0x4FF000 0x501000 := ⟨by decide, by decide, by decide⟩
  refine ⟨k, k', t, { t with heapEnd := 0x501000 }, hstart, hcur, hrun,
    hstart.call (c := .brk 0x501000) hcur trivial hrun (by rw [hsched']),
    fun hdisj => Set.disjoint_left.1 hdisj.2.2 hfirst hmem, fun hkeep => ?_⟩
  -- the new frame of the page was free, so it is not the old one
  have hres : ¬ Reserved 0x500000 := not_reserved_hole (by decide) (by decide)
  obtain ⟨leaf, hwalk, -, hphys⟩ := hA.walk_page hroot hres (hstack _ hfirst)
  obtain ⟨leaf', hwalk', -, hphys'⟩ := hmap.evolves.owned.walk_page (hmap.evolves.root.trans hroot)
    hres (hmap.mapped hmem)
  have hkept := hkeep 0x500000 leaf (by decide) hwalk
  rw [hwalk'] at hkept
  cases hkept
  have hsame : frameOf (A.leaf (pagePath 0x500000)) = frameOf (A'.leaf (pagePath 0x500000)) := by
    omega
  exact (hA.target ⟨_, hstack _ hfirst, hsame⟩).2.2.1 (hmap.taken hmem)

end RossOs
