import RossOs.Task.Drawn
import RossOs.Task.Permissions
import RossOs.Task.System

/-!
# What earlier users of memory leave behind

The pages of the segments are cleared before a new process sees them, and so are the pages that
`sys_brk` and `sys_mmap` add. The stack loop of `spawn_process` maps its frames as they are. So two
memories with the same allocator give the same window exactly when they agree on the frames of the
stack (`window_remains`).
-/

namespace RossOs

open ByteMem Paging Elf Exec

/-! ## Windows -/

/-- The byte that the processor reads at an address of the task, if a page is mapped there. -/
def seen (m : Mem) (cr3 va : ℕ) : Option UInt8 := (walk m cr3 va).map fun l => m l.phys

/-- Two tasks see the same pages with the same bytes between 4 MB and 6 MB, where segments and stack
are. -/
def SameWindow (m₁ : Mem) (cr3₁ : ℕ) (m₂ : Mem) (cr3₂ : ℕ) : Prop :=
  ∀ va, 0x400000 ≤ va → va < 0x600000 → seen m₁ cr3₁ va = seen m₂ cr3₂ va

/-- What a call adds to the task's half, or maps to another place there, reads as zero. -/
def AddsZeros (m m' : Mem) (cr3 : ℕ) : Prop :=
  ∀ va, index 39 va ≠ 511 → walk m' cr3 va ≠ walk m cr3 va → seen m' cr3 va = some 0

variable {σ : Type} [PageAllocator σ]

/-- Two memories have the same bytes in the frames that the stack of a new process gets. -/
def SameRemains (pages : σ) (data : List UInt8) (m₁ m₂ : Mem) : Prop :=
  ∀ i < stackPages, ∀ f, stackFrame pages data i = some f → ∀ o < 4096, m₁ (f + o) = m₂ (f + o)

/-- The window of a new process: the pages of the segments show the image of the file, and the pages
of the stack what was in their frames. -/
structure NewWindow (data : List UInt8) (pages : σ) (m m' : Mem) (cr3 : ℕ) : Prop where
  stack : ∀ i < stackPages, ∃ f ∈ PageAllocator.free pages, stackFrame pages data i = some f ∧
    ∀ o < 4096, seen m' cr3 (stackVaddr + i * 4096 + o) = some (m (f + o))
  segment : ∀ va < 0x500000, va / 4096 * 4096 ∈ segPages (programHeaders data) →
    seen m' cr3 va = some ((segBytes data (programHeaders data) va).getD 0)
  other : ∀ va, 0x400000 ≤ va → va < 0x600000 →
    va / 4096 * 4096 ∉ segPages (programHeaders data) → va / 4096 * 4096 ∉ stackSet →
    seen m' cr3 va = none

section
variable {e511 n k cr3 : ℕ} {s s₁ s' : Machine σ} {A A₁ A' : Space}

/-- The byte at an address that is not reserved, in the address space. -/
theorem Paging.Owned.seen_eq (h : Owned e511 s A) (hroot : A.table [] = some cr3) {va : ℕ}
    (hv : ¬ Reserved va) : seen s.mem cr3 va =
      if A.leaf (pagePath va) = 0 then none
      else some (A.byteAt s.mem (pagePath va) (va % 4096)) := by
  by_cases hleaf : A.leaf (pagePath va) = 0
  · rw [if_pos hleaf, seen, h.walk_eq hroot hv, hleaf]
    rfl
  · obtain ⟨leaf, hwalk, -, hphys⟩ := h.walk_page hroot hv hleaf
    rw [if_neg hleaf, seen, hwalk, Option.map_some, hphys, Space.byteAt, if_neg hleaf]

end

section
variable {K : KernelTables} {data : List UInt8} {top : ℕ} {k k' : Kernel σ} {pages : σ}
  {m₁ m₂ m₁' m₂' : Mem} {c₁ c₂ : ℕ}

/-- The pages of the segments are below the stack. -/
theorem LowElf.page_lt (h : LowElf data) {p : ℕ} (hp : p ∈ segPages (programHeaders data)) :
    p < 0x500000 := by
  obtain ⟨ph, hph, ht, -, -, hhigh⟩ := hp
  rw [← h.segments_eq] at hph
  have hrange := h.range ph hph ht
  rw [pageEnd_eq (h.noWrap hph ht)] at hhigh
  omega

section
variable {e511 cr3 heapEnd : ℕ} {s s' : Machine σ} {A : Space}

/-- A page of the segments shows the image. -/
theorem Loaded.seen_segment (hA : Loaded data e511 s cr3 heapEnd s' A)
    (hpages : ∀ p ∈ segPages (programHeaders data), UserPage p) {va : ℕ} (hva : va < 0x500000)
    (hseg : va / 4096 * 4096 ∈ segPages (programHeaders data)) :
    seen s'.mem cr3 va = some ((segBytes data (programHeaders data) va).getD 0) := by
  have hlow : 0x400000 ≤ va := by
    rcases hpages _ hseg with ⟨hlow, -⟩ | ⟨hlow, -⟩ <;> omega
  have hleaf : A.leaf (pagePath va) ≠ 0 := pagePath_div (show va < 2 ^ 48 by omega) ▸ hA.seg hseg
  have hseen := hA.owned.seen_eq hA.root (not_reserved_hole hlow (by omega))
  rw [if_neg hleaf, hA.bytes (by omega) (pagePath_ne_stack hva)] at hseen
  exact hseen

/-- Beside the segments and the stack nothing is mapped. -/
theorem Loaded.seen_other (hA : Loaded data e511 s cr3 heapEnd s' A)
    (hpages : ∀ p ∈ segPages (programHeaders data), UserPage p) {va : ℕ} (hlow : 0x400000 ≤ va)
    (hhigh : va < 0x600000) (hseg : va / 4096 * 4096 ∉ segPages (programHeaders data))
    (hstack : va / 4096 * 4096 ∉ stackSet) : seen s'.mem cr3 va = none := by
  have hleaf : A.leaf (pagePath va) = 0 := by
    by_contra hne
    obtain ⟨page, hpage, he⟩ := hA.only hne
    obtain ⟨huser, hdvd⟩ : UserPage page ∧ 4096 ∣ page := by
      rcases hpage with hpage | hpage
      · obtain ⟨ph, -, -, hdvd, -⟩ := id hpage
        exact ⟨hpages page hpage, hdvd⟩
      · exact ⟨userPage_of_mem_stackSet hpage, hpage.1⟩
    have hlt := huser.lt
    have hdiv := (pagePath_eq_iff (by omega) (by omega)).1 he
    obtain rfl : va / 4096 * 4096 = page := by omega
    exact hpage.elim hseg hstack
  have hseen := hA.owned.seen_eq hA.root (not_reserved_hole hlow hhigh)
  rw [if_pos hleaf] at hseen
  exact hseen

/-- A page of the stack shows the bytes of its frame. -/
theorem Paging.Owned.seen_stack (hA : Owned e511 s' A) (hroot : A.table [] = some cr3) {i o : ℕ}
    (hi : i < stackPages) (ho : o < 4096)
    (hleaf : A.leaf (pagePath (stackVaddr + i * 4096)) ≠ 0) :
    seen s'.mem cr3 (stackVaddr + i * 4096 + o) =
      some (A.byteAt s'.mem (pagePath (stackVaddr + i * 4096)) o) := by
  obtain ⟨hlow, hhigh, hpage, hoff⟩ : 0x400000 ≤ stackVaddr + i * 4096 + o ∧
      stackVaddr + i * 4096 + o < 0x600000 ∧
      (stackVaddr + i * 4096 + o) / 4096 * 4096 = stackVaddr + i * 4096 ∧
      (stackVaddr + i * 4096 + o) % 4096 = o := by
    simp only [stackVaddr, stackPages] at hi ⊢
    omega
  have hpath := pagePath_div (show stackVaddr + i * 4096 + o < 2 ^ 48 by omega)
  rw [hpage] at hpath
  have hseen := hA.seen_eq hroot (not_reserved_hole hlow hhigh)
  rw [hpath, if_neg hleaf, hoff] at hseen
  exact hseen

end

/-- A new process sees its segments, zeros around them, and on its stack what the frames held. -/
theorem LowElf.newWindow (h : LowElf data)
    (hrun : spawnProcess K (some data) top k = .ok ⟨⟩ k') :
    ∃ t, k'.scheduler.tasks = k.scheduler.tasks ++ [t] ∧
      NewWindow data k.machine.pages k.machine.mem k'.machine.mem t.cr3 := by
  rcases spawnProcess_run K data top k with ⟨cr3, heapEnd, s', hload, hok⟩ | ⟨e, s', -, herr⟩
  case inr => rw [herr] at hrun; cases hrun
  rw [hok] at hrun
  cases hrun
  obtain ⟨-, A, hA⟩ := (loadProcess_spec K k.machine h.userPage).of_ok hload
  obtain ⟨e511, B, hB, hroot, hstack⟩ := loadProcess_stack h.userPage hload
  refine ⟨newTask k data top cr3 heapEnd, rfl, fun i hi => ?_,
    fun va hva hseg => hA.seen_segment h.userPage hva hseg,
    fun va hlow hhigh hseg hout => hA.seen_other h.userPage hlow hhigh hseg hout⟩
  obtain ⟨hleaf, f, hframe, hfree, hbytes⟩ := hstack i hi
  refine ⟨f, hfree, hframe, fun o ho => ?_⟩
  rw [← hbytes o ho]
  exact hB.seen_stack hroot hi ho hleaf

/-- Two windows of one file differ at most in the stack. -/
theorem NewWindow.same_iff (hlow : ∀ p ∈ segPages (programHeaders data), p < 0x500000)
    (h₁ : NewWindow data pages m₁ m₁' c₁) (h₂ : NewWindow data pages m₂ m₂' c₂) :
    SameWindow m₁' c₁ m₂' c₂ ↔ SameRemains pages data m₁ m₂ := by
  constructor
  · intro hsame i hi f hf o ho
    obtain ⟨f₁, -, hf₁, hseen₁⟩ := h₁.stack i hi
    obtain ⟨f₂, -, hf₂, hseen₂⟩ := h₂.stack i hi
    obtain rfl : f₁ = f := Option.some.inj (hf₁.symm.trans hf)
    obtain rfl : f₂ = f₁ := Option.some.inj (hf₂.symm.trans hf)
    have hva : 0x400000 ≤ stackVaddr + i * 4096 + o ∧ stackVaddr + i * 4096 + o < 0x600000 := by
      simp only [stackVaddr, stackPages] at hi ⊢
      omega
    have hbyte := hsame _ hva.1 hva.2
    rw [hseen₁ o ho, hseen₂ o ho] at hbyte
    exact Option.some.inj hbyte
  · intro hsame va h1 h2
    by_cases hstack : va / 4096 * 4096 ∈ stackSet
    · obtain ⟨-, hs1, hs2⟩ := hstack
      obtain ⟨i, hi, o, ho, rfl⟩ : ∃ i < stackPages, ∃ o < 4096,
          va = stackVaddr + i * 4096 + o := by
        simp only [stackVaddr, stackPages] at hs1 hs2 ⊢
        exact ⟨va / 4096 - 0x500, by omega, va % 4096, by omega, by omega⟩
      obtain ⟨f₁, -, hf₁, hseen₁⟩ := h₁.stack i hi
      obtain ⟨f₂, -, hf₂, hseen₂⟩ := h₂.stack i hi
      obtain rfl : f₂ = f₁ := Option.some.inj (hf₂.symm.trans hf₁)
      rw [hseen₁ o ho, hseen₂ o ho, hsame i hi f₂ hf₂ o ho]
    · by_cases hseg : va / 4096 * 4096 ∈ segPages (programHeaders data)
      · have hlt := hlow _ hseg
        rw [h₁.segment va (by omega) hseg, h₂.segment va (by omega) hseg]
      · rw [h₁.other va h1 h2 hseg hstack, h₂.other va h1 h2 hseg hstack]

end

/-! ## Pages that a task adds -/

section
variable {ε α : Type} {e511 n cr3 : ℕ} {s s₁ s' : Machine σ} {A A₁ A' : Space}

/-- Some pages got frames of zeros; every other page keeps its frame and its bytes. -/
structure Blanks (e511 : ℕ) (s : Machine σ) (A : Space) (s' : Machine σ) (A' : Space) : Prop where
  evolves : ∃ n, Evolves e511 n s A s' A'
  page : ∀ p, (A'.leaf p = A.leaf p ∧ ∀ o < 4096, A'.byteAt s'.mem p o = A.byteAt s.mem p o) ∨
    A'.leaf p ≠ 0 ∧ ∀ o < 4096, A'.byteAt s'.mem p o = 0

/-- A space that did not change keeps its pages. -/
theorem Blanks.refl (h : Owned e511 s A) : Blanks e511 s A s A :=
  ⟨⟨0, .refl h⟩, fun _ => .inl ⟨rfl, fun _ _ => rfl⟩⟩

/-- Pages of zeros mapped in two stages are mapped as one. -/
theorem Blanks.trans (h : Blanks e511 s A s₁ A₁) (h' : Blanks e511 s₁ A₁ s' A') :
    Blanks e511 s A s' A' := by
  obtain ⟨n, hev⟩ := h.evolves
  obtain ⟨j, hev'⟩ := h'.evolves
  refine ⟨⟨n + j, hev.trans hev'⟩, fun p => ?_⟩
  rcases h'.page p with ⟨hleaf', hbytes'⟩ | hzero
  · rcases h.page p with ⟨hleaf, hbytes⟩ | ⟨hne, hzero⟩
    · exact .inl ⟨hleaf'.trans hleaf, fun o ho => (hbytes' o ho).trans (hbytes o ho)⟩
    · exact .inr ⟨hleaf' ▸ hne, fun o ho => (hbytes' o ho).trans (hzero o ho)⟩
  · exact .inr hzero

/-- Zeroing a frame and mapping it, the turn that both loops make. -/
theorem mapZeroed_blanks {v f : ℕ} {pages : σ} (h : Owned e511 s A) (hroot : A.table [] = some cr3)
    (hv : ¬ Reserved v) (ha : PageAllocator.allocPage s.pages = some (f, pages))
    {rest : Exec ε (Machine σ) α} {Q : α → Machine σ → Prop} {E : Fault ε → Machine σ → Prop}
    (hok : ∀ s₁ A₁, Blanks e511 s A s₁ A₁ → Sat (rest s₁) Q E) (hpanic : ∀ s₁, E .panic s₁) :
    Sat ((do
      zeroPage (← physToVirt f)
      mapUserPage cr3 v f 0x7
      rest : Exec ε (Machine σ) α) { s with pages := pages }) Q E := by
  have hlt := PageAllocator.below (PageAllocator.mem_free ha)
  rw [Exec.bind_of_ok (physToVirt_run (by omega)), Exec.bind_of_ok (zeroPage_run _ f)]
  refine Sat.bind ((mapPage_shows h hroot hv ha sameOutside_clear (by decide)).mono ?_ ?_)
  · rintro _ s₁ ⟨A₁, hmap, hbytes⟩
    refine hok s₁ A₁ ⟨⟨4, hmap.evolves⟩, fun p => ?_⟩
    by_cases hp : p = pagePath v
    · subst hp
      refine .inr ⟨hmap.mapped rfl, fun o ho => ?_⟩
      rw [hbytes o ho, clear_apply_of_lt (by omega) (by omega)]
    · have hother : ∀ page ∈ ({v} : Set ℕ), p ≠ pagePath page := by
        rintro _ rfl
        exact hp
      exact .inl ⟨hmap.other hother, fun o ho => hmap.bytes hother ho⟩
  · rintro _ s₁ ⟨rfl, -⟩
    exact hpanic s₁

/-- The loop of `sys_brk` adds pages of zeros. -/
theorem brkLoop_blanks (n : ℕ) {addr : ℕ} (h : Owned e511 s A) (hroot : A.table [] = some cr3)
    (halign : 4096 ∣ addr) (hpages : ∀ p ∈ pagesBetween addr (addr + 4096 * n), UserPage p) :
    Sat ((brkLoop cr3 n addr : Exec Empty (Machine σ) ℕ) s)
      (fun _ s' => ∃ A', Blanks e511 s A s' A') (fun _ _ => True) := by
  induction n generalizing s A addr with
  | zero => exact sat_ok.2 ⟨A, .refl h⟩
  | succ n ih =>
    rw [brkLoop]
    cases ha : PageAllocator.allocPage s.pages with
    | none =>
      rw [Exec.bind_of_ok (allocPage_none ha)]
      exact sat_ok.2 ⟨A, .refl h⟩
    | some r =>
      rw [Exec.bind_of_ok (allocPage_some ha)]
      have hpage : UserPage addr := hpages addr ⟨halign, le_rfl, by omega⟩
      refine mapZeroed_blanks h hroot hpage.not_reserved ha (fun s₁ A₁ hblank => ?_)
        fun _ => trivial
      obtain ⟨j, hev⟩ := hblank.evolves
      refine Sat.ite (fun _ => ?_) fun _ => sat_error.2 trivial
      have hrest := ih hev.owned (hev.root.trans hroot) (Nat.dvd_add halign ⟨1, rfl⟩) fun p hp =>
        hpages p ⟨hp.1, by have := hp.2.1; omega, by have := hp.2.2; omega⟩
      refine hrest.mono ?_ fun _ _ _ => trivial
      rintro _ s' ⟨A', hmore⟩
      exact ⟨A', hblank.trans hmore⟩

/-- A panic is no error value. -/
theorem panic_ne_err {e : String} : (Fault.panic : Fault String) ≠ .err e := by
  intro he
  cases he

/-- The loop of `alloc_anon` adds pages of zeros, also when it runs out of frames. -/
theorem allocAnonFrom_blanks {base : ℕ} (n : ℕ) {i : ℕ} (h : Owned e511 s A)
    (hroot : A.table [] = some cr3) (halign : 4096 ∣ base)
    (hpages : ∀ p ∈ pagesBetween (base + 4096 * i) (base + 4096 * i + 4096 * n), UserPage p) :
    Sat ((allocAnonFrom cr3 base n i : Exec String (Machine σ) PUnit) s)
      (fun _ s' => ∃ A', Blanks e511 s A s' A')
      (fun e s' => ∀ m, e = .err m → ∃ A', Blanks e511 s A s' A') := by
  induction n generalizing s A i with
  | zero => exact sat_ok.2 ⟨A, .refl h⟩
  | succ n ih =>
    have halign' : 4096 ∣ base + 4096 * i := Nat.dvd_add halign ⟨i, rfl⟩
    have hpage : UserPage (base + 4096 * i) := hpages _ ⟨halign', le_rfl, by omega⟩
    rw [allocAnonFrom, Nat.mul_comm i 4096]
    refine Sat.ite (fun _ => ?_) fun _ => sat_error.2 fun _ he => absurd he panic_ne_err
    cases ha : PageAllocator.allocPage s.pages with
    | none =>
      rw [Exec.bind_of_ok (allocPage_none ha)]
      exact sat_error.2 fun _ _ => ⟨A, .refl h⟩
    | some r =>
      rw [Exec.bind_of_ok (allocPage_some ha)]
      refine mapZeroed_blanks h hroot hpage.not_reserved ha (fun s₁ A₁ hblank => ?_)
        fun _ _ he => absurd he panic_ne_err
      obtain ⟨j, hev⟩ := hblank.evolves
      have hrest := ih (i := i + 1) hev.owned (hev.root.trans hroot) fun p hp =>
        hpages p ⟨hp.1, by have := hp.2.1; omega, by have := hp.2.2; omega⟩
      refine hrest.mono ?_ ?_
      · rintro _ s' ⟨A', hmore⟩
        exact ⟨A', hblank.trans hmore⟩
      · intro e s' hmore m he
        obtain ⟨A', hmore⟩ := hmore m he
        exact ⟨A', hblank.trans hmore⟩

/-- `sys_brk` maps pages of zeros. -/
theorem brkTask_blanks {t : Task} {newBrk : ℕ} (h : Owned e511 s A)
    (hroot : A.table [] = some t.cr3) (halign : 4096 ∣ t.heapEnd)
    (hpages : ∀ p ∈ HeapCall.pages t (.brk newBrk), UserPage p) :
    Sat ((brkTask t newBrk : Exec Empty (Machine σ) ℕ) s)
      (fun _ s' => ∃ A', Blanks e511 s A s' A') (fun _ _ => True) := by
  rw [brkTask]
  refine Sat.ite (fun _ => sat_ok.2 ⟨A, .refl h⟩) fun _ => ?_
  exact Sat.ite (fun _ => brkLoop_blanks _ h hroot halign hpages) fun _ => sat_ok.2 ⟨A, .refl h⟩

/-- `sys_mmap` maps pages of zeros. -/
theorem mmapTask_blanks {t : Task} {len : ℕ} (h : Owned e511 s A)
    (hroot : A.table [] = some t.cr3) (halign : 4096 ∣ t.heapEnd)
    (hpages : ∀ p ∈ HeapCall.pages t (.mmap len), UserPage p) :
    Sat ((mmapTask t len : Exec Empty (Machine σ) (ℕ × ℕ)) s)
      (fun _ s' => ∃ A', Blanks e511 s A s' A') (fun _ _ => True) := by
  rw [mmapTask]
  refine Sat.ite (fun _ => ?_) fun _ => sat_error.2 trivial
  have hanon : Sat ((allocAnon t.cr3 t.heapEnd (mmapPages len) :
      Exec String (Machine σ) PUnit) s) _ _ :=
    allocAnonFrom_blanks (mmapPages len) h hroot halign hpages
  refine Sat.bind (Sat.attempt (hanon.mono ?_ ?_))
  · intro _ s' hblank
    exact Sat.ite (fun _ => sat_ok.2 hblank) fun _ => sat_error.2 trivial
  · intro e s' hblank
    exact ⟨fun m he => sat_ok.2 (hblank m he), fun _ => trivial⟩

/-- A call of the current task adds pages of zeros. -/
theorem HeapCall.run_blanks {k : Kernel σ} {c : HeapCall} {t : Task} (h : Owned e511 k.machine A)
    (hroot : A.table [] = some t.cr3) (hcur : k.scheduler.currentTask = some t)
    (halign : 4096 ∣ t.heapEnd) (hpages : ∀ p ∈ c.pages t, UserPage p) :
    Sat (c.run k) (fun _ k' => ∃ A', Blanks e511 k.machine A k'.machine A')
      (fun _ _ => True) := by
  cases c with
  | brk newBrk =>
    rw [HeapCall.run, sysBrk, Exec.bind_of_ok (Exec.get_apply k), hcur]
    refine Sat.bind (onMachine_sat ((brkTask_blanks h hroot halign hpages).mono ?_
      fun _ _ _ => trivial))
    intro _ s' hblank
    exact sat_ok.2 hblank
  | mmap len =>
    rw [HeapCall.run, sysMmap]
    refine Sat.ite (fun _ => sat_ok.2 ⟨A, .refl h⟩) fun _ => ?_
    rw [Exec.bind_of_ok (Exec.get_apply k), hcur]
    refine Sat.bind (onMachine_sat ((mmapTask_blanks h hroot halign hpages).mono ?_
      fun _ _ _ => trivial))
    intro _ s' hblank
    exact sat_ok.2 hblank

/-- What the processor sees of it. -/
theorem Blanks.addsZeros (h : Blanks e511 s A s' A') (hA : Owned e511 s A)
    (hroot : A.table [] = some cr3) : AddsZeros s.mem s'.mem cr3 := by
  obtain ⟨n, hev⟩ := h.evolves
  have hroot' := hev.root.trans hroot
  intro va hhalf hne
  by_cases hres : Reserved va
  · have hident := hres.resolve_left hhalf
    exact absurd ((hev.owned.walk_ident hroot' hident).trans (hA.walk_ident hroot hident).symm) hne
  · rcases h.page (pagePath va) with ⟨hleaf, -⟩ | ⟨hmapped, hzero⟩
    · refine absurd ?_ hne
      rw [hev.owned.walk_eq hroot' hres, hA.walk_eq hroot hres, hleaf]
    · rw [hev.owned.seen_eq hroot' hres, if_neg hmapped, hzero _ (Nat.mod_lt _ (by decide))]

end

/-! ## A new process and its memory -/

/-- In every state that the system reaches, a heap call that returns has added zeros alone. -/
theorem HeapCall.addsZeros {K : KernelTables} {k₀ k k' : Kernel σ} {c : HeapCall} {t : Task} {v : ℕ}
    (hstart : SystemStart K k₀) (hrun : Relation.ReflTransGen (SystemStep K) k₀ k)
    (hcur : k.scheduler.currentTask = some t) (huser : t.isUser = true)
    (hpages : ∀ p ∈ c.pages t, UserPage p) (hcall : c.run k = .ok v k') :
    AddsZeros k.machine.mem k'.machine.mem t.cr3 := by
  obtain ⟨S, hS⟩ := hstart.inv_of_run hrun
  have hhead : (t.cr3, t.heapEnd) ∈ spacesOf k.scheduler.all :=
    spacesOf_current hcur huser ▸ List.mem_cons_self
  have hown := hS.owned _ hhead
  have hroot := hS.root _ hhead
  obtain ⟨A', hblank⟩ :=
    (HeapCall.run_blanks hown hroot hcur (hS.aligned _ hhead) hpages).of_ok hcall
  exact hblank.addsZeros hown hroot

/-- **What a new process sees of memory.** When `spawn_process` returns for a file on two memories
with the same allocator state, the windows of the two tasks are the same exactly when the memories
agree on the frames that the stack gets. What `sys_brk` and `sys_mmap` add later, in any run of the
system, is zero. -/
theorem window_remains {K : KernelTables} {data : List UInt8} {top₁ top₂ : ℕ}
    {k₁ k₂ k₁' k₂' : Kernel σ} (helf : LowElf data) (hpages : k₁.machine.pages = k₂.machine.pages)
    (hrun₁ : spawnProcess K (some data) top₁ k₁ = .ok ⟨⟩ k₁')
    (hrun₂ : spawnProcess K (some data) top₂ k₂ = .ok ⟨⟩ k₂') :
    (∃ t₁ t₂, k₁'.scheduler.tasks = k₁.scheduler.tasks ++ [t₁] ∧
      k₂'.scheduler.tasks = k₂.scheduler.tasks ++ [t₂] ∧
      (SameWindow k₁'.machine.mem t₁.cr3 k₂'.machine.mem t₂.cr3 ↔
        SameRemains k₁.machine.pages data k₁.machine.mem k₂.machine.mem)) ∧
    ∀ {k₀ k k' : Kernel σ} {c : HeapCall} {t : Task} {v : ℕ}, SystemStart K k₀ →
      Relation.ReflTransGen (SystemStep K) k₀ k → k.scheduler.currentTask = some t →
      t.isUser = true → (∀ p ∈ c.pages t, UserPage p) → c.run k = .ok v k' →
      AddsZeros k.machine.mem k'.machine.mem t.cr3 := by
  obtain ⟨t₁, htasks₁, hwindow₁⟩ := helf.newWindow hrun₁
  obtain ⟨t₂, htasks₂, hwindow₂⟩ := helf.newWindow hrun₂
  rw [← hpages] at hwindow₂
  exact ⟨⟨t₁, t₂, htasks₁, htasks₂, hwindow₁.same_iff (fun _ hp => helf.page_lt hp) hwindow₂⟩,
    HeapCall.addsZeros⟩

/-! ## Memory that was used before -/

/-- Memory after boot where something is left in the free frames. -/
def usedMem : Mem := fun a =>
  if 0x1000000 ≤ a ∧ a < 0x1100000 then bootMachine.mem a + 1 else bootMachine.mem a

/-- The kernel after boot on such a memory. -/
def usedKernel : Kernel PmmState := { bootKernel with machine := ⟨usedMem, bootPages⟩ }

/-- The memory in use before does not show in the allocator. -/
theorem usedKernel_pages : bootKernel.machine.pages = usedKernel.machine.pages := by
  rw [usedKernel, bootKernel, bootMachine]

/-- The frames that are free after boot. -/
theorem bootPages_range {f : ℕ} (hf : f ∈ PageAllocator.free bootPages) :
    0x1000000 ≤ f ∧ f < 0x1100000 := by
  obtain ⟨p, hp, rfl⟩ := PmmState.mem_free.1 hf
  rw [freePages_bootPages, PmmState.mem_usablePages] at hp
  obtain ⟨-, r, hr, -, hlow, hhigh⟩ := hp
  rw [List.mem_singleton.1 hr] at hlow hhigh
  simp only [Pmm.pageSize] at hlow hhigh ⊢
  omega

/-- The small executable is spawned on both. -/
theorem exists_spawn_used : ∃ k₁' k₂',
    spawnProcess bootTables (some (tinyElf 0x400010)) 0x8000 bootKernel = .ok ⟨⟩ k₁' ∧
    spawnProcess bootTables (some (tinyElf 0x400010)) 0x8000 usedKernel = .ok ⟨⟩ k₂' := by
  have hframes : loadFrames (tinyElf 0x400010) < PageAllocator.avail bootPages := by
    rw [loadFrames_tinyElf, avail_bootPages]
    decide
  have halign : (header (tinyElf 0x400010)).phoff % 8 = 0 := by rw [phoff_tinyElf]
  obtain ⟨k₁', hrun₁⟩ :=
    loadableElf_tinyElf.spawnProcess_ok (K := bootTables) (k := bootKernel) 0x8000 halign hframes
  obtain ⟨k₂', hrun₂⟩ :=
    loadableElf_tinyElf.spawnProcess_ok (K := bootTables) (k := usedKernel) 0x8000 halign hframes
  exact ⟨k₁', k₂', hrun₁, hrun₂⟩

/-- After boot the small executable is spawned, and the timer gives it the processor. -/
theorem exists_reached_tinyElf : ∃ (k : Kernel PmmState) (t : Task),
    Relation.ReflTransGen (SystemStep bootTables) bootKernel k ∧
    k.scheduler.currentTask = some t ∧ t.isUser = true ∧ t.heapEnd = 0x401000 ∧
    214 ≤ PageAllocator.avail k.machine.pages ∧
    ∃ e511 A, Owned e511 k.machine A ∧ A.table [] = some t.cr3 := by
  obtain ⟨k₁, -, hrun, -⟩ := exists_spawn_used
  rcases spawnProcess_run bootTables (tinyElf 0x400010) 0x8000 bootKernel with
    ⟨cr3, heapEnd, s', hload, hok⟩ | ⟨e, s', -, herr⟩
  case inr => rw [herr] at hrun; cases hrun
  obtain ⟨-, A, hA⟩ := (loadProcess_spec bootTables bootKernel.machine
    loadableElf_tinyElf.userPage).of_ok hload
  simp only at hA
  have hspawn := SystemStep.spawn (K := bootTables) (k := bootKernel) (some (tinyElf 0x400010))
    0x8000 (by rintro _ ⟨⟩; exact loadableElf_tinyElf.userPage)
  rw [hok] at hspawn
  have hreach := (Relation.ReflTransGen.single hspawn).tail (.tick 0x9000 0)
  have havail := hA.avail
  rw [loadFrames_tinyElf, show bootKernel.machine.pages = bootPages from rfl,
    avail_bootPages] at havail
  have hheap : heapEnd = 0x401000 := by
    rw [hA.heapEnd_eq, programHeaders_tinyElf]
    decide
  exact ⟨_, _, hreach, rfl, rfl, hheap, by show 214 ≤ PageAllocator.avail s'.pages; omega, _, A,
    hA.owned, hA.root⟩

/-- The small executable on the two memories, and a page of heap. -/
theorem window_remains_boot : ∃ k₁' k₂' t₁ t₂,
    spawnProcess bootTables (some (tinyElf 0x400010)) 0x8000 bootKernel = .ok ⟨⟩ k₁' ∧
    spawnProcess bootTables (some (tinyElf 0x400010)) 0x8000 usedKernel = .ok ⟨⟩ k₂' ∧
    k₁'.scheduler.tasks = [] ++ [t₁] ∧ k₂'.scheduler.tasks = [] ++ [t₂] ∧
    (SameWindow k₁'.machine.mem t₁.cr3 k₂'.machine.mem t₂.cr3 ↔
      SameRemains bootPages (tinyElf 0x400010) bootMachine.mem usedMem) ∧
    ∃ (k k' : Kernel PmmState) (t : Task) (v : ℕ),
      Relation.ReflTransGen (SystemStep bootTables) bootKernel k ∧
      k.scheduler.currentTask = some t ∧ HeapCall.run (.brk 0x402000) k = .ok v k' ∧
      AddsZeros k.machine.mem k'.machine.mem t.cr3 := by
  obtain ⟨k₁', k₂', hrun₁, hrun₂⟩ := exists_spawn_used
  obtain ⟨⟨t₁, t₂, htasks₁, htasks₂, hiff⟩, hheap⟩ :=
    window_remains loadableElf_tinyElf.lowElf usedKernel_pages hrun₁ hrun₂
  obtain ⟨k, t, hreach, hcur, huser, hend, havail, e511, A, hA, hroot⟩ := exists_reached_tinyElf
  have hcount : brkPages t.heapEnd 0x402000 = 1 := by rw [hend]; decide
  have hpages : ∀ p ∈ HeapCall.pages t (.brk 0x402000), UserPage p := by
    rw [HeapCall.pages, HeapCall.count, hcount, hend]
    exact fun p hp => .inl ⟨by have := hp.2.1; omega, by have := hp.2.2; omega⟩
  obtain ⟨k', n, A', hrun, -, -⟩ := sysBrk_ok 0x402000 hA hroot hcur
    (by rw [hend]; decide) (by omega) hpages (by rw [hcount]; omega)
  have hstart : SystemStart bootTables bootKernel := ⟨kernelWords_boot, bootTables_not_free, rfl⟩
  exact ⟨k₁', k₂', t₁, t₂, hrun₁, hrun₂, htasks₁, htasks₂, hiff, k, k', t, _, hreach, hcur, hrun,
    hheap (c := .brk 0x402000) hstart hreach hcur huser hpages hrun⟩

/-- Two kernels that differ in what is left in the free frames: the new processes see it. -/
theorem stack_shows_remains : ¬ ∀ (K : KernelTables) (data : List UInt8) (top : ℕ)
    (k₁ k₂ k₁' k₂' : Kernel PmmState), LowElf data → k₁.machine.pages = k₂.machine.pages →
    spawnProcess K (some data) top k₁ = .ok ⟨⟩ k₁' →
    spawnProcess K (some data) top k₂ = .ok ⟨⟩ k₂' →
    ∃ t₁ t₂, k₁'.scheduler.tasks = k₁.scheduler.tasks ++ [t₁] ∧
      k₂'.scheduler.tasks = k₂.scheduler.tasks ++ [t₂] ∧
      SameWindow k₁'.machine.mem t₁.cr3 k₂'.machine.mem t₂.cr3 := by
  intro hall
  obtain ⟨k₁', k₂', hrun₁, hrun₂⟩ := exists_spawn_used
  have helf := loadableElf_tinyElf.lowElf
  obtain ⟨t₁, t₂, htasks₁, htasks₂, hsame⟩ := hall _ _ _ _ _ _ _ helf usedKernel_pages hrun₁
    hrun₂
  obtain ⟨u₁, hu₁, hwindow₁⟩ := helf.newWindow hrun₁
  obtain ⟨u₂, hu₂, hwindow₂⟩ := helf.newWindow hrun₂
  obtain rfl : t₁ = u₁ := List.singleton_inj.1 (List.append_cancel_left (htasks₁.symm.trans hu₁))
  obtain rfl : t₂ = u₂ := List.singleton_inj.1 (List.append_cancel_left (htasks₂.symm.trans hu₂))
  obtain ⟨f, hfree, hframe, -⟩ := hwindow₁.stack 0 (by decide)
  have hremains := (hwindow₁.same_iff (fun _ hp => helf.page_lt hp) hwindow₂).1 hsame
  have hbyte := hremains 0 (by decide) f hframe 0 (by decide)
  rw [bootKernel, bootMachine] at hfree
  simp only [Nat.add_zero, usedKernel, usedMem, bootKernel, if_pos (bootPages_range hfree)] at hbyte
  grind

end RossOs
