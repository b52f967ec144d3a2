import RossOs.Task.Stray

/-!
# Which frames a process gets

The allocator alone decides which frame it hands out next. So a frame is known once it is known how
many were taken before it, and that is read off the needs of the call. `loadProcess_stack` does so
for the pages of the stack: page `i` gets the frame `stackFrame` says, and what was in that frame
before is what the new task finds there.
-/

namespace RossOs

open ByteMem Paging Elf Exec

variable {σ : Type} [PageAllocator σ]

/-! ## Frames in order -/

/-- The allocator after `n` frames were taken, or all there are. -/
def PageAllocator.after : ℕ → σ → σ
  | 0, pages => pages
  | n + 1, pages =>
    match PageAllocator.allocPage pages with
    | none => pages
    | some (_, pages) => after n pages

/-- The frame that is handed out after `n` others. -/
def PageAllocator.next (n : ℕ) (pages : σ) : Option ℕ :=
  (PageAllocator.allocPage (PageAllocator.after n pages)).map Prod.fst

/-- An allocator without frames stays as it is. -/
theorem after_of_none {pages : σ} (h : PageAllocator.allocPage pages = none) (n : ℕ) :
    PageAllocator.after n pages = pages := by
  cases n with
  | zero => rfl
  | succ n => rw [PageAllocator.after, h]

/-- Frames taken in two parts are taken as one. -/
theorem after_add (n k : ℕ) (pages : σ) :
    PageAllocator.after (n + k) pages = PageAllocator.after k (PageAllocator.after n pages) := by
  induction n generalizing pages with
  | zero => rw [Nat.zero_add, PageAllocator.after]
  | succ n ih =>
    rw [Nat.add_right_comm, PageAllocator.after, PageAllocator.after]
    cases h : PageAllocator.allocPage pages with
    | none => exact (after_of_none h k).symm
    | some p => exact ih p.2

/-- What is free later was free before. -/
theorem free_after (n : ℕ) (pages : σ) :
    PageAllocator.free (PageAllocator.after n pages) ⊆ PageAllocator.free pages := by
  induction n generalizing pages with
  | zero => exact subset_rfl
  | succ n ih =>
    rw [PageAllocator.after]
    cases h : PageAllocator.allocPage pages with
    | none => exact subset_rfl
    | some p =>
      refine (ih p.2).trans ?_
      rw [PageAllocator.free_eq h]
      exact Set.sdiff_subset

/-- The next frame is free still. -/
theorem mem_free_of_next {n f : ℕ} {pages : σ} (h : PageAllocator.next n pages = some f) :
    f ∈ PageAllocator.free (PageAllocator.after n pages) := by
  obtain ⟨p, hp, rfl⟩ := Option.map_eq_some_iff.1 h
  exact PageAllocator.mem_free hp

/-- Frames are taken one after the other. -/
def Draws (s s' : Machine σ) : Prop :=
  ∃ n, s'.pages = PageAllocator.after n s.pages ∧
    PageAllocator.avail s.pages = PageAllocator.avail s'.pages + n

/-- A run that leaves the allocator alone draws no frame. -/
theorem Draws.of_pages {s s' : Machine σ} (h : s'.pages = s.pages) : Draws s s' :=
  ⟨0, h, by rw [h, Nat.add_zero]⟩

/-- How many were taken is how many are missing. -/
theorem Draws.pages_eq {s s' : Machine σ} (h : Draws s s') {n : ℕ}
    (hn : PageAllocator.avail s'.pages + n = PageAllocator.avail s.pages) :
    s'.pages = PageAllocator.after n s.pages := by
  obtain ⟨k, hpages, havail⟩ := h
  obtain rfl : k = n := by omega
  exact hpages

instance : IsPreorder (Machine σ) Draws where
  refl _ := .of_pages rfl
  trans _ _ _ h h' := by
    obtain ⟨n, hpages, havail⟩ := h
    obtain ⟨k, hpages', havail'⟩ := h'
    refine ⟨n + k, ?_, by omega⟩
    rw [hpages', hpages, after_add]

instance : IsPreorder (Machine σ × List Event) fun t u => Draws t.1 u.1 where
  refl t := refl_of Draws t.1
  trans _ _ _ h h' := trans_of Draws h h'

/-- Every run draws its frames in the allocator's order. -/
theorem steady_draws : Steady (σ := σ) (fun t u => Draws t.1 u.1) fun _ => True where
  quiet h := .of_sat fun t => quiet_sat
    ((h.sat t.1).mono (fun _ _ hs => .of_pages hs) fun _ _ hs => .of_pages hs)
  alloc := by
    refine .of_sat fun t => quiet_sat ?_
    cases ha : PageAllocator.allocPage t.1.pages with
    | none =>
      rw [allocPage_none ha]
      exact sat_ok.2 (refl_of Draws t.1)
    | some p =>
      rw [allocPage_some ha]
      refine sat_ok.2 ⟨1, ?_, PageAllocator.avail_some ha⟩
      rw [PageAllocator.after, ha]
      rfl
  note _ t := refl_of Draws t.1
  expect := trivial
  map _ := trivial

section
variable {ε α : Type} {data : List UInt8} {l : List Need} {s s' : Machine σ} {log : List Event}

/-- A call that returns has taken the frames it needs, in order. -/
theorem Meets.drawn {Q : α → Machine σ → Prop} {x : Exec ε (Machine σ) α}
    {y : Exec ε (Machine σ × List Event) α} {a : α}
    (h : Meets data (PageAllocator.avail s.pages) l Q (y (s, log))) (hlogs : Logs y x)
    (hdraws : Along (fun t u : Machine σ × List Event => Draws t.1 u.1) y)
    (hw : fate (PageAllocator.avail s.pages) l ≠ .wild) (hx : x s = .ok a s') :
    s'.pages = PageAllocator.after (Need.frames l) s.pages ∧ Q a s' := by
  have hforget : Outcome.forget (y (s, log)) = x s := hlogs (s, log)
  rw [hx] at hforget
  cases hy : y (s, log) with
  | ok b t =>
    rw [hy] at hforget
    obtain ⟨rfl, rfl⟩ := EStateM.Result.ok.inj hforget
    obtain ⟨-, havail, -, hQ⟩ := (h hw).of_ok hy
    exact ⟨(hdraws.of_ok hy).pages_eq havail, hQ⟩
  | error e t =>
    rw [hy] at hforget
    cases hforget

/-! ## Needs that stay at the task's addresses -/

/-- A call that uses no address of the kernel's gets to none. -/
theorem fate_ne_wild {n : ℕ} (h : ∀ v, .visit v ∈ l → ¬ Reserved v) : fate n l ≠ .wild := by
  induction l generalizing n with
  | nil => simp [fate]
  | cons a l ih =>
    have ih' : ∀ {k}, fate k l ≠ .wild := ih fun v hv => h v (List.mem_cons_of_mem _ hv)
    cases a with
    | visit v =>
      rw [fate, if_neg (h v List.mem_cons_self)]
      exact ih'
    | page | table =>
      cases n with
      | zero => simp [fate]
      | succ n => exact ih'
    | refuse | stray | halt => simp [fate]

/-- The tables of a page need frames only. -/
theorem fate_tableNeeds (n : ℕ) (F : Footprint) (v : ℕ) : fate n (F.tableNeeds v) ≠ .wild :=
  fate_ne_wild fun w hw => absurd hw (not_mem_tableNeeds (by simp) F v)

/-- Loading a page uses that page. -/
theorem visit_loadNeeds {F : Footprint} {ph : ProgramHeader} {page v : ℕ}
    (h : .visit v ∈ F.loadNeeds data ph page) : v = page := by
  rcases List.mem_cons.1 h with heq | h
  · exact Need.visit.inj heq
  · exfalso
    rcases List.mem_append.1 h with h | h
    · split at h
      · cases h
      · rcases List.mem_cons.1 h with heq | h
        · cases heq
        · exact not_mem_tableNeeds (by simp) F page h
    · split at h
      · cases h
      · simp at h

/-- Loading the pages of a segment uses these. -/
theorem visit_pagesNeeds {F : Footprint} {ph : ProgramHeader} {n page v : ℕ}
    (h : .visit v ∈ Footprint.pagesNeeds data ph F n page) : ∃ i < n, v = page + 4096 * i := by
  induction n generalizing F page with
  | zero => cases h
  | succ n ih =>
    rcases List.mem_append.1 h with h | h
    · exact ⟨0, Nat.succ_pos n, visit_loadNeeds h⟩
    · obtain ⟨i, hi, rfl⟩ := ih h
      exact ⟨i + 1, Nat.succ_lt_succ hi, by omega⟩

/-- The pages that the loop over the program headers uses are those of the segments. -/
theorem visit_segmentsNeeds {F : Footprint} {n o v : ℕ}
    (h : .visit v ∈ Footprint.segmentsNeeds data F n o) : v ∈ segPages (headersFrom data n o) := by
  induction n generalizing F o with
  | zero => cases h
  | succ n ih =>
    rw [Footprint.segmentsNeeds] at h
    rw [headersFrom, segPages_cons]
    split at h
    · rcases List.mem_append.1 h with h | h
      · left
        rw [Footprint.segmentNeeds] at h
        split at h
        · rename_i ht
          split at h
          · rename_i hwrap
            obtain ⟨i, hi, rfl⟩ := visit_pagesNeeds h
            have hstart := pageStart_eq hwrap
            refine ⟨ht, ⟨(programHeader data o).vaddr / 4096 + i, by omega⟩, by omega, by omega⟩
          · simp at h
        · cases h
      · exact .inr (ih h)
    · simp at h

end

/-! ## The frames of the stack -/

/-- The pages of the stack below page `i`, in the order of the loop. -/
def stackBelow (i : ℕ) : List ℕ := (List.range i).map fun j => stackVaddr + j * 4096

/-- The footprint with some pages more. -/
def Footprint.mapAll (F : Footprint) (vs : List ℕ) : Footprint := vs.foldl Footprint.map F

/-- How many frames `spawn_process` has taken when it comes to page `i` of the stack: six for the
address space, those for the pages of the segments and their tables, and those for the stack so
far. -/
def stackTurn (data : List UInt8) (i : ℕ) : ℕ :=
  6 + Need.frames (freshFootprint.segmentsNeeds data (header data).phnum (header data).phoff) +
    Need.frames ((freshFootprint.loadSegments data (header data).phnum
      (header data).phoff).growNeeds (stackBelow i))

/-- The frame that page `i` of the stack gets. -/
def stackFrame (pages : σ) (data : List UInt8) (i : ℕ) : Option ℕ :=
  PageAllocator.next (stackTurn data i) pages

/-- The stack grows by the page above. -/
theorem stackBelow_succ (i : ℕ) : stackBelow (i + 1) = stackBelow i ++ [stackVaddr + i * 4096] := by
  rw [stackBelow, List.range_succ, List.map_append]
  rfl

/-- One page mapped more: its frame, its address and its tables. -/
theorem growNeeds_concat (F : Footprint) (vs : List ℕ) (v : ℕ) :
    F.growNeeds (vs ++ [v]) =
      F.growNeeds vs ++ .page :: .visit v :: (F.mapAll vs).tableNeeds v := by
  induction vs generalizing F with
  | nil => simp [Footprint.growNeeds, Footprint.mapAll]
  | cons w vs ih =>
    rw [List.cons_append, Footprint.growNeeds, Footprint.growNeeds, ih]
    simp [Footprint.mapAll]

/-- The loop over the stack before page `i`, from `(s, A)` on. -/
structure Stacked (e511 cr3 : ℕ) (F : Footprint) (s : Machine σ) (A : Space) (i : ℕ)
    (s' : Machine σ) (A' : Space) : Prop where
  maps : Maps e511 (4 * i) {p | ∃ j < i, p = stackVaddr + j * 4096} s A s' A'
  placed : Placed cr3 (F.mapAll (stackBelow i)) s'
  pages : s'.pages = PageAllocator.after (Need.frames (F.growNeeds (stackBelow i))) s.pages
  bytes : ∀ j < i, ∃ f,
    PageAllocator.next (Need.frames (F.growNeeds (stackBelow j))) s.pages = some f ∧
      ∀ o < 4096, A'.byteAt s'.mem (pagePath (stackVaddr + j * 4096)) o = s.mem (f + o)

section
variable {e511 cr3 : ℕ} {F : Footprint} {s s₁ s' : Machine σ} {A A₁ A' : Space}

/-- A frame that is still free has the bytes it had. -/
theorem Paging.Evolves.apply_free {n f o : ℕ} (h : Evolves e511 n s A s' A') (hA : Owned e511 s A)
    (hf : f ∈ PageAllocator.free s'.pages) (ho : o < 4096) : s'.mem (f + o) = s.mem (f + o) := by
  refine h.mem.apply_eq (fun g hg => ?_) (PageAllocator.aligned hf) (fun hin => ?_) ho
  · rcases hg with hg | hg
    · exact (hA.mem_owned hg).1
    · exact PageAllocator.aligned hg.1
  · rcases hin with hin | hin
    · exact (hA.mem_owned hin).2.2 (h.free hf)
    · exact hin.2 hf

/-- The pages of the stack are at different places. -/
theorem pagePath_stack_ne {i j : ℕ} (hi : i < stackPages) (hj : j < i) :
    pagePath (stackVaddr + j * 4096) ≠ pagePath (stackVaddr + i * 4096) := by
  intro heq
  simp only [stackVaddr, stackPages] at *
  have := (pagePath_eq_iff (by omega) (by omega)).1 heq
  omega

/-- The stack lies at no address of the kernel's. -/
theorem not_reserved_stack {i : ℕ} (hi : i < stackPages) : ¬ Reserved (stackVaddr + i * 4096) := by
  simp only [stackVaddr, stackPages] at hi ⊢
  exact not_reserved_hole (by omega) (by omega)

/-- One turn of the stack loop maps one more page of the stack. -/
theorem Stacked.step {i f : ℕ} {pages : σ} (h : Stacked e511 cr3 F s A i s₁ A₁)
    (hA : Owned e511 s A) (hroot : A.table [] = some cr3) (hi : i < stackPages)
    (ha : PageAllocator.allocPage s₁.pages = some (f, pages)) :
    Sat ((mapUserPage cr3 (stackVaddr + i * 4096) f (0x2 ||| 0x4) :
        Exec Unit (Machine σ) PUnit) { s₁ with pages := pages })
      (fun _ s' => ∃ A', Stacked e511 cr3 F s A (i + 1) s' A') fun _ _ => True := by
  have hv := not_reserved_stack hi
  have hshows := mapPage_shows (ε := Unit) h.maps.evolves.owned (h.maps.evolves.root.trans hroot)
    hv ha .refl (show 0x2 ||| 0x4 < 4096 by decide)
  refine ⟨fun {u s'} hrun => ?_, fun _ => trivial⟩
  obtain ⟨A', hmap, hbytes⟩ := hshows.of_ok hrun
  -- the frames that the turn takes, by what it needs
  obtain ⟨e511', B, hB, hrootB, hF⟩ := h.placed
  have hmeets := hB.mapFresh_meets (ε := Unit) hrootB hv hF ha .refl
    (show 0x2 ||| 0x4 < 4096 by decide) (calm_nil [])
  obtain ⟨hpages, B', hB', hrootB', hF', -⟩ := hmeets.drawn (Trace.logs_mapUserPage _ _ _ _)
    (steady_draws.mapUserPage _ _ _ _) (fate_tableNeeds _ _ _) hrun
  have hnext : PageAllocator.next (Need.frames (F.growNeeds (stackBelow i))) s.pages = some f := by
    rw [PageAllocator.next, ← h.pages, ha]
    rfl
  have hfree : f ∈ PageAllocator.free s₁.pages := PageAllocator.mem_free ha
  refine ⟨A', ⟨(h.maps.trans hmap).congr (by omega) (Set.ext fun p => ⟨?_, ?_⟩), ?_, ?_, ?_⟩⟩
  · rintro (⟨j, hj, rfl⟩ | rfl)
    · exact ⟨j, by omega, rfl⟩
    · exact ⟨i, by omega, rfl⟩
  · rintro ⟨j, hj, rfl⟩
    rcases Nat.lt_succ_iff_lt_or_eq.1 hj with hj | rfl
    · exact .inl ⟨j, hj, rfl⟩
    · exact .inr rfl
  · refine ⟨e511', B', hB', hrootB', ?_⟩
    rw [stackBelow_succ, Footprint.mapAll, List.foldl_append]
    exact hF'
  · rw [stackBelow_succ, growNeeds_concat, frames_append, Need.frames, Need.frames, after_add,
      ← h.pages, PageAllocator.after, ha]
    exact hpages
  · intro j hj
    rcases Nat.lt_succ_iff_lt_or_eq.1 hj with hj | rfl
    · obtain ⟨g, hg, hbytes'⟩ := h.bytes j hj
      refine ⟨g, hg, fun o ho => ?_⟩
      rw [hmap.bytes (fun page hpage => ?_) ho]
      · exact hbytes' o ho
      · rw [Set.mem_singleton_iff.1 hpage]
        exact pagePath_stack_ne hi hj
    · refine ⟨f, hnext, fun o ho => ?_⟩
      rw [hbytes o ho]
      exact h.maps.evolves.apply_free hA hfree ho

/-- The stack loop: every page shows what its frame held before. -/
theorem mapStack_drawn (hA : Owned e511 s A) (hroot : A.table [] = some cr3)
    (hP : Placed cr3 F s) :
    Sat ((mapStack cr3 : Exec Unit (Machine σ) PUnit) s)
      (fun _ s' => ∃ A', Stacked e511 cr3 F s A stackPages s' A') fun _ _ => True := by
  refine Sat.forM_range (s := s) (n := stackPages)
    (I := fun i s' => ∃ A', Stacked e511 cr3 F s A i s' A') ?step ?start
  case start =>
    refine ⟨A, ⟨(Maps.refl hA).congr le_rfl (Set.eq_empty_of_forall_notMem fun p hp => ?_).symm,
      hP, rfl, fun j hj => absurd hj (Nat.not_lt_zero j)⟩⟩
    obtain ⟨j, hj, -⟩ := hp
    exact Nat.not_lt_zero j hj
  case step =>
    intro i hi s₁ hs₁
    obtain ⟨A₁, h⟩ := hs₁
    cases ha : PageAllocator.allocPage s₁.pages with
    | none =>
      rw [Exec.bind_of_ok (allocPage_none ha)]
      exact sat_error.2 trivial
    | some p =>
      rw [Exec.bind_of_ok (allocPage_some ha)]
      exact h.step hA hroot hi ha

/-! ## The stack of a new process -/

/-- A page of the stack: mapped, with the bytes that its frame had before the process was made. -/
theorem loadProcess_stack {K : KernelTables} {data : List UInt8} {heapEnd : ℕ}
    (hpages : ∀ p ∈ segPages (programHeaders data), UserPage p)
    (hload : loadProcess K data s = .ok (cr3, heapEnd) s') :
    ∃ e511 A, Owned e511 s' A ∧ A.table [] = some cr3 ∧ ∀ i < stackPages,
      A.leaf (pagePath (stackVaddr + i * 4096)) ≠ 0 ∧
      ∃ f, stackFrame s.pages data i = some f ∧ f ∈ PageAllocator.free s.pages ∧
        ∀ o < 4096, A.byteAt s'.mem (pagePath (stackVaddr + i * 4096)) o = s.mem (f + o) := by
  rw [loadProcess] at hload
  split at hload
  case isTrue => cases hload
  split at hload
  case isTrue => cases hload
  split at hload
  case isTrue => cases hload
  obtain ⟨cr3', s₁, hcreate, hload⟩ := Exec.bind_eq_ok.1 hload
  rcases sliceHeaders_cases data s₁ with ⟨hslice, -⟩ | ⟨e, hslice, -⟩
  case inr =>
    rw [Exec.bind_of_error hslice] at hload
    cases hload
  rw [Exec.bind_of_ok hslice] at hload
  obtain ⟨heapEnd', s₂, hsegs, hload⟩ := Exec.bind_eq_ok.1 hload
  obtain ⟨⟨⟩, s₃, hstack, hload⟩ := Exec.bind_eq_ok.1 hload
  cases hload
  rw [programHeaders_eq] at hpages
  -- the frames that are taken before the stack
  have hspace := (createUserAddressSpace_meets (ε := Unit) K s (calm_nil [])).drawn
    (Trace.logs_createUserAddressSpace K) (steady_draws.createUserAddressSpace K)
    (fate_ne_wild fun v hv => by simp at hv) hcreate
  rw [frames_tables] at hspace
  obtain ⟨hpages₁, hP₁⟩ := hspace
  obtain ⟨hpages₂, hP₂⟩ := (loadSegments_meets (header data).phnum hP₁
    (calm_nil data)).drawn (Trace.logs_loadSegments _ _ _ _ _)
    (steady_draws.loadSegments _ (fun _ _ => trivial) fun _ _ _ =>
      ⟨trivial, fun _ _ _ => ⟨trivial, fun _ => trivial⟩⟩)
    (fate_ne_wild fun v hv => (hpages v (visit_segmentsNeeds hv)).not_reserved) hsegs
  -- the address space before the stack
  obtain ⟨hfresh, -, f3, pds, hholds, htaken⟩ := (createUserAddressSpace_spec K s).of_ok hcreate
  have hleaf : ∀ p, (freshSpace cr3 f3 pds).leaf p = 0 := fun _ => rfl
  obtain ⟨-, -, A₂, hloads⟩ := (loadSegments_spec _ (hholds.owned_of_leaf hleaf) rfl hpages).of_ok
    hsegs
  obtain ⟨hfresh₂, -⟩ := hfresh.evolves (freshSpace_owned_subset htaken) hloads.evolves
  obtain ⟨A, hA⟩ := (mapStack_drawn hloads.evolves.owned hloads.evolves.root hP₂).of_ok hstack
  refine ⟨_, A, hA.maps.evolves.owned, hA.maps.evolves.root.trans hloads.evolves.root,
    fun i hi => ⟨hA.maps.mapped ⟨i, hi, rfl⟩, ?_⟩⟩
  obtain ⟨f, hnext, hbytes⟩ := hA.bytes i hi
  have hfree : f ∈ PageAllocator.free s₂.pages := free_after _ _ (mem_free_of_next hnext)
  refine ⟨f, ?_, hfresh₂.free hfree, fun o ho => ?_⟩
  · rw [stackFrame, stackTurn, PageAllocator.next, after_add, after_add, ← hpages₁, ← hpages₂]
    exact hnext
  · rw [hbytes o ho]
    exact hfresh₂.mem.apply_eq (fun g hg => PageAllocator.aligned hg.1)
      (PageAllocator.aligned hfree) (fun hin => hin.2 hfree) ho

end

end RossOs
