import RossOs.Lib.Along
import RossOs.Task.Trace

/-!
# What the steps of the memory calls keep

The memory calls are made of a few small steps: runs that leave the allocator alone, `alloc_page`,
and notes. A preorder that these steps keep (`Steady`) is kept by every call, so each such fact
about the calls is shown for the small steps only. `Spends` is the one about the allocator: frames
are taken from it, and none is ever given back.
-/

namespace RossOs

open ByteMem Paging Elf Exec

section
variable {ε σ : Type}

/-! ## The small steps -/

/-- The run leaves the allocator alone. -/
def SamePages (s s' : Machine σ) : Prop := s'.pages = s.pages

instance : IsPreorder (Machine σ) SamePages where
  refl _ := rfl
  trans _ _ _ h h' := h'.trans h

/-- `phys_to_virt` leaves the allocator alone. -/
theorem samePages_physToVirt (f : ℕ) : Along SamePages (physToVirt f : Exec ε (Machine σ) ℕ) :=
  .ite (fun _ => .pure _) fun _ => .throw _

/-- `get_entry` leaves the allocator alone. -/
theorem samePages_getEntry (t i : ℕ) : Along SamePages (getEntry t i : Exec ε (Machine σ) ℕ) :=
  fun _ => rfl

/-- A write to memory leaves the allocator alone. -/
theorem samePages_write (f : Machine σ → Mem) :
    Along SamePages (modify fun s => { s with mem := f s } : Exec ε (Machine σ) PUnit) :=
  fun _ => rfl

/-- `set_entry` leaves the allocator alone. -/
theorem samePages_setEntry (t i v : ℕ) :
    Along SamePages (setEntry t i v : Exec ε (Machine σ) PUnit) := samePages_write _

/-- `zero_page` leaves the allocator alone. -/
theorem samePages_zeroPage (p : ℕ) : Along SamePages (zeroPage p : Exec ε (Machine σ) PUnit) :=
  samePages_write _

/-- A copy leaves the allocator alone. -/
theorem samePages_copyFrom (data : List UInt8) (o ptr n : ℕ) :
    Along SamePages (copyFrom data o ptr n : Exec Unit (Machine σ) PUnit) :=
  .ite (fun _ => samePages_write _) fun _ => .throw _

/-- `lookup_page` leaves the allocator alone. -/
theorem samePages_lookupPage (cr3 v : ℕ) :
    Along SamePages (lookupPage cr3 v : Exec ε (Machine σ) (Option ℕ)) := by
  refine .bind (samePages_physToVirt _) fun _ => .bind (samePages_getEntry _ _) fun _ => ?_
  refine .ite (fun _ => .pure _) fun _ => ?_
  refine .bind (samePages_physToVirt _) fun _ => .bind (samePages_getEntry _ _) fun _ => ?_
  refine .ite (fun _ => .pure _) fun _ => ?_
  refine .bind (samePages_physToVirt _) fun _ => .bind (samePages_getEntry _ _) fun _ => ?_
  refine .ite (fun _ => .pure _) fun _ => ?_
  refine .bind (samePages_physToVirt _) fun _ => .bind (samePages_getEntry _ _) fun _ => ?_
  exact .ite (fun _ => .pure _) fun _ => .pure _

end

/-! ## Relations that the calls keep -/

section
variable {ε σ : Type} [PageAllocator σ] {P : Event → Prop}
  {R : Machine σ × List Event → Machine σ × List Event → Prop}

/-- The small steps keep the relation, when their notes meet `P`. -/
structure Steady (R : Machine σ × List Event → Machine σ × List Event → Prop)
    (P : Event → Prop) : Prop where
  quiet : ∀ {ε α : Type} {x : Exec ε (Machine σ) α}, Along SamePages x → Along R (quiet x)
  alloc : ∀ {ε : Type}, Along R (Exec.quiet allocPage : Exec ε (Machine σ × List Event) (Option ℕ))
  note : ∀ {ε : Type} {w : Event}, P w →
    Along R (note w : Exec ε (Machine σ × List Event) PUnit)
  expect : P .expect
  map : ∀ v, P (.map v)

/-- What the copy into a page notes. -/
def CopyNotes (P : Event → Prop) (ph : ProgramHeader) (page : ℕ) : Prop :=
  ph.fileOffset page < ph.filesz → P (.sum (ph.offset + ph.fileOffset page)) ∧
    (ph.offset + ph.fileOffset page < 2 ^ 64 → P (.read (ph.offset + ph.fileOffset page)
      (min (ph.filesz - ph.fileOffset page) (4096 - ph.pageOffset page))))

/-- What loading a segment notes. -/
structure SegmentNotes (P : Event → Prop) (ph : ProgramHeader) : Prop where
  sum : P (.sum (ph.vaddr + ph.memsz + 4095))
  copies : ∀ i < (ph.pageEnd - ph.pageStart) / 4096, CopyNotes P ph (ph.pageStart + 4096 * i)

namespace Steady

variable [IsPreorder (Machine σ × List Event) R]

/-- An allocation that must not fail keeps the relation. -/
theorem allocPageExpect (h : Steady R P) :
    Along R (Trace.allocPageExpect : Exec ε (Machine σ × List Event) ℕ) := by
  refine .bind h.alloc fun o => ?_
  cases o with
  | none => exact .bind (h.note h.expect) fun _ => .throw _
  | some f => exact .pure f

/-- A directory of the identity map keeps the relation. -/
theorem identityDirectory (h : Steady R P) (pdpt i : ℕ) :
    Along R (Trace.identityDirectory pdpt i : Exec ε (Machine σ × List Event) PUnit) := by
  refine .bind h.allocPageExpect fun _ => .bind (h.quiet (samePages_physToVirt _)) fun _ => ?_
  refine .bind (h.quiet (samePages_zeroPage _)) fun _ => ?_
  refine .bind (h.quiet (.forM _ fun _ => ?_)) fun _ => h.quiet (samePages_setEntry _ _ _)
  exact .ite (fun _ => .pure _) fun _ => samePages_setEntry _ _ _

/-- `create_user_address_space` keeps the relation. -/
theorem createUserAddressSpace (h : Steady R P) (K : KernelTables) :
    Along R (Trace.createUserAddressSpace K : Exec ε (Machine σ × List Event) ℕ) := by
  refine .bind h.allocPageExpect fun f4 => .bind (h.quiet (samePages_physToVirt _)) fun _ => ?_
  refine .bind (h.quiet (samePages_zeroPage _)) fun _ => ?_
  refine .bind (h.quiet (samePages_getEntry _ _)) fun _ => ?_
  refine .bind (h.quiet (samePages_setEntry _ _ _)) fun _ => ?_
  refine .bind h.allocPageExpect fun f3 => .bind (h.quiet (samePages_physToVirt _)) fun pdpt => ?_
  refine .bind (h.quiet (samePages_zeroPage _)) fun _ => ?_
  refine .bind (.forM _ (h.identityDirectory _)) fun _ => ?_
  exact .bind (h.quiet (samePages_setEntry _ _ _)) fun _ => .pure f4

/-- Finding or making a table keeps the relation. -/
theorem getOrCreate (h : Steady R P) (t i : ℕ) :
    Along R (Trace.getOrCreate t i : Exec ε (Machine σ × List Event) ℕ) := by
  refine .bind (h.quiet (samePages_getEntry _ _)) fun e => ?_
  have hrest : Along R (Exec.quiet (getEntry t i) >>= fun e =>
      Exec.quiet (physToVirt (frameOf e)) : Exec ε (Machine σ × List Event) ℕ) :=
    .bind (h.quiet (samePages_getEntry _ _)) fun _ => h.quiet (samePages_physToVirt _)
  split
  · exact .bind h.allocPageExpect fun _ => .bind (h.quiet (samePages_physToVirt _)) fun _ =>
      .bind (h.quiet (samePages_zeroPage _)) fun _ =>
      .bind (h.quiet (samePages_setEntry _ _ _)) fun _ => hrest
  · exact hrest

/-- `map_user_page` keeps the relation. -/
theorem mapUserPage (h : Steady R P) (cr3 v paddr flags : ℕ) :
    Along R (Trace.mapUserPage cr3 v paddr flags : Exec ε (Machine σ × List Event) PUnit) :=
  .bind (h.note (h.map v)) fun _ => .bind (h.quiet (samePages_physToVirt _)) fun _ =>
    .bind (h.getOrCreate _ _) fun _ => .bind (h.getOrCreate _ _) fun _ =>
    .bind (h.getOrCreate _ _) fun _ => h.quiet (samePages_setEntry _ _ _)

/-- The turn that the loops of `sys_brk` and `alloc_anon` make once they have a frame. -/
theorem mapZeroed {α : Type} (h : Steady R P) (cr3 v f : ℕ)
    {rest : Exec ε (Machine σ × List Event) α} (hrest : Along R rest) : Along R (do
      Exec.quiet (zeroPage (← Exec.quiet (physToVirt f)))
      Trace.mapUserPage cr3 v f 0x7
      rest : Exec ε (Machine σ × List Event) α) :=
  .bind (h.quiet (samePages_physToVirt _)) fun _ => .bind (h.quiet (samePages_zeroPage _))
    fun _ => .bind (h.mapUserPage _ _ _ _) fun _ => hrest

/-- The loop of `alloc_anon` keeps the relation. -/
theorem allocAnonFrom (h : Steady R P) (cr3 base n i : ℕ) :
    Along R (Trace.allocAnonFrom cr3 base n i :
      Exec String (Machine σ × List Event) PUnit) := by
  induction n generalizing i with
  | zero => exact .pure _
  | succ n ih =>
    refine .ite (fun _ => .bind h.alloc fun o => ?_) fun _ => .throw _
    cases o with
    | none => exact .throw _
    | some f => exact h.mapZeroed _ _ _ (ih (i + 1))

/-- Finding or mapping a page of a segment keeps the relation. -/
theorem pageFrame (h : Steady R P) (cr3 page flags : ℕ) :
    Along R (Trace.pageFrame cr3 page flags : Exec Unit (Machine σ × List Event) ℕ) := by
  refine .bind (h.quiet (samePages_lookupPage _ _)) fun o => ?_
  cases o with
  | some f => exact h.quiet (samePages_physToVirt _)
  | none =>
    refine .bind h.alloc fun o => ?_
    cases o with
    | none => exact .throw _
    | some f =>
      exact .bind (h.quiet (samePages_physToVirt _)) fun ptr =>
        .bind (h.mapUserPage _ _ _ _) fun _ => .bind (h.quiet (samePages_zeroPage _)) fun _ =>
        .pure ptr

/-- Loading a page keeps the relation, when the notes of its copy are allowed. -/
theorem loadPage (h : Steady R P) {data : List UInt8} {cr3 page : ℕ} {ph : ProgramHeader}
    (hnotes : CopyNotes P ph page) :
    Along R (Trace.loadPage data cr3 ph page : Exec Unit (Machine σ × List Event) PUnit) := by
  refine .bind (h.pageFrame _ _ _) fun ptr => .ite (fun hin => ?_) fun _ => .pure _
  obtain ⟨hsum, hread⟩ := hnotes hin
  refine .bind (h.note hsum) fun _ => .ite (fun hlt => ?_) fun _ => .throw _
  exact .bind (h.note (hread hlt)) fun _ => h.quiet (samePages_copyFrom _ _ _ _)

/-- So does loading the pages of a segment. -/
theorem loadPages (h : Steady R P) {data : List UInt8} {cr3 : ℕ} {ph : ProgramHeader} (n : ℕ)
    {page : ℕ} (hnotes : ∀ i < n, CopyNotes P ph (page + 4096 * i)) :
    Along R (Trace.loadPages data cr3 ph n page :
      Exec Unit (Machine σ × List Event) PUnit) := by
  induction n generalizing page with
  | zero => exact .pure _
  | succ n ih =>
    refine .bind (h.loadPage (hnotes 0 (Nat.succ_pos n))) fun _ => ih fun i hi => ?_
    rw [show page + 4096 + 4096 * i = page + 4096 * (i + 1) by omega]
    exact hnotes (i + 1) (Nat.succ_lt_succ hi)

/-- So does loading the segments, with the notes for their headers. -/
theorem loadSegments (h : Steady R P) {data : List UInt8} {cr3 : ℕ} (n : ℕ) {o heapEnd : ℕ}
    (hread : ∀ i < n, P (.read (o + 56 * i) 56))
    (hnotes : ∀ ph ∈ headersFrom data n o, ph.type = ptLoad → SegmentNotes P ph) :
    Along R (Trace.loadSegments data cr3 n o heapEnd :
      Exec Unit (Machine σ × List Event) ℕ) := by
  induction n generalizing o heapEnd with
  | zero => exact .pure _
  | succ n ih =>
    refine .bind (h.note (hread 0 (Nat.succ_pos n))) fun _ => .ite (fun _ => ?_) fun _ => .throw _
    refine .bind ?_ fun heapEnd' => ih (fun i hi => ?_) fun ph hph =>
      hnotes ph (List.mem_cons_of_mem _ hph)
    · refine .ite (fun ht => ?_) fun _ => .pure _
      have hseg := hnotes _ List.mem_cons_self ht
      refine .bind (h.note hseg.sum) fun _ => .ite (fun _ => ?_) fun _ => .throw _
      exact .bind (h.loadPages _ hseg.copies) fun _ => .pure _
    · rw [show o + 56 + 56 * i = o + 56 * (i + 1) by omega]
      exact hread (i + 1) (Nat.succ_lt_succ hi)

/-- Mapping the stack keeps the relation. -/
theorem mapStack (h : Steady R P) (cr3 : ℕ) :
    Along R (Trace.mapStack cr3 : Exec Unit (Machine σ × List Event) PUnit) := by
  refine .forM _ fun i => .bind h.alloc fun o => ?_
  cases o with
  | none => exact .throw _
  | some f => exact h.mapUserPage _ _ _ _

/-- What the slice of the program headers notes. -/
structure SliceNotes (P : Event → Prop) (data : List UInt8) : Prop where
  header : P .header
  read : P (.read 0 headerReach)
  headers : (Elf.header data).phoff % 8 = 0 → P .headers

/-- The slice is made only of headers that are aligned. -/
theorem sliceHeaders (h : Steady R P) {data : List UInt8} (hnotes : SliceNotes P data) :
    AlongTo R (fun _ => (Elf.header data).phoff % 8 = 0)
      (Trace.sliceHeaders data : Exec Unit (Machine σ × List Event) PUnit) := by
  refine .bind (h.note hnotes.header).to fun _ _ => .bind (h.note hnotes.read).to fun _ _ => ?_
  refine .ite (fun _ => .throw _) fun _ => .ite (fun halign => ?_) fun _ => .throw _
  exact (h.note (hnotes.headers halign)).to.mono fun _ _ => halign

/-- What the loops of `spawn_process` note, which only a slice that was made leads to. -/
structure LoopNotes (P : Event → Prop) (data : List UInt8) : Prop where
  read : ∀ i < (header data).phnum, P (.read ((header data).phoff + 56 * i) 56)
  segments : ∀ ph ∈ programHeaders data, ph.type = ptLoad → SegmentNotes P ph

/-- What `spawn_process` notes for a file. -/
theorem loadProcess (h : Steady R P) (K : KernelTables) {data : List UInt8}
    (hhead : data ≠ [] → P (.read 0 (validReach data)))
    (hslice : (header data).isValid = true → SliceNotes P data)
    (hloops : (header data).isValid = true → (header data).phoff % 8 = 0 → LoopNotes P data) :
    Along R (Trace.loadProcess K data : Exec Unit (Machine σ × List Event) (ℕ × ℕ)) := by
  refine .ite (fun _ => .throw _) fun hne => ?_
  refine .bind (h.note (hhead hne)) fun _ => .ite (fun _ => .throw _) fun _ => ?_
  refine .ite (fun _ => .throw _) fun hvalid => .bind (h.createUserAddressSpace K) fun cr3 => ?_
  have hvalid' : (header data).isValid = true := by simpa using hvalid
  refine (h.sliceHeaders (hslice hvalid')).bind_along fun _ halign => ?_
  have hnotes := hloops hvalid' halign
  refine .bind (h.loadSegments _ hnotes.read ?_) fun heapEnd =>
    .bind (h.mapStack cr3) fun _ => .pure _
  rw [← programHeaders_eq]
  exact hnotes.segments

end Steady

/-! ## The frames of the allocator -/

/-- The frames `taken` are gone from the allocator, and no other has come or gone. -/
def TakesFrames (taken : Finset ℕ) (s s' : Machine σ) : Prop :=
  ↑taken ⊆ PageAllocator.free s.pages ∧
    PageAllocator.free s'.pages = PageAllocator.free s.pages \ ↑taken ∧
    PageAllocator.avail s.pages = PageAllocator.avail s'.pages + taken.card

/-- Frames are taken from the allocator, and none is given back. -/
def Spends (s s' : Machine σ) : Prop := ∃ taken, TakesFrames taken s s'

/-- A run that leaves the allocator alone takes no frame. -/
theorem TakesFrames.of_pages {s s' : Machine σ} (h : s'.pages = s.pages) :
    TakesFrames ∅ s s' := by
  refine ⟨by simp, ?_, ?_⟩
  · rw [h, Finset.coe_empty, Set.sdiff_empty]
  · rw [h, Finset.card_empty, Nat.add_zero]

/-- Frames taken in two runs are taken together. -/
theorem TakesFrames.trans {taken taken' : Finset ℕ} {s s' s'' : Machine σ}
    (h : TakesFrames taken s s') (h' : TakesFrames taken' s' s'') :
    TakesFrames (taken ∪ taken') s s'' := by
  obtain ⟨hsub, hfree, havail⟩ := h
  obtain ⟨hsub', hfree', havail'⟩ := h'
  rw [hfree] at hsub'
  have hdisj : Disjoint taken taken' := Finset.disjoint_left.2 fun f hf hf' =>
    (hsub' hf').2 hf
  refine ⟨?_, ?_, ?_⟩
  · rw [Finset.coe_union]
    exact Set.union_subset hsub fun f hf => (hsub' hf).1
  · rw [hfree', hfree, Finset.coe_union, Set.sdiff_sdiff]
  · rw [Finset.card_union_of_disjoint hdisj]
    omega

/-- No frame comes back. -/
theorem TakesFrames.avail_le {taken : Finset ℕ} {s s' : Machine σ} (h : TakesFrames taken s s') :
    PageAllocator.avail s'.pages ≤ PageAllocator.avail s.pages := by
  have := h.2.2
  omega

instance : IsPreorder (Machine σ) Spends where
  refl _ := ⟨∅, .of_pages rfl⟩
  trans _ _ _ h h' := by
    obtain ⟨taken, ht⟩ := h
    obtain ⟨taken', ht'⟩ := h'
    exact ⟨_, ht.trans ht'⟩

instance : IsPreorder (Machine σ × List Event) fun t u => Spends t.1 u.1 where
  refl t := refl_of Spends t.1
  trans _ _ _ h h' := trans_of Spends h h'

/-- Every run only takes frames. -/
theorem steady_spends :
    Steady (σ := σ) (fun t u => Spends t.1 u.1) fun _ => True where
  quiet h := .of_sat fun t => quiet_sat
    ((h.sat t.1).mono (fun _ _ hs => ⟨∅, .of_pages hs⟩) fun _ _ hs => ⟨∅, .of_pages hs⟩)
  alloc := by
    refine .of_sat fun t => quiet_sat ?_
    cases ha : PageAllocator.allocPage t.1.pages with
    | none =>
      rw [allocPage_none ha]
      exact sat_ok.2 (refl_of Spends t.1)
    | some p =>
      rw [allocPage_some ha]
      refine sat_ok.2 ⟨{p.1}, ?_, ?_, ?_⟩
      · rw [Finset.coe_singleton]
        exact Set.singleton_subset_iff.2 (PageAllocator.mem_free ha)
      · rw [Finset.coe_singleton]
        exact PageAllocator.free_eq ha
      · rw [Finset.card_singleton]
        exact PageAllocator.avail_some ha
  note _ t := refl_of Spends t.1
  expect := trivial
  map _ := trivial

/-- A run that leaves the allocator alone takes no frame. -/
theorem spends_of_samePages {α : Type} {x : Exec ε (Machine σ) α} (h : Along SamePages x) :
    Along Spends x := h.mono fun _ _ hs => ⟨∅, .of_pages hs⟩

/-- `map_user_page` only takes frames. -/
theorem spends_mapUserPage (cr3 v paddr flags : ℕ) :
    Along Spends (Paging.mapUserPage cr3 v paddr flags : Exec ε (Machine σ) PUnit) :=
  (Trace.logs_mapUserPage cr3 v paddr flags).along (steady_spends.mapUserPage cr3 v paddr flags)

/-- Anonymous pages only take frames. -/
theorem spends_allocAnonFrom (cr3 base n i : ℕ) :
    Along Spends (Paging.allocAnonFrom cr3 base n i : Exec String (Machine σ) PUnit) :=
  (Trace.logs_allocAnonFrom cr3 base n i).along (steady_spends.allocAnonFrom cr3 base n i)

/-- Loading the segments only takes frames. -/
theorem spends_loadSegments (data : List UInt8) (cr3 n o heapEnd : ℕ) :
    Along Spends (RossOs.loadSegments data cr3 n o heapEnd : Exec Unit (Machine σ) ℕ) :=
  (Trace.logs_loadSegments data cr3 n o heapEnd).along (steady_spends.loadSegments n
    (fun _ _ => trivial) fun _ _ _ => ⟨trivial, fun _ _ _ => ⟨trivial, fun _ => trivial⟩⟩)

/-- The stack only takes frames. -/
theorem spends_mapStack (cr3 : ℕ) :
    Along Spends (RossOs.mapStack cr3 : Exec Unit (Machine σ) PUnit) :=
  (Trace.logs_mapStack cr3).along (steady_spends.mapStack cr3)

/-- Loading an executable only takes frames. -/
theorem spends_loadProcess (K : KernelTables) (data : List UInt8) :
    Along Spends (RossOs.loadProcess K data : Exec Unit (Machine σ) (ℕ × ℕ)) :=
  (Trace.logs_loadProcess K data).along (steady_spends.loadProcess K (fun _ => trivial)
    (fun _ => ⟨trivial, trivial, fun _ => trivial⟩) fun _ _ => ⟨fun _ _ => trivial, fun _ _ _ =>
    ⟨trivial, fun _ _ _ => ⟨trivial, fun _ => trivial⟩⟩⟩)

end

end RossOs
