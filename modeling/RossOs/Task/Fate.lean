import RossOs.Task.Needs

/-!
# How the memory calls end

The needs of `spawn_process`, `sys_brk` and `sys_mmap`, read off the file, the arguments and the
tables that are there, and that the calls end as their needs say.
-/

namespace RossOs

open ByteMem Paging Elf Exec

section
variable {ε σ : Type} [PageAllocator σ] {data : List UInt8} {n : ℕ} {s s' : Machine σ}
  {log : List Event} {e511 cr3 : ℕ} {A : Space} {F : Footprint}

/-! ## A fresh address space -/

/-- An allocation that must not fail notes its failure. -/
theorem allocPageExpect_log (s : Machine σ) (log : List Event) :
    Sat ((Trace.allocPageExpect : Exec ε (Machine σ × List Event) ℕ) (s, log))
      (fun f t => f < 2 ^ 30 ∧ t.2 = log) (fun _ t => t.2 = log ++ [.expect]) := by
  rw [Trace.allocPageExpect]
  cases ha : PageAllocator.allocPage s.pages with
  | none =>
    rw [Exec.bind_of_ok (quiet_of_ok (allocPage_none ha))]
    exact note_sat (sat_error.2 rfl)
  | some p =>
    rw [Exec.bind_of_ok (quiet_of_ok (allocPage_some ha))]
    exact sat_ok.2 ⟨PageAllocator.below (PageAllocator.mem_free ha), rfl⟩

/-- The four steps that start a table: it stops only at the `expect`. -/
theorem allocTable_log {α : Type} {k : ℕ → ℕ → Exec ε (Machine σ × List Event) α}
    {Q : α → Machine σ × List Event → Prop} (s : Machine σ) (log : List Event)
    (hk : ∀ f t s', Sat (k f t (s', log)) Q fun _ t => t.2 = log ++ [.expect]) :
    Sat ((do
      let f ← Trace.allocPageExpect
      let t ← quiet (physToVirt f)
      quiet (zeroPage t)
      k f t : Exec ε (Machine σ × List Event) α) (s, log)) Q fun _ t => t.2 = log ++ [.expect] := by
  refine Sat.bind ((allocPageExpect_log s log).mono ?_ fun _ _ he => he)
  rintro f ⟨s₁, _⟩ ⟨hf, rfl⟩
  rw [Exec.bind_of_ok (quiet_of_ok (physToVirt_run (by omega)))]
  exact Sat.bind (quiet_sat (sat_ok.2 (hk _ _ _)))

/-- A directory of the identity map notes the failure of its allocation. -/
theorem identityDirectory_log (pdpt i : ℕ) (t : Machine σ × List Event) (ht : t.2 = log) :
    Sat ((Trace.identityDirectory pdpt i : Exec ε (Machine σ × List Event) PUnit) t)
      (fun _ t => t.2 = log) fun _ t => t.2 = log ++ [.expect] := by
  obtain ⟨s, _⟩ := t
  obtain rfl := ht
  refine allocTable_log s _ fun f pd s₁ => Sat.bind (quiet_sat ?_)
  refine (Sat.forM (I := fun _ => True) (E := fun _ _ => False) _ ?_ s₁ trivial).mono ?_
    fun _ _ he => he.elim
  · intro b _ s₂ _
    split
    · exact sat_ok.2 trivial
    · exact sat_ok.2 trivial
  · exact fun _ _ _ => quiet_sat (sat_ok.2 rfl)

/-- `create_user_address_space` stops only at an `expect`. -/
theorem createUserAddressSpace_log (K : KernelTables) (s : Machine σ) (log : List Event) :
    Sat ((Trace.createUserAddressSpace K : Exec ε (Machine σ × List Event) ℕ) (s, log))
      (fun _ t => t.2 = log) fun _ t => t.2 = log ++ [.expect] := by
  unfold Trace.createUserAddressSpace
  refine allocTable_log s log fun f4 pml4 s₁ => ?_
  refine Sat.bind (quiet_sat (sat_ok.2 (Sat.bind (quiet_sat (sat_ok.2 ?_)))))
  refine allocTable_log _ _ fun f3 pdpt s₂ => ?_
  refine Sat.bind ((Sat.forM (I := fun t : Machine σ × List Event => t.2 = log) _
    (fun i _ t ht => identityDirectory_log pdpt i t ht) (s₂, log) rfl).mono ?_ fun _ _ he => he)
  rintro _ ⟨s₃, _⟩ rfl
  exact Sat.bind (quiet_sat (sat_ok.2 (sat_ok.2 rfl)))

/-- Tables are dead without as many frames. -/
theorem fate_tables (n k : ℕ) :
    fate n (List.replicate k .table) = if k ≤ n then .done else .dead := by
  induction k generalizing n with
  | zero => rfl
  | succ k ih =>
    cases n with
    | zero => rfl
    | succ n =>
      rw [List.replicate_succ, fate, ih]
      exact if_congr Nat.succ_le_succ_iff.symm rfl rfl

/-- A table takes a frame. -/
theorem frames_tables (k : ℕ) : Need.frames (List.replicate k .table) = k := by
  induction k with
  | zero => rfl
  | succ k ih => rw [List.replicate_succ, Need.frames, ih]

/-- The footprint of the space that `create_user_address_space` builds. -/
theorem fits_freshSpace {f4 f3 : ℕ} {pds : List ℕ} (hlen : pds.length = 4) :
    freshFootprint.Fits (freshSpace f4 f3 pds) := by
  refine ⟨fun {v q} _ hq => ?_, fun {v} _ => ?_⟩
  · simp only [tablePaths, List.mem_cons, List.not_mem_nil, or_false] at hq
    rcases hq with rfl | rfl | rfl
    · by_cases h4 : index 39 v = 0
      · rw [h4]
        rfl
      · simp [freshFootprint, freshSpace, h4]
    · by_cases h4 : index 39 v = 0
      · have hsome : ((freshSpace f4 f3 pds).table [0, index 30 v]).isSome = true ↔
            index 30 v < 4 := by
          simp [freshSpace, hlen]
        rw [h4, Bool.eq_iff_iff, hsome]
        simp [freshFootprint]
        omega
      · simp [freshFootprint, freshSpace, h4]
    · simp [freshFootprint, freshSpace]
  · simp [freshFootprint, freshSpace, pagePath]

/-- A new address space ends as its six tables say. -/
theorem createUserAddressSpace_meets (K : KernelTables) (s : Machine σ) (hlog : Calm data log) :
    Meets data (PageAllocator.avail s.pages) (List.replicate 6 .table)
      (fun cr3 s' => Placed cr3 freshFootprint s')
      ((Trace.createUserAddressSpace K : Exec ε (Machine σ × List Event) ℕ) (s, log)) := by
  have hspec := (Trace.logs_createUserAddressSpace (ε := ε) K).sat (s := (s, log))
    (createUserAddressSpace_built K s)
  have hnotes := createUserAddressSpace_log (ε := ε) K s log
  intro _
  rw [fate_tables, frames_tables]
  refine ⟨fun {cr3 t} hr => ?_, fun {e t} hr => ?_⟩
  · obtain ⟨-, havail, f3, pds, hlen, hholds, -⟩ := hspec.of_ok hr
    have hleaf : ∀ p, (freshSpace cr3 f3 pds).leaf p = 0 := fun _ => rfl
    have hcalm : t.2 = log := hnotes.of_ok hr
    rw [if_pos (show 6 ≤ PageAllocator.avail s.pages by omega), hcalm]
    exact ⟨rfl, havail.symm, hlog, _, _, hholds.owned_of_leaf hleaf, rfl, fits_freshSpace hlen⟩
  · obtain ⟨rfl, -, hfew⟩ := hspec.of_error hr
    have hcalm : t.2 = log ++ [.expect] := hnotes.of_error hr
    rw [if_neg (show ¬ 6 ≤ PageAllocator.avail s.pages by omega), hcalm]
    refine .dead rfl (by simp) fun w hw => ?_
    rcases List.mem_append.1 hw with hw | hw
    · exact hlog.2 w hw
    · rw [List.mem_singleton.1 hw]
      trivial

/-! ## The loader -/

/-- The bytes that a page gets are in the file, and where they start is below 2^64. -/
def Elf.ProgramHeader.CopyInside (data : List UInt8) (ph : ProgramHeader) (page : ℕ) : Prop :=
  ph.fileOffset page < ph.filesz → ph.offset + ph.fileOffset page < 2 ^ 64 ∧
    ph.offset + ph.fileOffset page + min (ph.filesz - ph.fileOffset page)
      (4096 - ph.pageOffset page) ≤ data.length

instance (data : List UInt8) (ph : ProgramHeader) (page : ℕ) :
    Decidable (ph.CopyInside data page) :=
  inferInstanceAs (Decidable (_ → _))

instance (ph : ProgramHeader) : Decidable ph.NoWrap := inferInstanceAs (Decidable (_ < _))

namespace Footprint

/-- The footprint after a page of a segment: mapped now, unless it was. -/
def load (F : Footprint) (page : ℕ) : Footprint := if F (pagePath page) then F else F.map page

/-- One turn of the page loop of `spawn_process`. -/
def loadNeeds (F : Footprint) (data : List UInt8) (ph : ProgramHeader) (page : ℕ) : List Need :=
  .visit page :: ((if F (pagePath page) then [] else .page :: F.tableNeeds page) ++
    if ph.CopyInside data page then [] else [.stray])

/-- The page loop of a segment. -/
def pagesNeeds (data : List UInt8) (ph : ProgramHeader) : Footprint → (n page : ℕ) → List Need
  | _, 0, _ => []
  | F, n + 1, page => F.loadNeeds data ph page ++ pagesNeeds data ph (F.load page) n (page + 4096)

/-- The footprint after the page loop. -/
def loadAll : Footprint → (n page : ℕ) → Footprint
  | F, 0, _ => F
  | F, n + 1, page => loadAll (F.load page) n (page + 4096)

/-- The footprint after a segment. -/
def loadSegment (F : Footprint) (ph : ProgramHeader) : Footprint :=
  if ph.type = ptLoad then F.loadAll ((ph.pageEnd - ph.pageStart) / 4096) ph.pageStart else F

/-- One turn of the loop over the program headers. -/
def segmentNeeds (F : Footprint) (data : List UInt8) (ph : ProgramHeader) : List Need :=
  if ph.type = ptLoad then
    if ph.NoWrap then F.pagesNeeds data ph ((ph.pageEnd - ph.pageStart) / 4096) ph.pageStart
    else [.stray]
  else []

/-- The loop over the program headers from the one at `o` on. -/
def segmentsNeeds (data : List UInt8) : Footprint → (n o : ℕ) → List Need
  | _, 0, _ => []
  | F, n + 1, o =>
    if o + 56 ≤ data.length then
      F.segmentNeeds data (programHeader data o) ++
        segmentsNeeds data (F.loadSegment (programHeader data o)) n (o + 56)
    else [.stray]

/-- The footprint after the segments. -/
def loadSegments (data : List UInt8) : Footprint → (n o : ℕ) → Footprint
  | F, 0, _ => F
  | F, n + 1, o => loadSegments data (F.loadSegment (programHeader data o)) n (o + 56)

end Footprint

/-- The pages of the stack, in the order of the loop. -/
def stackList : List ℕ := (List.range stackPages).map fun i => stackVaddr + i * 4096

/-- The slice of the program headers. -/
def sliceNeeds (data : List UInt8) : List Need :=
  if data.length < headerReach then [.stray]
  else if (header data).phoff % 8 = 0 then []
  else [.halt]

/-- The needs of `spawn_process`. -/
def spawnNeeds (data : List UInt8) : List Need :=
  if data = [] then [.halt]
  else if data.length < validReach data then [.stray]
  else if !(header data).isValid then [.refuse]
  else List.replicate 6 .table ++ (sliceNeeds data ++
    (freshFootprint.segmentsNeeds data (header data).phnum (header data).phoff ++
      (freshFootprint.loadSegments data (header data).phnum (header data).phoff).growNeeds
        stackList))

/-- The frame for a page of a segment. -/
theorem pageFrame_meets {page flags : ℕ} (hP : Placed cr3 F s) (hv : ¬ Reserved page)
    (hfl : flags < 4096) (hlog : Calm data log) :
    Meets data (PageAllocator.avail s.pages)
      (if F (pagePath page) then [] else .page :: F.tableNeeds page)
      (fun ptr s' => ∃ e511 A, Owned e511 s' A ∧ A.table [] = some cr3 ∧ (F.load page).Fits A ∧
        A.leaf (pagePath page) ≠ 0 ∧ ptr = frameOf (A.leaf (pagePath page)) + kernelVmaBase)
      (Trace.pageFrame cr3 page flags (s, log)) := by
  obtain ⟨e511, A, h, hroot, hF⟩ := hP
  have hpage := hF.page hv
  unfold Trace.pageFrame
  refine Meets.quiet_of_ok (h.lookupPage_run hroot hv) ?_
  by_cases hleaf : A.leaf (pagePath page) = 0
  · have hnot : F (pagePath page) = false := by simp [hpage, hleaf]
    rw [if_pos hleaf, hnot]
    refine Meets.alloc hlog ⟨(), rfl⟩ fun f pages ha => ?_
    have hf := PageAllocator.aligned (PageAllocator.mem_free ha)
    have hf' := PageAllocator.below (PageAllocator.mem_free ha)
    refine Meets.quiet_of_ok (physToVirt_run (by omega)) ?_
    have hmap := h.mapFresh_meets (ε := Unit) hroot hv hF ha .refl hfl hlog
    rw [← List.append_nil (F.tableNeeds page)]
    refine hmap.bind ?_
    rintro _ s₁ log₁ ⟨A', hA', hroot', hF', hleaf'⟩ hlog₁
    have hframe : frameOf (A'.leaf (pagePath page)) = f := by
      rw [hleaf']
      exact frameOf_add hf (by omega) (pageEntry_lt hfl)
    have hne : A'.leaf (pagePath page) ≠ 0 := by
      rw [hleaf']
      exact pageEntry_ne_zero f flags
    have hzero := hA'.write_target (f := f) ⟨_, hne, hframe⟩ sameOutside_clear
    refine Meets.quiet_of_ok (zeroPage_run s₁ f) ?_
    refine Meets.ok hlog₁ rfl ⟨e511, A', hzero.owned, hroot', ?_, hne, by rw [hframe]⟩
    rw [Footprint.load, hnot]
    exact hF'
  · have hthere : F (pagePath page) = true := by simp [hpage, hleaf]
    obtain ⟨f, x, -, hframe, -, -, -, hf', -, -⟩ := h.frameOf_leaf hleaf
    rw [if_neg hleaf, hthere]
    simp only [hframe]
    rw [quiet_of_ok (physToVirt_run (by omega))]
    refine Meets.ok hlog rfl ⟨e511, A, h, hroot, ?_, hleaf, by rw [hframe]⟩
    rw [Footprint.load, hthere]
    exact hF

/-- The copy into a page that is mapped. -/
theorem copyPage_meets {ph : ProgramHeader} {page f : ℕ} (h : Owned e511 s A)
    (hroot : A.table [] = some cr3) (hF : F.Fits A) (hf : f ∈ A.targets) (hlog : Calm data log) :
    Meets data (PageAllocator.avail s.pages) (if ph.CopyInside data page then [] else [.stray])
      (fun _ s' => Placed cr3 F s')
      ((if ph.fileOffset page < ph.filesz then do
          note (.sum (ph.offset + ph.fileOffset page))
          if ph.offset + ph.fileOffset page < 2 ^ 64 then
            Trace.copyFrom data (ph.offset + ph.fileOffset page)
              (f + kernelVmaBase + ph.pageOffset page)
              (min (ph.filesz - ph.fileOffset page) (4096 - ph.pageOffset page))
          else Exec.panic
        else pure ⟨⟩ : Exec Unit (Machine σ × List Event) PUnit) (s, log)) := by
  by_cases hsome : ph.fileOffset page < ph.filesz
  case neg =>
    have hinside : ph.CopyInside data page := fun hn => absurd hn hsome
    rw [if_neg hsome, if_pos hinside]
    exact Meets.ok hlog rfl ⟨e511, A, h, hroot, hF⟩
  rw [if_pos hsome]
  refine Meets.noted ?_
  by_cases hsum : ph.offset + ph.fileOffset page < 2 ^ 64
  case neg =>
    rw [if_neg hsum, if_neg fun hin : ph.CopyInside data page => hsum (hin hsome).1]
    exact Meets.stray not_isErr_panic hlog hsum
  rw [if_pos hsum]
  have hlog₁ : Calm data (log ++ [.sum (ph.offset + ph.fileOffset page)]) :=
    hlog.note (by simp) hsum
  unfold Trace.copyFrom
  refine Meets.noted ?_
  rw [copyFrom]
  by_cases hin : ph.offset + ph.fileOffset page +
      min (ph.filesz - ph.fileOffset page) (4096 - ph.pageOffset page) ≤ data.length
  case neg =>
    rw [if_neg hin, if_neg fun hcopy : ph.CopyInside data page => hin (hcopy hsome).2]
    exact Meets.stray not_isErr_outOfBounds hlog₁ hin
  case pos =>
    have hptr : f + kernelVmaBase + ph.pageOffset page - kernelVmaBase =
        f + ph.pageOffset page := by omega
    have hlen := length_slice hin
    have hsame : SameOutside {f} s.mem (write s.mem (f + ph.pageOffset page)
        (slice data (ph.offset + ph.fileOffset page)
          (min (ph.filesz - ph.fileOffset page) (4096 - ph.pageOffset page)))) := by
      intro a ha
      have := ha f rfl
      unfold InFrame at this
      refine write_apply_of_outside ?_
      rw [hlen]
      omega
    have hinside : ph.CopyInside data page := fun _ => ⟨hsum, hin⟩
    rw [if_pos hin, if_pos hinside, quiet_of_ok (Exec.modify_apply _ _), hptr]
    exact Meets.ok (hlog₁.note (by simp) hin) rfl
      ⟨e511, A, (h.write_target hf hsame).owned, hroot, hF⟩

/-- One turn of the page loop. -/
theorem loadPage_meets {ph : ProgramHeader} {page : ℕ} (hP : Placed cr3 F s)
    (hlog : Calm data log) :
    Meets data (PageAllocator.avail s.pages) (F.loadNeeds data ph page)
      (fun _ s' => Placed cr3 (F.load page) s') (Trace.loadPage data cr3 ph page (s, log)) := by
  refine Meets.visit fun hv => ?_
  unfold Trace.loadPage
  refine (pageFrame_meets hP hv (pageFlags_lt ph) hlog).bind ?_
  rintro _ s₁ log₁ ⟨e511, A, hA, hroot, hF, hleaf, rfl⟩ hlog₁
  exact copyPage_meets hA hroot hF ⟨_, hleaf, rfl⟩ hlog₁

/-- The page loop of a segment. -/
theorem loadPages_meets {ph : ProgramHeader} (n : ℕ) {page : ℕ} (hP : Placed cr3 F s)
    (hlog : Calm data log) :
    Meets data (PageAllocator.avail s.pages) (F.pagesNeeds data ph n page)
      (fun _ s' => Placed cr3 (F.loadAll n page) s')
      (Trace.loadPages data cr3 ph n page (s, log)) := by
  induction n generalizing F s log page with
  | zero => exact Meets.ok hlog rfl hP
  | succ n ih => exact (loadPage_meets hP hlog).bind fun _ s₁ log₁ hP₁ hlog₁ => ih hP₁ hlog₁

/-- One turn of the loop over the program headers. -/
theorem loadSegment_meets {ph : ProgramHeader} {heapEnd : ℕ} (hP : Placed cr3 F s)
    (hlog : Calm data log) :
    Meets data (PageAllocator.avail s.pages) (F.segmentNeeds data ph)
      (fun _ s' => Placed cr3 (F.loadSegment ph) s')
      (Trace.loadSegment data cr3 ph heapEnd (s, log)) := by
  unfold Trace.loadSegment Footprint.segmentNeeds Footprint.loadSegment
  by_cases ht : ph.type = ptLoad
  case neg =>
    rw [if_neg ht, if_neg ht, if_neg ht]
    exact Meets.ok hlog rfl hP
  rw [if_pos ht, if_pos ht, if_pos ht]
  refine Meets.noted ?_
  by_cases hw : ph.vaddr + ph.memsz + 4095 < 2 ^ 64
  case neg =>
    rw [if_neg hw, if_neg (show ¬ ph.NoWrap from hw)]
    exact Meets.stray not_isErr_panic hlog hw
  rw [if_pos hw, if_pos (show ph.NoWrap from hw), ← List.append_nil (F.pagesNeeds _ _ _ _)]
  have hlog₀ : Calm data (log ++ [.sum (ph.vaddr + ph.memsz + 4095)]) := hlog.note (by simp) hw
  exact (loadPages_meets _ hP hlog₀).bind fun _ s₁ log₁ hP₁ hlog₁ => Meets.ok hlog₁ rfl hP₁

/-- The loop over the program headers. -/
theorem loadSegments_meets (n : ℕ) {o heapEnd : ℕ} (hP : Placed cr3 F s) (hlog : Calm data log) :
    Meets data (PageAllocator.avail s.pages) (F.segmentsNeeds data n o)
      (fun _ s' => Placed cr3 (F.loadSegments data n o) s')
      (Trace.loadSegments data cr3 n o heapEnd (s, log)) := by
  induction n generalizing F s log o heapEnd with
  | zero => exact Meets.ok hlog rfl hP
  | succ n ih =>
    rw [Footprint.segmentsNeeds]
    refine Meets.noted ?_
    by_cases hin : o + 56 ≤ data.length
    · rw [if_pos hin, if_pos hin]
      have hlog₀ : Calm data (log ++ [.read o 56]) := hlog.note (by simp) hin
      exact (loadSegment_meets hP hlog₀).bind fun _ s₁ log₁ hP₁ hlog₁ => ih hP₁ hlog₁
    · rw [if_neg hin, if_neg hin]
      exact Meets.stray not_isErr_outOfBounds hlog hin

/-- The stack loop ends as its needs say. -/
theorem mapStack_meets (hP : Placed cr3 F s) (hlog : Calm data log) :
    Meets data (PageAllocator.avail s.pages) (F.growNeeds stackList) (fun _ _ => True)
      (Trace.mapStack cr3 (s, log)) := by
  unfold Trace.mapStack stackList
  induction List.range stackPages generalizing F s log with
  | nil => exact Meets.ok hlog rfl trivial
  | cons i l ih =>
    obtain ⟨e511, A, h, hroot, hF⟩ := hP
    rw [Exec.forM_cons]
    refine Meets.bind (l := .page :: .visit _ :: F.tableNeeds _)
      (Q := fun _ s' => Placed cr3 (F.map (stackVaddr + i * 4096)) s') ?_
      fun _ s₁ log₁ hP₁ hlog₁ => ih hP₁ hlog₁
    refine Meets.alloc hlog ⟨(), rfl⟩ fun f pages ha => ?_
    refine Meets.visit fun hv => ?_
    refine (h.mapFresh_meets hroot hv hF ha .refl (by decide) hlog).mono ?_
    rintro _ s₁ ⟨A', hA', hroot', hF', -⟩
    exact ⟨e511, A', hA', hroot', hF'⟩

/-- The slice of the program headers. -/
theorem sliceHeaders_meets (hP : Placed cr3 F s) (hlog : Calm data log) :
    Meets data (PageAllocator.avail s.pages) (sliceNeeds data) (fun _ s' => Placed cr3 F s')
      (Trace.sliceHeaders data (s, log)) := by
  unfold Trace.sliceHeaders sliceNeeds
  have hread : (Event.read 0 headerReach).Inside data ↔ 0 + headerReach ≤ data.length := Iff.rfl
  have hlog₁ : Calm data (log ++ [.header]) := hlog.note (by simp) trivial
  refine Meets.noted (Meets.noted ?_)
  by_cases hlen : data.length < headerReach
  · rw [if_pos hlen, if_pos hlen]
    exact Meets.stray not_isErr_outOfBounds hlog₁ (by rw [hread]; omega)
  have hlog₂ : Calm data (log ++ [.header] ++ [.read 0 headerReach]) :=
    hlog₁.note (by simp) (by rw [hread]; omega)
  rw [if_neg hlen, if_neg hlen]
  by_cases halign : (header data).phoff % 8 = 0
  · rw [if_pos halign, if_pos halign]
    exact Meets.ok (hlog₂.note (by simp) trivial) rfl hP
  · rw [if_neg halign, if_neg halign]
    exact Meets.halt hlog₂

/-- `spawn_process` up to the address space. -/
theorem loadProcess_meets (K : KernelTables) (data : List UInt8) (s : Machine σ) :
    Meets data (PageAllocator.avail s.pages) (spawnNeeds data) (fun _ _ => True)
      (Trace.loadProcess K data (s, [])) := by
  unfold Trace.loadProcess spawnNeeds
  by_cases hempty : data = []
  · rw [if_pos hempty, if_pos hempty]
    exact Meets.halt (calm_nil data)
  rw [if_neg hempty, if_neg hempty]
  refine Meets.noted ?_
  have hread : (Event.read 0 (validReach data)).Inside data ↔ 0 + validReach data ≤ data.length :=
    Iff.rfl
  by_cases hlen : data.length < validReach data
  · rw [if_pos hlen, if_pos hlen]
    exact Meets.stray not_isErr_outOfBounds (calm_nil data) (by rw [hread]; omega)
  have hlog : Calm data ([] ++ [.read 0 (validReach data)]) :=
    (calm_nil data).note (by simp) (by rw [hread]; omega)
  rw [if_neg hlen, if_neg hlen]
  by_cases hvalid : (!(header data).isValid) = true
  · rw [if_pos hvalid, if_pos hvalid]
    exact fun _ => sat_error.2 (.refused ⟨(), rfl⟩ hlog)
  rw [if_neg hvalid, if_neg hvalid]
  refine (createUserAddressSpace_meets K s hlog).bind fun cr3 s₁ log₁ hP₁ hlog₁ => ?_
  refine (sliceHeaders_meets hP₁ hlog₁).bind fun _ s₂ log₂ hP₂ hlog₂ => ?_
  refine (loadSegments_meets _ hP₂ hlog₂).bind fun heapEnd s₃ log₃ hP₃ hlog₃ => ?_
  rw [← List.append_nil (Footprint.growNeeds _ _)]
  exact (mapStack_meets hP₃ hlog₃).bind fun _ s₄ log₄ _ hlog₄ => Meets.ok hlog₄ rfl trivial

/-! ## The heap -/

/-- `n` pages from `base` on. -/
def pagesFrom : (base n : ℕ) → List ℕ
  | _, 0 => []
  | base, n + 1 => base :: pagesFrom (base + 4096) n

/-- The page after one that is not reserved: no 64-bit sum overflows. -/
theorem next_lt {v : ℕ} (hv : ¬ Reserved v) (hlt : v < 2 ^ 64) : v + 4096 < 2 ^ 64 := by
  by_contra hge
  refine hv (.inl ?_)
  rw [index_eq]
  omega

/-- A loop of mappings does not leave the file and does not halt. -/
theorem fate_growNeeds (n : ℕ) (F : Footprint) (vs : List ℕ) :
    fate n (F.growNeeds vs) ≠ .strays ∧ fate n (F.growNeeds vs) ≠ .halted := by
  have hnot : .stray ∉ F.growNeeds vs ∧ .halt ∉ F.growNeeds vs := by
    induction vs generalizing F with
    | nil => exact ⟨List.not_mem_nil, List.not_mem_nil⟩
    | cons v vs ih => simp [Footprint.growNeeds, Footprint.tableNeeds, ih]
  exact ⟨fun h => hnot.1 (mem_of_fate.1 h), fun h => hnot.2 (mem_of_fate.2 h)⟩

/-- The tables of a page are tables only. -/
theorem tableNeeds_eq (F : Footprint) (v : ℕ) :
    ∃ k, F.tableNeeds v = List.replicate k .table := by
  refine ⟨(F.tableNeeds v).length, List.eq_replicate_iff.2 ⟨rfl, fun a ha => ?_⟩⟩
  obtain ⟨q, -, hq⟩ := List.mem_flatMap.1 ha
  split at hq
  · cases hq
  · exact List.mem_singleton.1 hq

/-- The turn that both loops make once they have a frame. -/
theorem mapZeroed_meets {α : Type} {v f : ℕ} {pages : σ} {l : List Need}
    {Q : α → Machine σ → Prop} (hP : Placed cr3 F s) (hv : ¬ Reserved v)
    (ha : PageAllocator.allocPage s.pages = some (f, pages)) (hlog : Calm data log)
    {rest : Exec ε (Machine σ × List Event) α}
    (hrest : ∀ s₁ log₁, Placed cr3 (F.map v) s₁ → Calm data log₁ →
      Meets data (PageAllocator.avail s₁.pages) l Q (rest (s₁, log₁))) :
    Meets data (PageAllocator.avail pages) (F.tableNeeds v ++ l) Q ((do
      quiet (zeroPage (← quiet (physToVirt f)))
      Trace.mapUserPage cr3 v f 0x7
      rest : Exec ε (Machine σ × List Event) α) ({ s with pages := pages }, log)) := by
  obtain ⟨e511, A, h, hroot, hF⟩ := hP
  have hlt := PageAllocator.below (PageAllocator.mem_free ha)
  refine Meets.quiet_of_ok (physToVirt_run (by omega)) ?_
  refine Meets.quiet_of_ok (zeroPage_run _ f) ?_
  refine (h.mapFresh_meets hroot hv hF ha sameOutside_clear (by decide) hlog).bind ?_
  rintro _ s₁ log₁ ⟨A', hA', hroot', hF', -⟩ hlog₁
  exact hrest s₁ log₁ ⟨e511, A', hA', hroot', hF'⟩ hlog₁

/-- The loop of `alloc_anon` ends as its needs say. -/
theorem allocAnonFrom_meets (base n i : ℕ) (hP : Placed cr3 F s)
    (hlt : base + i * 4096 < 2 ^ 64) (hlog : Calm data log) :
    Meets data (PageAllocator.avail s.pages) (F.growNeeds (pagesFrom (base + i * 4096) n))
      (fun _ _ => base + (i + n) * 4096 < 2 ^ 64)
      (Trace.allocAnonFrom cr3 base n i (s, log)) := by
  induction n generalizing F s log i with
  | zero => exact Meets.ok hlog rfl hlt
  | succ n ih =>
    rw [Trace.allocAnonFrom, if_pos hlt]
    refine Meets.alloc hlog ⟨_, rfl⟩ fun f pages ha => Meets.visit fun hv => ?_
    refine mapZeroed_meets hP hv ha hlog fun s₁ log₁ hP₁ hlog₁ => ?_
    have hnext : base + (i + 1) * 4096 = base + i * 4096 + 4096 := by omega
    have hlt₁ := next_lt hv hlt
    rw [← hnext] at hlt₁ ⊢
    have hind := ih (i + 1) hP₁ hlt₁ hlog₁
    rwa [show i + 1 + n = i + (n + 1) by omega] at hind

/-- The loop of `sys_brk`: when there is no frame for a page it stops where it is. -/
theorem brkLoop_fate (n : ℕ) {addr : ℕ} (hP : Placed cr3 F s) (hlt : addr < 2 ^ 64)
    (hlog : Calm data log)
    (hw : fate (PageAllocator.avail s.pages) (F.growNeeds (pagesFrom addr n)) ≠ .wild) :
    Sat (Trace.brkLoop cr3 n addr (s, log))
      (fun r t => Calm data t.2 ∧
        (fate (PageAllocator.avail s.pages) (F.growNeeds (pagesFrom addr n)) = .done ∧
            r = addr + 4096 * n ∨
          fate (PageAllocator.avail s.pages) (F.growNeeds (pagesFrom addr n)) = .refused ∧
            PageAllocator.avail t.1.pages = 0 ∧ ∃ j < n, r = addr + 4096 * j))
      (fun _ t => fate (PageAllocator.avail s.pages) (F.growNeeds (pagesFrom addr n)) = .dead ∧
        .expect ∈ t.2) := by
  induction n generalizing F s log addr with
  | zero => exact sat_ok.2 ⟨hlog, .inl ⟨rfl, rfl⟩⟩
  | succ n ih =>
    rw [pagesFrom, Footprint.growNeeds] at hw ⊢
    rw [Trace.brkLoop]
    cases ha : PageAllocator.allocPage s.pages with
    | none =>
      have hnone := PageAllocator.avail_none ha
      rw [Exec.bind_of_ok (quiet_of_ok (allocPage_none ha)), hnone]
      exact sat_ok.2 ⟨hlog, .inr ⟨rfl, hnone, 0, Nat.succ_pos n, rfl⟩⟩
    | some p =>
      have havail : PageAllocator.avail s.pages = PageAllocator.avail p.2 + 1 :=
        PageAllocator.avail_some ha
      rw [havail, fate, fate] at hw ⊢
      have hv : ¬ Reserved addr := fun hv => by
        rw [if_pos hv] at hw
        exact hw rfl
      rw [if_neg hv] at hw ⊢
      obtain ⟨e511, A, h, hroot, hF⟩ := hP
      have hf := PageAllocator.below (PageAllocator.mem_free ha)
      obtain ⟨k, hk⟩ := tableNeeds_eq F addr
      have hmap := h.mapFresh_meets (ε := Empty) (s := s) (v := addr) hroot hv hF ha
        sameOutside_clear (show 7 < 4096 by decide) hlog (by
          rw [hk, fate_tables]
          split <;> simp)
      rw [Exec.bind_of_ok (quiet_of_ok (allocPage_some ha))]
      simp only
      rw [Exec.bind_of_ok (quiet_of_ok (physToVirt_run (by omega))),
        Exec.bind_of_ok (quiet_of_ok (zeroPage_run _ p.1))]
      rw [fate_append] at hw ⊢
      refine Sat.bind (hmap.mono ?_ ?_)
      · rintro _ ⟨s₁, log₁⟩ ⟨hdone, hcount, hlog₁, A', hA', hroot', hF', -⟩
        have hcount' : PageAllocator.avail s₁.pages + Need.frames (F.tableNeeds addr) =
            PageAllocator.avail p.2 := hcount
        have hn : PageAllocator.avail p.2 - Need.frames (F.tableNeeds addr) =
            PageAllocator.avail s₁.pages := by omega
        rw [if_pos hdone, hn] at hw ⊢
        rw [if_pos (next_lt hv hlt)]
        refine (ih ⟨e511, A', hA', hroot', hF'⟩ (next_lt hv hlt) hlog₁ hw).mono ?_ fun _ _ he => he
        rintro r t ⟨hcalm, ⟨hall, rfl⟩ | ⟨href, hnone, j, hj, rfl⟩⟩
        · exact ⟨hcalm, .inl ⟨hall, by omega⟩⟩
        · exact ⟨hcalm, .inr ⟨href, hnone, j + 1, by omega, by omega⟩⟩
      · intro e t hstops
        rw [hk, fate_tables] at hstops ⊢
        split at hstops
        · cases hstops
        case isFalse hfew =>
          rw [if_neg (by rw [if_neg hfew]; simp), if_neg hfew]
          cases hstops with
          | dead _ hmem _ => exact ⟨rfl, hmem⟩

end

end RossOs
