import RossOs.Paging.Owned
import RossOs.Task.Model

/-!
# Loading an executable

The loops of `spawn_process`, one lemma each. `Loads` says what the segment loops have done to an
address space so far: the pages `P` are mapped, pages mapped before keep their frames, and the
bytes `w` have been written over what was there, where a page that was not mapped counts as zeros.
`loadProcess_image` puts the loops together: the new address space shows the image of the file.
-/

namespace RossOs

open ByteMem Paging Elf

variable {σ : Type} [PageAllocator σ]

/-- A stage of the loader: the pages `P` got mapped and the bytes `w` got written. -/
structure Loads (e511 n : ℕ) (P : Set ℕ) (w : ℕ → Option UInt8) (s : Machine σ) (A : Space)
    (s' : Machine σ) (A' : Space) : Prop where
  evolves : Evolves e511 n s A s' A'
  keep : ∀ {p : List ℕ}, A.leaf p ≠ 0 → A'.leaf p = A.leaf p
  mapped : ∀ {page : ℕ}, page ∈ P → A'.leaf (pagePath page) ≠ 0
  only : ∀ {p : List ℕ}, A'.leaf p ≠ 0 → A.leaf p ≠ 0 ∨ ∃ page ∈ P, p = pagePath page
  bytes : ∀ {va : ℕ}, va < 2 ^ 48 → A'.byteAt s'.mem (pagePath va) (va % 4096) =
    (w va).getD (A.byteAt s.mem (pagePath va) (va % 4096))

section
variable {e511 n k cr3 : ℕ} {s s₁ s' : Machine σ} {A A₁ A' : Space} {P P' : Set ℕ}
  {w w' : ℕ → Option UInt8}

/-- Before a stage of the loader nothing is mapped or written. -/
theorem Loads.refl (h : Owned e511 s A) : Loads e511 0 ∅ (fun _ => none) s A s A :=
  ⟨.refl h, fun _ => rfl, fun hp => hp.elim, .inl, fun _ => rfl⟩

/-- Two stages of loading are one, in which later bytes win. -/
theorem Loads.trans (h : Loads e511 n P w s A s₁ A₁) (h' : Loads e511 k P' w' s₁ A₁ s' A') :
    Loads e511 (n + k) (P ∪ P') (fun va => (w' va).or (w va)) s A s' A' where
  evolves := h.evolves.trans h'.evolves
  keep hp := by
    have hp₁ := h.keep hp
    rw [h'.keep (hp₁ ▸ hp), hp₁]
  mapped hpage := by
    rcases hpage with hpage | hpage
    · rw [h'.keep (h.mapped hpage)]
      exact h.mapped hpage
    · exact h'.mapped hpage
  only hp := by
    rcases h'.only hp with hp₁ | ⟨page, hpage, rfl⟩
    · rcases h.only hp₁ with hp₀ | ⟨page, hpage, rfl⟩
      · exact .inl hp₀
      · exact .inr ⟨page, .inl hpage, rfl⟩
    · exact .inr ⟨page, .inr hpage, rfl⟩
  bytes hva := by
    rw [h'.bytes hva, h.bytes hva]
    cases w' _ <;> rfl

/-- The same stage with its pages, bytes and budget written another way. -/
theorem Loads.congr (h : Loads e511 n P w s A s' A') (hn : n ≤ k) (hP : P = P')
    (hw : ∀ va < 2 ^ 48, w va = w' va) : Loads e511 k P' w' s A s' A' := by
  subst hP
  refine ⟨h.evolves.weaken hn, h.keep, h.mapped, h.only, fun hva => ?_⟩
  rw [← hw _ hva, h.bytes hva]

/-! ## One page -/

/-- A page that was not mapped gets the frame `f`, which is zeroed then. -/
theorem loads_fresh {page f e : ℕ} {pages : σ} (h : Owned e511 s A)
    (ha : PageAllocator.allocPage s.pages = some (f, pages)) (hleaf : A.leaf (pagePath page) = 0)
    (he : e ≠ 0) (hframe : frameOf e = f) (hev : Evolves e511 n s A s₁ A')
    (hleaf' : A'.leaf = Function.update A.leaf (pagePath page) e)
    (hapart : ∀ g ∈ A'.frames, g ∉ A.targets ∧ g ≠ f) (hsame : SameOutside A'.frames s.mem s₁.mem) :
    Loads e511 n {page} (fun _ => none) s A ⟨clear s₁.mem f 4096, s₁.pages⟩ A' := by
  have hself : A'.leaf (pagePath page) = e := by rw [hleaf', Function.update_self]
  have hself' : frameOf (A'.leaf (pagePath page)) = f := by rw [hself, hframe]
  have htarget : f ∈ A'.targets := ⟨pagePath page, hself ▸ he, hself'⟩
  refine ⟨hev.trans (hev.owned.write_target htarget sameOutside_clear), ?keep, ?mapped, ?only,
    ?bytes⟩
  case keep =>
    intro p hp
    rw [hleaf', Function.update_of_ne]
    rintro rfl
    exact hp hleaf
  case mapped =>
    rintro _ rfl
    rw [hself]
    exact he
  case only =>
    intro p hp
    rcases eq_or_ne p (pagePath page) with rfl | hne
    · exact .inr ⟨page, rfl, rfl⟩
    · rw [hleaf', Function.update_of_ne hne] at hp
      exact .inl hp
  case bytes =>
    intro va _
    have ho : va % 4096 < 4096 := Nat.mod_lt _ (by decide)
    have hwrite := hev.owned.byteAt_write (m := clear s₁.mem f 4096) (hself ▸ he)
      (by rw [hself']; exact sameOutside_clear) ho (pagePath va)
    rw [Option.getD_none, hwrite, h.byteAt_mapFresh ha .refl hev.owned hleaf' he hframe hapart
      hsame ho, hself']
    split
    case isTrue hpath =>
      rw [clear_apply_of_lt (by omega) (by omega), Space.byteAt, hpath, if_pos hleaf]
    case isFalse hpath => rfl

/-- The frame of a page: mapped before, or taken, mapped and zeroed now. The task sees no byte
change, and the entry of the page is the one it had, or a new one with the flags. -/
theorem pageFrame_entry {page flags : ℕ} (h : Owned e511 s A) (hroot : A.table [] = some cr3)
    (hv : ¬ Reserved page) (hfl : flags < 4096) :
    Exec.Sat ((pageFrame cr3 page flags : Exec Unit (Machine σ) ℕ) s)
      (fun ptr s' => ∃ A', ptr = frameOf (A'.leaf (pagePath page)) + kernelVmaBase ∧
        Loads e511 4 {page} (fun _ => none) s A s' A' ∧
        (A.leaf (pagePath page) ≠ 0 → A'.leaf = A.leaf) ∧
        (A.leaf (pagePath page) = 0 → ∃ f, 4096 ∣ f ∧
          A'.leaf = Function.update A.leaf (pagePath page) (f + (flags ||| present ||| user))))
      (fun _ s' => PageAllocator.avail s'.pages = 0 ∧ ∃ A', Evolves e511 4 s A s' A') := by
  unfold pageFrame
  rw [Exec.bind_of_ok (h.lookupPage_run hroot hv)]
  by_cases hleaf : A.leaf (pagePath page) = 0
  · rw [if_pos hleaf]
    cases ha : PageAllocator.allocPage s.pages with
    | none =>
      simp only
      rw [Exec.bind_of_ok (allocPage_none ha)]
      exact Exec.sat_error.2 ⟨PageAllocator.avail_none ha, A, (Evolves.refl h).weaken (by decide)⟩
    | some r =>
      obtain ⟨f, pages⟩ := r
      have hfree := PageAllocator.mem_free ha
      have hf := PageAllocator.aligned hfree
      have hf' := PageAllocator.below hfree
      simp only
      rw [Exec.bind_of_ok (allocPage_some ha)]
      simp only
      rw [Exec.bind_of_ok (physToVirt_run (by omega))]
      refine Exec.Sat.bind ((h.mapFresh hroot hv ha .refl hfl).mono ?_ ?_)
      · rintro _ s₁ ⟨A', hev, hleaf', hapart, hsame⟩
        rw [Exec.bind_of_ok (zeroPage_run _ f)]
        have hframe : frameOf (f + (flags ||| present ||| user)) = f :=
          frameOf_add hf (by omega) (pageEntry_lt hfl)
        refine Exec.sat_ok.2 ⟨A', ?_, loads_fresh h ha hleaf (pageEntry_ne_zero f flags) hframe hev
          hleaf' hapart hsame, fun hne => absurd hleaf hne, fun _ => ⟨f, hf, hleaf'⟩⟩
        rw [hleaf', Function.update_self, hframe]
      · rintro e s₁ ⟨-, hnone, A', hev, -⟩
        exact ⟨hnone, A', hev.weaken (by decide)⟩
  · rw [if_neg hleaf]
    obtain ⟨f, x, -, hframe, -, -, hf, hf', -, -⟩ := h.frameOf_leaf hleaf
    simp only
    rw [hframe, physToVirt_run (by omega)]
    refine Exec.sat_ok.2 ⟨A, by rw [hframe], ⟨(Evolves.refl h).weaken (by decide), fun _ => rfl, ?_,
      .inl, fun _ => rfl⟩, fun _ => rfl, fun hzero => absurd hzero hleaf⟩
    rintro _ rfl
    exact hleaf

/-- The page is mapped then, and its frame is given, unless there is no frame left. -/
theorem pageFrame_spec {page flags : ℕ} (h : Owned e511 s A) (hroot : A.table [] = some cr3)
    (hv : ¬ Reserved page) (hfl : flags < 4096) :
    Exec.Sat ((pageFrame cr3 page flags : Exec Unit (Machine σ) ℕ) s)
      (fun ptr s' => ∃ A', ptr = frameOf (A'.leaf (pagePath page)) + kernelVmaBase ∧
        Loads e511 4 {page} (fun _ => none) s A s' A')
      (fun _ s' => PageAllocator.avail s'.pages = 0 ∧ ∃ A', Evolves e511 4 s A s' A') := by
  refine (pageFrame_entry h hroot hv hfl).mono ?_ fun _ _ he => he
  rintro _ s' ⟨A', hptr, hload, -⟩
  exact ⟨A', hptr, hload⟩

/-! ## The bytes of a segment -/

/-- The byte of the file that a segment puts at `va`. -/
def Elf.ProgramHeader.byte (data : List UInt8) (ph : ProgramHeader) (va : ℕ) : Option UInt8 :=
  if ph.vaddr ≤ va ∧ va < ph.vaddr + ph.filesz then
    some (data.getD (ph.offset + (va - ph.vaddr)) 0)
  else none

/-- The bytes of a segment in the file are there. -/
def Elf.ProgramHeader.InFile (data : List UInt8) (ph : ProgramHeader) : Prop :=
  ph.offset + ph.filesz ≤ data.length ∧ data.length < 2 ^ 64

/-- The bytes that one page gets, and where they come from. -/
theorem copy_eq_byte {data : List UInt8} {ph : ProgramHeader} {page va : ℕ}
    (hpage : ph.vaddr < page + 4096) (h1 : page ≤ va) (h2 : va < page + 4096) :
    ph.byte data va =
      if ph.fileOffset page < ph.filesz ∧ ph.pageOffset page ≤ va - page ∧
        va - page < ph.pageOffset page +
          min (ph.filesz - ph.fileOffset page) (4096 - ph.pageOffset page) then
        some (data.getD (ph.offset + ph.fileOffset page + (va - page - ph.pageOffset page)) 0)
      else none := by
  rw [ProgramHeader.byte, ProgramHeader.fileOffset, ProgramHeader.pageOffset]
  split
  case isTrue hin =>
    rw [if_pos]
    · congr 2
      split <;> omega
    · split <;> omega
  case isFalse hout =>
    rw [if_neg]
    split <;> omega

/-- The bytes of the segment, written into a page that is mapped. -/
theorem loads_write {data : List UInt8} {ph : ProgramHeader} {page n : ℕ} (h : Owned e511 s A)
    (hmapped : A.leaf (pagePath page) ≠ 0) (halign : 4096 ∣ page) (hlt : page < 2 ^ 48)
    (hpage : ph.vaddr < page + 4096) (hsome : ph.fileOffset page < ph.filesz)
    (hn : n = min (ph.filesz - ph.fileOffset page) (4096 - ph.pageOffset page))
    (hle : ph.offset + ph.fileOffset page + n ≤ data.length) :
    Loads e511 0 ∅ (fun va => if page ≤ va ∧ va < page + 4096 then ph.byte data va else none) s A
      ⟨write s.mem (frameOf (A.leaf (pagePath page)) + ph.pageOffset page)
        (slice data (ph.offset + ph.fileOffset page) n), s.pages⟩ A := by
  have hoff : ph.pageOffset page ≤ 4096 := by
    rw [ProgramHeader.pageOffset]
    split <;> omega
  -- below 2^48, having the path of the page is being in the page
  have hin : ∀ {va : ℕ}, va < 2 ^ 48 →
      (pagePath va = pagePath page ↔ page ≤ va ∧ va < page + 4096) := by
    intro va hva
    rw [pagePath_eq_iff hva hlt]
    obtain ⟨q, rfl⟩ := halign
    omega
  have hlen := length_slice hle
  have hsame : SameOutside {frameOf (A.leaf (pagePath page))} s.mem
      (write s.mem (frameOf (A.leaf (pagePath page)) + ph.pageOffset page)
        (slice data (ph.offset + ph.fileOffset page) n)) := by
    intro a ha
    have := ha _ rfl
    unfold InFrame at this
    refine write_apply_of_outside ?_
    rw [hlen]
    omega
  refine ⟨h.write_target ⟨_, hmapped, rfl⟩ hsame, fun _ => rfl, fun hp => hp.elim, .inl,
    fun {va} hva => ?_⟩
  rw [h.byteAt_write hmapped hsame (Nat.mod_lt _ (by decide))]
  by_cases hva' : pagePath va = pagePath page
  · obtain ⟨h1, h2⟩ := (hin hva).1 hva'
    have hmod : va % 4096 = va - page := by
      obtain ⟨q, rfl⟩ := halign
      omega
    rw [if_pos hva', if_pos ⟨h1, h2⟩, copy_eq_byte hpage h1 h2, hmod]
    split
    case isTrue hc =>
      rw [write_apply_of_lt (by omega) (by rw [hlen]; omega), Option.getD_some,
        show frameOf (A.leaf (pagePath page)) + (va - page) -
          (frameOf (A.leaf (pagePath page)) + ph.pageOffset page) =
          va - page - ph.pageOffset page by omega, getD_slice _ (by omega)]
    case isFalse hc =>
      rw [write_apply_of_outside (by rw [hlen]; omega), Option.getD_none, Space.byteAt, hva',
        if_neg hmapped]
  · rw [if_neg hva', if_neg fun hc => hva' ((hin hva).2 hc)]
    rfl

/-- The copy into a page that is mapped. -/
theorem copyPage_spec {data : List UInt8} {ph : ProgramHeader} {page : ℕ} (h : Owned e511 s A)
    (hmapped : A.leaf (pagePath page) ≠ 0) (halign : 4096 ∣ page) (hlt : page < 2 ^ 48)
    (hpage : ph.vaddr < page + 4096) :
    Exec.Sat ((if ph.fileOffset page < ph.filesz then
        if ph.offset + ph.fileOffset page < 2 ^ 64 then
          copyFrom data (ph.offset + ph.fileOffset page)
            (frameOf (A.leaf (pagePath page)) + kernelVmaBase + ph.pageOffset page)
            (min (ph.filesz - ph.fileOffset page) (4096 - ph.pageOffset page))
        else Exec.panic
      else pure ⟨⟩ : Exec Unit (Machine σ) PUnit) s)
      (fun _ s' => Loads e511 0 ∅
        (fun va => if page ≤ va ∧ va < page + 4096 then ph.byte data va else none) s A s' A)
      (fun _ s' => s' = s ∧ ¬ ph.InFile data) := by
  split
  case isFalse hnone =>
    refine Exec.sat_ok.2 ⟨.refl h, fun _ => rfl, fun hp => hp.elim, .inl, fun {va} hva => ?_⟩
    split
    case isTrue hva' =>
      rw [copy_eq_byte hpage hva'.1 hva'.2, if_neg fun hc => hnone hc.1]
      rfl
    case isFalse => rfl
  case isTrue hsome =>
    split
    case isFalse hover =>
      refine Exec.sat_error.2 ⟨rfl, fun hfile => hover ?_⟩
      have := hfile.1
      have := hfile.2
      omega
    case isTrue =>
      rw [copyFrom]
      split
      case isFalse hout =>
        refine Exec.sat_error.2 ⟨rfl, fun hfile => hout ?_⟩
        have := hfile.1
        omega
      case isTrue hle =>
        have hptr : frameOf (A.leaf (pagePath page)) + kernelVmaBase + ph.pageOffset page -
            kernelVmaBase = frameOf (A.leaf (pagePath page)) + ph.pageOffset page := by omega
        rw [Exec.modify_apply, hptr]
        exact Exec.sat_ok.2 (loads_write h hmapped halign hlt hpage hsome rfl hle)

/-- The flags of a page have 12 bits. -/
theorem pageFlags_lt (ph : ProgramHeader) : ph.pageFlags < 4096 := by
  rw [ProgramHeader.pageFlags]
  split <;> decide

/-- One turn of the page loop. -/
theorem loadPage_spec {data : List UInt8} {ph : ProgramHeader} {page : ℕ} (h : Owned e511 s A)
    (hroot : A.table [] = some cr3) (hv : ¬ Reserved page) (halign : 4096 ∣ page)
    (hlt : page < 2 ^ 48) (hpage : ph.vaddr < page + 4096) :
    Exec.Sat ((loadPage data cr3 ph page : Exec Unit (Machine σ) PUnit) s)
      (fun _ s' => ∃ A', Loads e511 4 {page}
        (fun va => if page ≤ va ∧ va < page + 4096 then ph.byte data va else none) s A s' A')
      (fun _ s' => (PageAllocator.avail s'.pages = 0 ∨ ¬ ph.InFile data) ∧
        ∃ A', Evolves e511 4 s A s' A') := by
  unfold loadPage
  refine Exec.Sat.bind ((pageFrame_spec h hroot hv (pageFlags_lt ph)).mono ?_ ?_)
  · rintro _ s₁ ⟨A', rfl, hload⟩
    refine (copyPage_spec hload.evolves.owned (hload.mapped rfl) halign hlt hpage).mono ?_ ?_
    · intro _ s' hcopy
      refine ⟨A', (hload.trans hcopy).congr le_rfl (Set.union_empty _) fun va _ => ?_⟩
      exact Option.or_none
    · rintro _ _ ⟨rfl, hfile⟩
      exact ⟨.inr hfile, A', hload.evolves⟩
  · rintro _ s' ⟨hnone, hev⟩
    exact ⟨.inl hnone, hev⟩

/-- The page loop of a segment. -/
theorem loadPages_spec {data : List UInt8} {ph : ProgramHeader} (n : ℕ) {page : ℕ}
    (h : Owned e511 s A) (hroot : A.table [] = some cr3)
    (hv : ∀ i < n, ¬ Reserved (page + 4096 * i) ∧ page + 4096 * i < 2 ^ 48)
    (halign : 4096 ∣ page) (hpage : ph.vaddr < page + 4096) :
    Exec.Sat ((loadPages data cr3 ph n page : Exec Unit (Machine σ) PUnit) s)
      (fun _ s' => ∃ A', Loads e511 (4 * n) {p | ∃ i < n, p = page + 4096 * i}
        (fun va => if page ≤ va ∧ va < page + 4096 * n then ph.byte data va else none) s A s' A')
      (fun _ s' => (PageAllocator.avail s'.pages = 0 ∨ ¬ ph.InFile data) ∧
        ∃ A', Evolves e511 (4 * n) s A s' A') := by
  induction n generalizing s A page with
  | zero =>
    refine Exec.sat_ok.2 ⟨A, (Loads.refl h).congr le_rfl ?_ fun va _ => (if_neg (by omega)).symm⟩
    refine (Set.eq_empty_of_forall_notMem fun p hp => ?_).symm
    obtain ⟨i, hi, -⟩ := hp
    exact Nat.not_lt_zero i hi
  | succ n ih =>
    rw [loadPages]
    obtain ⟨hv0, hlt0⟩ : ¬ Reserved page ∧ page < 2 ^ 48 := hv 0 (by omega)
    refine Exec.Sat.bind ((loadPage_spec h hroot hv0 halign hlt0 hpage).mono ?_ ?_)
    · rintro _ s₁ ⟨A₁, hload⟩
      have halign' : 4096 ∣ page + 4096 := Nat.dvd_add halign ⟨1, rfl⟩
      have hrest := ih hload.evolves.owned (hload.evolves.root.trans hroot)
        (fun i hi => by
          rw [show page + 4096 + 4096 * i = page + 4096 * (i + 1) by omega]
          exact hv (i + 1) (by omega))
        halign' (by omega)
      refine hrest.mono ?_ ?_
      · rintro _ s' ⟨A', hload'⟩
        refine ⟨A', (hload.trans hload').congr (by omega) ?_ fun va _ => ?_⟩
        · ext p
          simp only [Set.mem_union, Set.mem_singleton_iff, Set.mem_ofPred_eq]
          refine ⟨?_, ?_⟩
          · rintro (rfl | ⟨i, hi, rfl⟩)
            · exact ⟨0, by omega, rfl⟩
            · exact ⟨i + 1, by omega, by omega⟩
          · rintro ⟨i, hi, rfl⟩
            rcases i with _ | i
            · exact .inl rfl
            · exact .inr ⟨i, by omega, by omega⟩
        · rcases Nat.lt_or_ge va (page + 4096) with h1 | h1
          · rw [if_neg (show ¬ (page + 4096 ≤ va ∧ va < page + 4096 + 4096 * n) by omega),
              Option.none_or]
            exact if_congr (by omega) rfl rfl
          · rw [if_neg (show ¬ (page ≤ va ∧ va < page + 4096) by omega), Option.or_none]
            exact if_congr (by omega) rfl rfl
      · rintro _ s' ⟨hwhy, A', hev⟩
        exact ⟨hwhy, A', (hload.evolves.trans hev).weaken (by omega)⟩
    · rintro _ s' ⟨hwhy, A', hev⟩
      exact ⟨hwhy, A', hev.weaken (by omega)⟩

/-! ## Segments -/

/-- The addresses a task may have pages at: the hole at 4 MB, and from 4 GiB up to the addresses of
the kernel's entry. -/
def UserPage (v : ℕ) : Prop := 0x400000 ≤ v ∧ v < 0x600000 ∨ 2 ^ 32 ≤ v ∧ v < 2 ^ 48 - 2 ^ 39

/-- A page of the user is not the kernel's. -/
theorem UserPage.not_reserved {v : ℕ} (h : UserPage v) : ¬ Reserved v := by
  rcases h with ⟨h1, h2⟩ | ⟨h1, h2⟩
  · exact not_reserved_hole h1 h2
  · exact not_reserved_high h1 h2

/-- A page of the user lies in the lower half. -/
theorem UserPage.lt {v : ℕ} (h : UserPage v) : v < 2 ^ 48 - 2 ^ 39 := by
  unfold UserPage at h
  omega

/-- The pages from `a` up to `b`. -/
def pagesBetween (a b : ℕ) : Set ℕ := {p | 4096 ∣ p ∧ a ≤ p ∧ p < b}

/-- The pages of a segment. -/
def Elf.ProgramHeader.pages (ph : ProgramHeader) : Set ℕ := pagesBetween ph.pageStart ph.pageEnd

/-- The sum for the end of a segment does not overflow. -/
def Elf.ProgramHeader.NoWrap (ph : ProgramHeader) : Prop := ph.vaddr + ph.memsz + 4095 < 2 ^ 64

/-- The byte that loading a segment puts at `va`: only the pages of the segment are filled. -/
def Elf.ProgramHeader.loadByte (data : List UInt8) (ph : ProgramHeader) (va : ℕ) : Option UInt8 :=
  if ph.pageStart ≤ va ∧ va < ph.pageEnd then ph.byte data va else none

/-- A segment starts at its first page. -/
theorem pageStart_eq {ph : ProgramHeader} (h : ph.NoWrap) : ph.pageStart = ph.vaddr / 4096 * 4096 :=
  frameOf_eq (by unfold ProgramHeader.NoWrap at h; omega)

/-- A segment ends at the page boundary behind it. -/
theorem pageEnd_eq {ph : ProgramHeader} (h : ph.NoWrap) :
    ph.pageEnd = (ph.vaddr + ph.memsz + 4095) / 4096 * 4096 := frameOf_eq h

/-- The pages between two page addresses, counted. -/
theorem pagesBetween_eq {a n : ℕ} (ha : 4096 ∣ a) :
    pagesBetween a (a + 4096 * n) = {p | ∃ i < n, p = a + 4096 * i} := by
  ext p
  obtain ⟨q, rfl⟩ := ha
  refine ⟨?_, ?_⟩
  · rintro ⟨⟨r, rfl⟩, h1, h2⟩
    exact ⟨r - q, by omega, by omega⟩
  · rintro ⟨i, hi, rfl⟩
    exact ⟨⟨q + i, by omega⟩, by omega, by omega⟩

/-- One turn of the loop over the program headers, for a segment to be loaded. -/
theorem loadSegment_spec {data : List UInt8} {ph : ProgramHeader} {heapEnd : ℕ}
    (h : Owned e511 s A) (hroot : A.table [] = some cr3) (hload : ph.type = ptLoad)
    (hpages : ∀ p ∈ ph.pages, UserPage p) :
    Exec.Sat ((loadSegment data cr3 ph heapEnd : Exec Unit (Machine σ) ℕ) s)
      (fun r s' => r = max heapEnd ph.pageEnd ∧ ph.NoWrap ∧ ∃ A',
        Loads e511 (4 * ((ph.pageEnd - ph.pageStart) / 4096)) ph.pages (ph.loadByte data) s A s' A')
      (fun _ s' => (PageAllocator.avail s'.pages = 0 ∨ ¬ (ph.InFile data ∧ ph.NoWrap)) ∧
        ∃ A', Evolves e511 (4 * ((ph.pageEnd - ph.pageStart) / 4096)) s A s' A') := by
  rw [loadSegment, if_pos hload]
  split
  case isFalse hwrap =>
    exact Exec.sat_error.2 ⟨.inr fun hok => hwrap hok.2, A, (Evolves.refl h).weaken (Nat.zero_le _)⟩
  case isTrue hwrap =>
    have hnowrap : ph.NoWrap := hwrap
    have hstart := pageStart_eq hnowrap
    have hend := pageEnd_eq hnowrap
    have halign : 4096 ∣ ph.pageStart := hstart ▸ Nat.dvd_mul_left _ _
    have hcount : ph.pageEnd = ph.pageStart + 4096 * ((ph.pageEnd - ph.pageStart) / 4096) := by
      omega
    have hset : ph.pages = {p | ∃ i < (ph.pageEnd - ph.pageStart) / 4096,
        p = ph.pageStart + 4096 * i} := by
      rw [← pagesBetween_eq halign, ← hcount]
      rfl
    refine Exec.Sat.bind ((loadPages_spec _ h hroot (fun i hi => ?_) halign (by omega)).mono ?_ ?_)
    · have hpage := hpages (ph.pageStart + 4096 * i) (by rw [hset]; exact ⟨i, hi, rfl⟩)
      exact ⟨hpage.not_reserved, by have := hpage.lt; omega⟩
    · rintro _ s' ⟨A', hl⟩
      refine Exec.sat_ok.2 ⟨?_, hnowrap, A', hl.congr le_rfl hset.symm fun va _ => ?_⟩
      · split <;> omega
      · exact if_congr (by omega) rfl rfl
    · rintro _ s' ⟨hwhy, hev⟩
      exact ⟨hwhy.imp_right fun hfile hok => hfile hok.1, hev⟩

/-- The `n` program headers from offset `o` on. -/
def Elf.headersFrom (data : List UInt8) : (n o : ℕ) → List ProgramHeader
  | 0, _ => []
  | n + 1, o => programHeader data o :: headersFrom data n (o + 56)

/-- The program headers are those the header counts. -/
theorem programHeaders_eq (data : List UInt8) :
    programHeaders data = headersFrom data (header data).phnum (header data).phoff := by
  have key : ∀ n o, (List.range n).map (fun i => programHeader data (o + 56 * i)) =
      headersFrom data n o := by
    intro n
    induction n with
    | zero => exact fun _ => rfl
    | succ n ih =>
      intro o
      rw [List.range_succ_eq_map, List.map_cons, List.map_map, headersFrom, ← ih (o + 56)]
      refine congrArg _ (List.map_congr_left fun i _ => ?_)
      rw [Function.comp_apply, show o + 56 * (i + 1) = o + 56 + 56 * i by omega]
  exact key _ _

/-- The pages of the segments to be loaded. -/
def Elf.segPages (phs : List ProgramHeader) : Set ℕ :=
  {p | ∃ ph ∈ phs, ph.type = ptLoad ∧ p ∈ ph.pages}

/-- The byte that loading the segments one after the other leaves at `va`: the last one wins. -/
def Elf.segBytes (data : List UInt8) : List ProgramHeader → ℕ → Option UInt8
  | [], _ => none
  | ph :: phs, va =>
    (segBytes data phs va).or (if ph.type = ptLoad then ph.loadByte data va else none)

/-- The end of the highest page of the segments, and `h` at least. -/
def Elf.segEnd : List ProgramHeader → ℕ → ℕ
  | [], h => h
  | ph :: phs, h => segEnd phs (if ph.type = ptLoad then max h ph.pageEnd else h)

/-- Enough frames for the pages of the segments: each may need three tables as well. -/
def Elf.segFrames : List ProgramHeader → ℕ
  | [] => 0
  | ph :: phs =>
    (if ph.type = ptLoad then 4 * ((ph.pageEnd - ph.pageStart) / 4096) else 0) + segFrames phs

/-- The headers and the segments are inside the file. -/
def Elf.FileOk (data : List UInt8) (n o : ℕ) : Prop :=
  o + 56 * n ≤ data.length ∧
    ∀ ph ∈ headersFrom data n o, ph.type = ptLoad → ph.InFile data ∧ ph.NoWrap

/-- No segment has no page. -/
theorem segPages_nil : segPages [] = ∅ := by
  refine Set.eq_empty_of_forall_notMem fun p hp => ?_
  obtain ⟨ph, hph, -⟩ := hp
  exact List.not_mem_nil hph

/-- The pages of segments, segment by segment. -/
theorem segPages_cons (ph : ProgramHeader) (phs : List ProgramHeader) :
    segPages (ph :: phs) = {p | ph.type = ptLoad ∧ p ∈ ph.pages} ∪ segPages phs := by
  ext p
  constructor
  · rintro ⟨ph', hph, ht, hp⟩
    rcases List.mem_cons.1 hph with rfl | hph
    · exact .inl ⟨ht, hp⟩
    · exact .inr ⟨ph', hph, ht, hp⟩
  · rintro (⟨ht, hp⟩ | ⟨ph', hph, ht, hp⟩)
    · exact ⟨ph, List.mem_cons_self, ht, hp⟩
    · exact ⟨ph', List.mem_cons_of_mem _ hph, ht, hp⟩

/-- A file that is in order is so from the next header on. -/
theorem Elf.FileOk.tail {data : List UInt8} {n o : ℕ} (h : FileOk data (n + 1) o) :
    FileOk data n (o + 56) := by
  have hlen := h.1
  exact ⟨by omega, fun ph hph => h.2 ph (List.mem_cons_of_mem _ hph)⟩

/-- The frames of segments, one segment at a time. -/
theorem segFrames_cons (ph : ProgramHeader) (phs : List ProgramHeader) :
    segFrames (ph :: phs) = segFrames [ph] + segFrames phs := by
  rw [segFrames, segFrames, segFrames, Nat.add_zero]

/-- The pages of the first segment and those of the others. -/
theorem segPages_cons_eq (ph : ProgramHeader) (phs : List ProgramHeader) :
    segPages (ph :: phs) = segPages [ph] ∪ segPages phs := by
  rw [segPages_cons, segPages_cons, segPages_nil, Set.union_empty]

/-- The bytes of segments: a later one lies over an earlier one. -/
theorem segBytes_cons (data : List UInt8) (ph : ProgramHeader) (phs : List ProgramHeader) (va : ℕ) :
    segBytes data (ph :: phs) va = (segBytes data phs va).or (segBytes data [ph] va) := by
  rw [segBytes, segBytes, segBytes, Option.none_or]

/-- One turn of the loop over the program headers, for any segment. -/
theorem loadSegment_step {data : List UInt8} {ph : ProgramHeader} {heapEnd : ℕ} (h : Owned e511 s A)
    (hroot : A.table [] = some cr3) (hpages : ∀ p ∈ segPages [ph], UserPage p) :
    Exec.Sat ((loadSegment data cr3 ph heapEnd : Exec Unit (Machine σ) ℕ) s)
      (fun r s' => r = segEnd [ph] heapEnd ∧ (ph.type = ptLoad → ph.NoWrap) ∧
        ∃ A', Loads e511 (segFrames [ph]) (segPages [ph]) (segBytes data [ph]) s A s' A')
      (fun _ s' => (PageAllocator.avail s'.pages = 0 ∨
          ¬ (ph.type = ptLoad → ph.InFile data ∧ ph.NoWrap)) ∧
        ∃ A', Evolves e511 (segFrames [ph]) s A s' A') := by
  rw [segPages_cons, segPages_nil, Set.union_empty] at hpages ⊢
  simp only [segEnd, segFrames, segBytes, Option.none_or, Nat.add_zero]
  by_cases hload : ph.type = ptLoad
  · simp only [hload, true_and, if_true, true_imp_iff] at hpages ⊢
    refine (loadSegment_spec h hroot hload hpages).mono ?_ fun _ _ he => he
    rintro r s' ⟨hr, hnowrap, hl⟩
    exact ⟨hr, hnowrap, hl⟩
  · simp only [hload, false_and, if_false, false_imp_iff, true_and]
    rw [loadSegment, if_neg hload]
    exact Exec.sat_ok.2 ⟨rfl, A, Loads.refl h⟩

/-- The loop over the program headers. -/
theorem loadSegments_spec {data : List UInt8} (n : ℕ) {o heapEnd : ℕ} (h : Owned e511 s A)
    (hroot : A.table [] = some cr3) (hpages : ∀ p ∈ segPages (headersFrom data n o), UserPage p) :
    Exec.Sat ((loadSegments data cr3 n o heapEnd : Exec Unit (Machine σ) ℕ) s)
      (fun r s' => r = segEnd (headersFrom data n o) heapEnd ∧
        (∀ ph ∈ headersFrom data n o, ph.type = ptLoad → ph.NoWrap) ∧ ∃ A',
        Loads e511 (segFrames (headersFrom data n o)) (segPages (headersFrom data n o))
          (segBytes data (headersFrom data n o)) s A s' A')
      (fun _ s' => (PageAllocator.avail s'.pages = 0 ∨ ¬ FileOk data n o) ∧
        ∃ A', Evolves e511 (segFrames (headersFrom data n o)) s A s' A') := by
  induction n generalizing s A o heapEnd with
  | zero =>
    exact Exec.sat_ok.2 ⟨rfl, fun ph hph => absurd hph List.not_mem_nil, A,
      (Loads.refl h).congr le_rfl segPages_nil.symm fun _ _ => rfl⟩
  | succ n ih =>
    have hcons : headersFrom data (n + 1) o =
        programHeader data o :: headersFrom data n (o + 56) := rfl
    rw [loadSegments, hcons, segFrames_cons]
    rw [hcons, segPages_cons_eq] at hpages
    split
    case isFalse hout =>
      refine Exec.sat_error.2 ⟨.inr fun hok => hout ?_, A, (Evolves.refl h).weaken (Nat.zero_le _)⟩
      have := hok.1
      omega
    case isTrue hin =>
      refine Exec.Sat.bind ((loadSegment_step h hroot fun p hp => hpages p (.inl hp)).mono ?_ ?_)
      · rintro _ s₁ ⟨rfl, hnowrap, A₁, hl⟩
        refine (ih hl.evolves.owned (hl.evolves.root.trans hroot)
          fun p hp => hpages p (.inr hp)).mono ?_ ?_
        · rintro _ s' ⟨rfl, hnw, A', hl'⟩
          exact ⟨rfl, List.forall_mem_cons.2 ⟨hnowrap, hnw⟩, A',
            (hl.trans hl').congr le_rfl (segPages_cons_eq _ _).symm
              fun va _ => (segBytes_cons data _ _ va).symm⟩
        · rintro _ s' ⟨hwhy, A', hev⟩
          exact ⟨hwhy.imp_right fun hnot hok => hnot hok.tail, A', hl.evolves.trans hev⟩
      · rintro _ s' ⟨hwhy, A', hev⟩
        exact ⟨hwhy.imp_right fun hnot hok => hnot (hok.2 _ List.mem_cons_self), A',
          hev.weaken (Nat.le_add_right _ _)⟩

/-! ## Pages mapped whether or not they were mapped before -/

/-- The pages `P` got mapped, to frames taken on the way; every other page keeps its frame and its
bytes. -/
structure Maps (e511 n : ℕ) (P : Set ℕ) (s : Machine σ) (A : Space) (s' : Machine σ) (A' : Space) :
    Prop where
  evolves : Evolves e511 n s A s' A'
  mapped : ∀ {page : ℕ}, page ∈ P → A'.leaf (pagePath page) ≠ 0
  taken : ∀ {page : ℕ}, page ∈ P → frameOf (A'.leaf (pagePath page)) ∈ PageAllocator.free s.pages
  other : ∀ {p : List ℕ}, (∀ page ∈ P, p ≠ pagePath page) → A'.leaf p = A.leaf p
  bytes : ∀ {p : List ℕ}, (∀ page ∈ P, p ≠ pagePath page) → ∀ {o : ℕ}, o < 4096 →
    A'.byteAt s'.mem p o = A.byteAt s.mem p o

/-- Before a stage of the loader nothing is mapped. -/
theorem Maps.refl (h : Owned e511 s A) : Maps e511 0 ∅ s A s A :=
  ⟨.refl h, fun hp => hp.elim, fun hp => hp.elim, fun _ => rfl, fun _ => fun _ => rfl⟩

/-- Pages mapped in two stages are mapped as one. -/
theorem Maps.trans (h : Maps e511 n P s A s₁ A₁) (h' : Maps e511 k P' s₁ A₁ s' A') :
    Maps e511 (n + k) (P ∪ P') s A s' A' where
  evolves := h.evolves.trans h'.evolves
  mapped {page} hpage := by
    by_cases hagain : ∃ page' ∈ P', pagePath page = pagePath page'
    · obtain ⟨page', hpage', he⟩ := hagain
      rw [he]
      exact h'.mapped hpage'
    · have hfirst : page ∈ P := hpage.resolve_right fun hp => hagain ⟨page, hp, rfl⟩
      rw [h'.other fun page' hp he => hagain ⟨page', hp, he⟩]
      exact h.mapped hfirst
  taken {page} hpage := by
    by_cases hagain : ∃ page' ∈ P', pagePath page = pagePath page'
    · obtain ⟨page', hpage', he⟩ := hagain
      rw [he]
      exact h.evolves.free (h'.taken hpage')
    · have hfirst : page ∈ P := hpage.resolve_right fun hp => hagain ⟨page, hp, rfl⟩
      rw [h'.other fun page' hp he => hagain ⟨page', hp, he⟩]
      exact h.taken hfirst
  other hp := by
    rw [h'.other fun page hpage => hp page (.inr hpage),
      h.other fun page hpage => hp page (.inl hpage)]
  bytes hp o ho := by
    rw [h'.bytes (fun page hpage => hp page (.inr hpage)) ho,
      h.bytes (fun page hpage => hp page (.inl hpage)) ho]

/-- The bound on the frames may be raised. -/
theorem Maps.congr (h : Maps e511 n P s A s' A') (hn : n ≤ k) (hP : P = P') :
    Maps e511 k P' s A s' A' := by
  subst hP
  exact ⟨h.evolves.weaken hn, h.mapped, h.taken, h.other, h.bytes⟩

/-- Pages that were loaded stay mapped when pages are mapped. -/
theorem Loads.mapped_then (h : Loads e511 n P w s A s₁ A₁) (h' : Maps e511 k P' s₁ A₁ s' A')
    {page : ℕ} (hpage : page ∈ P) : A'.leaf (pagePath page) ≠ 0 := by
  by_cases hagain : ∃ page' ∈ P', pagePath page = pagePath page'
  · obtain ⟨page', hpage', he⟩ := hagain
    rw [he]
    exact h'.mapped hpage'
  · rw [h'.other fun page' hp he => hagain ⟨page', hp, he⟩]
    exact h.mapped hpage

/-- In a space without pages, those that were loaded and those that were mapped are all. -/
theorem Loads.only_then (h : Loads e511 n P w s A s₁ A₁) (h' : Maps e511 k P' s₁ A₁ s' A')
    (hleaf : ∀ p, A.leaf p = 0) {p : List ℕ} (hp : A'.leaf p ≠ 0) :
    ∃ page ∈ P ∪ P', p = pagePath page := by
  by_cases hagain : ∃ page ∈ P', p = pagePath page
  · obtain ⟨page, hpage, he⟩ := hagain
    exact ⟨page, .inr hpage, he⟩
  · rw [h'.other fun page hpage he => hagain ⟨page, hpage, he⟩] at hp
    rcases h.only hp with hp₀ | ⟨page, hpage, he⟩
    · exact absurd (hleaf p) hp₀
    · exact ⟨page, .inl hpage, he⟩

/-- The bytes that were loaded, where nothing was mapped over them. -/
theorem Loads.bytes_then (h : Loads e511 n P w s A s₁ A₁) (h' : Maps e511 k P' s₁ A₁ s' A')
    (hleaf : ∀ p, A.leaf p = 0) {va : ℕ} (hva : va < 2 ^ 48)
    (hout : ∀ page ∈ P', pagePath va ≠ pagePath page) :
    A'.byteAt s'.mem (pagePath va) (va % 4096) = (w va).getD 0 := by
  rw [h'.bytes hout (Nat.mod_lt _ (by decide)), h.bytes hva, Space.byteAt, if_pos (hleaf _)]

/-- Mapping one page to a frame just taken: the page has the bytes of the frame. -/
theorem mapPage_shows {ε : Type} {v f flags : ℕ} {pages : σ} {m : Mem} (h : Owned e511 s A)
    (hroot : A.table [] = some cr3) (hv : ¬ Reserved v)
    (ha : PageAllocator.allocPage s.pages = some (f, pages)) (hm : SameOutside {f} s.mem m)
    (hfl : flags < 4096) :
    Exec.Sat ((mapUserPage cr3 v f flags : Exec ε (Machine σ) PUnit) ⟨m, pages⟩)
      (fun _ s' => ∃ A', Maps e511 4 {v} s A s' A' ∧
        ∀ o < 4096, A'.byteAt s'.mem (pagePath v) o = m (f + o))
      (fun e s' => e = .panic ∧ PageAllocator.avail s'.pages = 0 ∧
        ∃ A', Evolves e511 4 s A s' A') := by
  refine (h.mapFresh hroot hv ha hm hfl).mono ?_ ?_
  · rintro _ s' ⟨A', hev, hleaf, hapart, hsame⟩
    have hf := PageAllocator.mem_free ha
    have hframe : frameOf (f + (flags ||| present ||| user)) = f :=
      frameOf_add (PageAllocator.aligned hf) (by have := PageAllocator.below hf; omega)
        (pageEntry_lt hfl)
    have hbytes : ∀ o < 4096, ∀ p, A'.byteAt s'.mem p o =
        if p = pagePath v then m (f + o) else A.byteAt s.mem p o := fun o ho p =>
      h.byteAt_mapFresh ha hm hev.owned hleaf (pageEntry_ne_zero f flags) hframe hapart hsame ho p
    refine ⟨A', ⟨hev, ?_, ?_, ?_, ?_⟩, fun o ho => by rw [hbytes o ho, if_pos rfl]⟩
    · rintro _ rfl
      rw [hleaf, Function.update_self]
      exact pageEntry_ne_zero f flags
    · rintro _ rfl
      rw [hleaf, Function.update_self, hframe]
      exact hf
    · intro p hp
      rw [hleaf, Function.update_of_ne (hp v rfl)]
    · intro p hp o ho
      rw [hbytes o ho, if_neg (hp v rfl)]
  · rintro e s' ⟨rfl, hnone, A', hev, -⟩
    exact ⟨rfl, hnone, A', hev.weaken (by decide)⟩

/-- Mapping one page to a frame just taken, whatever the frame holds. -/
theorem mapPage_spec {ε : Type} {v f flags : ℕ} {pages : σ} {m : Mem} (h : Owned e511 s A)
    (hroot : A.table [] = some cr3) (hv : ¬ Reserved v)
    (ha : PageAllocator.allocPage s.pages = some (f, pages)) (hm : SameOutside {f} s.mem m)
    (hfl : flags < 4096) :
    Exec.Sat ((mapUserPage cr3 v f flags : Exec ε (Machine σ) PUnit) ⟨m, pages⟩)
      (fun _ s' => ∃ A', Maps e511 4 {v} s A s' A')
      (fun e s' => e = .panic ∧ PageAllocator.avail s'.pages = 0 ∧
        ∃ A', Evolves e511 4 s A s' A') := by
  refine (mapPage_shows h hroot hv ha hm hfl).mono ?_ fun _ _ he => he
  rintro _ s' ⟨A', hmaps, -⟩
  exact ⟨A', hmaps⟩

/-! ## The stack -/

/-- The pages of the stack. -/
def stackSet : Set ℕ := pagesBetween stackVaddr (stackVaddr + 4096 * stackPages)

/-- An address below the stack is on no page of it. -/
theorem pagePath_ne_stack {va : ℕ} (h : va < 0x500000) :
    ∀ page ∈ stackSet, pagePath va ≠ pagePath page := by
  rintro page ⟨-, h1, h2⟩ he
  simp only [stackVaddr, stackPages] at h1 h2
  have := (pagePath_eq_iff (by omega) (by omega)).1 he
  omega

/-- The stack loop: it fails only for want of a frame. -/
theorem mapStack_spec (h : Owned e511 s A) (hroot : A.table [] = some cr3) :
    Exec.Sat ((mapStack cr3 : Exec Unit (Machine σ) PUnit) s)
      (fun _ s' => ∃ A', Maps e511 (4 * stackPages) stackSet s A s' A')
      (fun _ s' => PageAllocator.avail s'.pages = 0 ∧
        ∃ A', Evolves e511 (4 * stackPages) s A s' A') := by
  have hset : stackSet = {p | ∃ i < stackPages, p = stackVaddr + 4096 * i} :=
    pagesBetween_eq (by decide)
  rw [hset]
  refine Exec.Sat.forM_range (s := s) (n := stackPages)
    (I := fun i s' => ∃ A', Maps e511 (4 * i) {p | ∃ j < i, p = stackVaddr + 4096 * j} s A s' A')
    (E := fun _ s' => PageAllocator.avail s'.pages = 0 ∧
      ∃ A', Evolves e511 (4 * stackPages) s A s' A') ?step ?start
  case start =>
    refine ⟨A, (Maps.refl h).congr le_rfl (Set.eq_empty_of_forall_notMem fun p hp => ?_).symm⟩
    obtain ⟨i, hi, -⟩ := hp
    exact Nat.not_lt_zero i hi
  case step =>
    intro i hi s₁ hs₁
    obtain ⟨A₁, hmaps⟩ := hs₁
    cases ha : PageAllocator.allocPage s₁.pages with
    | none =>
      rw [Exec.bind_of_ok (allocPage_none ha)]
      exact Exec.sat_error.2 ⟨PageAllocator.avail_none ha, A₁, hmaps.evolves.weaken (by omega)⟩
    | some r =>
      obtain ⟨f, pages⟩ := r
      rw [Exec.bind_of_ok (allocPage_some ha)]
      have huser : ¬ Reserved (stackVaddr + i * 4096) := by
        simp only [stackVaddr, stackPages] at hi ⊢
        exact not_reserved_hole (by omega) (by omega)
      refine (mapPage_spec hmaps.evolves.owned (hmaps.evolves.root.trans hroot) huser ha .refl
        (by decide)).mono ?_ ?_
      · rintro _ s' ⟨A', hmap⟩
        refine ⟨A', (hmaps.trans hmap).congr (by omega) (Set.ext fun p => ⟨?_, ?_⟩)⟩
        · rintro (⟨j, hj, rfl⟩ | rfl)
          · exact ⟨j, by omega, rfl⟩
          · exact ⟨i, by omega, by omega⟩
        · rintro ⟨j, hj, rfl⟩
          rcases Nat.lt_succ_iff_lt_or_eq.1 hj with hj | rfl
          · exact .inl ⟨j, hj, rfl⟩
          · exact .inr (by rw [Set.mem_singleton_iff]; omega)
      · rintro e s' ⟨-, hnone, A', hev⟩
        exact ⟨hnone, A', (hmaps.evolves.trans hev).weaken (by omega)⟩

/-! ## The whole load -/

/-- The frames that loading a file takes at most. -/
def loadFrames (data : List UInt8) : ℕ := 6 + segFrames (programHeaders data) + 4 * stackPages

/-- What `spawn_process` has built when its loops are done: an address space of frames taken on the
way, with the pages of the segments and of the stack, and the file's bytes outside the stack. -/
structure Loaded (data : List UInt8) (e511 : ℕ) (s : Machine σ) (cr3 heapEnd : ℕ) (s' : Machine σ)
    (A : Space) : Prop where
  fresh : OnlyFresh s s'
  owned : Owned e511 s' A
  root : A.table [] = some cr3
  own : A.owned ⊆ PageAllocator.free s.pages \ PageAllocator.free s'.pages
  heapEnd_eq : heapEnd = segEnd (programHeaders data) 0
  nowrap : ∀ ph ∈ programHeaders data, ph.type = ptLoad → ph.NoWrap
  seg : ∀ {page : ℕ}, page ∈ segPages (programHeaders data) → A.leaf (pagePath page) ≠ 0
  stack : ∀ {page : ℕ}, page ∈ stackSet → A.leaf (pagePath page) ≠ 0
  only : ∀ {p : List ℕ}, A.leaf p ≠ 0 →
    ∃ page ∈ segPages (programHeaders data) ∪ stackSet, p = pagePath page
  bytes : ∀ {va : ℕ}, va < 2 ^ 48 → (∀ page ∈ stackSet, pagePath va ≠ pagePath page) →
    A.byteAt s'.mem (pagePath va) (va % 4096) =
      (segBytes data (programHeaders data) va).getD 0
  avail : PageAllocator.avail s.pages ≤ PageAllocator.avail s'.pages + loadFrames data

/-- The headers are where the loader can make a slice of them. -/
def HeadersSlice (data : List UInt8) : Prop :=
  headerReach ≤ data.length ∧ (header data).phoff % 8 = 0

omit [PageAllocator σ] in
/-- Making the slice changes nothing, and never ends in an error that is reported. -/
theorem sliceHeaders_cases (data : List UInt8) (s : Machine σ) :
    sliceHeaders data s = .ok ⟨⟩ s ∧ HeadersSlice data ∨
      ∃ e, sliceHeaders data s = .error e s ∧ (∀ m, e ≠ .err m) ∧ ¬ HeadersSlice data := by
  rw [sliceHeaders]
  split
  case isTrue hshort =>
    refine .inr ⟨_, rfl, fun m he => ?_, fun h => absurd h.1 (by omega)⟩
    cases he
  case isFalse hlong =>
  split
  case isTrue halign => exact .inl ⟨rfl, by omega, halign⟩
  case isFalse halign =>
    refine .inr ⟨_, rfl, fun m he => ?_, fun h => halign h.2⟩
    cases he

/-- A file that is long enough for its fields is long enough for `is_valid`. -/
theorem validReach_le (data : List UInt8) : validReach data ≤ 5 := by
  rw [validReach]
  split <;> omega

/-- `spawn_process` up to the address space. It fails only for want of frames, or because the file
is not in order. -/
theorem loadProcess_spec (K : KernelTables) {data : List UInt8} (s : Machine σ)
    (hpages : ∀ p ∈ segPages (programHeaders data), UserPage p) :
    Exec.Sat ((loadProcess K data : Exec Unit (Machine σ) (ℕ × ℕ)) s)
      (fun r s' => (HeadersSlice data ∧ (header data).isValid) ∧
        ∃ A, Loaded data (word (clear s.mem r.1 4096) K.pml4 511) s r.1 r.2 s' A)
      (fun _ s' => OnlyFresh s s' ∧ (PageAllocator.avail s.pages ≤ loadFrames data ∨
        ¬ (HeadersSlice data ∧ (header data).isValid ∧
          FileOk data (header data).phnum (header data).phoff))) := by
  have hreach := validReach_le data
  rw [loadProcess]
  split
  case isTrue hempty =>
    refine Exec.sat_error.2 ⟨.refl s, .inr fun hok => ?_⟩
    have hlen : 58 ≤ data.length := hok.1.1
    rw [hempty] at hlen
    cases hlen
  case isFalse hne =>
  split
  case isTrue hshort =>
    refine Exec.sat_error.2 ⟨.refl s, .inr fun hok => ?_⟩
    have hlen : 58 ≤ data.length := hok.1.1
    omega
  case isFalse hlong =>
  split
  case isTrue hinvalid =>
    refine Exec.sat_error.2 ⟨.refl s, .inr fun hok => ?_⟩
    rw [hok.2.1] at hinvalid
    cases hinvalid
  case isFalse hvalid =>
  refine Exec.Sat.bind ((createUserAddressSpace_spec K s).mono ?_ ?_)
  · rintro cr3 s₁ ⟨hfresh, havail, f3, pds, hholds, htaken⟩
    have hleaf : ∀ p, (freshSpace cr3 f3 pds).leaf p = 0 := fun _ => rfl
    have hown := freshSpace_owned_subset htaken
    have hsegs : Exec.Sat ((loadSegments data cr3 (header data).phnum (header data).phoff 0 :
        Exec Unit (Machine σ) ℕ) s₁) _ _ :=
      loadSegments_spec _ (hholds.owned_of_leaf hleaf) rfl
        (by rw [← programHeaders_eq]; exact hpages)
    rw [← programHeaders_eq] at hsegs
    rcases sliceHeaders_cases data s₁ with ⟨hslice, hok⟩ | ⟨e, hslice, -, hbad⟩
    case inr =>
      rw [Exec.bind_of_error hslice]
      exact Exec.sat_error.2 ⟨hfresh, .inr fun hall => hbad hall.1⟩
    rw [Exec.bind_of_ok hslice]
    refine Exec.Sat.bind (hsegs.mono ?_ ?_)
    · rintro heapEnd s₂ ⟨hheap, hnowrap, A₂, hload⟩
      refine Exec.Sat.bind ((mapStack_spec hload.evolves.owned hload.evolves.root).mono ?_ ?_)
      · rintro _ s' ⟨A, hmaps⟩
        obtain ⟨hfresh', hown'⟩ := hfresh.evolves hown (hload.evolves.trans hmaps.evolves)
        refine Exec.sat_ok.2 ⟨⟨hok, by simpa using hvalid⟩, A, hfresh', hmaps.evolves.owned,
          hmaps.evolves.root.trans hload.evolves.root, hown', hheap, hnowrap,
          hload.mapped_then hmaps, hmaps.mapped, hload.only_then hmaps hleaf,
          hload.bytes_then hmaps hleaf, ?_⟩
        have h1 := hload.evolves.avail
        have h2 := hmaps.evolves.avail
        rw [loadFrames]
        omega
      · rintro _ s' ⟨hnone, A, hev⟩
        have hev' := hload.evolves.trans hev
        refine ⟨(hfresh.evolves hown hev').1, .inl ?_⟩
        have := hev'.avail
        rw [loadFrames]
        omega
    · rintro _ s' ⟨hwhy, A, hev⟩
      refine ⟨(hfresh.evolves hown hev).1, ?_⟩
      rcases hwhy with hnone | hnot
      · have := hev.avail
        rw [loadFrames, stackPages]
        exact .inl (by omega)
      · exact .inr fun hall => hnot hall.2.2
  · rintro _ s' ⟨-, hfresh, hfew⟩
    exact ⟨hfresh, .inl (by rw [loadFrames]; omega)⟩

end

end RossOs
