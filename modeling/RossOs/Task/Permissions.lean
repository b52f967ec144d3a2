import RossOs.Task.Spawn

/-!
# The permissions of an executable's pages

A page that several segments share is mapped once, with the flags of the segment that comes first in
the header table. So the pages of the writable segments are writable exactly when a writable segment
comes first on each of them (`writablePages_iff`).
-/

namespace RossOs

open ByteMem Paging Elf

/-! ## Writable segments -/

/-- The segment has the flag `PF_W`. -/
def Elf.ProgramHeader.IsWritable (ph : ProgramHeader) : Prop := ph.flags &&& 0x2 ≠ 0

instance : DecidablePred ProgramHeader.IsWritable := fun ph =>
  inferInstanceAs (Decidable (ph.flags &&& 0x2 ≠ 0))

/-- The page holds a byte of the segment. -/
def Elf.ProgramHeader.HasByteIn (ph : ProgramHeader) (page : ℕ) : Prop :=
  ∃ va, (ph.vaddr ≤ va ∧ va < ph.vaddr + ph.memsz) ∧ page ≤ va ∧ va < page + 4096

/-- The first segment in the header table that the loader maps the page for. -/
def Elf.firstLoad (phs : List ProgramHeader) (page : ℕ) : Option ProgramHeader :=
  phs.find? fun ph => ph.type = ptLoad ∧ ph.pageStart ≤ page ∧ page < ph.pageEnd

/-- An executable whose segments lie between 4 MB and the stack. -/
structure LowElf (data : List UInt8) : Prop where
  phentsize : field data 54 2 = 56
  range : ∀ ph ∈ segments data, ph.type = ptLoad →
    0x400000 ≤ ph.vaddr ∧ ph.vaddr + ph.memsz ≤ 0x500000

/-- Every page with a byte of a writable segment is mapped writable. -/
def WritablePages (data : List UInt8) (m : Mem) (cr3 : ℕ) : Prop :=
  ∀ ph ∈ segments data, ph.type = ptLoad → ph.IsWritable → ∀ page, 4096 ∣ page →
    ph.HasByteIn page → ∀ va, page ≤ va → va < page + 4096 →
      ∃ leaf, walk m cr3 va = some leaf ∧ leaf.writable = true

/-- On every page with a byte of a writable segment, a writable segment comes first. -/
def WritableFirst (data : List UInt8) : Prop :=
  ∀ ph ∈ segments data, ph.type = ptLoad → ph.IsWritable → ∀ page, 4096 ∣ page →
    ph.HasByteIn page → ∀ first, firstLoad (segments data) page = some first → first.IsWritable

/-! ## The flags in an entry -/

/-- The low bits of the entry for a page of the segment. -/
def Elf.ProgramHeader.entryFlags (ph : ProgramHeader) : ℕ := ph.pageFlags ||| present ||| user

section
variable {ph : ProgramHeader}

/-- The flags of an entry have 12 bits. -/
theorem entryFlags_lt (ph : ProgramHeader) : ph.entryFlags < 4096 := pageEntry_lt (pageFlags_lt ph)

/-- The flags of an entry are not empty. -/
theorem entryFlags_ne_zero (ph : ProgramHeader) : ph.entryFlags ≠ 0 := by
  have h := pageEntry_ne_zero 0 ph.pageFlags
  rwa [Nat.zero_add] at h

/-- The entry of a segment is present. -/
theorem entryFlags_present (ph : ProgramHeader) : ph.entryFlags.testBit 0 = true :=
  pageEntry_present ph.pageFlags

/-- It is writable if and only if the segment is. -/
theorem entryFlags_writable (ph : ProgramHeader) :
    ph.entryFlags.testBit 1 = true ↔ ph.IsWritable := by
  rw [ProgramHeader.entryFlags, ProgramHeader.pageFlags, ProgramHeader.IsWritable]
  split
  case isTrue hw => exact iff_of_true (by decide) hw
  case isFalse hw => exact iff_of_false (by decide) hw

end

variable {σ : Type} [PageAllocator σ]

/-- A stage of the loader, as far as flags go: a page that was mapped keeps them, and the others get
those of the segment `g` gives for them. -/
structure FirstFlags (e511 : ℕ) (g : ℕ → Option ProgramHeader) (A : Space) (s' : Machine σ)
    (A' : Space) : Prop where
  owned : Owned e511 s' A'
  root : A'.table [] = A.table []
  flags : ∀ q, 4096 ∣ q → q < 2 ^ 48 → A'.leaf (pagePath q) % 4096 =
    if A.leaf (pagePath q) % 4096 = 0 then ((g q).map ProgramHeader.entryFlags).getD 0
    else A.leaf (pagePath q) % 4096

section
variable {e511 cr3 : ℕ} {s s₁ s' : Machine σ} {A A₁ A' : Space} {g g' : ℕ → Option ProgramHeader}
  {ph : ProgramHeader} {data : List UInt8}

/-- Before a stage of the loader every page keeps its flags. -/
theorem FirstFlags.refl (h : Owned e511 s A) : FirstFlags e511 (fun _ => none) A s A := by
  refine ⟨h, rfl, fun q _ _ => ?_⟩
  split
  case isTrue hzero => exact hzero
  case isFalse => rfl

/-- Two stages: the first one decides. -/
theorem FirstFlags.trans (h : FirstFlags e511 g A s₁ A₁) (h' : FirstFlags e511 g' A₁ s' A') :
    FirstFlags e511 (fun q => (g q).or (g' q)) A s' A' := by
  refine ⟨h'.owned, h'.root.trans h.root, fun q hq hlt => ?_⟩
  rw [h'.flags q hq hlt, h.flags q hq hlt]
  by_cases hzero : A.leaf (pagePath q) % 4096 = 0
  · simp only [if_pos hzero]
    cases g q with
    | none => exact if_pos rfl
    | some first => exact if_neg (entryFlags_ne_zero first)
  · simp only [if_neg hzero]

/-- Flags depend on what is loaded for the pages below `2 ^ 48` only. -/
theorem FirstFlags.congr (h : FirstFlags e511 g A s' A')
    (hg : ∀ q, 4096 ∣ q → q < 2 ^ 48 → g q = g' q) : FirstFlags e511 g' A s' A' := by
  refine ⟨h.owned, h.root, fun q hq hlt => ?_⟩
  rw [h.flags q hq hlt, hg q hq hlt]

/-- The entry of a page is missing exactly when it has no flags. -/
theorem Paging.Owned.flags_eq_zero_iff (h : Owned e511 s A) (p : List ℕ) :
    A.leaf p % 4096 = 0 ↔ A.leaf p = 0 := by
  refine ⟨fun hzero => ?_, fun hzero => by rw [hzero]⟩
  by_contra hp
  obtain ⟨f, x, hleaf, -, hx, h0, hf, -⟩ := h.frameOf_leaf hp
  obtain rfl : x = 0 := by omega
  cases h0

/-! ## The loops of the loader -/

/-- The frame of a page: a new one gets the flags of the segment. -/
theorem pageFrame_flags {page : ℕ} (h : Owned e511 s A) (hroot : A.table [] = some cr3)
    (hv : ¬ Reserved page) (halign : 4096 ∣ page) (hlt : page < 2 ^ 48) :
    Exec.Sat ((pageFrame cr3 page ph.pageFlags : Exec Unit (Machine σ) ℕ) s)
      (fun ptr s' => ∃ A', ptr = frameOf (A'.leaf (pagePath page)) + kernelVmaBase ∧
        A'.leaf (pagePath page) ≠ 0 ∧
        FirstFlags e511 (fun q => if q = page then some ph else none) A s' A')
      (fun _ _ => True) := by
  have hpath : ∀ q, 4096 ∣ q → q < 2 ^ 48 → pagePath q = pagePath page → q = page := by
    intro q hq hqlt he
    have := (pagePath_eq_iff hqlt hlt).1 he
    omega
  refine (pageFrame_entry h hroot hv (pageFlags_lt ph)).mono ?_ fun _ _ _ => trivial
  rintro _ s' ⟨A', rfl, hload, hkept, hnew⟩
  refine ⟨A', rfl, hload.mapped rfl, hload.evolves.owned, hload.evolves.root, fun q hq hqlt => ?_⟩
  by_cases hleaf : A.leaf (pagePath page) = 0
  · obtain ⟨f, hf, hleaf'⟩ := hnew hleaf
    by_cases he : q = page
    · subst he
      rw [hleaf', Function.update_self, if_pos (by rw [hleaf]), if_pos rfl]
      show (f + ph.entryFlags) % 4096 = ph.entryFlags
      have := entryFlags_lt ph
      omega
    · rw [hleaf', Function.update_of_ne fun hp => he (hpath q hq hqlt hp), if_neg he]
      split
      case isTrue hzero => exact hzero
      case isFalse => rfl
  · rw [hkept hleaf]
    split
    case isTrue hzero =>
      rw [if_neg, hzero]
      · rfl
      · rintro rfl
        exact hleaf ((h.flags_eq_zero_iff _).1 hzero)
    case isFalse => rfl

/-- One turn of the page loop. -/
theorem loadPage_flags {page : ℕ} (h : Owned e511 s A) (hroot : A.table [] = some cr3)
    (hv : ¬ Reserved page) (halign : 4096 ∣ page) (hlt : page < 2 ^ 48)
    (hpage : ph.vaddr < page + 4096) :
    Exec.Sat ((loadPage data cr3 ph page : Exec Unit (Machine σ) PUnit) s)
      (fun _ s' => ∃ A', FirstFlags e511 (fun q => if q = page then some ph else none) A s' A')
      (fun _ _ => True) := by
  unfold loadPage
  refine Exec.Sat.bind ((pageFrame_flags h hroot hv halign hlt).mono ?_ fun _ _ _ => trivial)
  rintro _ s₁ ⟨A', rfl, hmapped, hflags⟩
  refine (copyPage_spec hflags.owned hmapped halign hlt hpage).mono ?_ fun _ _ _ => trivial
  intro _ s' hcopy
  exact ⟨A', hcopy.evolves.owned, hflags.root, hflags.flags⟩

/-- The page loop of a segment. -/
theorem loadPages_flags (n : ℕ) {page : ℕ} (h : Owned e511 s A) (hroot : A.table [] = some cr3)
    (hv : ∀ i < n, ¬ Reserved (page + 4096 * i) ∧ page + 4096 * i < 2 ^ 48)
    (halign : 4096 ∣ page) (hpage : ph.vaddr < page + 4096) :
    Exec.Sat ((loadPages data cr3 ph n page : Exec Unit (Machine σ) PUnit) s)
      (fun _ s' => ∃ A', FirstFlags e511
        (fun q => if page ≤ q ∧ q < page + 4096 * n then some ph else none) A s' A')
      (fun _ _ => True) := by
  induction n generalizing s A page with
  | zero => exact Exec.sat_ok.2 ⟨A, (FirstFlags.refl h).congr fun q _ _ => (if_neg (by omega)).symm⟩
  | succ n ih =>
    obtain ⟨hv0, hlt0⟩ : ¬ Reserved page ∧ page < 2 ^ 48 := hv 0 (by omega)
    rw [loadPages]
    refine Exec.Sat.bind ((loadPage_flags h hroot hv0 halign hlt0 hpage).mono ?_
      fun _ _ _ => trivial)
    rintro _ s₁ ⟨A₁, hone⟩
    have halign' : 4096 ∣ page + 4096 := Nat.dvd_add halign ⟨1, rfl⟩
    have hrest := ih hone.owned (hone.root.trans hroot)
      (fun i hi => by
        rw [show page + 4096 + 4096 * i = page + 4096 * (i + 1) by omega]
        exact hv (i + 1) (by omega))
      halign' (by omega)
    refine hrest.mono ?_ fun _ _ _ => trivial
    rintro _ s' ⟨A', hmore⟩
    refine ⟨A', (hone.trans hmore).congr fun q hq _ => ?_⟩
    by_cases he : q = page
    · rw [if_pos he, Option.some_or, if_pos (by omega)]
    · rw [if_neg he, Option.none_or]
      exact if_congr (by omega) rfl rfl

/-- One turn of the loop over the program headers. -/
theorem loadSegment_flags {heapEnd : ℕ} (h : Owned e511 s A) (hroot : A.table [] = some cr3)
    (hpages : ph.type = ptLoad → ∀ p ∈ ph.pages, UserPage p) :
    Exec.Sat ((loadSegment data cr3 ph heapEnd : Exec Unit (Machine σ) ℕ) s)
      (fun _ s' => ∃ A', FirstFlags e511 (firstLoad [ph]) A s' A') (fun _ _ => True) := by
  rw [loadSegment]
  by_cases hload : ph.type = ptLoad
  · rw [if_pos hload]
    refine Exec.Sat.ite (fun hwrap => ?_) fun _ => Exec.sat_error.2 trivial
    have hstart : ph.pageStart = _ := pageStart_eq hwrap
    have hend : ph.pageEnd = _ := pageEnd_eq hwrap
    refine Exec.Sat.bind ((loadPages_flags _ h hroot (fun i hi => ?_)
      (hstart ▸ Nat.dvd_mul_left _ _) (by omega)).mono ?_ fun _ _ _ => trivial)
    · have hpage := hpages hload (ph.pageStart + 4096 * i) ⟨by omega, by omega, by omega⟩
      exact ⟨hpage.not_reserved, by have := hpage.lt; omega⟩
    · rintro _ s' ⟨A', hflags⟩
      refine Exec.sat_ok.2 ⟨A', hflags.congr fun q _ _ => ?_⟩
      rw [firstLoad, List.find?_singleton]
      exact if_congr (by rw [decide_eq_true_iff]; omega) rfl rfl
  · rw [if_neg hload]
    refine Exec.sat_ok.2 ⟨A, (FirstFlags.refl h).congr fun q _ _ => ?_⟩
    rw [firstLoad, List.find?_singleton, if_neg (by simp [hload])]

/-- The loop over the program headers: the first segment of a page decides its flags. -/
theorem loadSegments_flags (n : ℕ) {o heapEnd : ℕ} (h : Owned e511 s A)
    (hroot : A.table [] = some cr3) (hpages : ∀ p ∈ segPages (headersFrom data n o), UserPage p) :
    Exec.Sat ((loadSegments data cr3 n o heapEnd : Exec Unit (Machine σ) ℕ) s)
      (fun _ s' => ∃ A', FirstFlags e511 (firstLoad (headersFrom data n o)) A s' A')
      (fun _ _ => True) := by
  induction n generalizing s A o heapEnd with
  | zero => exact Exec.sat_ok.2 ⟨A, FirstFlags.refl h⟩
  | succ n ih =>
    have hcons : headersFrom data (n + 1) o =
        programHeader data o :: headersFrom data n (o + 56) := rfl
    rw [hcons, segPages_cons] at hpages
    rw [loadSegments, hcons]
    refine Exec.Sat.ite (fun _ => ?_) fun _ => Exec.sat_error.2 trivial
    refine Exec.Sat.bind ((loadSegment_flags h hroot
      fun ht p hp => hpages p (.inl ⟨ht, hp⟩)).mono ?_ fun _ _ _ => trivial)
    rintro _ s₁ ⟨A₁, hone⟩
    refine (ih hone.owned (hone.root.trans hroot) fun p hp => hpages p (.inr hp)).mono ?_
      fun _ _ _ => trivial
    rintro _ s' ⟨A', hmore⟩
    refine ⟨A', (hone.trans hmore).congr fun q _ _ => ?_⟩
    rw [firstLoad, firstLoad, firstLoad, ← List.find?_append, List.singleton_append]

/-- The flags of all pages but those of the stack, in a new address space. -/
theorem loadProcess_flags (K : KernelTables) (s : Machine σ)
    (hpages : ∀ p ∈ segPages (programHeaders data), UserPage p) :
    Exec.Sat ((loadProcess K data : Exec Unit (Machine σ) (ℕ × ℕ)) s)
      (fun r s' => ∃ e A, Owned e s' A ∧ A.table [] = some r.1 ∧
        ∀ q, 4096 ∣ q → q < 2 ^ 48 → (∀ page ∈ stackSet, pagePath q ≠ pagePath page) →
          A.leaf (pagePath q) % 4096 =
            ((firstLoad (programHeaders data) q).map ProgramHeader.entryFlags).getD 0)
      (fun _ _ => True) := by
  rw [programHeaders_eq] at hpages ⊢
  refine Exec.Sat.ite (fun _ => Exec.sat_error.2 trivial) fun _ => ?_
  refine Exec.Sat.ite (fun _ => Exec.sat_error.2 trivial) fun _ => ?_
  refine Exec.Sat.ite (fun _ => Exec.sat_error.2 trivial) fun _ => ?_
  refine Exec.Sat.bind ((createUserAddressSpace_spec K s).mono ?_ fun _ _ _ => trivial)
  rintro cr3 s₁ ⟨-, -, f3, pds, hholds, -⟩
  rcases sliceHeaders_cases data s₁ with ⟨hslice, -⟩ | ⟨e, hslice, -⟩
  case inr =>
    rw [Exec.bind_of_error hslice]
    exact Exec.sat_error.2 trivial
  rw [Exec.bind_of_ok hslice]
  have hleaf : ∀ p, (freshSpace cr3 f3 pds).leaf p = 0 := fun _ => rfl
  have hsegs : Exec.Sat ((loadSegments data cr3 _ (header data).phoff 0 :
      Exec Unit (Machine σ) ℕ) s₁) _ _ :=
    loadSegments_flags _ (hholds.owned_of_leaf hleaf) rfl hpages
  refine Exec.Sat.bind (hsegs.mono ?_ fun _ _ _ => trivial)
  rintro heapEnd s₂ ⟨A₂, hflags⟩
  refine Exec.Sat.bind ((mapStack_spec hflags.owned hflags.root).mono ?_ fun _ _ _ => trivial)
  rintro _ s' ⟨A, hmaps⟩
  refine Exec.sat_ok.2 ⟨_, A, hmaps.evolves.owned, hmaps.evolves.root.trans hflags.root,
    fun q hq hlt hstack => ?_⟩
  rw [hmaps.other hstack, hflags.flags q hq hlt, if_pos (by rw [hleaf])]

end

/-! ## The permissions of a new process -/

section
variable {K : KernelTables} {top : ℕ} {k k' : Kernel σ} {data : List UInt8}

/-- The addresses of a low file do not wrap. -/
theorem LowElf.noWrap (h : LowElf data) {ph : ProgramHeader} (hph : ph ∈ segments data)
    (ht : ph.type = ptLoad) : ph.NoWrap := by
  have := h.range ph hph ht
  rw [ProgramHeader.NoWrap]
  omega

/-- All segments of a low file are program headers. -/
theorem LowElf.segments_eq (h : LowElf data) : segments data = programHeaders data := by
  rw [segments, h.phentsize, programHeaders]

/-- The pages of a low file are the user's. -/
theorem LowElf.userPage (h : LowElf data) : ∀ p ∈ segPages (programHeaders data), UserPage p := by
  rintro p ⟨ph, hph, ht, -, hlow, hhigh⟩
  rw [← h.segments_eq] at hph
  have hrange := h.range ph hph ht
  rw [pageStart_eq (h.noWrap hph ht)] at hlow
  rw [pageEnd_eq (h.noWrap hph ht)] at hhigh
  exact .inl (by omega)

/-- A page with a byte of a segment is below the stack, and some segment comes first on it. -/
theorem LowElf.firstLoad_of_hasByteIn (h : LowElf data) {ph : ProgramHeader}
    (hph : ph ∈ segments data) (ht : ph.type = ptLoad) {page : ℕ} (halign : 4096 ∣ page)
    (hbyte : ph.HasByteIn page) : 0x400000 ≤ page ∧ page < 0x500000 ∧
      ∃ first, firstLoad (segments data) page = some first := by
  obtain ⟨va, ⟨h1, h2⟩, h3, h4⟩ := hbyte
  have hrange := h.range ph hph ht
  have hwrap := h.noWrap hph ht
  refine ⟨by omega, by omega, Option.isSome_iff_exists.1 ?_⟩
  rw [firstLoad, List.find?_isSome]
  refine ⟨ph, hph, decide_eq_true ⟨ht, ?_, ?_⟩⟩
  · rw [pageStart_eq hwrap]
    omega
  · rw [pageEnd_eq hwrap]
    omega

/-- A page below the stack is writable when its first segment is. -/
theorem LowElf.walk_first (h : LowElf data)
    (hrun : spawnProcess K (some data) top k = .ok ⟨⟩ k') :
    ∃ t, k'.scheduler.tasks = k.scheduler.tasks ++ [t] ∧
      ∀ page first va, 4096 ∣ page → 0x400000 ≤ page → page < 0x500000 →
        firstLoad (segments data) page = some first → page ≤ va → va < page + 4096 →
        ∃ leaf, walk k'.machine.mem t.cr3 va = some leaf ∧
          (leaf.writable = true ↔ first.IsWritable) := by
  rcases spawnProcess_run K data top k with ⟨cr3, heapEnd, s', hload, hok⟩ | ⟨e, s', -, herr⟩
  case inr => rw [herr] at hrun; cases hrun
  rw [hok] at hrun
  cases hrun
  obtain ⟨e511, A, hA, hroot, hflags⟩ := (loadProcess_flags K k.machine h.userPage).of_ok hload
  refine ⟨newTask k data top cr3 heapEnd, rfl, fun page first va halign h1 h2 hfirst h3 h4 => ?_⟩
  have hpath : pagePath va = pagePath page := (pagePath_eq_iff (by omega) (by omega)).2 (by omega)
  have hleaf := hflags page halign (by omega) (pagePath_ne_stack h2)
  rw [← h.segments_eq, hfirst] at hleaf
  simp only [Option.map_some, Option.getD_some] at hleaf
  have hbit : ∀ b < 12, (A.leaf (pagePath page)).testBit b = first.entryFlags.testBit b := by
    intro b hb
    rw [← hleaf, show 4096 = 2 ^ 12 from rfl, Nat.testBit_mod_two_pow, decide_eq_true hb,
      Bool.true_and]
  have hwalk := hA.walk_eq hroot (not_reserved_hole (v := va) (by omega) (by omega))
  rw [hpath, leafWalk, hbit 0 (by decide), if_pos (entryFlags_present first)] at hwalk
  refine ⟨_, hwalk, ?_⟩
  rw [hbit 1 (by decide)]
  exact entryFlags_writable first

/-- Where a writable segment comes first, the pages of the writable segments are writable, and only
there. -/
theorem writablePages_iff (h : LowElf data)
    (hrun : spawnProcess K (some data) top k = .ok ⟨⟩ k') :
    ∃ t, k'.scheduler.tasks = k.scheduler.tasks ++ [t] ∧
      (WritablePages data k'.machine.mem t.cr3 ↔ WritableFirst data) := by
  obtain ⟨t, htasks, hwalk⟩ := h.walk_first hrun
  refine ⟨t, htasks, fun hpages ph hph ht hw page halign hbyte first hfirst => ?_,
    fun hfirsts ph hph ht hw page halign hbyte va h3 h4 => ?_⟩
  · obtain ⟨h1, h2, -⟩ := h.firstLoad_of_hasByteIn hph ht halign hbyte
    obtain ⟨leaf, hleaf, hiff⟩ := hwalk page first page halign h1 h2 hfirst le_rfl (by omega)
    obtain ⟨leaf', hleaf', hwritable⟩ :=
      hpages ph hph ht hw page halign hbyte page le_rfl (by omega)
    rw [hleaf] at hleaf'
    cases hleaf'
    exact hiff.1 hwritable
  · obtain ⟨h1, h2, first, hfirst⟩ := h.firstLoad_of_hasByteIn hph ht halign hbyte
    obtain ⟨leaf, hleaf, hiff⟩ := hwalk page first va halign h1 h2 hfirst h3 h4
    exact ⟨leaf, hleaf, hiff.2 (hfirsts ph hph ht hw page halign hbyte first hfirst)⟩

end

/-! ## Two segments on one page -/

/-- An executable in order says how long its program headers are, and has its segments low. -/
theorem LoadableElf.lowElf {data : List UInt8} (h : LoadableElf data) : LowElf data :=
  ⟨h.phentsize, h.range⟩

/-- A writable segment that comes first on the page it shares. -/
theorem writablePages_dataFirst : ∃ k' t,
    spawnProcess bootTables (some (pairElf 6 5)) 0x8000 bootKernel = .ok ⟨⟩ k' ∧
    k'.scheduler.tasks = [] ++ [t] ∧
    (WritablePages (pairElf 6 5) k'.machine.mem t.cr3 ↔ WritableFirst (pairElf 6 5)) := by
  obtain ⟨k', hrun⟩ := spawnProcess_pairElf loadableElf_dataFirst (by decide +kernel)
  obtain ⟨t, htasks, hiff⟩ := writablePages_iff loadableElf_dataFirst.lowElf hrun
  exact ⟨k', t, hrun, htasks, hiff⟩

/-- A data segment on the page of the code before it: the page is not writable. -/
theorem shared_page_readOnly : ¬ ∀ (K : KernelTables) (data : List UInt8) (top : ℕ)
    (k k' : Kernel PmmState), LowElf data → spawnProcess K (some data) top k = .ok ⟨⟩ k' →
    ∃ t, k'.scheduler.tasks = k.scheduler.tasks ++ [t] ∧
      WritablePages data k'.machine.mem t.cr3 := by
  intro hall
  have hseg : segments (pairElf 5 6) = pairHeaders 5 6 := by decide +kernel
  obtain ⟨k', hrun⟩ := spawnProcess_pairElf loadableElf_codeFirst (by decide +kernel)
  obtain ⟨t, htasks, hwalk⟩ := loadableElf_codeFirst.lowElf.walk_first hrun
  obtain ⟨t', htasks', hpages⟩ := hall _ _ _ _ _ loadableElf_codeFirst.lowElf hrun
  rw [htasks] at htasks'
  obtain rfl := List.singleton_inj.1 (List.append_cancel_left htasks')
  have hfirst : firstLoad (segments (pairElf 5 6)) 0x400000 =
      some ⟨1, 5, 176, 0x400010, 4, 8⟩ := by
    rw [hseg]
    decide
  obtain ⟨leaf, hleaf, hiff⟩ := hwalk 0x400000 _ 0x400020 ⟨0x400, rfl⟩ (by decide) (by decide)
    hfirst (by decide) (by decide)
  obtain ⟨leaf', hleaf', hwritable⟩ := hpages ⟨1, 6, 176, 0x400020, 4, 8⟩
    (by simp [hseg, pairHeaders]) rfl (by decide) 0x400000 ⟨0x400, rfl⟩
    ⟨0x400020, by decide, by decide⟩ 0x400020 (by decide) (by decide)
  rw [hleaf] at hleaf'
  cases hleaf'
  exact hiff.1 hwritable rfl

end RossOs
