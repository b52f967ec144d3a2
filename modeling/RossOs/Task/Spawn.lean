import RossOs.Paging.Run
import RossOs.Task.Load

/-!
# What a new process sees

`spawnProcess_image`: for an executable in order, whose segments lie between 4 MB and the stack and
have no byte in common, the address space of the new task shows exactly the segments, file bytes
and zeros, and `heap_end` is a page address above them. The order of the segments and the pages
they share do not matter.
-/

namespace RossOs

open ByteMem Paging Elf

/-! ## Executables -/

/-- The program headers of a file as the format defines them, `e_phentsize` bytes apart. -/
def Elf.segments (data : List UInt8) : List ProgramHeader :=
  (List.range (header data).phnum).map fun i =>
    programHeader data ((header data).phoff + field data 54 2 * i)

/-- An executable in order: its headers and the bytes of its segments are in the file, and the
segments to be loaded lie between 4 MB and the stack without a byte in common. -/
structure LoadableElf (data : List UInt8) : Prop where
  size : 64 ≤ data.length ∧ data.length < 2 ^ 64
  valid : (header data).isValid = true
  phentsize : field data 54 2 = 56
  headers : (header data).phoff + 56 * (header data).phnum ≤ data.length
  inFile : ∀ ph ∈ segments data, ph.type = ptLoad → ph.offset + ph.filesz ≤ data.length
  sizes : ∀ ph ∈ segments data, ph.type = ptLoad → ph.filesz ≤ ph.memsz
  range : ∀ ph ∈ segments data, ph.type = ptLoad →
    0x400000 ≤ ph.vaddr ∧ ph.vaddr + ph.memsz ≤ 0x500000
  disjoint : (segments data).Pairwise fun a b => a.type = ptLoad → b.type = ptLoad → ∀ va,
    ¬ ((a.vaddr ≤ va ∧ va < a.vaddr + a.memsz) ∧ b.vaddr ≤ va ∧ va < b.vaddr + b.memsz)

section
variable {data : List UInt8}

/-- On a file in order the code reads the headers where they are. -/
theorem LoadableElf.segments_eq (h : LoadableElf data) : segments data = programHeaders data := by
  rw [segments, h.phentsize, programHeaders]

/-- The addresses of a loadable file do not wrap. -/
theorem LoadableElf.noWrap (h : LoadableElf data) {ph : ProgramHeader} (hph : ph ∈ segments data)
    (ht : ph.type = ptLoad) : ph.NoWrap := by
  have := h.range ph hph ht
  rw [ProgramHeader.NoWrap]
  omega

/-- The pages of the segments are below the stack. -/
theorem LoadableElf.page_range (h : LoadableElf data) {p : ℕ}
    (hp : p ∈ segPages (programHeaders data)) : 0x400000 ≤ p ∧ p < 0x500000 := by
  obtain ⟨ph, hph, ht, -, hlow, hhigh⟩ := hp
  rw [← h.segments_eq] at hph
  have hrange := h.range ph hph ht
  rw [pageStart_eq (h.noWrap hph ht)] at hlow
  rw [pageEnd_eq (h.noWrap hph ht)] at hhigh
  omega

/-- The pages of a loadable file are the user's. -/
theorem LoadableElf.userPage (h : LoadableElf data) :
    ∀ p ∈ segPages (programHeaders data), UserPage p := fun p hp => by
  have := h.page_range hp
  exact .inl (by omega)

/-! ## The bytes of the image -/

/-- No segment has file bytes at `va`. -/
theorem segBytes_eq_none {phs : List ProgramHeader} {va : ℕ}
    (h : ∀ ph ∈ phs, ph.type = ptLoad → ph.byte data va = none) : segBytes data phs va = none := by
  induction phs with
  | nil => rfl
  | cons ph phs ih =>
    rw [segBytes, ih fun q hq => h q (List.mem_cons_of_mem _ hq), Option.none_or]
    split
    case isTrue ht =>
      rw [ProgramHeader.loadByte, h ph List.mem_cons_self ht, ite_self]
    case isFalse => rfl

/-- The file has no byte for an address outside the memory of a segment. -/
theorem byte_eq_none {ph : ProgramHeader} {va : ℕ} (hsize : ph.filesz ≤ ph.memsz)
    (h : ¬ (ph.vaddr ≤ va ∧ va < ph.vaddr + ph.memsz)) : ph.byte data va = none := by
  rw [ProgramHeader.byte, if_neg (by omega)]

/-- At an address of a segment, the image has the segment's own byte. -/
theorem segBytes_eq_byte {phs : List ProgramHeader} {ph : ProgramHeader} {va : ℕ}
    (hsizes : ∀ q ∈ phs, q.type = ptLoad → q.filesz ≤ q.memsz)
    (hwrap : ∀ q ∈ phs, q.type = ptLoad → q.NoWrap)
    (hdisj : phs.Pairwise fun a b => a.type = ptLoad → b.type = ptLoad → ∀ va,
      ¬ ((a.vaddr ≤ va ∧ va < a.vaddr + a.memsz) ∧ b.vaddr ≤ va ∧ va < b.vaddr + b.memsz))
    (hph : ph ∈ phs) (ht : ph.type = ptLoad) (hva : ph.vaddr ≤ va ∧ va < ph.vaddr + ph.memsz) :
    segBytes data phs va = ph.byte data va := by
  induction phs with
  | nil => cases hph
  | cons q phs ih =>
    obtain ⟨hq, hdisj'⟩ := List.pairwise_cons.1 hdisj
    rcases List.mem_cons.1 hph with rfl | hph'
    · -- the later segments have no byte here
      have hnone : segBytes data phs va = none := segBytes_eq_none fun r hr hrt =>
        byte_eq_none (hsizes r (List.mem_cons_of_mem _ hr) hrt) fun hin =>
          hq r hr ht hrt va ⟨hva, hin⟩
      have hw := hwrap ph List.mem_cons_self ht
      rw [segBytes, hnone, Option.none_or, if_pos ht, ProgramHeader.loadByte, pageStart_eq hw,
        pageEnd_eq hw, if_pos (by omega)]
    · rw [segBytes, ih (fun r hr => hsizes r (List.mem_cons_of_mem _ hr))
        (fun r hr => hwrap r (List.mem_cons_of_mem _ hr)) hdisj' hph']
      have hhead : (if q.type = ptLoad then q.loadByte data va else none) = none := by
        split
        case isTrue hqt =>
          rw [ProgramHeader.loadByte, byte_eq_none (hsizes q List.mem_cons_self hqt)
            fun hin => hq ph hph' hqt ht va ⟨hin, hva⟩, ite_self]
        case isFalse => rfl
      rw [hhead, Option.or_none]

/-! ## The end of the segments -/

/-- The end of the segments is a page boundary. -/
theorem dvd_segEnd {phs : List ProgramHeader} {h : ℕ} (hh : 4096 ∣ h)
    (hwrap : ∀ q ∈ phs, q.type = ptLoad → q.NoWrap) : 4096 ∣ segEnd phs h := by
  induction phs generalizing h with
  | nil => exact hh
  | cons q phs ih =>
    rw [segEnd]
    refine ih ?_ fun r hr => hwrap r (List.mem_cons_of_mem _ hr)
    split
    case isTrue hq =>
      rcases max_choice h q.pageEnd with hm | hm
      · rw [hm]
        exact hh
      · rw [hm, pageEnd_eq (hwrap q List.mem_cons_self hq)]
        exact Nat.dvd_mul_left _ _
    case isFalse => exact hh

/-- It is not below where it started. -/
theorem le_segEnd_start (phs : List ProgramHeader) (h : ℕ) : h ≤ segEnd phs h := by
  induction phs generalizing h with
  | nil => exact le_rfl
  | cons q phs ih =>
    rw [segEnd]
    refine le_trans ?_ (ih _)
    split <;> omega

/-- It is not below the end of any segment. -/
theorem pageEnd_le_segEnd {phs : List ProgramHeader} {ph : ProgramHeader} (hph : ph ∈ phs)
    (ht : ph.type = ptLoad) (h : ℕ) : ph.pageEnd ≤ segEnd phs h := by
  induction phs generalizing h with
  | nil => cases hph
  | cons q phs ih =>
    rw [segEnd]
    rcases List.mem_cons.1 hph with rfl | hph'
    · rw [if_pos ht]
      exact le_trans (le_max_right _ _) (le_segEnd_start phs _)
    · exact ih hph' _

/-! ## The new task -/

variable {σ : Type} [PageAllocator σ]

omit [PageAllocator σ] in
/-- A call on the machine that returns. -/
theorem onMachine_ok {ε α : Type} {x : Exec ε (Machine σ) α} {k : Kernel σ} {a : α} {s : Machine σ}
    (h : x k.machine = .ok a s) : onMachine x k = .ok a { k with machine := s } :=
  Exec.zoom_of_ok h

omit [PageAllocator σ] in
/-- A call on the machine that fails. -/
theorem onMachine_error {ε α : Type} {x : Exec ε (Machine σ) α} {k : Kernel σ} {e : Fault ε}
    {s : Machine σ} (h : x k.machine = .error e s) :
    onMachine x k = .error e { k with machine := s } :=
  Exec.zoom_of_error h

omit [PageAllocator σ] in
/-- The rule of runs on the machine inside the kernel. -/
theorem onMachine_sat {ε α : Type} {x : Exec ε (Machine σ) α} {k : Kernel σ}
    {Q : α → Kernel σ → Prop} {E : Fault ε → Kernel σ → Prop}
    (h : Exec.Sat (x k.machine) (fun a s => Q a { k with machine := s })
      (fun e s => E e { k with machine := s })) : Exec.Sat (onMachine x k) Q E := by
  cases hx : x k.machine with
  | ok a s =>
    rw [onMachine_ok hx]
    exact Exec.sat_ok.2 (h.of_ok hx)
  | error e s =>
    rw [onMachine_error hx]
    exact Exec.sat_error.2 (h.of_error hx)

/-- `spawn_process` on a file's bytes: the load decides, and then the task is queued. -/
theorem spawnProcess_run (K : KernelTables) (data : List UInt8) (top : ℕ) (k : Kernel σ) :
    (∃ cr3 heapEnd s', loadProcess K data k.machine = .ok (cr3, heapEnd) s' ∧
      spawnProcess K (some data) top k = .ok ⟨⟩
        ⟨s', k.scheduler.addTask (newTask k data top cr3 heapEnd), (k.nextId + 1) % 2 ^ 64⟩) ∨
    ∃ e s', loadProcess K data k.machine = .error e s' ∧
      spawnProcess K (some data) top k = .error e { k with machine := s' } := by
  cases hrun : (loadProcess K data : Exec Unit (Machine σ) (ℕ × ℕ)) k.machine with
  | ok r s' =>
    refine .inl ⟨r.1, r.2, s', rfl, ?_⟩
    rw [spawnProcess, Exec.bind_of_ok (onMachine_ok hrun)]
    rfl
  | error e s' =>
    refine .inr ⟨e, s', rfl, ?_⟩
    rw [spawnProcess, Exec.bind_of_error (onMachine_error hrun)]

/-- **The image of a new process.** When `spawn_process` returns for an executable in order, the
task it queued has each byte of each segment mapped, with the file's byte or zero, and a
page-aligned `heap_end` not below the end of any segment. -/
theorem spawnProcess_image {K : KernelTables} {top : ℕ} {k k' : Kernel σ} (helf : LoadableElf data)
    (hrun : spawnProcess K (some data) top k = .ok ⟨⟩ k') :
    ∃ t, k'.scheduler.tasks = k.scheduler.tasks ++ [t] ∧ 4096 ∣ t.heapEnd ∧
      ∀ ph ∈ segments data, ph.type = ptLoad → ph.vaddr + ph.memsz ≤ t.heapEnd ∧
        ∀ i < ph.memsz, ∃ leaf, walk k'.machine.mem t.cr3 (ph.vaddr + i) = some leaf ∧
          k'.machine.mem leaf.phys = if i < ph.filesz then data.getD (ph.offset + i) 0 else 0 := by
  rcases spawnProcess_run K data top k with ⟨cr3, heapEnd, s', hload, hok⟩ | ⟨e, s', -, herr⟩
  case inr => rw [herr] at hrun; cases hrun
  rw [hok] at hrun
  cases hrun
  obtain ⟨-, A, hA⟩ := (loadProcess_spec K k.machine helf.userPage).of_ok hload
  simp only at hA
  refine ⟨newTask k data top cr3 heapEnd, rfl, ?_, fun ph hph ht => ⟨?_, fun i hi => ?_⟩⟩
  · show 4096 ∣ heapEnd
    rw [hA.heapEnd_eq]
    exact dvd_segEnd (Nat.dvd_zero _) hA.nowrap
  · show ph.vaddr + ph.memsz ≤ heapEnd
    have hw := helf.noWrap hph ht
    rw [helf.segments_eq] at hph
    have hle := pageEnd_le_segEnd hph ht 0
    rw [← hA.heapEnd_eq, pageEnd_eq hw] at hle
    omega
  · show ∃ leaf, walk s'.mem cr3 (ph.vaddr + i) = some leaf ∧ s'.mem leaf.phys = _
    have hw := helf.noWrap hph ht
    have hrange := helf.range ph hph ht
    have hv : ¬ Reserved (ph.vaddr + i) := not_reserved_hole (by omega) (by omega)
    -- the page of the address is one of the segment's, and none of the stack's
    have hpage : (ph.vaddr + i) / 4096 * 4096 ∈ segPages (programHeaders data) := by
      refine ⟨ph, helf.segments_eq ▸ hph, ht, Nat.dvd_mul_left _ _, ?_, ?_⟩
      · rw [pageStart_eq hw]
        omega
      · rw [pageEnd_eq hw]
        omega
    have hpath := pagePath_div (show ph.vaddr + i < 2 ^ 48 by omega)
    have hstack := pagePath_ne_stack (show ph.vaddr + i < 0x500000 by omega)
    have hleaf : A.leaf (pagePath (ph.vaddr + i)) ≠ 0 := hpath ▸ hA.seg hpage
    obtain ⟨leaf, hwalk, -, hphys⟩ := hA.owned.walk_page hA.root hv hleaf
    refine ⟨leaf, hwalk, ?_⟩
    have hbyte := hA.bytes (show ph.vaddr + i < 2 ^ 48 by omega) hstack
    rw [Space.byteAt, if_neg hleaf, ← hphys] at hbyte
    rw [hbyte, ← helf.segments_eq, segBytes_eq_byte helf.sizes (fun q hq hqt => helf.noWrap hq hqt)
      helf.disjoint hph ht ⟨by omega, by omega⟩, ProgramHeader.byte, Nat.add_sub_cancel_left]
    split
    case isTrue hin => rw [if_pos (by omega), Option.getD_some]
    case isFalse hout => rw [if_neg (by omega), Option.getD_none]

end

/-! ## A small executable -/

/-- The kernel after boot, with no task. -/
def bootKernel : Kernel PmmState := ⟨bootMachine, ⟨[], none⟩, 0⟩

/-- An ELF header with one program header behind it. -/
def elfHeader : List UInt8 :=
  [0x7F, 0x45, 0x4C, 0x46, 2, 1, 1, 0] ++ List.replicate 8 0 ++ [2, 0, 62, 0, 1, 0, 0, 0] ++
    toLe 8 0x400010 ++ toLe 8 64 ++ toLe 8 0 ++ toLe 4 0 ++
    toLe 2 64 ++ toLe 2 56 ++ toLe 2 1 ++ toLe 2 0 ++ toLe 2 0 ++ toLe 2 0

/-- An executable of one readable and executable segment: four bytes of the file and four zeros at
`vaddr`. -/
def tinyElf (vaddr : ℕ) : List UInt8 :=
  elfHeader ++ toLe 4 1 ++ toLe 4 5 ++ toLe 8 120 ++ toLe 8 vaddr ++ toLe 8 vaddr ++ toLe 8 4 ++
    toLe 8 8 ++ toLe 8 0x1000 ++ [0x90, 0x90, 0xEB, 0xFE]

/-- The one program header of the small file. -/
theorem programHeaders_tinyElf : programHeaders (tinyElf 0x400010) =
    [⟨1, 5, 120, 0x400010, 4, 8⟩] := by decide

/-- The small file has 124 bytes. -/
theorem length_tinyElf (vaddr : ℕ) : (tinyElf vaddr).length = 124 := by
  simp [tinyElf, elfHeader]

/-- The program headers are right behind the header, whatever follows. -/
theorem phoff_elfHeader_append (rest : List UInt8) : (header (elfHeader ++ rest)).phoff = 64 := by
  show field (elfHeader ++ rest) 32 8 = 64
  rw [field, slice_append_left (by decide)]
  decide

/-- Its program header follows its header. -/
theorem phoff_tinyElf (vaddr : ℕ) : (header (tinyElf vaddr)).phoff = 64 := by
  simp only [tinyElf, List.append_assoc, phoff_elfHeader_append]

/-- The small executable is in order where its segment fits. -/
theorem loadableElf_of_segments {vaddr : ℕ}
    (hseg : segments (tinyElf vaddr) = [⟨1, 5, 120, vaddr, 4, 8⟩])
    (hheader : header (tinyElf vaddr) = ⟨[0x7F, 0x45, 0x4C, 0x46], 2, 0x400010, 64, 1⟩)
    (hentry : field (tinyElf vaddr) 54 2 = 56) (h1 : 0x400000 ≤ vaddr) (h2 : vaddr + 8 ≤ 0x500000) :
    LoadableElf (tinyElf vaddr) := by
  have hlen := length_tinyElf vaddr
  refine ⟨by omega, by rw [hheader]; decide, hentry, by rw [hheader, hlen]; decide, ?_, ?_, ?_,
    ?_⟩ <;> rw [hseg]
  · rw [hlen]
    intro ph hph _
    obtain rfl := List.mem_singleton.1 hph
    exact le_rfl
  · intro ph hph _
    obtain rfl := List.mem_singleton.1 hph
    show 4 ≤ 8
    decide
  · intro ph hph _
    obtain rfl := List.mem_singleton.1 hph
    exact ⟨h1, h2⟩
  · exact List.pairwise_singleton _ _

/-- The small file can be loaded. -/
theorem loadableElf_tinyElf : LoadableElf (tinyElf 0x400010) :=
  loadableElf_of_segments (by decide) (by decide) (by decide) (by decide) (by decide)

/-- The frames that the small file needs. -/
theorem loadFrames_tinyElf : loadFrames (tinyElf 0x400010) = 42 := by
  rw [loadFrames, programHeaders_tinyElf]
  decide

/-- `spawn_process` returns for an executable in order when its program headers are aligned and
there are frames enough. -/
theorem LoadableElf.spawnProcess_ok {σ : Type} [PageAllocator σ] {K : KernelTables}
    {data : List UInt8} {k : Kernel σ} (helf : LoadableElf data) (top : ℕ)
    (halign : (header data).phoff % 8 = 0)
    (havail : loadFrames data < PageAllocator.avail k.machine.pages) :
    ∃ k', spawnProcess K (some data) top k = .ok ⟨⟩ k' := by
  rcases spawnProcess_run K data top k with ⟨cr3, heapEnd, s', -, hok⟩ | ⟨e, s', herr, -⟩
  · exact ⟨_, hok⟩
  · obtain ⟨-, hwhy⟩ := (loadProcess_spec K k.machine helf.userPage).of_error herr
    rcases hwhy with hfew | hnot
    · omega
    · have hlen : headerReach ≤ data.length := le_trans (by decide) helf.size.1
      refine absurd ⟨⟨hlen, halign⟩, helf.valid, helf.headers, fun ph hph ht => ?_⟩ hnot
      rw [← programHeaders_eq, ← helf.segments_eq] at hph
      exact ⟨⟨helf.inFile ph hph ht, helf.size.2⟩, helf.noWrap hph ht⟩

/-! ## Two segments on one page -/

/-- The program header of a segment of four bytes of the file and four zeros. -/
def segmentHeader (flags offset vaddr : ℕ) : List UInt8 :=
  toLe 4 1 ++ toLe 4 flags ++ toLe 8 offset ++ toLe 8 vaddr ++ toLe 8 vaddr ++ toLe 8 4 ++
    toLe 8 8 ++ toLe 8 0x1000

/-- An executable of two segments on one page. -/
def pairElf (first second : ℕ) : List UInt8 :=
  elfHeader.set 56 2 ++ segmentHeader first 176 0x400010 ++ segmentHeader second 176 0x400020 ++
    [0x90, 0x90, 0xEB, 0xFE]

/-- The program headers of `pairElf`. -/
def pairHeaders (first second : ℕ) : List ProgramHeader :=
  [⟨1, first, 176, 0x400010, 4, 8⟩, ⟨1, second, 176, 0x400020, 4, 8⟩]

section
variable {first second : ℕ}

/-- A file with two segments can be loaded. -/
theorem loadableElf_pairElf (hseg : segments (pairElf first second) = pairHeaders first second)
    (hheader : header (pairElf first second) = ⟨[0x7F, 0x45, 0x4C, 0x46], 2, 0x400010, 64, 2⟩)
    (hentry : field (pairElf first second) 54 2 = 56) : LoadableElf (pairElf first second) := by
  have hlen : (pairElf first second).length = 180 := by
    simp [pairElf, segmentHeader, elfHeader]
  have hall : ∀ ph ∈ pairHeaders first second, ph.offset = 176 ∧ ph.filesz = 4 ∧ ph.memsz = 8 ∧
      (ph.vaddr = 0x400010 ∨ ph.vaddr = 0x400020) := by
    simp [pairHeaders]
  refine ⟨by omega, by rw [hheader]; decide, hentry, by rw [hheader, hlen]; decide, ?_, ?_, ?_,
    ?_⟩ <;> rw [hseg]
  · intro ph hph _
    have := hall ph hph
    omega
  · intro ph hph _
    have := hall ph hph
    omega
  · intro ph hph _
    have := hall ph hph
    omega
  · refine List.pairwise_pair.2 fun _ _ va => ?_
    simp only
    omega

/-- The frames that a file with two segments needs. -/
theorem loadFrames_pairElf
    (hseg : programHeaders (pairElf first second) = pairHeaders first second) :
    loadFrames (pairElf first second) = 46 := by
  simp only [loadFrames, hseg, pairHeaders, segFrames, ProgramHeader.pageEnd,
    ProgramHeader.pageStart, ptLoad, reduceIte]
  decide

/-- The program headers are behind the header. -/
theorem phoff_pairElf (first second : ℕ) : (header (pairElf first second)).phoff = 64 := by
  show field (pairElf first second) 32 8 = 64
  rw [pairElf, List.append_assoc, List.append_assoc, field, slice_append_left (by decide)]
  decide

/-- After boot there are frames enough for two segments. -/
theorem spawnProcess_pairElf (helf : LoadableElf (pairElf first second))
    (hseg : programHeaders (pairElf first second) = pairHeaders first second) :
    ∃ k', spawnProcess bootTables (some (pairElf first second)) 0x8000 bootKernel = .ok ⟨⟩ k' := by
  refine helf.spawnProcess_ok (k := bootKernel) 0x8000 (by rw [phoff_pairElf]) ?_
  rw [loadFrames_pairElf hseg, show bootKernel.machine.pages = bootPages from rfl, avail_bootPages]
  decide

end

/-- The code comes first. -/
theorem loadableElf_codeFirst : LoadableElf (pairElf 5 6) :=
  loadableElf_pairElf (by decide +kernel) (by decide +kernel) (by decide +kernel)

/-- The data comes first. -/
theorem loadableElf_dataFirst : LoadableElf (pairElf 6 5) :=
  loadableElf_pairElf (by decide +kernel) (by decide +kernel) (by decide +kernel)

/-- The image of two segments on one page after boot: of each, its four bytes and four zeros are
there. -/
theorem spawnProcess_image_pairElf : ∃ k',
    spawnProcess bootTables (some (pairElf 5 6)) 0x8000 bootKernel = .ok ⟨⟩ k' ∧
    ∃ t, k'.scheduler.tasks = [] ++ [t] ∧ 4096 ∣ t.heapEnd ∧
      ∀ ph ∈ segments (pairElf 5 6), ph.type = ptLoad → ph.vaddr + ph.memsz ≤ t.heapEnd ∧
        ∀ i < ph.memsz, ∃ leaf, walk k'.machine.mem t.cr3 (ph.vaddr + i) = some leaf ∧
          k'.machine.mem leaf.phys =
            if i < ph.filesz then (pairElf 5 6).getD (ph.offset + i) 0 else 0 := by
  obtain ⟨k', hrun⟩ := spawnProcess_pairElf loadableElf_codeFirst (by decide +kernel)
  exact ⟨k', hrun, spawnProcess_image loadableElf_codeFirst hrun⟩

end RossOs
