import RossOs.Task.Exhaust

/-!
# Reading an executable

`spawn_process` reads the header, the program headers and the bytes of the segments where the file
says they are, and checks none of it but the magic number and the class; only where the headers are
not aligned does the kernel stop before it reads them. `staysInside_iff` says for which files it
stays inside the buffer: for those in order (`SafeFile`), whatever the memory, and, when there are
frames enough, for no others.
-/

namespace RossOs

open ByteMem Paging Elf Exec

/-! ## What there is to stay inside of -/

/-- The program headers, `e_phentsize` bytes apart, are in the file. -/
def HeadersInside (data : List UInt8) : Prop :=
  ∀ i < (header data).phnum, (header data).phoff + field data 54 2 * i + 56 ≤ data.length

/-- What the loader reads and adds up for a segment is in the file and below 2^64. -/
structure Elf.ProgramHeader.Inside (data : List UInt8) (ph : ProgramHeader) : Prop where
  sum : ph.NoWrap
  copies : ∀ i < (ph.pageEnd - ph.pageStart) / 4096, ph.CopyInside data (ph.pageStart + 4096 * i)

/-- What the loader reads and adds up for the program headers, 56 bytes apart. -/
structure LoadsInside (data : List UInt8) : Prop where
  headers : ∀ i < (header data).phnum, (header data).phoff + 56 * i + 56 ≤ data.length
  segments : ∀ ph ∈ programHeaders data, ph.type = ptLoad → ph.Inside data

/-- The file has what `is_valid` reads, unless it is empty; the whole header, if that is valid; and
the rest, if the program headers are aligned. -/
structure SafeFile (data : List UInt8) : Prop where
  reach : data ≠ [] → validReach data ≤ data.length
  size : (header data).isValid = true → 64 ≤ data.length
  inside : (header data).isValid = true → (header data).phoff % 8 = 0 →
    LoadsInside data ∧ HeadersInside data

/-- The header that is used and the program headers that are made a slice of are in the file. -/
def Event.Tabled (data : List UInt8) : Event → Prop
  | .header => 64 ≤ data.length
  | .headers => HeadersInside data
  | .read _ _ | .sum _ | .map _ | .expect => True

/-- The same of the file, when there are `n` frames: with six frames for the address space the call
comes to the header. -/
def TablesInside (data : List UInt8) (n : ℕ) : Prop :=
  (header data).isValid = true → 6 ≤ n →
    64 ≤ data.length ∧ ((header data).phoff % 8 = 0 → HeadersInside data)

section
variable {ε σ α : Type} [PageAllocator σ] {data : List UInt8}

/-- `spawn_process` returns `Err(())`, or it stays inside: what it reads is in the file, and so are
the header and the program headers that it goes by, and no sum overflows. -/
def StaysInside (K : KernelTables) (data : List UInt8) (top : ℕ) (k : Kernel σ) : Prop :=
  (∃ k', spawnProcess K (some data) top k = .error (.err ()) k') ∨
    ∀ w ∈ (MemCall.spawn K (some data) top).log k, w.Inside data ∧ w.Tabled data

/-! ## Files in order -/

/-- All that is noted on the way meets the condition, if what is noted before does. -/
def Inward (P : Event → Prop) (t u : Machine σ × List Event) : Prop :=
  (∀ w ∈ u.2, P w) ↔ ∀ w ∈ t.2, P w

section
variable {P : Event → Prop}

omit [PageAllocator σ] in
instance : IsPreorder (Machine σ × List Event) (Inward P) where
  refl _ := Iff.rfl
  trans _ _ _ h h' := h'.trans h

omit [PageAllocator σ] in
/-- A quiet run notes nothing. -/
theorem inward_quiet (x : Exec ε (Machine σ) α) :
    Along (Inward P) (quiet x : Exec ε (Machine σ × List Event) α) := by
  refine .of_sat fun t => quiet_sat ?_
  cases x t.1 with
  | ok a s => exact sat_ok.2 Iff.rfl
  | error e s => exact sat_error.2 Iff.rfl

/-- All notes and one more meet a condition if they do and it does. -/
theorem forall_mem_concat {l : List Event} {w : Event} :
    (∀ v ∈ l ++ [w], P v) ↔ (∀ v ∈ l, P v) ∧ P w := by
  rw [List.forall_mem_append, List.forall_mem_singleton]

/-- The relation is kept by all that notes only what meets the condition. -/
theorem steady_inward (hexpect : P .expect) (hmap : ∀ v, P (.map v)) :
    Steady (σ := σ) (Inward P) P where
  quiet _ := inward_quiet _
  alloc := inward_quiet _
  note hw _ := forall_mem_concat.trans (and_iff_left hw)
  expect := hexpect
  map := hmap

end

/-- A file in order is read inside its bounds, whatever the memory holds. -/
theorem SafeFile.inward (h : SafeFile data) (K : KernelTables) :
    Along (Inward fun w => w.Inside data ∧ w.Tabled data)
      (Trace.loadProcess K data : Exec Unit (Machine σ × List Event) (ℕ × ℕ)) := by
  refine (steady_inward ⟨trivial, trivial⟩ fun _ => ⟨trivial, trivial⟩).loadProcess K
    (fun hne => ⟨?_, trivial⟩) (fun hvalid => ?_) fun hvalid halign => ?_
  · show 0 + validReach data ≤ data.length
    have := h.reach hne
    omega
  · have hsize := h.size hvalid
    refine ⟨⟨trivial, hsize⟩, ⟨?_, trivial⟩, fun halign => ⟨trivial, (h.inside hvalid halign).2⟩⟩
    show 0 + 58 ≤ data.length
    omega
  · have hin := (h.inside hvalid halign).1
    refine ⟨fun i hi => ⟨hin.headers i hi, trivial⟩, fun ph hph ht => ?_⟩
    have hseg := hin.segments ph hph ht
    exact ⟨⟨hseg.sum, trivial⟩, fun i hi hcopy => ⟨⟨(hseg.copies i hi hcopy).1, trivial⟩,
      fun _ => ⟨(hseg.copies i hi hcopy).2, trivial⟩⟩⟩

/-! ## The tables of the file -/

/-- A valid header has its five bytes. -/
theorem reach_of_valid (hvalid : (header data).isValid = true) : 5 ≤ data.length := by
  by_contra hshort
  have hclass : (header data).elfClass = 0 := List.getD_eq_default data 0 (by omega)
  rw [ElfHeader.isValid, hclass, Bool.and_eq_true] at hvalid
  exact absurd hvalid.2 (by decide)

/-- After the address space nothing is noted of the tables but by the slice. -/
theorem steady_tabled (data : List UInt8) :
    Steady (σ := σ) (Inward (·.Tabled data)) (·.Tabled data) :=
  steady_inward trivial fun _ => trivial

/-- What the slice of the program headers and the loops behind it note of the tables. -/
theorem tabled_afterSpace {cr3 : ℕ} {s : Machine σ} {log : List Event}
    (hlog : ∀ w ∈ log, w.Tabled data) :
    (∀ w ∈ (Outcome.state ((Trace.sliceHeaders data >>= fun _ =>
        Trace.loadSegments data cr3 (header data).phnum (header data).phoff 0 >>= fun heapEnd =>
        Trace.mapStack cr3 >>= fun _ => pure (cr3, heapEnd) :
        Exec Unit (Machine σ × List Event) (ℕ × ℕ)) (s, log))).2, w.Tabled data) ↔
      64 ≤ data.length ∧ ((header data).phoff % 8 = 0 → HeadersInside data) := by
  have hrest : Along (Inward (·.Tabled data))
      (Trace.loadSegments data cr3 (header data).phnum (header data).phoff 0 >>= fun heapEnd =>
        Trace.mapStack cr3 >>= fun _ => pure (cr3, heapEnd) :
        Exec Unit (Machine σ × List Event) (ℕ × ℕ)) :=
    .bind ((steady_tabled data).loadSegments _ (fun _ _ => trivial) fun _ _ _ =>
      ⟨trivial, fun _ _ _ => ⟨trivial, fun _ => trivial⟩⟩) fun _ =>
      .bind ((steady_tabled data).mapStack cr3) fun _ => .pure _
  have hhead : (∀ w ∈ log ++ [.header] ++ [.read 0 headerReach], w.Tabled data) ↔
      64 ≤ data.length := by
    rw [forall_mem_concat, forall_mem_concat]
    exact ⟨fun h => h.1.2, fun h => ⟨⟨hlog, h⟩, trivial⟩⟩
  by_cases hlen : data.length < headerReach
  · have hrun : (Trace.sliceHeaders data : Exec Unit (Machine σ × List Event) PUnit) (s, log) =
        .error .outOfBounds (s, log ++ [.header] ++ [.read 0 headerReach]) := by
      show (if _ then _ else _ : Exec Unit (Machine σ × List Event) PUnit) _ = _
      rw [if_pos hlen]
      rfl
    rw [Exec.bind_of_error hrun]
    refine hhead.trans ⟨fun h => ?_, And.left⟩
    have : data.length < 58 := hlen
    omega
  by_cases halign : (header data).phoff % 8 = 0
  · have hrun : (Trace.sliceHeaders data : Exec Unit (Machine σ × List Event) PUnit) (s, log) =
        .ok ⟨⟩ (s, log ++ [.header] ++ [.read 0 headerReach] ++ [.headers]) := by
      show (if _ then _ else _ : Exec Unit (Machine σ × List Event) PUnit) _ = _
      rw [if_neg hlen, if_pos halign]
      rfl
    rw [Exec.bind_of_ok hrun]
    refine (hrest _).trans (forall_mem_concat.trans (and_congr hhead ?_))
    exact ⟨fun h _ => h, fun h => h halign⟩
  · have hrun : (Trace.sliceHeaders data : Exec Unit (Machine σ × List Event) PUnit) (s, log) =
        .error .panic (s, log ++ [.header] ++ [.read 0 headerReach]) := by
      show (if _ then _ else _ : Exec Unit (Machine σ × List Event) PUnit) _ = _
      rw [if_neg hlen, if_neg halign]
      rfl
    rw [Exec.bind_of_error hrun]
    exact hhead.trans ⟨fun h => ⟨h, fun h' => absurd h' halign⟩, And.left⟩

/-- The tables that a run goes by are in the file exactly when those it comes to are. -/
theorem tabled_loadProcess (K : KernelTables) (data : List UInt8) (s : Machine σ) :
    (∀ w ∈ (Outcome.state ((Trace.loadProcess K data :
        Exec Unit (Machine σ × List Event) (ℕ × ℕ)) (s, []))).2, w.Tabled data) ↔
      TablesInside data (PageAllocator.avail s.pages) := by
  have hnil : ∀ w ∈ ([] : List Event), w.Tabled data := fun _ hw => absurd hw List.not_mem_nil
  have hread : ∀ w ∈ [] ++ [Event.read 0 (validReach data)], w.Tabled data :=
    forall_mem_concat.2 ⟨hnil, trivial⟩
  unfold Trace.loadProcess TablesInside
  by_cases hempty : data = []
  · rw [if_pos hempty]
    refine iff_of_true hnil fun hvalid => ?_
    have := reach_of_valid hvalid
    rw [hempty] at this
    cases this
  rw [if_neg hempty, Exec.bind_of_ok (note_run _ _)]
  by_cases hlen : data.length < validReach data
  · rw [if_pos hlen]
    refine iff_of_true hread fun hvalid => ?_
    have := reach_of_valid hvalid
    have := validReach_le data
    omega
  rw [if_neg hlen]
  by_cases hvalid : (header data).isValid = true
  case neg =>
    rw [if_pos (by simpa using hvalid)]
    exact iff_of_true hread fun h => absurd h hvalid
  rw [if_neg (by simp [hvalid])]
  have hspec := (Trace.logs_createUserAddressSpace (ε := Unit) K).sat
    (s := (s, [] ++ [Event.read 0 (validReach data)])) (createUserAddressSpace_built K s)
  have hspace := (steady_tabled data).createUserAddressSpace (ε := Unit) K
    (s, [] ++ [Event.read 0 (validReach data)])
  cases hrun : (Trace.createUserAddressSpace K : Exec Unit (Machine σ × List Event) ℕ)
      (s, [] ++ [Event.read 0 (validReach data)]) with
  | error e t =>
    obtain ⟨-, -, hfew⟩ := hspec.of_error hrun
    rw [hrun] at hspace
    rw [Exec.bind_of_error hrun]
    exact iff_of_true (hspace.2 hread) fun _ hsix => absurd hsix (by omega)
  | ok cr3 t =>
    obtain ⟨-, havail, -⟩ := hspec.of_ok hrun
    rw [hrun] at hspace
    rw [Exec.bind_of_ok hrun]
    refine (tabled_afterSpace (hspace.2 hread)).trans ⟨fun h _ _ => h, fun h => h hvalid ?_⟩
    omega

/-! ## Needs that stray -/

/-- The tables of a page are tables only. -/
theorem not_mem_tableNeeds {a : Need} (ha : a ≠ .table) (F : Footprint) (v : ℕ) :
    a ∉ F.tableNeeds v := by
  obtain ⟨k, hk⟩ := tableNeeds_eq F v
  rw [hk]
  exact fun hmem => ha (List.eq_of_mem_replicate hmem)

/-- A page needs three frames for tables at most. -/
theorem frames_tableNeeds_le (F : Footprint) (v : ℕ) : Need.frames (F.tableNeeds v) ≤ 3 := by
  have hone : ∀ q, Need.frames (if F q = true then [] else [.table]) ≤ 1 := by
    intro q
    split <;> simp [Need.frames]
  have h1 := hone [index 39 v]
  have h2 := hone [index 39 v, index 30 v]
  have h3 := hone [index 39 v, index 30 v, index 21 v]
  simp only [Footprint.tableNeeds, tablePaths, List.flatMap_cons, List.flatMap_nil, frames_append,
    List.append_nil]
  omega

/-- What the needs of a loop say: no refusal and no halt, a bounded number of frames, and when it
strays. -/
structure Need.Tally (l : List Need) (n : ℕ) (p : Prop) : Prop where
  refuse : .refuse ∉ l
  halt : .halt ∉ l
  frames : Need.frames l ≤ n
  stray : .stray ∈ l ↔ p

/-- The needs of two loops add up. -/
theorem Need.Tally.append {l l' : List Need} {n n' : ℕ} {p p' : Prop} (h : Need.Tally l n p)
    (h' : Need.Tally l' n' p') : Need.Tally (l ++ l') (n + n') (p ∨ p') where
  refuse hmem := (List.mem_append.1 hmem).elim h.refuse h'.refuse
  halt hmem := (List.mem_append.1 hmem).elim h.halt h'.halt
  frames := by
    rw [frames_append]
    exact Nat.add_le_add h.frames h'.frames
  stray := List.mem_append.trans (or_congr h.stray h'.stray)

/-- The bound on the frames may be raised. -/
theorem Need.Tally.congr {l : List Need} {n n' : ℕ} {p p' : Prop} (h : Need.Tally l n p)
    (hn : n ≤ n') (hp : p ↔ p') : Need.Tally l n' p' :=
  ⟨h.refuse, h.halt, h.frames.trans hn, h.stray.trans hp⟩

/-- Where nothing is needed, nothing strays. -/
theorem tally_nil : Need.Tally [] 0 False := ⟨List.not_mem_nil, List.not_mem_nil, le_rfl, by simp⟩

/-- Something is read or added up that strays. -/
theorem tally_stray : Need.Tally [.stray] 0 True := ⟨by simp, by simp, le_rfl, by simp⟩

/-- Pages need four frames each at most and do not stray. -/
theorem tally_growNeeds (F : Footprint) (vs : List ℕ) :
    Need.Tally (F.growNeeds vs) (4 * vs.length) False := by
  induction vs generalizing F with
  | nil => exact tally_nil
  | cons v vs ih =>
    obtain ⟨hrefuse, hhalt, hframes, hstray⟩ := ih (F.map v)
    have hle := frames_tableNeeds_le F v
    rw [Footprint.growNeeds]
    refine ⟨?_, ?_, ?_, ?_⟩
    · simp [not_mem_tableNeeds, hrefuse]
    · simp [not_mem_tableNeeds, hhalt]
    · simp only [Need.frames, frames_append, List.length_cons]
      omega
    · simp [not_mem_tableNeeds, hstray]

/-- A page of a segment strays when its copy does. -/
theorem tally_loadNeeds (F : Footprint) (ph : ProgramHeader) (page : ℕ) :
    Need.Tally (F.loadNeeds data ph page) 4 (¬ ph.CopyInside data page) := by
  have hle := frames_tableNeeds_le F page
  rw [Footprint.loadNeeds]
  refine ⟨?_, ?_, ?_, ?_⟩
  · split <;> split <;> simp [not_mem_tableNeeds]
  · split <;> split <;> simp [not_mem_tableNeeds]
  · split <;> split <;> simp only [Need.frames, frames_append] <;> omega
  · split <;> split <;> simp_all [not_mem_tableNeeds]

/-- The pages of a segment stray when a copy does. -/
theorem tally_pagesNeeds (F : Footprint) (ph : ProgramHeader) (n page : ℕ) :
    Need.Tally (Footprint.pagesNeeds data ph F n page) (4 * n)
      (¬ ∀ i < n, ph.CopyInside data (page + 4096 * i)) := by
  induction n generalizing F page with
  | zero => exact tally_nil.congr le_rfl (by simp)
  | succ n ih =>
    refine ((tally_loadNeeds F ph page).append (ih (F.load page) (page + 4096))).congr
      (by omega) ?_
    rw [← not_and_or, Nat.forall_lt_succ_left]
    have hpage : ∀ i, page + 4096 * (i + 1) = page + 4096 + 4096 * i := fun i => by omega
    simp only [hpage, Nat.mul_zero, Nat.add_zero]

/-- A segment strays when one of its pages does. -/
theorem tally_segmentNeeds (F : Footprint) (ph : ProgramHeader) :
    Need.Tally (F.segmentNeeds data ph)
      (if ph.type = ptLoad then 4 * ((ph.pageEnd - ph.pageStart) / 4096) else 0)
      (¬ (ph.type = ptLoad → ph.Inside data)) := by
  unfold Footprint.segmentNeeds
  by_cases ht : ph.type = ptLoad
  case neg =>
    rw [if_neg ht, if_neg ht]
    exact tally_nil.congr le_rfl (by simp [ht])
  rw [if_pos ht, if_pos ht]
  by_cases hsum : ph.NoWrap
  case neg =>
    rw [if_neg hsum]
    exact tally_stray.congr (Nat.zero_le _) (iff_of_true trivial fun h => hsum (h ht).sum)
  rw [if_pos hsum]
  exact (tally_pagesNeeds F ph _ _).congr le_rfl
    (not_congr ⟨fun h _ => ⟨hsum, h⟩, fun h => (h ht).copies⟩)

/-- The segments stray when a header or a page does. -/
theorem tally_segmentsNeeds (F : Footprint) (n o : ℕ) :
    Need.Tally (Footprint.segmentsNeeds data F n o) (segFrames (headersFrom data n o))
      (¬ ((∀ i < n, o + 56 * i + 56 ≤ data.length) ∧
        ∀ ph ∈ headersFrom data n o, ph.type = ptLoad → ph.Inside data)) := by
  induction n generalizing F o with
  | zero => exact tally_nil.congr le_rfl (by simp [headersFrom])
  | succ n ih =>
    rw [Footprint.segmentsNeeds, Nat.forall_lt_succ_left]
    by_cases hin : o + 56 ≤ data.length
    case neg =>
      rw [if_neg hin]
      exact tally_stray.congr (Nat.zero_le _) (iff_of_true trivial fun h => hin h.1.1)
    rw [if_pos hin]
    refine ((tally_segmentNeeds F _).append (ih (F.loadSegment _) (o + 56))).congr le_rfl ?_
    have hnext : ∀ i, o + 56 * (i + 1) + 56 = o + 56 + 56 * i + 56 := fun i => by omega
    rw [← not_and_or, headersFrom, List.forall_mem_cons]
    simp only [hnext, Nat.mul_zero, Nat.add_zero, hin, true_and]
    exact not_congr and_left_comm

/-- The needs of the two loops of `spawn_process`. -/
theorem tally_loops (data : List UInt8) :
    Need.Tally (freshFootprint.segmentsNeeds data (header data).phnum (header data).phoff ++
        (freshFootprint.loadSegments data (header data).phnum (header data).phoff).growNeeds
          stackList)
      (loadFrames data - 6) (¬ LoadsInside data) := by
  have hstack : stackList.length = stackPages := by
    rw [stackList, List.length_map, List.length_range]
  have hgrow := tally_growNeeds
    (freshFootprint.loadSegments data (header data).phnum (header data).phoff) stackList
  rw [hstack] at hgrow
  have hframes : segFrames (headersFrom data (header data).phnum (header data).phoff) +
      4 * stackPages ≤ loadFrames data - 6 := by
    rw [loadFrames, programHeaders_eq]
    omega
  refine ((tally_segmentsNeeds freshFootprint _ _).append hgrow).congr hframes ?_
  rw [or_false, ← programHeaders_eq]
  exact not_congr ⟨fun h => ⟨h.1, h.2⟩, fun h => ⟨h.headers, h.segments⟩⟩

/-- How `spawn_process` ends for a valid header, behind the address space. -/
theorem fate_spawnNeeds {n : ℕ} (hvalid : (header data).isValid = true) (hn : 6 ≤ n) :
    fate n (spawnNeeds data) = fate (n - 6) (sliceNeeds data ++
      (freshFootprint.segmentsNeeds data (header data).phnum (header data).phoff ++
        (freshFootprint.loadSegments data (header data).phnum (header data).phoff).growNeeds
          stackList)) := by
  have hlen := reach_of_valid hvalid
  have hreach := validReach_le data
  rw [spawnNeeds, if_neg (fun h => by rw [h] at hlen; cases hlen), if_neg (by omega),
    if_neg (by simp [hvalid]), fate_append, fate_tables, if_pos hn, if_pos rfl, frames_tables]

/-! ## Which files the loader stays inside of -/

variable {K : KernelTables} {top : ℕ} {k : Kernel σ}

/-- A file in order is read inside its bounds. -/
theorem SafeFile.staysInside (h : SafeFile data) : StaysInside K data top k := by
  refine .inr ?_
  rw [MemCall.log_spawn]
  exact ((h.inward K) (k.machine, [])).2 fun w hw => absurd hw List.not_mem_nil

/-- How the call ends, and the tables that it comes to, decide whether it stays inside. -/
theorem staysInside_iff_fate (hw : (MemCall.spawn K (some data) top).fate k ≠ .wild) :
    StaysInside K data top k ↔ (MemCall.spawn K (some data) top).fate k = .refused ∨
      (MemCall.spawn K (some data) top).fate k ≠ .strays ∧
        TablesInside data (PageAllocator.avail k.machine.pages) := by
  refine or_congr (MemCall.reports_spawn hw) ?_
  rw [forall₂_and, MemCall.log_spawn]
  exact and_congr ((loadProcess_meets K data k.machine).inside_iff hw)
    (tabled_loadProcess K data k.machine)

/-- With frames enough the call stays inside the file exactly when the file is in order. -/
theorem staysInside_iff_safeFile (hw : (MemCall.spawn K (some data) top).fate k ≠ .wild)
    (hn : loadFrames data ≤ PageAllocator.avail k.machine.pages) :
    StaysInside K data top k ↔ SafeFile data := by
  refine ⟨fun h => ?_, fun h => h.staysInside⟩
  rw [staysInside_iff_fate hw] at h
  have hsix : 6 ≤ PageAllocator.avail k.machine.pages := by
    rw [loadFrames] at hn
    omega
  have hreach : data ≠ [] → validReach data ≤ data.length := by
    intro hne
    by_contra hshort
    have hstray : (MemCall.spawn K (some data) top).fate k = .strays := by
      rw [MemCall.fate_spawn, spawnNeeds, if_neg hne, if_pos (by omega), fate]
    simp [hstray] at h
  cases hvalid : (header data).isValid with
  | false => exact ⟨hreach, by simp [hvalid], by simp [hvalid]⟩
  | true =>
    rw [MemCall.fate_spawn] at hw h
    rw [fate_spawnNeeds hvalid hsix] at hw h
    rw [sliceNeeds] at hw h
    -- a header that is too short strays, one that is not aligned halts, and the loops decide else
    by_cases hlen : data.length < headerReach
    · rw [if_pos hlen] at h
      simp [fate] at h
    rw [if_neg hlen] at hw h
    by_cases halign : (header data).phoff % 8 = 0
    case neg =>
      rw [if_neg halign] at h
      have htables := (h.resolve_left (by simp [fate])).2 hvalid hsix
      exact ⟨hreach, fun _ => htables.1, fun _ h' => absurd h' halign⟩
    rw [if_pos halign, List.nil_append] at hw h
    have htally := tally_loops data
    rw [fate_of_frames htally.refuse htally.halt (htally.frames.trans (by omega)) hw] at h
    by_cases hin : LoadsInside data
    · rw [if_neg fun hmem => htally.stray.1 hmem hin] at h
      obtain ⟨hsize, hheaders⟩ := (h.resolve_left (by simp)).2 hvalid hsix
      exact ⟨hreach, fun _ => hsize, fun _ _ => ⟨hin, hheaders halign⟩⟩
    · rw [if_pos (htally.stray.2 hin)] at h
      simp at h

/-- An executable in order is read inside its bounds. -/
theorem LoadableElf.safeFile (h : LoadableElf data) : SafeFile data := by
  have hreach := validReach_le data
  have hlen := h.size.1
  refine ⟨fun _ => by omega, fun _ => hlen, fun _ _ =>
    ⟨⟨fun i hi => ?_, fun ph hph ht => ?_⟩, fun i hi => ?_⟩⟩
  · have := h.headers
    omega
  · rw [← h.segments_eq] at hph
    refine ⟨h.noWrap hph ht, fun i _ hin => ?_⟩
    have hfile := h.inFile ph hph ht
    have hsize := h.size.2
    omega
  · have := h.headers
    rw [h.phentsize]
    omega

end

end RossOs
