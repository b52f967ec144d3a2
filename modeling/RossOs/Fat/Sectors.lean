import RossOs.Fat.Alloc

/-!
# The sector numbers of the driver

The low-level helpers of the driver again, with a log of what they compute in 64 bits and of what
they ask of the drive. A number goes into the log as it is, before it is cut to 64 bits, and a
request with the command FIS that is built for it. Each function is the one of the driver with
notes, and agrees with it when the log is left out.
-/

namespace RossOs

open ByteMem Ahci Exec

namespace Fat

/-- What the log holds. -/
inductive Event where
  /-- The result of an operation on 64-bit numbers. -/
  | number (n : ℕ)
  /-- A call of `read_sectors` or `write_sectors`, with its command FIS. -/
  | request (lba count : ℕ) (fis : List UInt8)
deriving DecidableEq, Repr

namespace Sectors

/-- An operation on 64-bit numbers. -/
def u64 {ε σ : Type} (n : ℕ) : Exec ε (σ × List Event) ℕ := do
  note (.number n)
  pure n

/-- `read_sectors`. -/
def readSectors (lba count : ℕ) (buf : List UInt8) :
    Exec String (Disk × List Event) (List UInt8) := do
  note (.request lba count (commandFis ataCmdReadDmaExt lba count))
  quiet (Ahci.readSectors lba count buf)

/-- `write_sectors`. -/
def writeSectors (lba count : ℕ) (buf : List UInt8) : Exec String (Disk × List Event) PUnit := do
  note (.request lba count (commandFis ataCmdWriteDmaExt lba count))
  quiet (Ahci.writeSectors lba count buf)

/-- `Fat32Fs::mount`. -/
def mount : Exec String (Disk × List Event) Fat32Fs := do
  let sec ← readSectors 0 1 (List.replicate 512 0)
  match parseBpb sec with
  | .ok bpb =>
    let fats ← u64 (bpb.numFats * bpb.fatSizeSectors)
    let _dataStart ← u64 (bpb.reservedSectors + fats)
    pure ⟨bpb⟩
  | .error e => Exec.fail e

section
variable (fs : Fat32Fs)

/-- `cluster_to_sector`. -/
def clusterToSector {ε σ : Type} (cluster : ℕ) : Exec ε (σ × List Event) ℕ :=
  if 2 ≤ cluster then do
    let off ← u64 ((cluster - 2) * fs.bpb.sectorsPerCluster)
    u64 (fs.dataStart + off)
  else Exec.panic

/-- The chunk loop of `read_cluster`. -/
def readChunks (rem sec off : ℕ) (buf : List UInt8) :
    Exec String (Disk × List Event) (List UInt8) :=
  if rem = 0 then pure buf
  else if off ≤ buf.length then do
    let cnt := min rem 8
    let part ← readSectors sec cnt (buf.drop off)
    let sec' ← u64 (sec + cnt)
    let off' ← u64 (off + 512 * cnt)
    readChunks (rem - cnt) sec' off' (buf.take off ++ part)
  else Exec.panic
termination_by rem
decreasing_by omega

/-- `read_cluster`. -/
def readCluster (cluster : ℕ) (buf : List UInt8) :
    Exec String (Disk × List Event) (List UInt8) := do
  let first ← clusterToSector fs cluster
  readChunks fs.bpb.sectorsPerCluster first 0 buf

/-- The chunk loop of `write_cluster`. -/
def writeChunks (rem sec off : ℕ) (buf : List UInt8) : Exec String (Disk × List Event) PUnit :=
  if rem = 0 then pure ⟨⟩
  else if off ≤ buf.length then do
    let cnt := min rem 8
    writeSectors sec cnt (buf.drop off)
    let sec' ← u64 (sec + cnt)
    let off' ← u64 (off + 512 * cnt)
    writeChunks (rem - cnt) sec' off' buf
  else Exec.panic
termination_by rem
decreasing_by omega

/-- `write_cluster`. -/
def writeCluster (cluster : ℕ) (buf : List UInt8) : Exec String (Disk × List Event) PUnit := do
  let first ← clusterToSector fs cluster
  writeChunks fs.bpb.sectorsPerCluster first 0 buf

/-- `next_cluster`. -/
def nextCluster (cluster : ℕ) : Exec String (Disk × List Event) ℕ := do
  let ob ← u64 (4 * cluster)
  let sec ← u64 (fs.fatStart + ob / 512)
  let buf ← readSectors sec 1 (List.replicate 512 0)
  pure (field buf (ob % 512) 4 &&& 0x0FFFFFFF)

/-- `set_fat_entry` in one copy of the FAT, for the entry at the offset `ob`. -/
def setFatEntryIn (ob value f : ℕ) : Exec String (Disk × List Event) PUnit := do
  let skip ← u64 (f * fs.bpb.fatSizeSectors)
  let start ← u64 (fs.fatStart + skip)
  let sec ← u64 (start + ob / 512)
  let pos := ob % 512
  let buf ← readSectors sec 1 (List.replicate 512 0)
  let existing := field buf pos 4
  let new := (existing &&& 0xF0000000) ||| (value &&& 0x0FFFFFFF)
  writeSectors sec 1 (splice buf pos (toLe 4 new))

/-- `set_fat_entry`. -/
def setFatEntry (cluster value : ℕ) : Exec String (Disk × List Event) PUnit := do
  let ob ← u64 (4 * cluster)
  (List.range fs.bpb.numFats).forM (setFatEntryIn fs ob value)

/-- The search of `alloc_cluster` in the `n` sectors from `si` on. -/
def scanFat : (n si : ℕ) → Exec String (Disk × List Event) (Option ℕ)
  | 0, _ => pure none
  | n + 1, si => do
    let sec ← u64 (fs.fatStart + si)
    let buf ← readSectors sec 1 (List.replicate 512 0)
    let _entry ← u64 (128 * si)
    match scanSector buf si with
    | some c => pure (some c)
    | none => scanFat n (si + 1)

/-- `alloc_cluster`. -/
def allocCluster : Option ℕ → Exec String (Disk × List Event) ℕ :=
  allocLogged fs (scanFat fs fs.bpb.fatSizeSectors 0) (setFatEntry fs) (writeCluster fs)

end

/-! ## Without the log -/

section
variable (fs : Fat32Fs)

/-- A number computed on 64 bits is noted and passed on. -/
theorem u64_apply {ε σ : Type} (n : ℕ) (s : σ × List Event) :
    (u64 n : Exec ε (σ × List Event) ℕ) s = .ok n (s.1, s.2 ++ [.number n]) := rfl

/-- The two numbers `cluster_to_sector` computes, noted. -/
theorem clusterToSector_apply {ε σ : Type} {fs : Fat32Fs} {c : ℕ} (hc : 2 ≤ c)
    (s : σ × List Event) :
    (clusterToSector fs c : Exec ε (σ × List Event) ℕ) s = .ok (dataSector fs c)
      (s.1, s.2 ++ [.number ((c - 2) * fs.bpb.sectorsPerCluster), .number (dataSector fs c)]) := by
  rw [clusterToSector, if_pos hc, bind_of_ok (u64_apply _ s), u64_apply, List.append_assoc]
  rfl

/-- Noting a number leaves a copy a copy. -/
theorem logs_u64 {ε σ α : Type} {n : ℕ} {g : ℕ → Exec ε (σ × List Event) α} {x : Exec ε σ α}
    (h : Logs (g n) x) : Logs (u64 n >>= g) x := by
  intro s
  rw [bind_of_ok (u64_apply n s)]
  exact h _

/-- The logged `read_sectors` is a copy of the driver's. -/
theorem logs_readSectors (lba count : ℕ) (buf : List UInt8) :
    Logs (readSectors lba count buf) (Ahci.readSectors lba count buf) := .noted _ (.quiet _)

/-- The logged `write_sectors` is a copy of the driver's. -/
theorem logs_writeSectors (lba count : ℕ) (buf : List UInt8) :
    Logs (writeSectors lba count buf) (Ahci.writeSectors lba count buf) := .noted _ (.quiet _)

/-- The logged `mount` is a copy of the driver's. -/
theorem logs_mount : Logs mount Fat32Fs.mount := by
  refine .bind (logs_readSectors _ _ _) fun sec => ?_
  cases parseBpb sec with
  | ok bpb => exact logs_u64 (logs_u64 (.pure _))
  | error e => exact .throw _

/-- The logged `cluster_to_sector` is a copy of the driver's. -/
theorem logs_clusterToSector {ε σ : Type} (c : ℕ) :
    Logs (clusterToSector fs c : Exec ε (σ × List Event) ℕ) (Fat.clusterToSector fs c) :=
  .ite (logs_u64 fun _ => rfl) (.throw _)

/-- The logged read loop is a copy of the driver's. -/
theorem logs_readChunks (rem sec off : ℕ) (buf : List UInt8) :
    Logs (readChunks rem sec off buf) (Fat.readChunks rem sec off buf) := by
  induction rem using Nat.strong_induction_on generalizing sec off buf with
  | _ rem ih =>
    rw [readChunks, Fat.readChunks]
    by_cases hrem : rem = 0
    · rw [if_pos hrem, if_pos hrem]
      exact .pure buf
    · rw [if_neg hrem, if_neg hrem]
      refine .ite (.bind (logs_readSectors _ _ _) fun part => ?_) (.throw _)
      exact logs_u64 (logs_u64 (ih _ (by omega) _ _ _))

/-- The logged write loop is a copy of the driver's. -/
theorem logs_writeChunks (rem sec off : ℕ) (buf : List UInt8) :
    Logs (writeChunks rem sec off buf) (Fat.writeChunks rem sec off buf) := by
  induction rem using Nat.strong_induction_on generalizing sec off with
  | _ rem ih =>
    rw [writeChunks, Fat.writeChunks]
    by_cases hrem : rem = 0
    · rw [if_pos hrem, if_pos hrem]
      exact .pure _
    · rw [if_neg hrem, if_neg hrem]
      refine .ite (.bind (logs_writeSectors _ _ _) fun _ => ?_) (.throw _)
      exact logs_u64 (logs_u64 (ih _ (by omega) _ _))

/-- The logged `read_cluster` is a copy of the driver's. -/
theorem logs_readCluster (c : ℕ) (buf : List UInt8) :
    Logs (readCluster fs c buf) (Fat.readCluster fs c buf) :=
  .bind (logs_clusterToSector fs c) fun _ => logs_readChunks _ _ _ _

/-- The logged `write_cluster` is a copy of the driver's. -/
theorem logs_writeCluster (c : ℕ) (buf : List UInt8) :
    Logs (writeCluster fs c buf) (Fat.writeCluster fs c buf) :=
  .bind (logs_clusterToSector fs c) fun _ => logs_writeChunks _ _ _ _

/-- The logged `next_cluster` is a copy of the driver's. -/
theorem logs_nextCluster (c : ℕ) : Logs (nextCluster fs c) (Fat.nextCluster fs c) :=
  logs_u64 (logs_u64 (.bind (logs_readSectors _ _ _) fun _ => .pure _))

/-- The logged write of one FAT copy is a copy of the driver's. -/
theorem logs_setFatEntryIn (c value f : ℕ) :
    Logs (setFatEntryIn fs (4 * c) value f) (Fat.setFatEntryIn fs c value f) :=
  logs_u64 (logs_u64 (logs_u64
    (.bind (logs_readSectors _ _ _) fun _ => logs_writeSectors _ _ _)))

/-- The logged `set_fat_entry` is a copy of the driver's. -/
theorem logs_setFatEntry (c value : ℕ) :
    Logs (setFatEntry fs c value) (Fat.setFatEntry fs c value) :=
  logs_u64 (.forM _ (logs_setFatEntryIn fs c value))

/-- The logged scan of the FAT is a copy of the driver's. -/
theorem logs_scanFat (n si : ℕ) : Logs (scanFat fs n si) (Fat.scanFat fs n si) := by
  induction n generalizing si with
  | zero => exact .pure none
  | succ n ih =>
    refine logs_u64 (.bind (logs_readSectors _ _ _) fun buf => logs_u64 ?_)
    cases scanSector buf si with
    | some c => exact .pure _
    | none => exact ih _

/-- The logged `alloc_cluster` is a copy of the driver's. -/
theorem logs_allocCluster (prev : Option ℕ) :
    Logs (allocCluster fs prev) (Fat.allocCluster fs prev) :=
  logs_allocLogged fs (logs_scanFat fs _ _) (logs_setFatEntry fs) (logs_writeCluster fs) prev

end

end Sectors

/-! ## What the log holds -/

/-- The number has 64 bits; the sectors of the request have 48-bit numbers, and the drive takes the
first sector and the count from the FIS as they are. -/
def Event.Sound : Event → Prop
  | .number n => n < 2 ^ 64
  | .request lba count fis =>
    0 < count ∧ lba + count ≤ 2 ^ 48 ∧ fisLba fis = lba ∧ fisCount fis = count

/-- The run is `x` with a log, and the log of a run from an empty one is sound on every drive. -/
structure Traced {ε α : Type} (y : Exec ε (Disk × List Event) α) (x : Exec ε Disk α) : Prop where
  logs : Logs y x
  sound : ∀ d, ∀ e ∈ (Outcome.state (y (d, []))).2, e.Sound

/-- A copy whose notes are all sound traces the program it copies. -/
theorem Traced.of_notes {ε α : Type} {y : Exec ε (Disk × List Event) α} {x : Exec ε Disk α}
    {Q : α → Disk → Prop} (hlogs : Logs y x)
    (h : ∀ s : Disk × List Event, (∀ e ∈ s.2, e.Sound) → Notes Event.Sound Q (y s)) :
    Traced y x :=
  ⟨hlogs, fun d => (h (d, []) fun _ he => absurd he List.not_mem_nil).state⟩

namespace Sectors

section
variable {fs : Fat32Fs} {c : ℕ} {s : Disk × List Event}

/-- A request of one to eight sectors below `2 ^ 48` reaches the drive as it was asked. -/
theorem request_sound {lba count : ℕ} (command : UInt8) (h0 : 0 < count) (h8 : count ≤ 8)
    (h : lba + count ≤ 2 ^ 48) :
    (Event.request lba count (commandFis command lba count)).Sound := by
  refine ⟨h0, h, ?_, ?_⟩
  · rw [fisLba_commandFis, Nat.mod_eq_of_lt (by omega)]
  · rw [fisCount_commandFis, Nat.mod_eq_of_lt (by omega)]

/-- A number below `2 ^ 64` is a sound note. -/
theorem notes_u64 {ε α : Type} {Q : α → Disk → Prop} {n : ℕ}
    {g : ℕ → Exec ε (Disk × List Event) α} (hn : n < 2 ^ 64) (hs : ∀ e ∈ s.2, e.Sound)
    (h : ∀ l, (∀ e ∈ l, Event.Sound e) → Notes Event.Sound Q (g n (s.1, l))) :
    Notes Event.Sound Q ((u64 n >>= g) s) := by
  rw [bind_of_ok (u64_apply n s)]
  refine h _ fun e he => ?_
  rcases List.mem_append.1 he with he | he
  · exact hs e he
  · rw [List.mem_singleton.1 he]
    exact hn

/-- A read of one to eight sectors below `2 ^ 48` makes a sound note. -/
theorem notes_readSectors {lba count : ℕ} (h0 : 0 < count) (h8 : count ≤ 8)
    (h : lba + count ≤ 2 ^ 48) (buf : List UInt8) (hs : ∀ e ∈ s.2, e.Sound) :
    Notes Event.Sound (fun _ _ => True) (readSectors lba count buf s) :=
  .noted (request_sound _ h0 h8 h) hs fun _ hl => .quiet hl (.trivial _)

/-- A write of one to eight sectors below `2 ^ 48` makes a sound note. -/
theorem notes_writeSectors {lba count : ℕ} (h0 : 0 < count) (h8 : count ≤ 8)
    (h : lba + count ≤ 2 ^ 48) (buf : List UInt8) (hs : ∀ e ∈ s.2, e.Sound) :
    Notes Event.Sound (fun _ _ => True) (writeSectors lba count buf s) :=
  .noted (request_sound _ h0 h8 h) hs fun _ hl => .quiet hl (.trivial _)

/-- `mount` reads sector 0 only. -/
theorem notes_mount (hs : ∀ e ∈ s.2, e.Sound) :
    Notes Event.Sound (fun _ _ => True) (mount s) := by
  refine (notes_readSectors (by decide) (by decide) (by decide) _ hs).bind fun sec s₁ h₁ _ => ?_
  cases parseBpb sec with
  | error e => exact .throw _ h₁
  | ok bpb =>
    have hle : bpb.numFats ≤ (Fat32Fs.mk bpb).bpb.numFats := le_rfl
    have hfats : bpb.numFats * bpb.fatSizeSectors < 2 ^ 40 := copies_lt hle
    have hres := bpb.reservedSectors_lt
    refine notes_u64 (by omega) h₁ fun l₂ h₂ => notes_u64 (by omega) h₂ fun l₃ h₃ => ?_
    exact .pure h₃ trivial

/-- `cluster_to_sector` stays within 64 bits for every 32-bit cluster from 2 on. -/
theorem notes_clusterToSector {ε α : Type} {Q : α → Disk → Prop}
    {g : ℕ → Exec ε (Disk × List Event) α} (hc : 2 ≤ c) (hlt : c < 2 ^ 32)
    (hs : ∀ e ∈ s.2, e.Sound)
    (h : ∀ l, (∀ e ∈ l, Event.Sound e) → Notes Event.Sound Q (g (dataSector fs c) (s.1, l))) :
    Notes Event.Sound Q ((clusterToSector fs c >>= g) s) := by
  have hlast : dataSector fs c + fs.bpb.sectorsPerCluster < 2 ^ 48 := dataSector_add_lt hlt
  have hoff : (c - 2) * fs.bpb.sectorsPerCluster ≤ dataSector fs c := Nat.le_add_left _ _
  rw [bind_of_ok (clusterToSector_apply hc s)]
  refine h _ fun e he => ?_
  simp only [List.mem_append, List.mem_cons, List.not_mem_nil, or_false] at he
  rcases he with he | rfl | rfl
  · exact hs e he
  · exact hoff.trans_lt (by omega)
  · exact (Nat.le_add_right _ _).trans_lt (hlast.trans (by decide))

/-- The read loop's requests are sound where its last sector and offset are in range. -/
theorem notes_readChunks (rem : ℕ) {sec off : ℕ} {buf : List UInt8} (hsec : sec + rem ≤ 2 ^ 48)
    (hoff : off + 512 * rem < 2 ^ 64) (hs : ∀ e ∈ s.2, e.Sound) :
    Notes Event.Sound (fun _ _ => True) (readChunks rem sec off buf s) := by
  induction rem using Nat.strong_induction_on generalizing sec off buf s with
  | _ rem ih =>
    rw [readChunks]
    refine .ite (fun _ => .pure hs trivial) fun hrem => .ite (fun _ => ?_) fun _ => .throw _ hs
    refine (notes_readSectors (by omega) (by omega) (by omega) _ hs).bind fun part s₁ h₁ _ => ?_
    refine notes_u64 (by omega) h₁ fun l₂ h₂ => notes_u64 (by omega) h₂ fun l₃ h₃ => ?_
    exact ih _ (by omega) (by omega) (by omega) h₃

/-- The write loop's requests are sound where its last sector and offset are in range. -/
theorem notes_writeChunks (rem : ℕ) {sec off : ℕ} {buf : List UInt8} (hsec : sec + rem ≤ 2 ^ 48)
    (hoff : off + 512 * rem < 2 ^ 64) (hs : ∀ e ∈ s.2, e.Sound) :
    Notes Event.Sound (fun _ _ => True) (writeChunks rem sec off buf s) := by
  induction rem using Nat.strong_induction_on generalizing sec off s with
  | _ rem ih =>
    rw [writeChunks]
    refine .ite (fun _ => .pure hs trivial) fun hrem => .ite (fun _ => ?_) fun _ => .throw _ hs
    refine (notes_writeSectors (by omega) (by omega) (by omega) _ hs).bind fun _ s₁ h₁ _ => ?_
    refine notes_u64 (by omega) h₁ fun l₂ h₂ => notes_u64 (by omega) h₂ fun l₃ h₃ => ?_
    exact ih _ (by omega) (by omega) (by omega) h₃

/-- The byte offset in the buffer stays small. -/
theorem clusterSizeBytes_lt (fs : Fat32Fs) : 512 * fs.bpb.sectorsPerCluster < 2 ^ 17 := by
  have := fs.bpb.sectorsPerCluster_lt
  omega

/-- Every request of `read_cluster` is sound. -/
theorem notes_readCluster (buf : List UInt8) (hc : 2 ≤ c) (hlt : c < 2 ^ 32)
    (hs : ∀ e ∈ s.2, e.Sound) :
    Notes Event.Sound (fun _ _ => True) (readCluster fs c buf s) := by
  have hsize := clusterSizeBytes_lt fs
  refine notes_clusterToSector hc hlt hs fun l hl => ?_
  exact notes_readChunks _ (dataSector_add_lt hlt).le (by omega) hl

/-- Every request of `write_cluster` is sound. -/
theorem notes_writeCluster (buf : List UInt8) (hc : 2 ≤ c) (hlt : c < 2 ^ 32)
    (hs : ∀ e ∈ s.2, e.Sound) :
    Notes Event.Sound (fun _ _ => True) (writeCluster fs c buf s) := by
  have hsize := clusterSizeBytes_lt fs
  refine notes_clusterToSector hc hlt hs fun l hl => ?_
  exact notes_writeChunks _ (dataSector_add_lt hlt).le (by omega) hl

/-- Every request of `next_cluster` is sound. -/
theorem notes_nextCluster (hlt : c < 2 ^ 32) (hs : ∀ e ∈ s.2, e.Sound) :
    Notes Event.Sound (fun _ _ => True) (nextCluster fs c s) := by
  have hsec : fatSector fs 0 c < 2 ^ 48 := fatSector_lt (Nat.zero_le _) hlt
  rw [fatSector, Nat.zero_mul, Nat.add_zero] at hsec
  refine notes_u64 (by omega) hs fun l₁ h₁ => notes_u64 (by omega) h₁ fun l₂ h₂ => ?_
  refine (notes_readSectors (by decide) (by decide) hsec _ h₂).bind fun buf s₃ h₃ _ => ?_
  exact .pure h₃ trivial

/-- Every request for one FAT copy is sound. -/
theorem notes_setFatEntryIn {f : ℕ} (hf : f < fs.bpb.numFats) (hlt : c < 2 ^ 32) (value : ℕ)
    (hs : ∀ e ∈ s.2, e.Sound) :
    Notes Event.Sound (fun _ _ => True) (setFatEntryIn fs (4 * c) value f s) := by
  have hsec : fatSector fs f c < 2 ^ 48 := fatSector_lt hf.le hlt
  rw [fatSector] at hsec
  refine notes_u64 (by omega) hs fun l₁ h₁ => notes_u64 (by omega) h₁ fun l₂ h₂ => ?_
  refine notes_u64 (by omega) h₂ fun l₃ h₃ => ?_
  refine (notes_readSectors (by decide) (by decide) hsec _ h₃).bind fun buf s₄ h₄ _ => ?_
  exact notes_writeSectors (by decide) (by decide) hsec _ h₄

/-- Every request of `set_fat_entry` is sound. -/
theorem notes_setFatEntry (hlt : c < 2 ^ 32) (value : ℕ) (hs : ∀ e ∈ s.2, e.Sound) :
    Notes Event.Sound (fun _ _ => True) (setFatEntry fs c value s) := by
  refine notes_u64 (by omega) hs fun l hl => ?_
  refine .forM (I := fun _ => True) _ (fun f hf s h₁ _ => ?_) hl trivial
  exact notes_setFatEntryIn (List.mem_range.1 hf) hlt value h₁

/-- Every request of the FAT scan is sound. -/
theorem notes_scanFat (n : ℕ) {si : ℕ} (hsi : si + n ≤ 2 ^ 32) (hs : ∀ e ∈ s.2, e.Sound) :
    Notes Event.Sound (fun _ _ => True) (scanFat fs n si s) := by
  have hstart : fs.fatStart < 2 ^ 16 := fs.bpb.reservedSectors_lt
  induction n generalizing si s with
  | zero => exact .pure hs trivial
  | succ n ih =>
    refine notes_u64 (by omega) hs fun l₁ h₁ => ?_
    refine (notes_readSectors (by decide) (by decide) (by omega) _ h₁).bind fun buf s₂ h₂ _ => ?_
    refine notes_u64 (by omega) h₂ fun l₃ h₃ => ?_
    cases scanSector buf si with
    | some c => exact .pure h₃ trivial
    | none => exact ih (by omega) h₃

/-- Every request of `alloc_cluster` is sound. -/
theorem notes_allocCluster {prev : Option ℕ} (hprev : ∀ p ∈ prev, p < 2 ^ 32)
    (hs : ∀ e ∈ s.2, e.Sound) :
    Notes Event.Sound (fun _ _ => True) (allocCluster fs prev s) := by
  have hsize := fs.bpb.fatSizeSectors_lt
  have hnotes : Notes Event.Sound (fun _ _ => True) (scanFat fs fs.bpb.fatSizeSectors 0 s) :=
    notes_scanFat _ (by omega) hs
  have hscan := hnotes.of_sat (logs_scanFat fs _ 0) scan_sat
  refine hscan.bind fun found s₁ h₁ hfound => ?_
  cases found with
  | none => exact .throw _ h₁
  | some c =>
    obtain ⟨hin, hlt, -⟩ := scanned_some hfound.2.symm
    refine (notes_setFatEntry hlt _ h₁).bind fun _ s₂ h₂ _ => ?_
    have hzero : ∀ s : Disk × List Event, (∀ e ∈ s.2, e.Sound) → Notes Event.Sound
        (fun _ _ => True) ((writeCluster fs c (List.replicate fs.clusterSizeBytes 0) >>=
          fun _ => pure c) s) := fun s hs =>
      (notes_writeCluster _ hin.1 hlt hs).bind fun _ s' hs' _ => .pure hs' trivial
    cases prev with
    | none => exact hzero s₂ h₂
    | some p => exact (notes_setFatEntry (hprev p rfl) _ h₂).bind fun _ s₃ h₃ _ => hzero s₃ h₃

end

end Sectors

/-- Every 64-bit number that the low-level helpers compute is exact, every sector number is below
`2 ^ 48`, and every request reaches the drive with its sector number and count: for every geometry
that `parse_bpb` accepts, every cluster, every sector of it and every copy of the FAT. -/
theorem sectors_intact (fs : Fat32Fs) {c : ℕ} (hc : 2 ≤ c) (hlt : c < 2 ^ 32) :
    (∀ i < fs.bpb.sectorsPerCluster, dataSector fs c + i < 2 ^ 48) ∧
    (∀ f < fs.bpb.numFats, fatSector fs f c < 2 ^ 48) ∧
    Traced Sectors.mount Fat32Fs.mount ∧
    (∀ buf, Traced (Sectors.readCluster fs c buf) (readCluster fs c buf)) ∧
    (∀ buf, Traced (Sectors.writeCluster fs c buf) (writeCluster fs c buf)) ∧
    Traced (Sectors.nextCluster fs c) (nextCluster fs c) ∧
    (∀ value, Traced (Sectors.setFatEntry fs c value) (setFatEntry fs c value)) ∧
    Traced (Sectors.allocCluster fs none) (allocCluster fs none) ∧
    Traced (Sectors.allocCluster fs (some c)) (allocCluster fs (some c)) := by
  have hprev : ∀ p ∈ some c, p < 2 ^ 32 := fun p hp => Option.some.inj hp ▸ hlt
  refine ⟨fun i hi => ?_, fun f hf => fatSector_lt hf.le hlt, ?_, fun buf => ?_, fun buf => ?_, ?_,
    fun value => ?_, ?_, ?_⟩
  · exact (Nat.add_lt_add_left hi _).trans (dataSector_add_lt hlt)
  · exact .of_notes Sectors.logs_mount fun _ => Sectors.notes_mount
  · exact .of_notes (Sectors.logs_readCluster fs c buf) fun _ =>
      Sectors.notes_readCluster buf hc hlt
  · exact .of_notes (Sectors.logs_writeCluster fs c buf) fun _ =>
      Sectors.notes_writeCluster buf hc hlt
  · exact .of_notes (Sectors.logs_nextCluster fs c) fun _ => Sectors.notes_nextCluster hlt
  · exact .of_notes (Sectors.logs_setFatEntry fs c value) fun _ =>
      Sectors.notes_setFatEntry hlt value
  · exact .of_notes (Sectors.logs_allocCluster fs none) fun _ =>
      Sectors.notes_allocCluster fun p hp => by cases hp
  · exact .of_notes (Sectors.logs_allocCluster fs (some c)) fun _ =>
      Sectors.notes_allocCluster hprev

/-- The last cluster before the marks, on a volume that a boot sector declares. -/
theorem sectors_intact_last_cluster : parseBpb (bootSector 2) = .ok (bootBpb 2) ∧
    Traced (Sectors.nextCluster ⟨bootBpb 2⟩ 0x0FFFFFF7) (nextCluster ⟨bootBpb 2⟩ 0x0FFFFFF7) :=
  ⟨parseBpb_bootSector 2,
    (sectors_intact ⟨bootBpb 2⟩ (c := 0x0FFFFFF7) (by decide) (by decide)).2.2.2.2.2.1⟩

/-! ## The requests for a cluster -/

/-- The requests of a log: the first sector of each and the count. -/
def requests (l : List Event) : List (ℕ × ℕ) :=
  l.filterMap fun
    | .number _ => none
    | .request lba count _ => some (lba, count)

/-- The requests go through the `n` sectors from `sec` on, each sector once and in order, at most
eight at a time. -/
structure Chunked (l : List (ℕ × ℕ)) (sec n : ℕ) : Prop where
  sectors : l.flatMap (fun r => List.range' r.1 r.2) = List.range' sec n
  count : ∀ r ∈ l, 0 < r.2 ∧ r.2 ≤ 8

/-- No requests go through no sectors. -/
theorem Chunked.nil (sec : ℕ) : Chunked [] sec 0 := ⟨rfl, fun _ hr => absurd hr List.not_mem_nil⟩

/-- A request of one to eight sectors in front of requests that go on behind it. -/
theorem Chunked.cons {l : List (ℕ × ℕ)} {sec cnt n : ℕ} (h0 : 0 < cnt) (h8 : cnt ≤ 8)
    (h : Chunked l (sec + cnt) n) : Chunked ((sec, cnt) :: l) sec (cnt + n) := by
  refine ⟨?_, fun r hr => ?_⟩
  · rw [List.flatMap_cons, h.sectors, List.range'_append_1]
  · rcases List.mem_cons.1 hr with rfl | hr
    · exact ⟨h0, h8⟩
    · exact h.count r hr

namespace Sectors

/-- What a turn of a chunk loop puts into the log. -/
def chunk (command : UInt8) (sec off cnt : ℕ) : List Event :=
  [.request sec cnt (commandFis command sec cnt), .number (sec + cnt), .number (off + 512 * cnt)]

/-- What a chunk loop puts into the log. -/
def chunks (command : UInt8) (rem sec off : ℕ) : List Event :=
  if rem = 0 then []
  else
    let cnt := min rem 8
    chunk command sec off cnt ++ chunks command (rem - cnt) (sec + cnt) (off + 512 * cnt)
termination_by rem
decreasing_by omega

/-- The loop's requests cover its sectors, in order, one to eight at a time. -/
theorem chunked_chunks (command : UInt8) (rem sec off : ℕ) :
    Chunked (requests (chunks command rem sec off)) sec rem := by
  induction rem using Nat.strong_induction_on generalizing sec off with
  | _ rem ih =>
    rw [chunks]
    by_cases hrem : rem = 0
    · rw [if_pos hrem, hrem]
      exact .nil sec
    · have hle : min rem 8 ≤ rem := Nat.min_le_left _ _
      have hrest := ih (rem - min rem 8) (by omega) (sec + min rem 8) (off + 512 * min rem 8)
      have hall := hrest.cons (by omega) (Nat.min_le_right _ _)
      rw [Nat.add_sub_cancel' hle] at hall
      rw [if_neg hrem]
      exact hall

section
variable {fs : Fat32Fs} {d : Disk} {c rem sec off : ℕ} {l : List Event} {buf : List UInt8}

/-- A logged read that returns leaves its request in the log. -/
theorem readSectors_of_ok {lba count : ℕ} {out : List UInt8}
    (h : Ahci.readSectors lba count buf d = .ok out d) : readSectors lba count buf (d, l) =
      .ok out (d, l ++ [.request lba count (commandFis ataCmdReadDmaExt lba count)]) :=
  quiet_of_ok h

/-- A logged write that returns leaves its request in the log. -/
theorem writeSectors_of_ok {lba count : ℕ} {d' : Disk}
    (h : Ahci.writeSectors lba count buf d = .ok ⟨⟩ d') : writeSectors lba count buf (d, l) =
      .ok ⟨⟩ (d', l ++ [.request lba count (commandFis ataCmdWriteDmaExt lba count)]) :=
  quiet_of_ok h

/-- One turn of the read loop. -/
theorem readChunks_turn (hrem : rem ≠ 0) (hbuf : off + 512 * rem ≤ buf.length)
    (hd : sec + rem ≤ d.capacity) :
    ∃ buf', buf'.length = buf.length ∧ readChunks rem sec off buf (d, l) =
      readChunks (rem - min rem 8) (sec + min rem 8) (off + 512 * min rem 8) buf'
        (d, l ++ chunk ataCmdReadDmaExt sec off (min rem 8)) := by
  have hdrop : (buf.drop off).length = buf.length - off := List.length_drop
  have hrun : Ahci.readSectors sec (min rem 8) (buf.drop off) d = .ok
      (splice (buf.drop off) 0 (read d.bytes (512 * sec) (512 * min rem 8))) d :=
    readSectors_run (by omega) (by omega) (by omega) (by omega)
  refine ⟨splice buf off (read d.bytes (512 * sec) (512 * min rem 8)), ?_, ?_⟩
  · refine length_splice ?_
    rw [length_read]
    omega
  · rw [readChunks, if_neg hrem, if_pos (by omega), bind_of_ok (readSectors_of_ok hrun),
      bind_of_ok (u64_apply _ _), bind_of_ok (u64_apply _ _), take_append_splice_drop, chunk,
      List.append_assoc, List.append_assoc]
    rfl

/-- One turn of the write loop. -/
theorem writeChunks_turn (hrem : rem ≠ 0) (hbuf : off + 512 * rem ≤ buf.length)
    (hd : sec + rem ≤ d.capacity) :
    ∃ d', d'.capacity = d.capacity ∧ writeChunks rem sec off buf (d, l) =
      writeChunks (rem - min rem 8) (sec + min rem 8) (off + 512 * min rem 8) buf
        (d', l ++ chunk ataCmdWriteDmaExt sec off (min rem 8)) := by
  have hdrop : (buf.drop off).length = buf.length - off := List.length_drop
  have hrun : Ahci.writeSectors sec (min rem 8) (buf.drop off) d = .ok ⟨⟩ (d.setBytes
      (ByteMem.write d.bytes (512 * sec) (slice (buf.drop off) 0 (512 * min rem 8)))) :=
    writeSectors_run (by omega) (by omega) (by omega) (by omega)
  refine ⟨d.setBytes (ByteMem.write d.bytes (512 * sec)
    (slice (buf.drop off) 0 (512 * min rem 8))), rfl, ?_⟩
  rw [writeChunks, if_neg hrem, if_pos (by omega), bind_of_ok (writeSectors_of_ok hrun),
    bind_of_ok (u64_apply _ _), bind_of_ok (u64_apply _ _), chunk, List.append_assoc,
    List.append_assoc]
  rfl

/-- What the read loop leaves in the log on a drive that has its sectors. -/
theorem log_readChunks (rem : ℕ) {sec off : ℕ} {l : List Event} {buf : List UInt8}
    (hbuf : off + 512 * rem ≤ buf.length) (hd : sec + rem ≤ d.capacity) :
    (Outcome.state (readChunks rem sec off buf (d, l))).2 =
      l ++ chunks ataCmdReadDmaExt rem sec off := by
  induction rem using Nat.strong_induction_on generalizing sec off buf l with
  | _ rem ih =>
    by_cases hrem : rem = 0
    · rw [readChunks, chunks, if_pos hrem, if_pos hrem, List.append_nil]
      rfl
    · obtain ⟨buf', hlen, hturn⟩ := readChunks_turn (l := l) hrem hbuf hd
      rw [hturn, ih _ (by omega) (by omega) (by omega), List.append_assoc]
      conv => rhs; rw [chunks, if_neg hrem]

/-- What the write loop leaves in the log on a drive that has its sectors. -/
theorem log_writeChunks (rem : ℕ) {sec off : ℕ} {l : List Event} {d : Disk}
    (hbuf : off + 512 * rem ≤ buf.length) (hd : sec + rem ≤ d.capacity) :
    (Outcome.state (writeChunks rem sec off buf (d, l))).2 =
      l ++ chunks ataCmdWriteDmaExt rem sec off := by
  induction rem using Nat.strong_induction_on generalizing sec off d l with
  | _ rem ih =>
    by_cases hrem : rem = 0
    · rw [writeChunks, chunks, if_pos hrem, if_pos hrem, List.append_nil]
      rfl
    · obtain ⟨d', hcap, hturn⟩ := writeChunks_turn (l := l) hrem hbuf hd
      rw [hturn, ih _ (by omega) (by omega) (by omega), List.append_assoc]
      conv => rhs; rw [chunks, if_neg hrem]

/-- The chunk loop of `read_cluster` neither leaves out nor repeats a sector. -/
theorem readCluster_chunked (hc : 2 ≤ c)
    (hd : dataSector fs c + fs.bpb.sectorsPerCluster ≤ d.capacity)
    (hbuf : fs.clusterSizeBytes ≤ buf.length) :
    Chunked (requests (Outcome.state (readCluster fs c buf (d, []))).2) (dataSector fs c)
      fs.bpb.sectorsPerCluster := by
  have hlen : 0 + 512 * fs.bpb.sectorsPerCluster ≤ buf.length := by rwa [Nat.zero_add]
  rw [readCluster, bind_of_ok (clusterToSector_apply hc _), log_readChunks _ hlen hd]
  exact chunked_chunks _ _ _ _

/-- The chunk loop of `write_cluster` neither leaves out nor repeats a sector. -/
theorem writeCluster_chunked (hc : 2 ≤ c)
    (hd : dataSector fs c + fs.bpb.sectorsPerCluster ≤ d.capacity)
    (hbuf : fs.clusterSizeBytes ≤ buf.length) :
    Chunked (requests (Outcome.state (writeCluster fs c buf (d, []))).2) (dataSector fs c)
      fs.bpb.sectorsPerCluster := by
  have hlen : 0 + 512 * fs.bpb.sectorsPerCluster ≤ buf.length := by rwa [Nat.zero_add]
  rw [writeCluster, bind_of_ok (clusterToSector_apply hc _), log_writeChunks _ hlen hd]
  exact chunked_chunks _ _ _ _

end

end Sectors

end Fat

end RossOs
