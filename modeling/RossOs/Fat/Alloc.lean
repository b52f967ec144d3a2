import RossOs.Fat.Dir
import RossOs.Lib.Log

/-!
# Allocation on any drive

`alloc_cluster` for every geometry a boot sector can declare and on drives of every size. The search
for a free entry, the mark, the link and the zeros each can meet a sector that the drive does not
have; `allocCluster_sat` says what is in the FAT at each of these points. From it follow that no
cluster is allocated twice, for the geometries where the mark is kept, and that a call that fails
leaves the FAT alone, where it fails in time.
-/

namespace RossOs

open ByteMem Ahci Exec

namespace Fat

variable (fs : Fat32Fs)

/-! ## With a log -/

/-- `alloc_cluster` with a log of any kind, from what its parts put there. -/
def allocLogged {ω : Type} (scan : Exec String (Disk × List ω) (Option ℕ))
    (setEntry : (c value : ℕ) → Exec String (Disk × List ω) PUnit)
    (zero : (c : ℕ) → List UInt8 → Exec String (Disk × List ω) PUnit) (prev : Option ℕ) :
    Exec String (Disk × List ω) ℕ := do
  match ← scan with
  | none => Exec.fail "FAT32: disk full"
  | some c =>
    setEntry c 0x0FFFFFFF
    match prev with
    | some p => setEntry p c
    | none => pure ⟨⟩
    zero c (List.replicate fs.clusterSizeBytes 0)
    pure c

/-- Without the log it is `alloc_cluster`. -/
theorem logs_allocLogged {ω : Type} {scan : Exec String (Disk × List ω) (Option ℕ)}
    {setEntry : (c value : ℕ) → Exec String (Disk × List ω) PUnit}
    {zero : (c : ℕ) → List UInt8 → Exec String (Disk × List ω) PUnit}
    (hscan : Exec.Logs scan (scanFat fs fs.bpb.fatSizeSectors 0))
    (hentry : ∀ c value, Exec.Logs (setEntry c value) (setFatEntry fs c value))
    (hwrite : ∀ c buf, Exec.Logs (zero c buf) (writeCluster fs c buf)) (prev : Option ℕ) :
    Exec.Logs (allocLogged fs scan setEntry zero prev) (allocCluster fs prev) := by
  refine .bind hscan fun found => ?_
  cases found with
  | none => exact .throw _
  | some c =>
    refine .bind (hentry c _) fun _ => ?_
    have hzero := Exec.Logs.bind (hwrite c (List.replicate fs.clusterSizeBytes 0)) fun _ => .pure c
    cases prev with
    | none => exact hzero
    | some p => exact .bind (hentry p c) fun _ => hzero

/-! ## Sectors -/

/-- The sector of entry `c` in copy `f` of the FAT. -/
def fatSector (f c : ℕ) : ℕ := fs.fatStart + f * fs.bpb.fatSizeSectors + 4 * c / 512

/-- The first sector of a cluster. -/
def dataSector (c : ℕ) : ℕ := fs.dataStart + (c - 2) * fs.bpb.sectorsPerCluster

/-- A drive of this capacity has every sector that an allocation of `c` after `prev` writes. -/
structure OnDrive (capacity : ℕ) (prev : Option ℕ) (c : ℕ) : Prop where
  mark : ∀ f < fs.bpb.numFats, fatSector fs f c < capacity
  link : ∀ p ∈ prev, ∀ f < fs.bpb.numFats, fatSector fs f p < capacity
  data : dataSector fs c + fs.bpb.sectorsPerCluster ≤ capacity

section
variable {fs} {c f : ℕ}

/-- The FAT copies start within 40 bits. -/
theorem copies_lt (hf : f ≤ fs.bpb.numFats) : f * fs.bpb.fatSizeSectors < 2 ^ 40 :=
  calc f * fs.bpb.fatSizeSectors ≤ f * 2 ^ 32 := Nat.mul_le_mul_left f fs.bpb.fatSizeSectors_lt.le
    _ < 2 ^ 8 * 2 ^ 32 := Nat.mul_lt_mul_of_pos_right (hf.trans_lt fs.bpb.numFats_lt) (by decide)

/-- Sector numbers stay below what a request can carry. -/
theorem fatSector_lt (hf : f ≤ fs.bpb.numFats) (hc : c < 2 ^ 32) : fatSector fs f c < 2 ^ 48 := by
  have h1 := copies_lt hf
  have h2 := fs.bpb.reservedSectors_lt
  rw [fatSector, Fat32Fs.fatStart]
  omega

/-- The sectors of a cluster have 48-bit numbers. -/
theorem dataSector_add_lt (hc : c < 2 ^ 32) :
    dataSector fs c + fs.bpb.sectorsPerCluster < 2 ^ 48 := by
  have h1 : fs.bpb.numFats * fs.bpb.fatSizeSectors < 2 ^ 40 := copies_lt le_rfl
  have h2 := fs.bpb.reservedSectors_lt
  have h3 := fs.bpb.sectorsPerCluster_lt
  have h4 : (c - 2) * fs.bpb.sectorsPerCluster ≤ 2 ^ 32 * 2 ^ 8 :=
    Nat.mul_le_mul (by omega) h3.le
  rw [dataSector, Fat32Fs.dataStart, Fat32Fs.fatStart]
  omega

/-- On the largest drive nothing is missing. -/
theorem onDrive_of_large {prev : Option ℕ} (hc : c < 2 ^ 32) (hprev : ∀ p ∈ prev, p < 2 ^ 32) :
    OnDrive fs (2 ^ 48) prev c where
  mark _ hf := fatSector_lt hf.le hc
  link p hp _ hf := fatSector_lt hf.le (hprev p hp)
  data := (dataSector_add_lt hc).le

end

/-! ## The search -/

/-- Sector `si` of the first copy of the FAT. -/
def fatBuf (d : Disk) (si : ℕ) : List UInt8 := read d.bytes (512 * (fs.fatStart + si)) 512

/-- The sectors of the first copy of the FAT that the drive has. -/
def sectorsOn (d : Disk) : ℕ := min fs.bpb.fatSizeSectors (d.capacity - fs.fatStart)

/-- The cluster whose entry the search comes to first, among the sectors that the drive has. -/
def scanned (d : Disk) : Option ℕ :=
  (List.range (sectorsOn fs d)).findSome? fun si => scanSector (fatBuf fs d si) si

section
variable {fs} {d : Disk} {c : ℕ}

/-- One sector that the drive does not have. -/
theorem readSector_beyond {lba : ℕ} (hlba : lba < 2 ^ 48) (hd : d.capacity ≤ lba) :
    readSectors lba 1 (List.replicate 512 0) d = .error (.err "AHCI task file error") d :=
  readSectors_beyond (by decide) (by decide) (List.length_replicate ..).ge hlba
    (Nat.lt_succ_of_le hd)

/-- The scan of the FAT finds the first free entry in the sectors that the drive has. -/
theorem scanFat_sat (n : ℕ) {si : ℕ} (hn : si + n ≤ 2 ^ 32) :
    Sat (scanFat fs n si d)
      (fun r d' => d' = d ∧ r = (List.range' si (min n (d.capacity - fs.fatStart - si))).findSome?
        fun si => scanSector (fatBuf fs d si) si)
      (fun e d' => d' = d ∧ e.IsErr ∧
        ((List.range' si (min n (d.capacity - fs.fatStart - si))).findSome?
          fun si => scanSector (fatBuf fs d si) si) = none) := by
  have hstart := fs.bpb.reservedSectors_lt
  induction n generalizing si with
  | zero =>
    rw [Nat.zero_min]
    exact sat_ok.2 ⟨rfl, rfl⟩
  | succ n ih =>
    by_cases hsi : fs.fatStart + si + 1 ≤ d.capacity
    · have hmin : min (n + 1) (d.capacity - fs.fatStart - si) =
          min n (d.capacity - fs.fatStart - (si + 1)) + 1 := by omega
      rw [hmin, List.range'_succ, List.findSome?_cons, scanFat,
        Exec.bind_of_ok (readSector_run hsi)]
      rw [show read d.bytes (512 * (fs.fatStart + si)) 512 = fatBuf fs d si from rfl]
      cases scanSector (fatBuf fs d si) si with
      | some c => exact sat_ok.2 ⟨rfl, rfl⟩
      | none => exact ih (by omega)
    · have hmin : min (n + 1) (d.capacity - fs.fatStart - si) = 0 := by omega
      rw [hmin, scanFat, Exec.bind_of_error (readSector_beyond (by rw [Fat32Fs.fatStart]; omega)
        (by omega))]
      exact sat_error.2 ⟨rfl, ⟨_, rfl⟩, rfl⟩

/-- The search of `alloc_cluster` changes nothing, and finds the cluster that `scanned` says. -/
theorem scan_sat :
    Sat (scanFat fs fs.bpb.fatSizeSectors 0 d) (fun r d' => d' = d ∧ r = scanned fs d)
      (fun e d' => d' = d ∧ e.IsErr ∧ scanned fs d = none) := by
  have h : Sat (scanFat fs fs.bpb.fatSizeSectors 0 d) _ _ := scanFat_sat fs.bpb.fatSizeSectors
    (by have := fs.bpb.fatSizeSectors_lt; omega)
  rw [scanned, sectorsOn, List.range_eq_range']
  rwa [Nat.sub_zero] at h

/-- The cluster that is found has its entry in the FAT and on the drive, and the entry is zero
unless its number was cut to 32 bits. -/
theorem scanned_some (h : scanned fs d = some c) :
    fs.InRange c ∧ c < 2 ^ 32 ∧ fatSector fs 0 c < d.capacity ∧
      (fs.bpb.fatSizeSectors ≤ 2 ^ 25 → next fs d c = 0) := by
  obtain ⟨si, hsi, hfound⟩ := List.exists_of_findSome?_eq_some h
  have hsi := List.mem_range.1 hsi
  rw [sectorsOn] at hsi
  have hscan := hfound
  rw [scanSector] at hscan
  obtain ⟨i, hi, hci⟩ := List.exists_of_findSome?_eq_some hscan
  have hi := List.mem_range.1 hi
  simp only [Option.ite_none_left_eq_some, Option.ite_none_right_eq_some, Option.some.injEq] at hci
  obtain ⟨h2, -, rfl⟩ := hci
  refine ⟨⟨by omega, ?_⟩, by omega, ?_, fun hle => ?_⟩
  · rw [Fat32Fs.entries_eq]
    omega
  · rw [fatSector]
    omega
  · rw [fatBuf, scanSector_run (by omega)] at hfound
    have hfree := List.find?_some hfound
    exact (of_decide_eq_true hfree).2

/-- The search comes to the first free entry. -/
theorem scanned_of_first (hc : fs.InRange c) (hlt : c < 2 ^ 32) (hd : fatSector fs 0 c < d.capacity)
    (hfree : next fs d c = 0) (hfirst : ∀ x, 2 ≤ x → x < c → next fs d x ≠ 0) :
    scanned fs d = some c := by
  have hin := hc.2
  have h2 := hc.1
  rw [Fat32Fs.entries_eq] at hin
  rw [fatSector] at hd
  -- the sectors before the one of the entry, this one, and those after it
  have hsplit : List.range (sectorsOn fs d) = List.range (c / 128) ++ c / 128 ::
      List.range' (c / 128 + 1) (sectorsOn fs d - (c / 128 + 1)) := by
    have hle : c / 128 + 1 ≤ sectorsOn fs d := by
      rw [sectorsOn]
      omega
    have happend := List.range'_append_1 (s := 0) (m := c / 128)
      (n := sectorsOn fs d - (c / 128 + 1) + 1)
    rw [Nat.zero_add, List.range'_succ, ← List.range_eq_range', ← List.range_eq_range'] at happend
    rw [happend]
    congr 1
    omega
  have hbefore : ((List.range (c / 128)).findSome? fun si => scanSector (fatBuf fs d si) si) =
      none := by
    rw [List.findSome?_eq_none_iff]
    intro si hsi
    have hsi := List.mem_range.1 hsi
    rw [fatBuf, scanSector_run (by omega), List.find?_eq_none]
    intro x hx
    obtain ⟨i, hi, rfl⟩ := List.mem_map.1 hx
    have hi := List.mem_range.1 hi
    have := hfirst (128 * si + i)
    simp only [decide_eq_true_eq]
    omega
  have hhere : scanSector (fatBuf fs d (c / 128)) (c / 128) = some c := by
    rw [fatBuf, scanSector_run (by omega), ← List.range'_eq_map_range, List.find?_range'_eq_some]
    refine ⟨by simp [h2, hfree], ?_, fun j hj hjc => ?_⟩
    · rw [List.mem_range'_1]
      omega
    · have := hfirst j
      simp only [Bool.not_eq_eq_eq_not, Bool.not_true, decide_eq_false_iff_not]
      omega
  rw [scanned, hsplit, List.findSome?_append, hbefore, Option.none_or, List.findSome?_cons, hhere]

end

/-! ## The mark, the link and the zeros -/

section
variable {fs} {d d' : Disk} {c v x n : ℕ}

/-- Writing some copies leaves the drive's size. -/
theorem capacity_foldl_setFatCopy (n : ℕ) :
    ((List.range n).foldl (setFatCopy fs c v) d).capacity = d.capacity := by
  induction n with
  | zero => rfl
  | succ n ih => rwa [List.range_succ, List.foldl_append]

/-- In the first copy, for every entry that is stored, inside the FAT or not. -/
theorem next_setFatCopy {f : ℕ} (hx : x < fs.entries) :
    next fs (setFatCopy fs c v d f) x = if f = 0 ∧ x = c then v % 2 ^ 28 else next fs d x := by
  by_cases hc : c < fs.entries
  · rw [next, fat_setFatCopy hc hx]
    split
    case isTrue h =>
      rw [if_pos ⟨h.1.symm, h.2⟩]
      omega
    case isFalse h => rw [if_neg fun h' => h ⟨h'.1.symm, h'.2⟩, next]
  · have hne : x ≠ c := by omega
    rw [if_neg fun h => hne h.2, next, next, fat, setFatCopy, Disk.setBytes_bytes,
      read_write_of_disjoint, fat]
    rw [length_toLe]
    by_cases hf : f = 0
    · subst hf
      rw [fatAddr, fatAddr]
      omega
    · exact .inl (fatAddr_lt_of_lt (Nat.pos_of_ne_zero hf) hx)

/-- The links after the write of some copies. -/
theorem next_foldl_setFatCopy (n : ℕ) (hx : x < fs.entries) :
    next fs ((List.range n).foldl (setFatCopy fs c v) d) x =
      if 0 < n ∧ x = c then v % 2 ^ 28 else next fs d x := by
  induction n with
  | zero => rw [if_neg fun h => Nat.lt_irrefl _ h.1, List.range_zero, List.foldl_nil]
  | succ n ih =>
    rw [List.range_succ, List.foldl_append, List.foldl_cons, List.foldl_nil, next_setFatCopy hx, ih]
    by_cases hxc : x = c
    · by_cases hn : n = 0
      · rw [if_pos ⟨hn, hxc⟩, if_pos ⟨Nat.succ_pos n, hxc⟩]
      · rw [if_neg fun h => hn h.1, if_pos ⟨Nat.pos_of_ne_zero hn, hxc⟩,
          if_pos ⟨Nat.succ_pos n, hxc⟩]
    · rw [if_neg fun h => hxc h.2, if_neg fun h => hxc h.2, if_neg fun h => hxc h.2]

/-- `set_fat_entry` stores the link in one copy after the other, up to the first whose sector the
drive does not have. -/
theorem setFatEntry_sat (hc : c < 2 ^ 32) :
    Sat (setFatEntry fs c v d)
      (fun _ d' => (∀ f < fs.bpb.numFats, fatSector fs f c < d.capacity) ∧ d' = setFat fs d c v)
      (fun e d' => e.IsErr ∧ ∃ n < fs.bpb.numFats, d.capacity ≤ fatSector fs n c ∧
        d' = (List.range n).foldl (setFatCopy fs c v) d) := by
  refine Sat.forM_range (I := fun n d' => (∀ f < n, fatSector fs f c < d.capacity) ∧
    d' = (List.range n).foldl (setFatCopy fs c v) d) (fun f hf s hs => ?_)
    ⟨fun f hf => absurd hf (Nat.not_lt_zero f), rfl⟩
  obtain ⟨hbefore, rfl⟩ := hs
  have hcap : ((List.range f).foldl (setFatCopy fs c v) d).capacity = d.capacity :=
    capacity_foldl_setFatCopy f
  by_cases hd : fatSector fs f c < d.capacity
  · have hon : fs.fatStart + f * fs.bpb.fatSizeSectors + 4 * c / 512 + 1 ≤
        ((List.range f).foldl (setFatCopy fs c v) d).capacity := by
      rw [hcap]
      exact hd
    rw [setFatEntryIn_of_le hon, sat_ok]
    refine ⟨fun g hg => ?_, ?_⟩
    · rcases Nat.lt_succ_iff_lt_or_eq.1 hg with hg | rfl
      · exact hbefore g hg
      · exact hd
    · rw [List.range_succ, List.foldl_append, List.foldl_cons, List.foldl_nil]
  · have hread : readSectors (fs.fatStart + f * fs.bpb.fatSizeSectors + 4 * c / 512) 1
        (List.replicate 512 0) ((List.range f).foldl (setFatCopy fs c v) d) = _ :=
      readSector_beyond (fatSector_lt hf.le hc) (hcap.trans_le (Nat.le_of_not_lt hd))
    rw [setFatEntryIn, Exec.bind_of_error hread, sat_error]
    exact ⟨⟨_, rfl⟩, f, hf, Nat.le_of_not_lt hd, rfl⟩

/-- The chunks of a write to sectors that are not all on the drive: the chunks before the end of the
drive are written. -/
theorem writeChunks_beyond (rem : ℕ) {sec off : ℕ} {buf : List UInt8} {d : Disk}
    (hbuf : off + 512 * rem ≤ buf.length) (hsec : sec + rem ≤ 2 ^ 48) (hrem : 0 < rem)
    (hd : d.capacity < sec + rem) :
    ∃ m d', writeChunks rem sec off buf d = .error (.err m) d' ∧
      ∀ a < 512 * sec, d'.bytes a = d.bytes a := by
  induction rem using Nat.strong_induction_on generalizing sec off d with
  | _ rem ih =>
    have hcnt : 0 < min rem 8 ∧ min rem 8 ≤ 8 ∧ min rem 8 ≤ rem := by omega
    have hdrop : (buf.drop off).length = buf.length - off := List.length_drop
    rw [writeChunks, if_neg (by omega), if_pos (by omega)]
    generalize min rem 8 = cnt at hcnt
    by_cases hone : sec + cnt ≤ d.capacity
    · obtain ⟨m, d', hrun, hkeep⟩ := @ih (rem - cnt) (by omega) (sec + cnt)
        (off + 512 * cnt) (d.setBytes (ByteMem.write d.bytes (512 * sec)
          (slice (buf.drop off) 0 (512 * cnt)))) (by omega) (by omega) (by omega)
        (by rw [Disk.setBytes_capacity]; omega)
      refine ⟨m, d', ?_, fun a ha => ?_⟩
      · rw [Exec.bind_of_ok (writeSectors_run hcnt.1 hcnt.2.1 (by omega) hone), hrun]
      · rw [hkeep a (by omega), Disk.setBytes_bytes, write_apply_of_outside (.inl ha)]
    · refine ⟨"AHCI task file error", d, ?_, fun a _ => rfl⟩
      rw [Exec.bind_of_error (writeSectors_beyond hcnt.1 hcnt.2.1 (by omega) (by omega) (by omega))]

/-- A FAT entry lies before the data area. -/
theorem fatAddr_lt_dataSector {f : ℕ} (hf : f < fs.bpb.numFats) (hx : x < fs.entries) :
    fatAddr fs f x + 4 ≤ 512 * dataSector fs c :=
  fatAddr_le_dataAddr hf hx

/-- `write_cluster` stores the buffer, or the drive ends first and the tables stay as they were.
-/
theorem writeCluster_sat {buf : List UInt8} (hc : 2 ≤ c) (hlt : c < 2 ^ 32)
    (hbuf : buf.length = fs.clusterSizeBytes) :
    Sat (writeCluster fs c buf d)
      (fun _ d' => dataSector fs c + fs.bpb.sectorsPerCluster ≤ d.capacity ∧
        d' = setCluster fs d c buf)
      (fun e d' => e.IsErr ∧
        d.capacity < dataSector fs c + fs.bpb.sectorsPerCluster ∧
        ∀ f < fs.bpb.numFats, ∀ x < fs.entries, fat fs d' f x = fat fs d f x) := by
  by_cases hd : dataSector fs c + fs.bpb.sectorsPerCluster ≤ d.capacity
  · rw [writeCluster_of_le hc hd hbuf, sat_ok]
    exact ⟨hd, rfl⟩
  · have hd := Nat.lt_of_not_le hd
    have hpos := Nat.pos_of_isPowerOfTwo fs.bpb.sectorsPerCluster_pow
    have hlen : 0 + 512 * fs.bpb.sectorsPerCluster ≤ buf.length := by
      rw [hbuf, Fat32Fs.clusterSizeBytes]
      omega
    obtain ⟨m, d', hrun, hkeep⟩ :=
      writeChunks_beyond fs.bpb.sectorsPerCluster hlen (dataSector_add_lt hlt).le hpos hd
    rw [writeCluster, Exec.bind_of_ok (clusterToSector_run hc),
      show fs.dataStart + (c - 2) * fs.bpb.sectorsPerCluster = dataSector fs c from rfl, hrun,
      sat_error]
    refine ⟨⟨m, rfl⟩, hd, fun f hf x hx => ?_⟩
    have haddr := fatAddr_lt_dataSector (c := c) hf hx
    rw [fat, fat]
    exact congrArg leNat (read_congr fun i hi => hkeep _ (by omega))

end

/-! ## Allocation -/

/-- The first copy of the FAT in the course of an allocation of `c` after `prev`: `c` is marked, and
`prev` may be linked. -/
def AllocStored (d : Disk) (prev : Option ℕ) (c : ℕ) (d' : Disk) : Prop :=
  ∀ x < fs.entries, prev = some x ∧ next fs d' x = c % 2 ^ 28 ∨
    x = c ∧ next fs d' x = 0x0FFFFFFF ∨ x ≠ c ∧ next fs d' x = next fs d x

section
variable {fs} {d d' : Disk} {prev : Option ℕ} {c x : ℕ}

/-- `AllocStored` is what the mark and some copies of the link leave. -/
theorem allocStored_of_next (m : ℕ)
    (h : ∀ x < fs.entries, next fs d' x = if prev = some x ∧ 0 < m then c % 2 ^ 28 else
      if x = c then 0x0FFFFFFF else next fs d x) : AllocStored fs d prev c d' := by
  intro x hx
  rw [h x hx]
  split
  case isTrue hp => exact .inl ⟨hp.1, rfl⟩
  case isFalse =>
    split
    case isTrue hxc => exact .inr (.inl ⟨hxc, rfl⟩)
    case isFalse hxc => exact .inr (.inr ⟨hxc, rfl⟩)

/-- The links once the new cluster is marked. -/
theorem next_marked {n : ℕ} (hn : 0 < n) (hx : x < fs.entries) :
    next fs ((List.range n).foldl (setFatCopy fs c 0x0FFFFFFF) d) x =
      if x = c then 0x0FFFFFFF else next fs d x := by
  rw [next_foldl_setFatCopy n hx]
  exact if_congr (and_iff_right hn) rfl rfl

/-- The first copy after the mark and the link. -/
theorem next_linked {p : ℕ} (m : ℕ) (hcopies : 1 ≤ fs.bpb.numFats) (hx : x < fs.entries) :
    next fs ((List.range m).foldl (setFatCopy fs p c) (setFat fs d c 0x0FFFFFFF)) x =
      if some p = some x ∧ 0 < m then c % 2 ^ 28 else
        if x = c then 0x0FFFFFFF else next fs d x := by
  rw [next_foldl_setFatCopy m hx, setFat, next_marked hcopies hx]
  exact if_congr (by rw [Option.some.injEq, and_comm, eq_comm]) rfl rfl

/-- The first copy after an allocation, also when `prev` has no entry in the FAT. -/
theorem next_allocated_first (hcopies : 1 ≤ fs.bpb.numFats) (hx : x < fs.entries) :
    next fs (allocated fs d prev c) x = if prev = some x then c % 2 ^ 28 else
      if x = c then 0x0FFFFFFF else next fs d x := by
  rw [allocated, next_setCluster hcopies hx]
  cases prev with
  | none =>
    rw [Option.elim_none, setFat, next_marked hcopies hx, if_neg (Option.some_ne_none x).symm]
  | some p =>
    rw [Option.elim_some, setFat, next_linked _ hcopies hx]
    exact if_congr (and_iff_left hcopies) rfl rfl

/-- The zeros, after the mark and the link. -/
theorem zeros_sat (hin : fs.InRange c) (hlt : c < 2 ^ 32) (hcap : d'.capacity = d.capacity)
    (hmark : ∀ f < fs.bpb.numFats, fatSector fs f c < d.capacity)
    (hlink : ∀ p ∈ prev, ∀ f < fs.bpb.numFats, fatSector fs f p < d.capacity)
    (hd' : d' = prev.elim (setFat fs d c 0x0FFFFFFF) fun p =>
      setFat fs (setFat fs d c 0x0FFFFFFF) p c) :
    Sat ((writeCluster fs c (List.replicate fs.clusterSizeBytes 0) >>= fun _ => pure c) d')
      (fun r s => r = c ∧ OnDrive fs d.capacity prev c ∧ s = allocated fs d prev c)
      (fun e s => e.IsErr ∧ ¬ OnDrive fs d.capacity prev c ∧
        (1 ≤ fs.bpb.numFats → AllocStored fs d prev c s)) := by
  refine Sat.bind ((writeCluster_sat hin.1 hlt (List.length_replicate ..)).mono
    (fun _ s hs => sat_ok.2 ?_) fun e s hs => ?_)
  · refine ⟨rfl, ⟨hmark, hlink, hcap ▸ hs.1⟩, ?_⟩
    rw [hs.2, hd', allocated]
  · refine ⟨hs.1, fun hon => ?_, fun hcopies => allocStored_of_next 1 fun x hx => ?_⟩
    · have := hs.2.1
      rw [hcap] at this
      exact absurd hon.data (Nat.not_le_of_lt this)
    · -- the FAT is as the link left it, and as the whole allocation would leave it
      have hkeep := hs.2.2 0 hcopies x hx
      have hall := @next_allocated_first fs d prev c x hcopies hx
      rw [allocated, next_setCluster hcopies hx, ← hd'] at hall
      rw [next, hkeep, ← next, hall]
      exact if_congr (and_iff_left Nat.one_pos).symm rfl rfl

/-- `alloc_cluster` on any drive. When it fails it has either found no free entry and done nothing,
or come to a sector that the drive does not have, after the mark in the first copy. -/
theorem allocCluster_sat (hprev : ∀ p ∈ prev, p < 2 ^ 32) :
    Sat (allocCluster fs prev d)
      (fun c d' => scanned fs d = some c ∧ OnDrive fs d.capacity prev c ∧
        d' = allocated fs d prev c)
      (fun e d' => e.IsErr ∧ (scanned fs d = none ∧ d' = d ∨
        ∃ c, scanned fs d = some c ∧ ¬ OnDrive fs d.capacity prev c ∧
          (1 ≤ fs.bpb.numFats → AllocStored fs d prev c d'))) := by
  refine Sat.bind (scan_sat.mono (fun r s hs => ?_) fun e s hs => ⟨hs.2.1, .inl ⟨hs.2.2, hs.1⟩⟩)
  obtain ⟨rfl, rfl⟩ := hs
  cases hfound : scanned fs s with
  | none => exact sat_error.2 ⟨⟨_, rfl⟩, .inl ⟨rfl, rfl⟩⟩
  | some c =>
    obtain ⟨hin, hlt, hzero, -⟩ := scanned_some hfound
    refine Sat.bind ((setFatEntry_sat hlt).mono (fun _ s₁ hs₁ => ?_) fun e s₁ hs₁ => ?_)
    · obtain ⟨hmark, rfl⟩ := hs₁
      have hcap : (setFat fs s c 0x0FFFFFFF).capacity = s.capacity := capacity_foldl_setFatCopy _
      have hdone : ∀ s₂, s₂.capacity = s.capacity →
          (∀ p ∈ prev, ∀ f < fs.bpb.numFats, fatSector fs f p < s.capacity) →
          s₂ = (prev.elim (setFat fs s c 0x0FFFFFFF) fun p =>
            setFat fs (setFat fs s c 0x0FFFFFFF) p c) →
          Sat ((writeCluster fs c (List.replicate fs.clusterSizeBytes 0) >>= fun _ => pure c) s₂)
            (fun r s' => some c = some r ∧ OnDrive fs s.capacity prev r ∧
              s' = allocated fs s prev r)
            (fun e s' => e.IsErr ∧ (some c = none ∧ s' = s ∨
              ∃ r, some c = some r ∧ ¬ OnDrive fs s.capacity prev r ∧
                (1 ≤ fs.bpb.numFats → AllocStored fs s prev r s'))) := by
        intro s₂ hcap₂ hlink hs₂
        refine (zeros_sat hin hlt hcap₂ hmark hlink hs₂).mono (fun r s' h => ?_) fun e s' h => ?_
        · obtain ⟨rfl, hon, hs'⟩ := h
          exact ⟨rfl, hon, hs'⟩
        · exact ⟨h.1, .inr ⟨c, rfl, h.2⟩⟩
      cases prev with
      | none => exact hdone _ hcap (fun p hp => absurd hp (Option.not_mem_none p)) rfl
      | some p =>
        refine Sat.bind ((setFatEntry_sat (hprev p rfl)).mono (fun _ s₂ hs₂ => ?_)
          fun e s₂ hs₂ => ?_)
        · obtain ⟨hlink, rfl⟩ := hs₂
          refine hdone _ ((capacity_foldl_setFatCopy _).trans hcap) (fun q hq => ?_) rfl
          rw [Option.mem_some_iff] at hq
          rwa [← hq, ← hcap]
        · obtain ⟨herr, m, hm, hoff, rfl⟩ := hs₂
          refine ⟨herr, .inr ⟨c, rfl, fun hon => ?_, fun hcopies =>
            allocStored_of_next m fun x hx => next_linked m hcopies hx⟩⟩
          rw [hcap] at hoff
          exact absurd (hon.link p rfl m hm) (Nat.not_lt_of_le hoff)
    · obtain ⟨herr, n, hn, hoff, rfl⟩ := hs₁
      have hpos : 0 < n := Nat.pos_of_ne_zero fun h => by
        subst h
        exact Nat.lt_irrefl _ (hzero.trans_le hoff)
      refine ⟨herr, .inr ⟨c, rfl, fun hon => ?_, fun _ => allocStored_of_next 0 fun x hx => ?_⟩⟩
      · exact absurd (hon.mark n hn) (Nat.not_lt_of_le hoff)
      · rw [next_marked hpos hx]
        exact (if_neg fun h => Nat.lt_irrefl _ h.2).symm

/-- An allocation that the drive has room for. -/
theorem allocCluster_of_onDrive (hprev : ∀ p ∈ prev, p < 2 ^ 32) (hfound : scanned fs d = some c)
    (hon : OnDrive fs d.capacity prev c) :
    allocCluster fs prev d = .ok c (allocated fs d prev c) := by
  have hsat : Sat (allocCluster fs prev d) _ _ := allocCluster_sat hprev
  cases hrun : allocCluster fs prev d with
  | ok r s =>
    obtain ⟨hr, -, hs⟩ := hsat.of_ok hrun
    rw [hfound, Option.some.injEq] at hr
    rw [hs, hr]
  | error e s =>
    rcases (hsat.of_error hrun).2 with ⟨hnone, -⟩ | ⟨r, hr, hoff, -⟩
    · rw [hfound] at hnone
      cases hnone
    · rw [hfound, Option.some.injEq] at hr
      exact absurd (hr ▸ hon) hoff

end

/-! ## Runs of allocations -/

/-- The clusters that a run of `alloc_cluster` calls returns, each with the drive before its
call. -/
def allocs : Disk → List (Option ℕ) → List (Disk × ℕ)
  | _, [] => []
  | d, prev :: l =>
    match allocCluster fs prev d with
    | .ok c d' => (d, c) :: allocs d' l
    | .error _ d' => allocs d' l

/-- In every run, on every drive, a cluster that is returned was free and none is returned twice. -/
def AllocatesOnce : Prop :=
  ∀ (d : Disk) (prevs : List (Option ℕ)),
    (∀ prev ∈ prevs, ∀ p ∈ prev, fs.InRange p ∧ p < 2 ^ 32) →
    (∀ x ∈ allocs fs d prevs, next fs x.1 x.2 = 0) ∧ ((allocs fs d prevs).map Prod.snd).Nodup

/-- What is used in the first copy of the FAT stays used. -/
def KeepsUsed (d d' : Disk) : Prop := ∀ x < fs.entries, next fs d x ≠ 0 → next fs d' x ≠ 0

section
variable {fs} {d d' : Disk} {prev : Option ℕ} {c : ℕ}

/-- A FAT that did not change keeps its used entries. -/
theorem KeepsUsed.refl (d : Disk) : KeepsUsed fs d d := fun _ _ h => h

/-- A cluster number that 28 bits hold is no free entry when it is stored as a link. -/
theorem AllocStored.used (h : AllocStored fs d prev c d') (hc : fs.InRange c) (hlt : c < 2 ^ 28) :
    KeepsUsed fs d d' ∧ next fs d' c ≠ 0 := by
  have h2 := hc.1
  constructor
  · intro x hx hused
    rcases h x hx with ⟨-, hn⟩ | ⟨-, hn⟩ | ⟨-, hn⟩
    · omega
    · omega
    · rwa [hn]
  · rcases h c hc.2 with ⟨-, hn⟩ | ⟨-, hn⟩ | ⟨hne, -⟩
    · omega
    · omega
    · exact absurd rfl hne

/-- The whole allocation is one of the courses it may take. -/
theorem allocStored_allocated (hcopies : 1 ≤ fs.bpb.numFats) :
    AllocStored fs d prev c (allocated fs d prev c) :=
  allocStored_of_next 1 fun x hx => by
    rw [next_allocated_first hcopies hx]
    exact if_congr (and_iff_left Nat.one_pos).symm rfl rfl

/-- One call, where the FAT has a copy and its entries can name all of its clusters. -/
theorem allocCluster_once (hcopies : 1 ≤ fs.bpb.numFats) (hsize : fs.bpb.fatSizeSectors ≤ 2 ^ 21)
    (hprev : ∀ p ∈ prev, p < 2 ^ 32) :
    Sat (allocCluster fs prev d)
      (fun c d' => fs.InRange c ∧ next fs d c = 0 ∧ next fs d' c ≠ 0 ∧ KeepsUsed fs d d')
      (fun _ d' => KeepsUsed fs d d') := by
  have hlt : ∀ c, fs.InRange c → c < 2 ^ 28 := by
    intro c hc
    have := hc.2
    rw [Fat32Fs.entries_eq] at this
    omega
  refine (allocCluster_sat hprev).mono (fun c d' h => ?_) fun e d' h => ?_
  · obtain ⟨hfound, -, rfl⟩ := h
    obtain ⟨hin, -, -, hfree⟩ := scanned_some hfound
    have hstored : AllocStored fs d prev c (allocated fs d prev c) := allocStored_allocated hcopies
    obtain ⟨hkeep, hused⟩ := hstored.used hin (hlt c hin)
    exact ⟨hin, hfree (by omega), hused, hkeep⟩
  · rcases h.2 with ⟨-, rfl⟩ | ⟨c, hfound, -, hstored⟩
    · exact .refl _
    · have hin := (scanned_some hfound).1
      exact ((hstored hcopies).used hin (hlt c hin)).1

/-- A whole run: only clusters that are free at its start are returned. -/
theorem allocs_once (hcopies : 1 ≤ fs.bpb.numFats) (hsize : fs.bpb.fatSizeSectors ≤ 2 ^ 21)
    {prevs : List (Option ℕ)} (hprevs : ∀ prev ∈ prevs, ∀ p ∈ prev, p < 2 ^ 32) :
    (∀ x ∈ allocs fs d prevs, next fs x.1 x.2 = 0) ∧ ((allocs fs d prevs).map Prod.snd).Nodup ∧
      ∀ c ∈ (allocs fs d prevs).map Prod.snd, fs.InRange c ∧ next fs d c = 0 := by
  induction prevs generalizing d with
  | nil =>
    rw [allocs]
    simp
  | cons prev prevs ih =>
    have hstep := allocCluster_once (d := d) hcopies hsize (hprevs prev List.mem_cons_self)
    have hrest : ∀ q ∈ prevs, ∀ p ∈ q, p < 2 ^ 32 := fun q hq =>
      hprevs q (List.mem_cons_of_mem _ hq)
    -- what is free after the call was free before it
    have hback : ∀ {d'}, KeepsUsed fs d d' → ∀ c, fs.InRange c ∧ next fs d' c = 0 →
        fs.InRange c ∧ next fs d c = 0 := by
      intro d' hkeep c hc
      by_contra hused
      exact hkeep c hc.1.2 (fun h => hused ⟨hc.1, h⟩) hc.2
    rw [allocs]
    cases hrun : allocCluster fs prev d with
    | ok c d' =>
      obtain ⟨hin, hfree, hused, hkeep⟩ := hstep.of_ok hrun
      obtain ⟨hall, hnodup, hmem⟩ := ih (d := d') hrest
      simp only [List.map_cons, List.forall_mem_cons, List.nodup_cons]
      refine ⟨⟨hfree, hall⟩, ⟨fun hc => ?_, hnodup⟩, ⟨hin, hfree⟩, fun x hx => ?_⟩
      · exact hused (hmem c hc).2
      · exact hback hkeep x (hmem x hx)
    | error e d' =>
      obtain ⟨hall, hnodup, hmem⟩ := ih (d := d') hrest
      exact ⟨hall, hnodup, fun x hx => hback (hstep.of_error hrun) x (hmem x hx)⟩

/-- Without sectors for the FAT every call fails. -/
theorem allocs_of_no_sectors (h0 : fs.bpb.fatSizeSectors = 0) (d : Disk)
    {prevs : List (Option ℕ)} (hprevs : ∀ prev ∈ prevs, ∀ p ∈ prev, p < 2 ^ 32) :
    allocs fs d prevs = [] := by
  have hnone : ∀ d, scanned fs d = none := by
    intro d
    rw [scanned, sectorsOn, h0, Nat.zero_min]
    rfl
  induction prevs generalizing d with
  | nil => rfl
  | cons prev prevs ih =>
    rw [allocs]
    cases hrun : allocCluster fs prev d with
    | ok c d' =>
      have hfound := (allocCluster_sat (hprevs prev List.mem_cons_self)).of_ok hrun
      rw [hnone] at hfound
      cases hfound.1
    | error e d' => exact ih d' fun q hq => hprevs q (List.mem_cons_of_mem _ hq)

end

/-! ## Where a cluster is allocated twice -/

/-- The largest drive, with nothing on it. -/
def blankDrive : Disk := ⟨2 ^ 48, le_rfl, fun _ => 0⟩

/-- A drive where in the first copy of the FAT only the entries `free` are free. -/
def driveFree (capacity : ℕ) (hcap : capacity ≤ 2 ^ 48) (free : List ℕ) : Disk :=
  ⟨capacity, hcap, fun a =>
    if 512 * fs.fatStart ≤ a ∧ (a - 512 * fs.fatStart) / 4 ∈ free then 0 else 0xFF⟩

section
variable {fs} {prev : Option ℕ} {c x : ℕ}

/-- All entries of a blank drive are free. -/
theorem next_blankDrive : next fs blankDrive x = 0 := by
  have hread : read blankDrive.bytes (fatAddr fs 0 x) 4 = List.replicate 4 0 := rfl
  rw [next, fat, hread, leNat_replicate_zero, Nat.zero_mod]

/-- The entries of a drive on which only some clusters are free. -/
theorem next_driveFree {capacity : ℕ} (hcap : capacity ≤ 2 ^ 48) (free : List ℕ) :
    next fs (driveFree fs capacity hcap free) x = if x ∈ free then 0 else 0x0FFFFFFF := by
  have hread : read (driveFree fs capacity hcap free).bytes (fatAddr fs 0 x) 4 =
      List.replicate 4 (if x ∈ free then 0 else 0xFF) := by
    refine List.eq_replicate_iff.2 ⟨length_read .., fun b hb => ?_⟩
    obtain ⟨i, hi, rfl⟩ := List.mem_map.1 hb
    have hi := List.mem_range.1 hi
    have haddr : fatAddr fs 0 x + i = 512 * fs.fatStart + (4 * x + i) := by
      rw [fatAddr]
      omega
    have hentry : (4 * x + i) / 4 = x := by omega
    rw [driveFree, haddr]
    simp only [Nat.add_sub_cancel_left, hentry, Nat.le_add_right, true_and]
  rw [next, fat, hread]
  split <;> decide

/-- A volume with a FAT has the cluster 2. -/
theorem two_inRange (hsize : fs.bpb.fatSizeSectors ≠ 0) : fs.InRange 2 := by
  refine ⟨le_rfl, ?_⟩
  rw [Fat32Fs.entries_eq]
  omega

/-- On the largest drive the first free cluster is allocated. -/
theorem allocCluster_of_first {d : Disk} (hcap : d.capacity = 2 ^ 48)
    (hprev : ∀ p ∈ prev, p < 2 ^ 32) (hc : fs.InRange c) (hlt : c < 2 ^ 32)
    (hfree : next fs d c = 0) (hfirst : ∀ x, 2 ≤ x → x < c → next fs d x ≠ 0) :
    allocCluster fs prev d = .ok c (allocated fs d prev c) := by
  refine allocCluster_of_onDrive hprev (scanned_of_first hc hlt ?_ hfree hfirst) ?_
  · rw [hcap]
    exact fatSector_lt (Nat.zero_le _) hlt
  · rw [hcap]
    exact onDrive_of_large hlt hprev

/-- Without a copy of the FAT nothing is marked. -/
theorem allocs_no_copies (h0 : fs.bpb.numFats = 0) (hsize : fs.bpb.fatSizeSectors ≠ 0) :
    allocs fs blankDrive [none, none] = [(blankDrive, 2), (blankDrive, 2)] := by
  have hzero : ∀ a n, ByteMem.write blankDrive.bytes a (List.replicate n 0) = blankDrive.bytes := by
    intro a n
    funext x
    rw [ByteMem.write]
    split
    · rw [List.getD_eq_getElem?_getD, List.getElem?_replicate]
      split <;> rfl
    · rfl
  have hsame : allocated fs blankDrive none 2 = blankDrive := by
    rw [allocated, Option.elim_none, setFat, h0, List.range_zero, List.foldl_nil, setCluster, hzero]
    rfl
  have hrun : allocCluster fs none blankDrive = .ok 2 blankDrive := by
    have h : allocCluster fs none blankDrive = _ := allocCluster_of_first rfl
      (fun p hp => absurd hp (Option.not_mem_none p)) (two_inRange hsize) (by decide)
      next_blankDrive fun x h2 hlt => absurd h2 (Nat.not_le_of_lt hlt)
    rwa [hsame] at h
  simp only [allocs, hrun]

/-- Where there are more clusters than 28 bits can name, the link to cluster `2 ^ 28` is stored as
zero, and frees the cluster it is stored for. -/
theorem allocs_too_many (hcopies : 1 ≤ fs.bpb.numFats) (hsize : 2 ^ 21 < fs.bpb.fatSizeSectors) :
    (allocs fs (driveFree fs (2 ^ 48) le_rfl [2, 2 ^ 28]) [none, some 2, none]).map Prod.snd =
      [2, 2 ^ 28, 2] := by
  have hnone : ∀ p ∈ (none : Option ℕ), p < 2 ^ 32 := fun p hp => absurd hp (Option.not_mem_none p)
  have h2 : fs.InRange 2 := two_inRange (by omega)
  have hbig : fs.InRange (2 ^ 28) := by
    refine ⟨by decide, ?_⟩
    rw [Fat32Fs.entries_eq]
    omega
  have hin : ∀ x < 2 ^ 28, x < fs.entries := fun x hx => hx.trans hbig.2
  have hcap₀ : (driveFree fs (2 ^ 48) le_rfl [2, 2 ^ 28]).capacity = 2 ^ 48 := rfl
  have hnext₀ : ∀ x, next fs (driveFree fs (2 ^ 48) le_rfl [2, 2 ^ 28]) x =
      if x = 2 ∨ x = 2 ^ 28 then 0 else 0x0FFFFFFF := by
    intro x
    rw [next_driveFree]
    exact if_congr (by simp) rfl rfl
  generalize driveFree fs (2 ^ 48) le_rfl [2, 2 ^ 28] = d₀ at hcap₀ hnext₀ ⊢
  have hcap₁ : (allocated fs d₀ none 2).capacity = d₀.capacity :=
    allocated_capacity h2 fun p hp => absurd hp (Option.not_mem_none p)
  have hrun₁ := allocCluster_of_first hcap₀ hnone h2 (by decide) (by rw [hnext₀]; rfl)
    fun x h2 hlt => absurd h2 (Nat.not_le_of_lt hlt)
  have hnext₁ : ∀ x < fs.entries, next fs (allocated fs d₀ none 2) x =
      if x = 2 ^ 28 then 0 else 0x0FFFFFFF := by
    intro x hx
    rw [next_allocated_first hcopies hx, hnext₀, if_neg (Option.some_ne_none x).symm]
    grind
  generalize allocated fs d₀ none 2 = d₁ at hcap₁ hrun₁ hnext₁
  have hcap₂ : (allocated fs d₁ (some 2) (2 ^ 28)).capacity = d₁.capacity := by
    refine allocated_capacity hbig fun p hp => ?_
    rw [Option.mem_some_iff] at hp
    exact hp ▸ h2.2
  have hrun₂ : allocCluster fs (some 2) d₁ = _ := allocCluster_of_first (hcap₁.trans hcap₀)
    (fun p hp => by rw [Option.mem_some_iff] at hp; omega) hbig (by decide)
    (by rw [hnext₁ _ hbig.2]; rfl)
    fun x _ hlt => by rw [hnext₁ x (hin x hlt), if_neg hlt.ne]; decide
  have hnext₂ : next fs (allocated fs d₁ (some 2) (2 ^ 28)) 2 = 0 := by
    rw [next_allocated_first hcopies h2.2]
    rfl
  generalize allocated fs d₁ (some 2) (2 ^ 28) = d₂ at hcap₂ hrun₂ hnext₂
  have hrun₃ := allocCluster_of_first (d := d₂) (hcap₂.trans (hcap₁.trans hcap₀)) hnone h2
    (by decide) hnext₂ fun x h2 hlt => absurd h2 (Nat.not_le_of_lt hlt)
  simp only [allocs, hrun₁, hrun₂, hrun₃, List.map_cons, List.map_nil]

/-- No cluster is allocated twice exactly where there is no FAT to allocate from, or the FAT has a
copy and no more entries than 28 bits can name. -/
theorem allocatesOnce_iff : AllocatesOnce fs ↔ fs.bpb.fatSizeSectors = 0 ∨
    1 ≤ fs.bpb.numFats ∧ fs.bpb.fatSizeSectors ≤ 2 ^ 21 := by
  constructor
  · intro hlaw
    by_contra hcond
    have hsize : fs.bpb.fatSizeSectors ≠ 0 := fun h => hcond (.inl h)
    by_cases h0 : fs.bpb.numFats = 0
    · have hnodup := (hlaw blankDrive [none, none] (by simp)).2
      rw [allocs_no_copies h0 hsize] at hnodup
      simp at hnodup
    · have hcopies : 1 ≤ fs.bpb.numFats := Nat.pos_of_ne_zero h0
      have hmany : 2 ^ 21 < fs.bpb.fatSizeSectors :=
        Nat.lt_of_not_le fun h => hcond (.inr ⟨hcopies, h⟩)
      have hnodup := (hlaw (driveFree fs (2 ^ 48) le_rfl [2, 2 ^ 28]) [none, some 2, none]
        (by simp [two_inRange hsize])).2
      rw [allocs_too_many hcopies hmany] at hnodup
      simp at hnodup
  · intro hcond d prevs hprevs
    have hlt : ∀ prev ∈ prevs, ∀ p ∈ prev, p < 2 ^ 32 := fun prev h p hp => (hprevs prev h p hp).2
    rcases hcond with h0 | ⟨hcopies, hsize⟩
    · rw [allocs_of_no_sectors h0 d hlt]
      simp
    · obtain ⟨hfree, hnodup, -⟩ := allocs_once (d := d) hcopies hsize hlt
      exact ⟨hfree, hnodup⟩

end

/-- A boot sector that declares a FAT of one sector, clusters of one sector, and this many copies of
the FAT. -/
def bootSector (copies : UInt8) : List UInt8 :=
  List.replicate 0x0B 0 ++ toLe 2 512 ++ [1] ++ toLe 2 1 ++ [copies] ++ List.replicate 0x13 0 ++
    toLe 4 1 ++ List.replicate 4 0 ++ toLe 4 2 ++ List.replicate 0x1CE 0 ++ [0x55, 0xAA]

/-- What `parse_bpb` reads from it. -/
def bootBpb (copies : UInt8) : BiosParameterBlock :=
  { smallFs.bpb with numFats := copies.toNat, numFats_lt := copies.toNat_lt }

/-- The boot sector says what its geometry is. -/
theorem parseBpb_bootSector (copies : UInt8) :
    parseBpb (bootSector copies) = .ok (bootBpb copies) := by
  have hsig : ∀ i, (bootSector copies).getD (510 + i) 0 = [0x55, 0xAA].getD i 0 := by
    intro i
    rw [bootSector, List.getD_append_right]
    · simp only [List.length_append, List.length_replicate, length_toLe, List.length_cons,
        List.length_nil, Nat.reduceAdd, Nat.add_sub_cancel_left]
    · simp only [List.length_append, List.length_replicate, length_toLe, List.length_cons,
        List.length_nil]
      omega
  have hfat16 : field (bootSector copies) 0x16 2 = 0 := rfl
  have hbytes : field (bootSector copies) 0x0B 2 = 512 := rfl
  have hspc : field (bootSector copies) 0x0D 1 = 1 := rfl
  have hcopies : field (bootSector copies) 0x10 1 = copies.toNat := rfl
  have hsize : field (bootSector copies) 0x24 4 = 1 := rfl
  have hroot : field (bootSector copies) 0x2C 4 = 2 := rfl
  have hrsvd : field (bootSector copies) 0x0E 2 = 1 := rfl
  rw [parseBpb, if_neg (by rw [hsig 0, hsig 1]; decide), if_neg (not_not.2 hfat16),
    if_neg (not_not.2 hbytes), dif_neg (by rw [hspc]; decide)]
  simp only [hspc, hrsvd, hcopies, hsize, hroot]
  rfl

/-- `parse_bpb` lets a volume without a FAT through, and cluster 2 is allocated again and again. -/
theorem allocated_twice : parseBpb (bootSector 0) = .ok (bootBpb 0) ∧
    (allocs ⟨bootBpb 0⟩ blankDrive [none, none]).map Prod.snd = [2, 2] ∧
    ¬ AllocatesOnce ⟨bootBpb 0⟩ := by
  have hruns : allocs ⟨bootBpb 0⟩ blankDrive [none, none] = _ := allocs_no_copies rfl (by decide)
  refine ⟨parseBpb_bootSector 0, by rw [hruns]; rfl, fun hlaw => ?_⟩
  have hnodup := (hlaw blankDrive [none, none] (by simp)).2
  rw [hruns] at hnodup
  simp at hnodup

/-! ## A call that fails -/

/-- When `alloc_cluster` returns an error, every entry in every copy of the FAT is as before. -/
def FailureKeepsFat (d : Disk) (prev : Option ℕ) : Prop :=
  ∀ e d', allocCluster fs prev d = .error (.err e) d' →
    ∀ f < fs.bpb.numFats, ∀ x < fs.entries, fat fs d' f x = fat fs d f x

section
variable {fs} {d : Disk} {prev : Option ℕ} {c : ℕ}

/-- The mark is not taken back. -/
theorem not_failureKeepsFat (hcopies : 1 ≤ fs.bpb.numFats) (hsize : fs.bpb.fatSizeSectors ≤ 2 ^ 21)
    (hprev : ∀ p ∈ prev, p < 2 ^ 32) (hfound : scanned fs d = some c)
    (hoff : ¬ OnDrive fs d.capacity prev c) : ¬ FailureKeepsFat fs d prev := by
  intro hkeep
  obtain ⟨hin, -, -, hfree⟩ := scanned_some hfound
  have hfree := hfree (by omega)
  have hsat : Sat (allocCluster fs prev d) _ _ := allocCluster_sat hprev
  cases hrun : allocCluster fs prev d with
  | ok r s =>
    obtain ⟨hr, hon, -⟩ := hsat.of_ok hrun
    rw [hfound, Option.some.injEq] at hr
    exact hoff (hr ▸ hon)
  | error e s =>
    obtain ⟨⟨m, rfl⟩, hcase⟩ := hsat.of_error hrun
    rcases hcase with ⟨hnone, -⟩ | ⟨r, hr, -, hstored⟩
    · rw [hfound] at hnone
      cases hnone
    · rw [hfound, Option.some.injEq] at hr
      subst hr
      have hlt : c < 2 ^ 28 := by
        have := hin.2
        rw [Fat32Fs.entries_eq] at this
        omega
      have hused := ((hstored hcopies).used hin hlt).2
      rw [next, hkeep m s hrun 0 hcopies c hin.2, ← next] at hused
      exact hused hfree

/-- A failed call leaves the FAT alone when it finds no free entry, or when the drive has every
sector that it would write. Where 28 bits can name all clusters, these are all the cases. -/
theorem failureKeepsFat_iff (hprev : ∀ p ∈ prev, p < 2 ^ 32) :
    ((∀ c ∈ scanned fs d, fs.bpb.numFats = 0 ∨ OnDrive fs d.capacity prev c) →
      FailureKeepsFat fs d prev) ∧
    (fs.bpb.fatSizeSectors ≤ 2 ^ 21 → FailureKeepsFat fs d prev →
      ∀ c ∈ scanned fs d, fs.bpb.numFats = 0 ∨ OnDrive fs d.capacity prev c) := by
  constructor
  · intro hcond e d' hrun f hf x _
    rcases ((allocCluster_sat hprev).of_error hrun).2 with ⟨-, rfl⟩ | ⟨c, hfound, hoff, -⟩
    · rfl
    · rcases hcond c hfound with h0 | hon
      · omega
      · exact absurd hon hoff
  · intro hsize hkeep c hfound
    by_contra hcond
    rw [not_or] at hcond
    exact not_failureKeepsFat (Nat.pos_of_ne_zero hcond.1) hsize hprev hfound hcond.2 hkeep

end

/-- A drive of three sectors: the boot sector, the FAT and cluster 2. -/
def shortDrive (free : List ℕ) : Disk := driveFree ⟨bootBpb 1⟩ 3 (by decide) free

/-- On a full volume the FAT stays as it is. -/
theorem failureKeepsFat_full : (∀ p ∈ some 2, p < 2 ^ 32) ∧
    FailureKeepsFat ⟨bootBpb 1⟩ (shortDrive []) (some 2) := by
  have hprev : ∀ p ∈ some 2, p < 2 ^ 32 := by decide
  refine ⟨hprev, (failureKeepsFat_iff hprev).1 fun c hc => ?_⟩
  have hfree := (scanned_some hc).2.2.2 (by decide)
  rw [shortDrive, next_driveFree] at hfree
  simp at hfree

/-- The FAT has an entry for cluster 3, but the drive ends before it. The call fails when it comes
to the zeros and leaves the entry marked. -/
theorem failure_changes_fat : parseBpb (bootSector 1) = .ok (bootBpb 1) ∧
    ¬ FailureKeepsFat ⟨bootBpb 1⟩ (shortDrive [3]) none := by
  refine ⟨parseBpb_bootSector 1, not_failureKeepsFat le_rfl (by decide)
    (fun p hp => absurd hp (Option.not_mem_none p)) (c := 3) ?_ fun hon => ?_⟩
  · refine scanned_of_first ⟨by decide, by decide⟩ (by decide) (by decide) ?_ fun x h2 hlt => ?_
    · rw [shortDrive, next_driveFree]
      rfl
    · rw [shortDrive, next_driveFree, if_neg (by simp; omega)]
      decide
  · exact absurd hon.data (by decide)

end Fat

end RossOs
