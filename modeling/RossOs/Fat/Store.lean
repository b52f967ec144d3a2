import RossOs.Fat.Sectors

/-!
# The store laws of the low-level helpers

The FAT and the clusters as two stores: what is read back after `set_fat_entry` and after
`write_cluster`, and which sectors of the drive stay as they were. The drive has the sectors that
are read and written; nothing else is asked of the volume, so the laws hold for every geometry.
-/

namespace RossOs

open ByteMem Ahci Exec

namespace Fat

/-- Sector `m` of the drive. -/
def sector (d : Disk) (m : ℕ) : List UInt8 := read d.bytes (512 * m) 512

/-- A sector depends on its own bytes only. -/
theorem sector_congr {d d' : Disk} {m : ℕ}
    (h : ∀ x, 512 * m ≤ x → x < 512 * m + 512 → d'.bytes x = d.bytes x) :
    sector d' m = sector d m :=
  read_congr fun _ hi => h _ (Nat.le_add_right _ _) (Nat.add_lt_add_left hi _)

/-! ## Entries of the FAT -/

/-- Sector `m` belongs to copy `f` of the FAT. -/
def Fat32Fs.InCopy (fs : Fat32Fs) (f m : ℕ) : Prop :=
  fs.fatStart + f * fs.bpb.fatSizeSectors ≤ m ∧ m < fs.fatStart + (f + 1) * fs.bpb.fatSizeSectors

section
variable {fs : Fat32Fs} {d : Disk} {c v : ℕ}

/-- The copies are below the data area. -/
theorem Fat32Fs.InCopy.lt_dataStart {f m : ℕ} (h : fs.InCopy f m) (hf : f < fs.bpb.numFats) :
    m < fs.dataStart := by
  have hle : (f + 1) * fs.bpb.fatSizeSectors ≤ fs.bpb.numFats * fs.bpb.fatSizeSectors :=
    Nat.mul_le_mul_right _ hf
  exact h.2.trans_le (Nat.add_le_add_left hle _)

/-- Only the bytes of the entry change, in one copy after the other. -/
theorem bytes_foldl_setFatCopy (n : ℕ) {x : ℕ}
    (hx : ∀ f < n, x < fatAddr fs f c ∨ fatAddr fs f c + 4 ≤ x) :
    ((List.range n).foldl (setFatCopy fs c v) d).bytes x = d.bytes x := by
  induction n with
  | zero => rfl
  | succ n ih =>
    rw [List.range_succ, List.foldl_append, List.foldl_cons, List.foldl_nil, setFatCopy,
      Disk.setBytes_bytes, write_apply_of_outside, ih fun f hf => hx f (by omega)]
    rw [length_toLe]
    exact hx n (Nat.lt_succ_self n)

/-- The bytes of an entry are in a sector of its copy. -/
theorem inCopy_of_fatAddr_le {f m x : ℕ} (hc : c < fs.entries) (h1 : 512 * m ≤ x)
    (h2 : x < 512 * m + 512) (h3 : fatAddr fs f c ≤ x) (h4 : x < fatAddr fs f c + 4) :
    fs.InCopy f m := by
  rw [Fat32Fs.entries_eq] at hc
  rw [fatAddr] at h3 h4
  rw [Fat32Fs.InCopy, Nat.add_mul, Nat.one_mul]
  omega

/-- Writing a FAT entry leaves the sectors without a copy of it. -/
theorem sector_setFat (hc : c < fs.entries) {m : ℕ} (hm : ∀ f < fs.bpb.numFats, ¬ fs.InCopy f m) :
    sector (setFat fs d c v) m = sector d m := by
  refine sector_congr fun x h1 h2 => bytes_foldl_setFatCopy _ fun f hf => ?_
  by_contra hin
  exact hm f hf (inCopy_of_fatAddr_le hc h1 h2 (by omega) (by omega))

end

/-- After `set_fat_entry`, `next_cluster` returns the low 28 bits of the value for this cluster and
what it returned before for every other one. In every copy of the FAT the low 28 bits of the entry
are all that changes, and no sector outside the copies changes. -/
theorem fatEntry_store (fs : Fat32Fs) {d : Disk} {c : ℕ} (hcopies : 1 ≤ fs.bpb.numFats)
    (hd : fs.dataStart ≤ d.capacity) (hc : c < fs.entries) (v : ℕ) :
    ∃ d', setFatEntry fs c v d = .ok ⟨⟩ d' ∧ d'.capacity = d.capacity ∧
      (∀ c' < fs.entries, ∃ old, nextCluster fs c' d = .ok old d ∧
        nextCluster fs c' d' = .ok (if c' = c then v &&& 0x0FFFFFFF else old) d') ∧
      (∀ f < fs.bpb.numFats, ∀ c' < fs.entries, fat fs d' f c' =
        if c' = c then fat fs d f c / 2 ^ 28 * 2 ^ 28 + v % 2 ^ 28 else fat fs d f c') ∧
      ∀ m, (∀ f < fs.bpb.numFats, ¬ fs.InCopy f m) → sector d' m = sector d m := by
  have hcap : (setFat fs d c v).capacity = d.capacity := setFat_capacity hc
  have hmask : v &&& 0x0FFFFFFF = v % 2 ^ 28 := Bits.and_low_mask v 28
  refine ⟨_, setFatEntry_of_le hc hd, hcap, fun c' hc' => ⟨next fs d c', ?_, ?_⟩,
    fun f hf c' hc' => fat_setFat hc hc' hf, fun m hm => sector_setFat hc hm⟩
  all_goals
    have hsec := entrySector_lt hcopies hc'
    rw [Nat.zero_mul, Nat.add_zero] at hsec
  · exact nextCluster_of_le (by omega)
  · rw [nextCluster_of_le (by omega), next_setFat hcopies hc hc', hmask]

/-- An end mark with all 32 bits set is stored without its top four. -/
theorem fatEntry_store_mark : ∃ d', setFatEntry ⟨bootBpb 2⟩ 2 0xFFFFFFFF blankDrive = .ok ⟨⟩ d' ∧
    nextCluster ⟨bootBpb 2⟩ 2 d' = .ok 0x0FFFFFFF d' := by
  obtain ⟨d', hrun, -, hnext, -⟩ := fatEntry_store ⟨bootBpb 2⟩ (d := blankDrive) (c := 2)
    (by decide) (by decide) (by decide) 0xFFFFFFFF
  obtain ⟨old, -, hread⟩ := hnext 2 (by decide)
  exact ⟨d', hrun, hread⟩

/-! ## Clusters -/

/-- The run is `x` with a log, and on the drive `d` its requests go through the `n` sectors from
`sec` on. -/
structure Transfers {α : Type} (y : Exec String (Disk × List Event) α) (x : Exec String Disk α)
    (d : Disk) (sec n : ℕ) : Prop where
  logs : Logs y x
  chunked : Chunked (requests (Outcome.state (y (d, []))).2) sec n

/-- `read_cluster` yields the bytes `bs` of the cluster `c`, at the start of every buffer that has
room for them. -/
structure Yields (fs : Fat32Fs) (d : Disk) (c : ℕ) (bs : List UInt8) : Prop where
  length : bs.length = fs.clusterSizeBytes
  run : ∀ buf : List UInt8, fs.clusterSizeBytes ≤ buf.length →
    readCluster fs c buf d = .ok (splice buf 0 bs) d
  transfers : ∀ buf : List UInt8, fs.clusterSizeBytes ≤ buf.length →
    Transfers (Sectors.readCluster fs c buf) (readCluster fs c buf) d (dataSector fs c)
      fs.bpb.sectorsPerCluster

section
variable {fs : Fat32Fs} {d : Disk} {c : ℕ}

/-- A cluster that the drive has yields its bytes. -/
theorem yields_cluster (hc : 2 ≤ c) (hd : dataSector fs c + fs.bpb.sectorsPerCluster ≤ d.capacity) :
    Yields fs d c (cluster fs d c) where
  length := length_cluster fs d c
  run _ hbuf := readCluster_splice hc hd hbuf
  transfers buf hbuf := ⟨Sectors.logs_readCluster fs c buf, Sectors.readCluster_chunked hc hd hbuf⟩

/-- Writing a cluster leaves the sectors before the data area. -/
theorem sector_setCluster {bs : List UInt8} {m : ℕ} (hm : m < fs.dataStart) :
    sector (setCluster fs d c bs) m = sector d m := by
  refine sector_congr fun x h1 h2 => write_apply_of_outside (.inl ?_)
  rw [dataAddr]
  omega

end

/-- After `write_cluster`, `read_cluster` yields the first `cluster_size_bytes` bytes of the buffer
for this cluster and what it yielded before for every other one; the sectors of the reserved area
and of the copies of the FAT stay as they were. The chunk loops of both go through the sectors of
the cluster once each, at most eight at a time. -/
theorem cluster_store (fs : Fat32Fs) {d : Disk} {c : ℕ} {b : List UInt8} (hc : 2 ≤ c)
    (hd : dataSector fs c + fs.bpb.sectorsPerCluster ≤ d.capacity)
    (hb : fs.clusterSizeBytes ≤ b.length) :
    ∃ d', writeCluster fs c b d = .ok ⟨⟩ d' ∧ d'.capacity = d.capacity ∧
      (∀ c', 2 ≤ c' → dataSector fs c' + fs.bpb.sectorsPerCluster ≤ d.capacity →
        ∃ old, Yields fs d c' old ∧
          Yields fs d' c' (if c' = c then b.take fs.clusterSizeBytes else old)) ∧
      (∀ m, (m < fs.fatStart ∨ ∃ f < fs.bpb.numFats, fs.InCopy f m) →
        sector d' m = sector d m) ∧
      Transfers (Sectors.writeCluster fs c b) (writeCluster fs c b) d (dataSector fs c)
        fs.bpb.sectorsPerCluster := by
  have hlen : (b.take fs.clusterSizeBytes).length = fs.clusterSizeBytes :=
    List.length_take_of_le hb
  refine ⟨_, writeCluster_take hc hd hb, rfl, fun c' hc' hd' => ⟨_, yields_cluster hc' hd', ?_⟩,
    fun m hm => sector_setCluster ?_,
    ⟨Sectors.logs_writeCluster fs c b, Sectors.writeCluster_chunked hc hd hb⟩⟩
  · rw [← cluster_setCluster hlen hc hc']
    exact yields_cluster hc' hd'
  · rcases hm with hm | ⟨f, hf, hm⟩
    · exact hm.trans_le (Nat.le_add_right _ _)
    · exact hm.lt_dataStart hf

/-- A buffer of two sectors written to a cluster of one. -/
theorem cluster_store_long_buffer :
    ∃ d', writeCluster ⟨bootBpb 1⟩ 2 (List.replicate 1024 7) blankDrive = .ok ⟨⟩ d' ∧
      Yields ⟨bootBpb 1⟩ d' 2 (List.replicate 512 7) := by
  obtain ⟨d', hrun, -, hyields, -⟩ := cluster_store ⟨bootBpb 1⟩ (d := blankDrive) (c := 2)
    (b := List.replicate 1024 7) le_rfl (by decide) (by rw [List.length_replicate]; decide)
  obtain ⟨old, -, hread⟩ := hyields 2 le_rfl (by decide)
  have hsize : Fat32Fs.clusterSizeBytes ⟨bootBpb 1⟩ = 512 := rfl
  rw [if_pos rfl, hsize, List.take_replicate] at hread
  exact ⟨d', hrun, hread⟩

end Fat

end RossOs
