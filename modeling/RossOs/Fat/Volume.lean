import RossOs.Fat.Model
import RossOs.Lib.Bits
import RossOs.Lib.Chain

/-!
# The volume on the drive

What the driver's sector arithmetic amounts to. A volume on a drive is a table of FAT entries, in
several copies, and a table of clusters (`fat`, `next`, `cluster`). On a drive that has all sectors
of the volume (`Fat32Fs.Fits`), the low-level helpers read and change exactly these: each has an
equation for its run, and `setFat` and `setCluster` have the laws of tables.
-/

namespace RossOs

open ByteMem Ahci

namespace Fat

variable (fs : Fat32Fs)

/-! ## The tables -/

/-- The number of entries of a copy of the FAT. -/
def Fat32Fs.entries : ℕ := 128 * fs.bpb.fatSizeSectors

/-- The clusters that have an entry in the FAT. -/
def Fat32Fs.InRange (c : ℕ) : Prop := 2 ≤ c ∧ c < fs.entries

/-- The marks for the end of a chain. -/
def Eoc (x : ℕ) : Prop := 0x0FFFFFF8 ≤ x

instance : DecidablePred fs.InRange := fun c => inferInstanceAs (Decidable (2 ≤ c ∧ c < fs.entries))

instance : DecidablePred Eoc := fun x => inferInstanceAs (Decidable (0x0FFFFFF8 ≤ x))

/-- A drive of this capacity has every sector of the volume, and no cluster number is a mark. -/
structure Fat32Fs.Fits (fs : Fat32Fs) (capacity : ℕ) : Prop where
  copies : 1 ≤ fs.bpb.numFats
  entries_le : fs.entries ≤ 0x0FFFFFF8
  data : ∀ c, fs.InRange c → fs.dataStart + (c - 2) * fs.bpb.sectorsPerCluster +
    fs.bpb.sectorsPerCluster ≤ capacity

/-- The address of entry `c` in copy `f` of the FAT. -/
def fatAddr (f c : ℕ) : ℕ := 512 * (fs.fatStart + f * fs.bpb.fatSizeSectors) + 4 * c

/-- The address of a cluster. -/
def dataAddr (c : ℕ) : ℕ := 512 * (fs.dataStart + (c - 2) * fs.bpb.sectorsPerCluster)

/-- Entry `c` of copy `f` of the FAT, all 32 bits. -/
def fat (d : Disk) (f c : ℕ) : ℕ := leNat (read d.bytes (fatAddr fs f c) 4)

/-- The link of a cluster: the low 28 bits of its entry in the first copy. -/
def next (d : Disk) (c : ℕ) : ℕ := fat fs d 0 c % 2 ^ 28

/-- The bytes of a cluster. -/
def cluster (d : Disk) (c : ℕ) : List UInt8 := read d.bytes (dataAddr fs c) fs.clusterSizeBytes

/-- Storing a link in one copy of the FAT. The top four bits stay. -/
def setFatCopy (c v : ℕ) (d : Disk) (f : ℕ) : Disk :=
  d.setBytes (ByteMem.write d.bytes (fatAddr fs f c)
    (toLe 4 (fat fs d f c / 2 ^ 28 * 2 ^ 28 + v % 2 ^ 28)))

/-- Storing a link in all copies of the FAT. -/
def setFat (d : Disk) (c v : ℕ) : Disk := (List.range fs.bpb.numFats).foldl (setFatCopy fs c v) d

/-- Storing a cluster. -/
def setCluster (d : Disk) (c : ℕ) (bs : List UInt8) : Disk :=
  d.setBytes (ByteMem.write d.bytes (dataAddr fs c) bs)

/-- A cluster has the volume's cluster size. -/
@[simp] theorem length_cluster (d : Disk) (c : ℕ) : (cluster fs d c).length = fs.clusterSizeBytes :=
  length_read _ _ _

/-- A FAT entry is a 32-bit number. -/
theorem fat_lt (d : Disk) (f c : ℕ) : fat fs d f c < 2 ^ 32 :=
  Nat.lt_of_lt_of_le (leNat_lt _) (by rw [length_read]; decide)

/-! ## Where the tables are -/

section
variable {fs}

/-- A FAT sector holds 128 entries. -/
theorem Fat32Fs.entries_eq : fs.entries = 128 * fs.bpb.fatSizeSectors := rfl

/-- An entry of a copy is inside the copy. -/
theorem fatAddr_le {f c : ℕ} (hc : c < fs.entries) :
    fatAddr fs f c + 4 ≤ 512 * (fs.fatStart + (f + 1) * fs.bpb.fatSizeSectors) := by
  rw [Fat32Fs.entries_eq] at hc
  rw [fatAddr, Nat.add_mul, Nat.one_mul]
  omega

/-- Later copies are further up. -/
theorem fatAddr_lt_of_lt {f g c c' : ℕ} (hfg : f < g) (hc : c < fs.entries) :
    fatAddr fs f c + 4 ≤ fatAddr fs g c' := by
  have h1 := fatAddr_le (f := f) hc
  have h2 : (f + 1) * fs.bpb.fatSizeSectors ≤ g * fs.bpb.fatSizeSectors :=
    Nat.mul_le_mul_right _ hfg
  refine h1.trans ?_
  rw [fatAddr]
  omega

/-- The FAT is below the data area. -/
theorem fatAddr_le_dataAddr {f c x : ℕ} (hf : f < fs.bpb.numFats) (hc : c < fs.entries) :
    fatAddr fs f c + 4 ≤ dataAddr fs x := by
  have h1 := fatAddr_le (f := f) hc
  have h2 : (f + 1) * fs.bpb.fatSizeSectors ≤ fs.bpb.numFats * fs.bpb.fatSizeSectors :=
    Nat.mul_le_mul_right _ hf
  rw [dataAddr, Fat32Fs.dataStart]
  omega

/-- Clusters are one after the other. -/
theorem dataAddr_lt_of_lt {c c' : ℕ} (hc : 2 ≤ c) (hcc : c < c') :
    dataAddr fs c + fs.clusterSizeBytes ≤ dataAddr fs c' := by
  have h : (c - 2 + 1) * fs.bpb.sectorsPerCluster ≤ (c' - 2) * fs.bpb.sectorsPerCluster :=
    Nat.mul_le_mul_right _ (by omega)
  rw [Nat.add_mul, Nat.one_mul] at h
  rw [dataAddr, dataAddr, Fat32Fs.clusterSizeBytes]
  omega

/-- No cluster of a volume that fits its drive is an end mark. -/
theorem Fat32Fs.Fits.not_eoc {capacity c : ℕ} (h : fs.Fits capacity) (hc : fs.InRange c) :
    ¬ Eoc c := by
  have := h.entries_le
  have := hc.2
  rw [Eoc]
  omega

/-- The sector of an entry is in its copy, below the data area. -/
theorem entrySector_lt {f c : ℕ} (hf : f < fs.bpb.numFats) (hc : c < fs.entries) :
    fs.fatStart + f * fs.bpb.fatSizeSectors + c / 128 < fs.dataStart := by
  have h2 : (f + 1) * fs.bpb.fatSizeSectors ≤ fs.bpb.numFats * fs.bpb.fatSizeSectors :=
    Nat.mul_le_mul_right _ hf
  rw [Nat.add_mul, Nat.one_mul] at h2
  rw [Fat32Fs.entries_eq] at hc
  rw [Fat32Fs.dataStart]
  omega

/-- The copies of the FAT are on the drive. -/
theorem Fat32Fs.Fits.dataStart_le {capacity c : ℕ} (h : fs.Fits capacity) (hc : c < fs.entries) :
    fs.dataStart ≤ capacity := by
  have hin : fs.InRange 2 := by
    refine ⟨le_rfl, ?_⟩
    rw [Fat32Fs.entries_eq] at hc ⊢
    omega
  have hdata := h.data 2 hin
  omega

/-- The sectors of the FAT are on the drive. -/
theorem Fat32Fs.Fits.fat_sector {capacity f c : ℕ} (h : fs.Fits capacity) (hf : f < fs.bpb.numFats)
    (hc : c < fs.entries) :
    fs.fatStart + f * fs.bpb.fatSizeSectors + c / 128 + 1 ≤ capacity :=
  (entrySector_lt hf hc).trans_le (h.dataStart_le hc)

end

/-! ## The laws of the tables -/

section
variable {fs} {d : Disk} {c c' v f : ℕ}

/-- Setting an entry in one copy changes the low 28 bits of that entry there. -/
theorem fat_setFatCopy {g : ℕ} (hc : c < fs.entries) (hc' : c' < fs.entries) :
    fat fs (setFatCopy fs c v d f) g c' =
      if g = f ∧ c' = c then fat fs d f c / 2 ^ 28 * 2 ^ 28 + v % 2 ^ 28 else fat fs d g c' := by
  have hlt := fat_lt fs d f c
  split
  case isTrue h =>
    obtain ⟨rfl, rfl⟩ := h
    have hread : read (ByteMem.write d.bytes (fatAddr fs g c')
        (toLe 4 (fat fs d g c' / 2 ^ 28 * 2 ^ 28 + v % 2 ^ 28))) (fatAddr fs g c') 4 =
        toLe 4 (fat fs d g c' / 2 ^ 28 * 2 ^ 28 + v % 2 ^ 28) := by
      have hself := read_write_self d.bytes (fatAddr fs g c')
        (toLe 4 (fat fs d g c' / 2 ^ 28 * 2 ^ 28 + v % 2 ^ 28))
      rwa [length_toLe] at hself
    rw [fat, setFatCopy, Disk.setBytes_bytes, hread, leNat_toLe_of_lt]
    omega
  case isFalse h =>
    rw [fat, setFatCopy, Disk.setBytes_bytes, read_write_of_disjoint, fat]
    rw [length_toLe]
    rcases Nat.lt_trichotomy g f with hgf | rfl | hgf
    · exact .inl (fatAddr_lt_of_lt hgf hc')
    · have hne : c' ≠ c := fun he => h ⟨rfl, he⟩
      rw [fatAddr, fatAddr]
      omega
    · exact .inr (fatAddr_lt_of_lt hgf hc)

/-- Writing one FAT copy leaves the clusters. -/
theorem cluster_setFatCopy (hf : f < fs.bpb.numFats) (hc : c < fs.entries) (x : ℕ) :
    cluster fs (setFatCopy fs c v d f) x = cluster fs d x := by
  rw [cluster, setFatCopy, Disk.setBytes_bytes, read_write_of_disjoint, cluster]
  rw [length_toLe]
  exact .inr (fatAddr_le_dataAddr hf hc)

/-- The copies from the first to the `n`-th. -/
theorem foldl_setFatCopy (n : ℕ) (hn : n ≤ fs.bpb.numFats) (hc : c < fs.entries) :
    ((List.range n).foldl (setFatCopy fs c v) d).capacity = d.capacity ∧
    (∀ g c', c' < fs.entries → fat fs ((List.range n).foldl (setFatCopy fs c v) d) g c' =
      if g < n ∧ c' = c then fat fs d g c / 2 ^ 28 * 2 ^ 28 + v % 2 ^ 28 else fat fs d g c') ∧
    ∀ x, cluster fs ((List.range n).foldl (setFatCopy fs c v) d) x = cluster fs d x := by
  induction n with
  | zero => exact ⟨rfl, fun g c' _ => (if_neg fun h => Nat.not_lt_zero _ h.1).symm, fun _ => rfl⟩
  | succ n ih =>
    obtain ⟨hcap, hfat, hcluster⟩ := ih (by omega)
    rw [List.range_succ, List.foldl_append, List.foldl_cons, List.foldl_nil]
    refine ⟨hcap, fun g c' hc' => ?_, fun x => ?_⟩
    · rw [fat_setFatCopy hc hc', hfat g c' hc', hfat n c hc,
        if_neg (show ¬ (n < n ∧ c = c) from fun h => Nat.lt_irrefl _ h.1)]
      by_cases hcc : c' = c
      · subst hcc
        rcases Nat.lt_trichotomy g n with hg | rfl | hg
        · rw [if_neg (by omega), if_pos ⟨hg, rfl⟩, if_pos ⟨by omega, rfl⟩]
        · rw [if_pos ⟨rfl, rfl⟩, if_pos ⟨by omega, rfl⟩]
        · rw [if_neg (by omega), if_neg (by omega), if_neg (by omega)]
      · rw [if_neg fun h => hcc h.2, if_neg fun h => hcc h.2, if_neg fun h => hcc h.2]
    · rw [cluster_setFatCopy (by omega) hc, hcluster x]

/-- Writing the FAT leaves the drive's size. -/
@[simp] theorem setFat_capacity (hc : c < fs.entries) : (setFat fs d c v).capacity = d.capacity :=
  (foldl_setFatCopy _ le_rfl hc).1

/-- Every FAT copy after a write: the low 28 bits of one entry are new. -/
theorem fat_setFat (hc : c < fs.entries) (hc' : c' < fs.entries) (hf : f < fs.bpb.numFats) :
    fat fs (setFat fs d c v) f c' =
      if c' = c then fat fs d f c / 2 ^ 28 * 2 ^ 28 + v % 2 ^ 28 else fat fs d f c' := by
  rw [setFat, (foldl_setFatCopy _ le_rfl hc).2.1 f c' hc']
  exact if_congr (by simp [hf]) rfl rfl

/-- Writing the FAT leaves the clusters. -/
theorem cluster_setFat (hc : c < fs.entries) (x : ℕ) :
    cluster fs (setFat fs d c v) x = cluster fs d x := (foldl_setFatCopy _ le_rfl hc).2.2 x

/-- The links after a write of the FAT. -/
theorem next_setFat (hcopies : 1 ≤ fs.bpb.numFats) (hc : c < fs.entries) (hc' : c' < fs.entries) :
    next fs (setFat fs d c v) c' = if c' = c then v % 2 ^ 28 else next fs d c' := by
  rw [next, fat_setFat hc hc' hcopies]
  split
  · omega
  · rfl

/-- Writing a cluster leaves the drive's size. -/
@[simp] theorem setCluster_capacity {bs : List UInt8} :
    (setCluster fs d c bs).capacity = d.capacity := rfl

/-- Writing a cluster leaves the FAT. -/
theorem fat_setCluster {bs : List UInt8} (hc' : c' < fs.entries) (hf : f < fs.bpb.numFats) :
    fat fs (setCluster fs d c bs) f c' = fat fs d f c' := by
  rw [fat, setCluster, Disk.setBytes_bytes, read_write_of_disjoint, fat]
  exact .inl (fatAddr_le_dataAddr hf hc')

/-- Writing a cluster leaves the links. -/
theorem next_setCluster {bs : List UInt8} (hcopies : 1 ≤ fs.bpb.numFats) (hc' : c' < fs.entries) :
    next fs (setCluster fs d c bs) c' = next fs d c' := by
  rw [next, fat_setCluster hc' hcopies, next]

/-- The clusters after a write of one. -/
theorem cluster_setCluster {bs : List UInt8} (hlen : bs.length = fs.clusterSizeBytes) (hc : 2 ≤ c)
    (hc' : 2 ≤ c') :
    cluster fs (setCluster fs d c bs) c' = if c' = c then bs else cluster fs d c' := by
  split
  case isTrue h =>
    subst h
    rw [cluster, setCluster, Disk.setBytes_bytes, ← hlen, read_write_self]
  case isFalse h =>
    rw [cluster, setCluster, Disk.setBytes_bytes, read_write_of_disjoint, cluster]
    rw [hlen]
    rcases Nat.lt_or_gt_of_ne h with hlt | hlt
    · exact .inl (dataAddr_lt_of_lt hc' hlt)
    · exact .inr (dataAddr_lt_of_lt hc hlt)

end

/-! ## Runs of the low-level helpers -/

section
variable {fs} {d : Disk} {c v : ℕ} {buf : List UInt8}

/-- The chunks of a read neither leave out nor repeat a sector. -/
theorem readChunks_run (rem : ℕ) {sec off : ℕ} {buf : List UInt8}
    (hbuf : off + 512 * rem ≤ buf.length) (hd : sec + rem ≤ d.capacity) :
    readChunks rem sec off buf d =
      .ok (splice buf off (read d.bytes (512 * sec) (512 * rem))) d := by
  induction rem using Nat.strong_induction_on generalizing sec off buf with
  | _ rem ih =>
    rw [readChunks]
    by_cases hrem : rem = 0
    · rw [if_pos hrem, hrem, Nat.mul_zero, read_zero, splice_nil]
      rfl
    · have hcnt : 0 < min rem 8 ∧ min rem 8 ≤ 8 ∧ min rem 8 ≤ rem := by omega
      have hdrop : (buf.drop off).length = buf.length - off := List.length_drop
      generalize min rem 8 = cnt at hcnt
      have hlen : (read d.bytes (512 * sec) (512 * cnt)).length = 512 * cnt := length_read _ _ _
      rw [if_neg hrem, if_pos (by omega), Exec.bind_of_ok (readSectors_run hcnt.1 hcnt.2.1
        (by omega) (by omega)), take_append_splice_drop, ih (rem - cnt) (by omega)]
      · have hsplit : 512 * rem = 512 * cnt + 512 * (rem - cnt) := by omega
        have hone := splice_splice_append buf off (read d.bytes (512 * sec) (512 * cnt))
          (read d.bytes (512 * sec + 512 * cnt) (512 * (rem - cnt)))
          (by rw [length_read, length_read]; omega)
        rw [hlen] at hone
        rw [hsplit, read_add, ← hone, show 512 * (sec + cnt) = 512 * sec + 512 * cnt by omega]
      · have hsame : (splice buf off (read d.bytes (512 * sec) (512 * cnt))).length = buf.length :=
          length_splice (by rw [hlen]; omega)
        rw [hsame]
        omega
      · omega

/-- The chunks of a write neither leave out nor repeat a sector. -/
theorem writeChunks_run (rem : ℕ) {sec off : ℕ} {buf : List UInt8} {d : Disk}
    (hbuf : off + 512 * rem ≤ buf.length) (hd : sec + rem ≤ d.capacity) :
    writeChunks rem sec off buf d =
      .ok ⟨⟩ (d.setBytes (ByteMem.write d.bytes (512 * sec) (slice buf off (512 * rem)))) := by
  induction rem using Nat.strong_induction_on generalizing sec off d with
  | _ rem ih =>
    rw [writeChunks]
    by_cases hrem : rem = 0
    · rw [if_pos hrem, hrem, Nat.mul_zero]
      show _ = EStateM.Result.ok _ (d.setBytes (ByteMem.write d.bytes (512 * sec) []))
      rw [write_nil]
      rfl
    · have hcnt : 0 < min rem 8 ∧ min rem 8 ≤ 8 ∧ min rem 8 ≤ rem := by omega
      have hdrop : (buf.drop off).length = buf.length - off := List.length_drop
      generalize min rem 8 = cnt at hcnt
      have hlen : (slice buf off (512 * cnt)).length = 512 * cnt := by
        rw [length_slice]
        omega
      rw [if_neg hrem, if_pos (by omega), Exec.bind_of_ok (writeSectors_run hcnt.1 hcnt.2.1
        (by omega) (by omega)), ih (rem - cnt) (by omega) (by omega)
        (by rw [Disk.setBytes_capacity]; omega), Disk.setBytes_bytes, Disk.setBytes_setBytes]
      have hsplit : slice buf off (512 * rem) =
          slice buf off (512 * cnt) ++ slice buf (off + 512 * cnt) (512 * (rem - cnt)) := by
        rw [show 512 * rem = 512 * cnt + 512 * (rem - cnt) by omega, slice, List.take_add,
          List.drop_drop]
        rfl
      have hone := write_write_append d.bytes (512 * sec) (slice buf off (512 * cnt))
        (slice buf (off + 512 * cnt) (512 * (rem - cnt)))
      rw [hlen] at hone
      rw [hsplit, ← hone, show 512 * (sec + cnt) = 512 * sec + 512 * cnt by omega]
      rfl

/-- From cluster 2 on, `cluster_to_sector` gives the first sector of the cluster. -/
theorem clusterToSector_run {ε σ : Type} {s : σ} (hc : 2 ≤ c) :
    (clusterToSector fs c : Exec ε σ ℕ) s =
      .ok (fs.dataStart + (c - 2) * fs.bpb.sectorsPerCluster) s := by
  rw [clusterToSector, if_pos hc]
  rfl

/-- `read_cluster`, when the cluster's sectors are on the drive: the bytes come to the start of the
buffer. -/
theorem readCluster_splice (hc : 2 ≤ c) (hd : fs.dataStart + (c - 2) * fs.bpb.sectorsPerCluster +
    fs.bpb.sectorsPerCluster ≤ d.capacity) (hbuf : fs.clusterSizeBytes ≤ buf.length) :
    readCluster fs c buf d = .ok (splice buf 0 (cluster fs d c)) d := by
  rw [readCluster, Exec.bind_of_ok (clusterToSector_run hc), readChunks_run _ ?_ hd]
  · rfl
  · rw [Nat.zero_add]
    exact hbuf

/-- `read_cluster` on a buffer of the size of a cluster. -/
theorem readCluster_of_le (hc : 2 ≤ c) (hd : fs.dataStart + (c - 2) * fs.bpb.sectorsPerCluster +
    fs.bpb.sectorsPerCluster ≤ d.capacity) (hbuf : buf.length = fs.clusterSizeBytes) :
    readCluster fs c buf d = .ok (cluster fs d c) d := by
  rw [readCluster_splice hc hd hbuf.ge, splice_all]
  rw [length_cluster, hbuf]

/-- `read_cluster` gives the cluster's bytes. -/
theorem readCluster_run (hfits : fs.Fits d.capacity) (hc : fs.InRange c)
    (hbuf : buf.length = fs.clusterSizeBytes) :
    readCluster fs c buf d = .ok (cluster fs d c) d :=
  readCluster_of_le hc.1 (hfits.data c hc) hbuf

/-- `write_cluster`, when the cluster's sectors are on the drive: it takes the bytes at the start of
the buffer. -/
theorem writeCluster_take (hc : 2 ≤ c) (hd : fs.dataStart + (c - 2) * fs.bpb.sectorsPerCluster +
    fs.bpb.sectorsPerCluster ≤ d.capacity) (hbuf : fs.clusterSizeBytes ≤ buf.length) :
    writeCluster fs c buf d = .ok ⟨⟩ (setCluster fs d c (buf.take fs.clusterSizeBytes)) := by
  rw [writeCluster, Exec.bind_of_ok (clusterToSector_run hc), writeChunks_run _ ?_ hd]
  · rfl
  · rw [Nat.zero_add]
    exact hbuf

/-- `write_cluster` from a buffer of the size of a cluster. -/
theorem writeCluster_of_le (hc : 2 ≤ c) (hd : fs.dataStart + (c - 2) * fs.bpb.sectorsPerCluster +
    fs.bpb.sectorsPerCluster ≤ d.capacity) (hbuf : buf.length = fs.clusterSizeBytes) :
    writeCluster fs c buf d = .ok ⟨⟩ (setCluster fs d c buf) := by
  rw [writeCluster_take hc hd hbuf.ge, List.take_of_length_le hbuf.le]

/-- `write_cluster` writes the cluster's bytes. -/
theorem writeCluster_run (hfits : fs.Fits d.capacity) (hc : fs.InRange c)
    (hbuf : buf.length = fs.clusterSizeBytes) :
    writeCluster fs c buf d = .ok ⟨⟩ (setCluster fs d c buf) :=
  writeCluster_of_le hc.1 (hfits.data c hc) hbuf

/-- Reading a cluster, changing its bytes and writing it back. -/
theorem modifyCluster_run {g : List UInt8 → List UInt8} (hfits : fs.Fits d.capacity)
    (hc : fs.InRange c) (hg : (g (cluster fs d c)).length = fs.clusterSizeBytes) :
    modifyCluster fs c g d = .ok ⟨⟩ (setCluster fs d c (g (cluster fs d c))) := by
  rw [modifyCluster, Exec.bind_of_ok (readCluster_run hfits hc (List.length_replicate ..)),
    writeCluster_run hfits hc hg]

/-- One sector into a fresh buffer. -/
theorem readSector_run {lba : ℕ} (hd : lba + 1 ≤ d.capacity) :
    readSectors lba 1 (List.replicate 512 0) d = .ok (read d.bytes (512 * lba) 512) d := by
  rw [readSectors_run (by decide) (by decide) (List.length_replicate ..).ge hd, splice_all]
  rw [length_read, List.length_replicate]

/-- The entry of a cluster in the sector that holds it. -/
theorem field_fatSector (fs : Fat32Fs) (d : Disk) (c f : ℕ) :
    field (read d.bytes (512 * (fs.fatStart + f * fs.bpb.fatSizeSectors + 4 * c / 512)) 512)
      (4 * c % 512) 4 = fat fs d f c := by
  rw [field, slice_read _ _ (by omega), fat, fatAddr]
  congr 2
  omega

/-- `next_cluster`, when the sector of the entry is on the drive. -/
theorem nextCluster_of_le (hd : fs.fatStart + 4 * c / 512 + 1 ≤ d.capacity) :
    nextCluster fs c d = .ok (next fs d c) d := by
  have hfield := field_fatSector fs d c 0
  rw [Nat.zero_mul, Nat.add_zero] at hfield
  rw [nextCluster, Exec.bind_of_ok (readSector_run (by omega)), hfield]
  exact congrArg (EStateM.Result.ok · d) (Bits.and_low_mask _ 28)

/-- `next_cluster` gives the cluster's link. -/
theorem nextCluster_run (hfits : fs.Fits d.capacity) (hc : c < fs.entries) :
    nextCluster fs c d = .ok (next fs d c) d := by
  have hsec := hfits.fat_sector hfits.copies hc
  rw [Nat.zero_mul, Nat.add_zero] at hsec
  exact nextCluster_of_le (by omega)

/-- `set_fat_entry` in one copy, when the sector of the entry is on the drive. -/
theorem setFatEntryIn_of_le {f : ℕ}
    (hd : fs.fatStart + f * fs.bpb.fatSizeSectors + 4 * c / 512 + 1 ≤ d.capacity) :
    setFatEntryIn fs c v f d = .ok ⟨⟩ (setFatCopy fs c v d f) := by
  have hold := fat_lt fs d f c
  have hnew : fat fs d f c &&& 0xF0000000 ||| v &&& 0x0FFFFFFF =
      fat fs d f c / 2 ^ 28 * 2 ^ 28 + v % 2 ^ 28 := by
    have h1 : fat fs d f c &&& 0xF0000000 = fat fs d f c / 2 ^ 28 * 2 ^ 28 :=
      Bits.and_high_mask (k := 28) (w := 32) (by decide) hold
    have h2 : v &&& 0x0FFFFFFF = v % 2 ^ 28 := Bits.and_low_mask _ 28
    rw [h1, h2]
    exact Bits.or_eq_add (k := 28) (Nat.dvd_mul_left _ _) (Nat.mod_lt _ (by decide))
  have hlen : (splice (read d.bytes (512 * (fs.fatStart + f * fs.bpb.fatSizeSectors + 4 * c / 512))
      512) (4 * c % 512) (toLe 4 (fat fs d f c / 2 ^ 28 * 2 ^ 28 + v % 2 ^ 28))).length = 512 := by
    rw [length_splice, length_read]
    rw [length_read, length_toLe]
    omega
  have hwrite := write_splice_read d.bytes
    (512 * (fs.fatStart + f * fs.bpb.fatSizeSectors + 4 * c / 512)) (4 * c % 512) 512
    (toLe 4 (fat fs d f c / 2 ^ 28 * 2 ^ 28 + v % 2 ^ 28)) (by rw [length_toLe]; omega)
  rw [setFatEntryIn, Exec.bind_of_ok (readSector_run hd), field_fatSector, hnew,
    writeSectors_run (by decide) (by decide) hlen.ge hd, slice, List.drop_zero,
    List.take_of_length_le hlen.le, hwrite, setFatCopy, fatAddr]
  congr 3
  omega

/-- `set_fat_entry`, when the drive has the copies of the FAT. -/
theorem setFatEntry_of_le (hc : c < fs.entries) (hd : fs.dataStart ≤ d.capacity) :
    setFatEntry fs c v d = .ok ⟨⟩ (setFat fs d c v) := by
  refine Exec.forM_run (g := setFatCopy fs c v) (P := fun s => s.capacity = d.capacity)
    (fun f hf s hs => ⟨setFatEntryIn_of_le ?_, hs⟩) rfl
  have hsec := entrySector_lt (List.mem_range.1 hf) hc
  rw [hs]
  omega

/-- `set_fat_entry` writes every copy. -/
theorem setFatEntry_run (hfits : fs.Fits d.capacity) (hc : c < fs.entries) :
    setFatEntry fs c v d = .ok ⟨⟩ (setFat fs d c v) :=
  setFatEntry_of_le hc (hfits.dataStart_le hc)

end

/-! ## Allocation -/

/-- The cluster `alloc_cluster` finds: the first one from 2 on whose link is zero. -/
def firstFree (d : Disk) : Option ℕ :=
  (List.range fs.entries).find? fun c => 2 ≤ c ∧ next fs d c = 0

/-- The drive after the allocation of `c`, linked after `prev` if that is given. -/
def allocated (d : Disk) (prev : Option ℕ) (c : ℕ) : Disk :=
  let d := setFat fs d c 0x0FFFFFFF
  let d := prev.elim d fun p => setFat fs d p c
  setCluster fs d c (List.replicate fs.clusterSizeBytes 0)

section
variable {fs} {d : Disk} {c : ℕ} {prev : Option ℕ}

/-- A search for a result is a search for an element. -/
theorem findSome?_eq_find? {l : List ℕ} {f : ℕ → Option ℕ} {g : ℕ → ℕ} {p : ℕ → Bool}
    (h : ∀ i ∈ l, f i = if p (g i) then some (g i) else none) :
    l.findSome? f = (l.map g).find? p := by
  induction l with
  | nil => rfl
  | cons i l ih =>
    rw [List.findSome?_cons, List.map_cons, List.find?_cons, h i List.mem_cons_self,
      ih fun j hj => h j (List.mem_cons_of_mem _ hj)]
    cases p (g i) <;> rfl

/-- The search in one sector of the FAT finds its first free cluster. -/
theorem scanSector_run {si : ℕ} (hsi : si < 2 ^ 25) :
    scanSector (read d.bytes (512 * (fs.fatStart + si)) 512) si =
      ((List.range 128).map (128 * si + ·)).find? fun c => 2 ≤ c ∧ next fs d c = 0 := by
  refine findSome?_eq_find? fun i hi => ?_
  have hi := List.mem_range.1 hi
  have hfield : field (read d.bytes (512 * (fs.fatStart + si)) 512) (4 * i) 4 =
      fat fs d 0 (128 * si + i) := by
    rw [field, slice_read _ _ (by omega), fat, fatAddr]
    congr 2
    omega
  have hmask : fat fs d 0 (128 * si + i) &&& 0x0FFFFFFF = next fs d (128 * si + i) :=
    Bits.and_low_mask _ 28
  simp only
  rw [hfield, hmask, Nat.mod_eq_of_lt (by omega)]
  by_cases h2 : 128 * si + i < 2
  · rw [if_pos h2, if_neg (by simp; omega)]
  · have h2' : 2 ≤ 128 * si + i := Nat.le_of_not_lt h2
    rw [if_neg h2]
    exact if_congr (by simp [h2']) rfl rfl

/-- The search from a sector on. -/
theorem scanFat_run (hfits : fs.Fits d.capacity) (n : ℕ) {si : ℕ}
    (hn : si + n = fs.bpb.fatSizeSectors) :
    scanFat fs n si d =
      .ok ((List.range' (128 * si) (128 * n)).find? fun c => 2 ≤ c ∧ next fs d c = 0) d := by
  induction n generalizing si with
  | zero => rfl
  | succ n ih =>
    have hle := hfits.entries_le
    rw [Fat32Fs.entries_eq] at hle
    have hsec := hfits.fat_sector (c := 128 * si) hfits.copies (by rw [Fat32Fs.entries_eq]; omega)
    rw [Nat.zero_mul, Nat.add_zero] at hsec
    have hsplit : List.range' (128 * si) (128 * (n + 1)) =
        (List.range 128).map (128 * si + ·) ++ List.range' (128 * (si + 1)) (128 * n) := by
      rw [← List.range'_eq_map_range, Nat.mul_succ, Nat.add_comm (128 * n) 128, Nat.mul_succ,
        List.range'_append_1]
    rw [scanFat, Exec.bind_of_ok (readSector_run (by omega)), scanSector_run (by omega),
      hsplit, List.find?_append]
    cases hfound : ((List.range 128).map (128 * si + ·)).find?
        fun c => decide (2 ≤ c ∧ next fs d c = 0) with
    | some c => rfl
    | none =>
      rw [Option.none_or]
      exact ih (by omega)

/-- The first free cluster is in range and free. -/
theorem firstFree_some (h : firstFree fs d = some c) : fs.InRange c ∧ next fs d c = 0 := by
  have hp := List.find?_some h
  have hmem := List.mem_range.1 (List.mem_of_find?_eq_some h)
  obtain ⟨h2, h0⟩ := of_decide_eq_true hp
  exact ⟨⟨h2, hmem⟩, h0⟩

/-- With no free cluster found, every cluster in range is in use. -/
theorem firstFree_none (h : firstFree fs d = none) (hc : fs.InRange c) : next fs d c ≠ 0 := by
  have := List.find?_eq_none.1 h c (List.mem_range.2 hc.2)
  simpa [hc.1] using this

/-- The tables after an allocation: the predecessor links to the new end of the chain. -/
theorem fat_allocated (hc : fs.InRange c) (hprev : ∀ p ∈ prev, p < fs.entries) {f x : ℕ}
    (hf : f < fs.bpb.numFats) (hx : x < fs.entries) :
    fat fs (allocated fs d prev c) f x =
      if prev = some x then fat fs d f x / 2 ^ 28 * 2 ^ 28 + c % 2 ^ 28
      else if x = c then fat fs d f x / 2 ^ 28 * 2 ^ 28 + 0x0FFFFFFF else fat fs d f x := by
  have hmark : 0x0FFFFFFF % 2 ^ 28 = 0x0FFFFFFF := by decide
  rw [allocated]
  cases prev with
  | none =>
    rw [Option.elim_none, fat_setCluster hx hf, fat_setFat hc.2 hx hf, hmark,
      if_neg (show ¬ (none : Option ℕ) = some x from nofun)]
    split
    case isTrue he => rw [he]
    case isFalse => rfl
  | some p =>
    have hp := hprev p rfl
    rw [Option.elim_some, fat_setCluster hx hf, fat_setFat hp hx hf, fat_setFat hc.2 hp hf,
      fat_setFat hc.2 hx hf, hmark]
    simp only [Option.some.injEq]
    by_cases hxp : x = p
    · subst hxp
      rw [if_pos rfl, if_pos rfl]
      split
      case isTrue he =>
        subst he
        omega
      case isFalse => rfl
    · rw [if_neg hxp, if_neg (Ne.symm hxp)]
      split
      case isTrue he => rw [he]
      case isFalse => rfl

/-- The links after an allocation: the new cluster ends its chain. -/
theorem next_allocated (hcopies : 1 ≤ fs.bpb.numFats) (hc : fs.InRange c)
    (hc' : c < 2 ^ 28) (hprev : ∀ p ∈ prev, p < fs.entries) {x : ℕ} (hx : x < fs.entries) :
    next fs (allocated fs d prev c) x =
      if prev = some x then c else if x = c then 0x0FFFFFFF else next fs d x := by
  rw [next, fat_allocated hc hprev hcopies hx]
  split
  · omega
  · split
    · omega
    · rfl

/-- The clusters after an allocation: the new one is zero. -/
theorem cluster_allocated (hc : fs.InRange c) (hprev : ∀ p ∈ prev, p < fs.entries) {x : ℕ}
    (hx : 2 ≤ x) : cluster fs (allocated fs d prev c) x =
      if x = c then List.replicate fs.clusterSizeBytes 0 else cluster fs d x := by
  have hold : cluster fs (prev.elim (setFat fs d c 0x0FFFFFFF)
      fun p => setFat fs (setFat fs d c 0x0FFFFFFF) p c) x = cluster fs d x := by
    cases prev with
    | none => rw [Option.elim_none, cluster_setFat hc.2]
    | some p => rw [Option.elim_some, cluster_setFat (hprev p rfl), cluster_setFat hc.2]
  rw [allocated, cluster_setCluster (List.length_replicate ..) hc.1 hx]
  split
  · rfl
  · exact hold

/-- An allocation leaves the drive's size. -/
theorem allocated_capacity (hc : fs.InRange c) (hprev : ∀ p ∈ prev, p < fs.entries) :
    (allocated fs d prev c).capacity = d.capacity := by
  rw [allocated, setCluster_capacity]
  cases prev with
  | none => exact setFat_capacity hc.2
  | some p =>
    rw [Option.elim_some, setFat_capacity (hprev p rfl), setFat_capacity hc.2]

/-- A free cluster is above the reserved entries. -/
theorem lt_entries_of_lt_two (hc : fs.InRange c) {p : ℕ} (hp : p < 2 ∨ p < fs.entries) :
    p < fs.entries := hp.elim (fun h => h.trans (hc.1.trans_lt hc.2)) id

/-- `alloc_cluster`: it fails on a full disk, and otherwise allocates the first free cluster. -/
theorem allocCluster_run (prev : Option ℕ) (hfits : fs.Fits d.capacity)
    (hprev : ∀ p ∈ prev, p < 2 ∨ p < fs.entries) :
    allocCluster fs prev d = match firstFree fs d with
      | none => .error (.err "FAT32: disk full") d
      | some c => .ok c (allocated fs d prev c) := by
  have hscan : scanFat fs fs.bpb.fatSizeSectors 0 d = .ok (firstFree fs d) d := by
    rw [scanFat_run hfits _ (Nat.zero_add _), firstFree, List.range_eq_range', Nat.mul_zero]
    rfl
  rw [allocCluster, Exec.bind_of_ok hscan]
  cases hfree : firstFree fs d with
  | none => rfl
  | some c =>
    obtain ⟨hc, -⟩ := firstFree_some hfree
    have hfits₁ : fs.Fits (setFat fs d c 0x0FFFFFFF).capacity := by rwa [setFat_capacity hc.2]
    simp only
    rw [Exec.bind_of_ok (setFatEntry_run hfits hc.2)]
    cases prev with
    | none =>
      simp only
      rw [Exec.bind_of_ok (writeCluster_run hfits₁ hc (List.length_replicate ..))]
      rfl
    | some p =>
      have hp := lt_entries_of_lt_two hc (hprev p rfl)
      have hfits₂ : fs.Fits (setFat fs (setFat fs d c 0x0FFFFFFF) p c).capacity := by
        rwa [setFat_capacity hp, setFat_capacity hc.2]
      simp only
      rw [Exec.bind_of_ok (setFatEntry_run hfits₁ hp),
        Exec.bind_of_ok (writeCluster_run hfits₂ hc (List.length_replicate ..))]
      rfl

end

end Fat

end RossOs
