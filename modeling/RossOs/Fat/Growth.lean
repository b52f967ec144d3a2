import RossOs.Fat.Law

/-!
# Writes that grow a file

What happens where a file grows: on a disk without room for it, and past the end of the file. A
`create` that fails changes nothing, and a `write` that fails leaves behind only bytes of the data
in their place and clusters that the size does not count yet (`failures_contained`). A `write` past
the end of a file makes the gap readable, whatever the clusters of the chain had there
(`gapZero_iff`).
-/

namespace RossOs

open ByteMem

namespace Fat

/-! ## A disk without room -/

/-- What a `write` that fails may do: the size stays, in the node and in the record, and the bytes
of the file outside the range of the data stay, as do the other files. -/
structure Contained (fs : Fat32Fs) (h : Handle) (offset : ℕ) (data : List UInt8) (h' : Handle) :
    Prop where
  size : h'.node.size = h.node.size
  stored : (entryNode fs h'.disk h.node.parentCluster h.node.dirEntryOffset).size =
    (entryNode fs h.disk h.node.parentCluster h.node.dirEntryOffset).size
  file : ∃ old new, h.node.Reads fs h.disk old ∧ h'.node.Reads fs h'.disk new ∧
    Found fs h'.disk h.node.parentCluster h.node.dirEntryOffset new ∧
    ∀ i < old.length, i < offset ∨ offset + data.length ≤ i → new[i]? = old[i]?
  others : OthersKept fs h h'.disk

section
variable {fs : Fat32Fs} {d : Disk} {node : Fat32Node} {cs cs' : List ℕ} {pos i : ℕ}
  {data : List UInt8} {h' : Handle}

/-- A chain that grew covers what it covered. -/
theorem Grows.covers {p n : ℕ} {d' : Disk} (h : Grows fs p d cs d' cs')
    (hcover : n ≤ cs.length * fs.clusterSizeBytes) : n ≤ cs'.length * fs.clusterSizeBytes := by
  obtain ⟨new, rfl, -⟩ := h.new
  rw [List.length_append, Nat.add_mul]
  omega

/-- A byte of a file, in terms of the clusters of its chain. -/
theorem getElem?_take_clusters {n : ℕ} (hn : n ≤ cs.length * fs.clusterSizeBytes) (hi : i < n) :
    ((clusters fs d cs).take n)[i]? = some ((clusters fs d cs).getD i 0) := by
  have hlen : (clusters fs d cs).length = cs.length * fs.clusterSizeBytes := length_clusters cs
  rw [List.getElem?_take_of_lt hi, List.getD_eq_getElem?_getD,
    List.getElem?_eq_getElem (by omega), Option.getD_some]

/-- What was written without a change of the size. -/
theorem Target.contained (ht : Target fs d node cs) (h : WellFormed fs d) {m : ℕ}
    (hw : Wrote fs ⟨node, d⟩ cs pos (data.take m) h' cs') (hsize : h'.node.size = node.size) :
    Contained fs ⟨node, d⟩ pos data h' := by
  have hlt : h'.node.size < 2 ^ 32 := hsize.trans_lt ht.size_lt
  have hcover : node.size ≤ cs'.length * fs.clusterSizeBytes := hw.grows.covers ht.covers
  have hreads := hw.node.reads (hw.fits h.fits) (hsize.trans_le hcover)
  refine ⟨hsize, ?_, ⟨_, _, ht.file.reads h.fits ht.covers, hreads, ht.found h.fits hw hlt hreads,
    fun i hi hout => ?_⟩, ht.others h hw⟩
  · rw [ht.entry_after h.fits hw hlt, ht.entry]
    exact hsize
  · have hi : i < node.size := hi.trans_le (List.length_take_le ..)
    have hlen : (data.take m).length ≤ data.length := by
      rw [List.length_take]
      exact Nat.min_le_right ..
    rw [hsize, getElem?_take_clusters hcover hi, getElem?_take_clusters ht.covers hi, hw.bytes i,
      if_neg (by omega)]

/-- `write` refuses empty data. -/
theorem write_nil (offset : ℕ) (h : Handle) : write fs offset [] h = .error (.err ()) h := by
  rw [write, Exec.bind_of_ok (Exec.get_apply h)]
  simp

/-- `write` refuses a directory. -/
theorem write_of_isDir {h : Handle} (hdir : h.node.isDir = true) (offset : ℕ) (data : List UInt8) :
    write fs offset data h = .error (.err ()) h := by
  rw [write, Exec.bind_of_ok (Exec.get_apply h)]
  simp [hdir]

/-- A node that was just created is a file. -/
theorem isDir_of_create {dir n : Fat32Node} {d' : Disk} {fuel : ℕ} {name : String}
    (h : dir.create fs fuel name d = .ok n d') : n.isDir = false := by
  rw [Fat32Node.create] at h
  split at h
  · cases h
  · cases hraw : to83 name with
    | none =>
      rw [hraw] at h
      cases h
    | some raw =>
      rw [hraw] at h
      obtain ⟨dup, s₁, -, h⟩ := Exec.bind_eq_ok.1 h
      split at h
      · cases h
      · obtain ⟨slot, s₂, -, h⟩ := Exec.bind_eq_ok.1 h
        obtain ⟨-, s₃, -, h⟩ := Exec.bind_eq_ok.1 h
        rw [← (Exec.pure_eq_ok.1 h).1]
        rfl

/-- **Failures on a full disk are contained.** On a well-formed volume, a call through a node that
was reached through directories of the volume. -/
theorem failures_contained (h : WellFormed fs d)
    (hnode : Obtained fs (fun d c => c < 2 ∨ IsDir live fs d c) d node) :
    (∀ fuel name e d', node.create fs fuel name d = .error e d' → d' = d) ∧
    ∀ offset data e h', offset + data.length < 2 ^ 32 →
      write fs offset data ⟨node, d⟩ = .error e h' →
      (node.isDir = true → h' = ⟨node, d⟩) ∧
      (node.isDir = false → Contained fs ⟨node, d⟩ offset data h') := by
  constructor
  · intro fuel name e d' hrun
    cases hdir : node.isDir with
    | false =>
      rw [Fat32Node.create, hdir] at hrun
      cases hrun
      rfl
    | true =>
      have hfirst : node.firstCluster < 2 ∨ IsDir live fs d node.firstCluster := by
        cases hnode with
        | finddir hopened => exact hopened.first hdir
        | create h₀ hopened hcreate =>
          rw [isDir_of_create hcreate] at hdir
          cases hdir
      obtain ⟨cs, hchain⟩ := h.dirChain hfirst
      exact (create_sat h.fits hchain).of_error hrun
  · intro offset data e h' hsize hrun
    constructor
    · intro hdir
      rw [write_of_isDir hdir] at hrun
      cases hrun
      rfl
    · intro hfile
      obtain ⟨cs, ht⟩ := h.target_of_obtained hnode hfile
      by_cases hdata : data = []
      · subst hdata
        rw [write_nil] at hrun
        cases hrun
        exact ht.contained h (m := 0) (.refl h.fits ht.file offset) rfl
      · obtain ⟨-, cs', m, hw, hsize', -⟩ :=
          (write_sat (h := ⟨node, d⟩) h.fits ht.file hdata hsize).of_error hrun
        exact ht.contained h hw hsize'

end

section
variable {d : Disk} {node : Fat32Node} {data : List UInt8}

/-- More data than the small volume has room for: the write takes the clusters that are free, and
fails. -/
theorem write_of_long (hfits : smallFs.Fits d.capacity) (hn : FileNode smallFs d node [])
    (hlong : 128 * 512 < data.length) (hsize : data.length < 2 ^ 32) {c : ℕ}
    (hc : smallFs.InRange c) (hfree : next smallFs d c = 0) :
    ∃ h' cs' m, write smallFs 0 data ⟨node, d⟩ = .error (.err ()) h' ∧
      Wrote smallFs ⟨node, d⟩ [] 0 (data.take m) h' cs' ∧ h'.node.size = node.size ∧
      2 ≤ h'.node.firstCluster := by
  have hcb : smallFs.clusterSizeBytes = 512 := rfl
  have hdata : data ≠ [] := List.length_pos_iff.1 (by omega)
  have hsat : Exec.Sat (write smallFs 0 data ⟨node, d⟩) _ _ := write_sat hfits hn hdata (by omega)
  cases hrun : write smallFs 0 data ⟨node, d⟩ with
  | ok n h' =>
    -- the chain would have more clusters than there are
    obtain ⟨-, cs', hw, -, hcover, -⟩ := hsat.of_ok hrun
    have hin : cs' ⊆ List.range 128 := by
      intro x hx
      rcases hw.node.chain with ⟨-, rfl⟩ | hchain
      · cases hx
      · exact List.mem_range.2 (hchain.mem_in x hx).2
    have hle := (hw.grows.nodup.subperm hin).length_le
    rw [List.length_range] at hle
    rw [hcb] at hcover
    omega
  | error e h' =>
    obtain ⟨⟨⟨⟩, rfl⟩, cs', m, hw, hsize', hfull, -⟩ := hsat.of_error hrun
    refine ⟨h', cs', m, rfl, hw, hsize', ?_⟩
    rcases hw.node.chain with ⟨-, rfl⟩ | hchain
    · have hused := firstFree_none hfull hc
      rw [hw.grows.next_eq hfits.copies hc.2 List.not_mem_nil] at hused
      exact absurd hfree hused
    · exact (hchain.mem_in _ hchain.head_mem).1

end

/-- An empty file on a volume without room for the data. -/
theorem failures_contained_long : ∃ h',
    write smallFs 0 (List.replicate 65537 7) ⟨emptyNode, emptyFileDisk⟩ = .error (.err ()) h' ∧
      Contained smallFs ⟨emptyNode, emptyFileDisk⟩ 0 (List.replicate 65537 7) h' := by
  have hlen : (List.replicate 65537 (7 : UInt8)).length = 65537 := List.length_replicate ..
  have hused : next smallFs emptyFileDisk 2 ≠ 0 :=
    (fatChain_rootDisk emptyFileDisk_rows).next_ne_zero (List.mem_singleton.2 rfl)
  have hfree : next smallFs emptyFileDisk 10 = 0 := by
    rw [next_emptyFileDisk (by decide)]
    rfl
  obtain ⟨h', cs', m, hrun, -⟩ := write_of_long emptyFileDisk_readable.fits
    (fileNode_emptyNode hused) (by rw [hlen]; decide) (by rw [hlen]; decide)
    (show smallFs.InRange 10 by decide) hfree
  have hall := failures_contained wellFormed_emptyFileDisk
    (.finddir (.finddir .root finddir_emptyFileDisk (Bool.noConfusion ·)))
  exact ⟨h', hrun, (hall.2 0 _ _ h' (by rw [hlen]; decide) hrun).2 rfl⟩

/-- A write to the empty file in a stray directory fails, after it has put a first cluster into the
record, which is a part of the file `a`. -/
theorem failure_not_contained : ¬ ∀ (fs : Fat32Fs) (d : Disk) (node : Fat32Node) (offset : ℕ)
    (data : List UInt8) (h' : Handle), WellFormed fs d → Obtained fs (fun _ _ => True) d node →
    node.isDir = false → offset + data.length < 2 ^ 32 →
    write fs offset data ⟨node, d⟩ = .error (.err ()) h' →
    Contained fs ⟨node, d⟩ offset data h' := by
  intro hall
  have hlen : (List.replicate 65537 (7 : UInt8)).length = 65537 := List.length_replicate ..
  have hfree : next smallFs fileUpDisk 10 = 0 := by
    rw [fileUpDisk, next_strayDisk rfl fileUpDisk_bytes (by decide)]
    rfl
  obtain ⟨h', cs', m, hrun, hw, hsize, hfirst⟩ := write_of_long fileUpDisk_fits fileNode_innerNode
    (by rw [hlen]; decide) (by rw [hlen]; decide) (show smallFs.InRange 10 by decide) hfree
  have hcontained := hall smallFs fileUpDisk innerNode 0 _ h' wellFormed_fileUpDisk
    obtained_innerNode rfl (by rw [hlen]; decide) hrun
  refine not_othersKept_fileUpDisk hw (by rw [hsize]; decide) (fun hsame => ?_) hcontained.others
  rw [hsame] at hfirst
  exact absurd hfirst (by decide)

/-! ## Past the end -/

/-- The bytes of the file from its old size to the offset of a write read as zero, through the node
and through every later one. -/
def GapZero (fs : Fat32Fs) (h : Handle) (offset : ℕ) (h' : Handle) : Prop :=
  ∃ bytes, h'.node.Reads fs h'.disk bytes ∧
    Found fs h'.disk h.node.parentCluster h.node.dirEntryOffset bytes ∧
    ∀ i, h.node.size ≤ i → i < offset → bytes[i]? = some 0

section
variable {fs : Fat32Fs} {d : Disk} {e : DirEntry} {cs : List ℕ} {offset n : ℕ} {data : List UInt8}
  {h h' : Handle}

/-- A call on the drive leaves the node. -/
theorem node_of_onDisk {α : Type} {x : Exec String Disk α} {a : α} (hrun : onDisk x h = .ok a h') :
    h'.node = h.node := by
  rw [onDisk, Exec.mapErr_eq_ok, Exec.zoom] at hrun
  cases hx : x h.disk with
  | ok b d' =>
    rw [hx] at hrun
    cases hrun
    rfl
  | error e d' =>
    rw [hx] at hrun
    cases hrun

/-- A write that returns had data, up to an offset of 64 bits, and set the size when it went past
the end. -/
theorem of_write (hrun : write fs offset data h = .ok n h') :
    data ≠ [] ∧ offset + data.length < 2 ^ 64 ∧
      (h.node.size < offset + data.length →
        h'.node.size = (offset + data.length) % 2 ^ 32) := by
  rw [write, Exec.bind_of_ok (Exec.get_apply h)] at hrun
  simp only at hrun
  split at hrun
  · cases hrun
  next hfile =>
  split at hrun
  · cases hrun
  next h64 =>
  refine ⟨fun hdata => hfile (.inr hdata), by omega, fun hgrow => ?_⟩
  obtain ⟨u, h₁, -, hrun⟩ := Exec.bind_eq_ok.1 hrun
  rw [Exec.bind_of_ok (Exec.get_apply h₁)] at hrun
  obtain ⟨c, h₂, -, hrun⟩ := Exec.bind_eq_ok.1 hrun
  obtain ⟨w, h₃, -, hrun⟩ := Exec.bind_eq_ok.1 hrun
  have hmax : max (offset + data.length) h.node.size = offset + data.length := by omega
  rw [hmax, if_pos hgrow, Exec.bind_of_ok (Exec.modify_apply _ _)] at hrun
  obtain ⟨u, h₄, hstored, hrun⟩ := Exec.bind_eq_ok.1 hrun
  rw [← (Exec.pure_eq_ok.1 hrun).2, node_of_onDisk hstored]

/-- After a write past the end that the new size reaches, the bytes below the offset are those that
the clusters of the file had before. -/
theorem Target.gap {node : Fat32Node} (ht : Target fs d node cs) (hfits : fs.Fits d.capacity)
    (hgap : node.size < offset) (hrun : write fs offset data ⟨node, d⟩ = .ok n h')
    (hreach : offset ≤ (offset + data.length) % 2 ^ 32) :
    ∃ bytes, h'.node.Reads fs h'.disk bytes ∧
      Found fs h'.disk node.parentCluster node.dirEntryOffset bytes ∧
      ∀ i < offset, bytes[i]? = some ((clusters fs d cs).getD i 0) := by
  obtain ⟨hdata, h64, hsize⟩ := of_write hrun
  have hsize := hsize (Nat.lt_add_right _ hgap)
  obtain ⟨-, cs', hw, -, hcover, -⟩ := (write_sat_cut (h := ⟨node, d⟩) hfits ht.file hdata h64
    fun _ => (hgap.trans_le hreach).ne').of_ok hrun
  have hlt : h'.node.size < 2 ^ 32 := by
    rw [hsize]
    exact Nat.mod_lt _ (by decide)
  have hle : h'.node.size ≤ cs'.length * fs.clusterSizeBytes := by
    rw [hsize]
    exact (Nat.mod_le ..).trans hcover
  have hreads := hw.node.reads (hw.fits hfits) hle
  refine ⟨_, hreads, ht.found hfits hw hlt hreads, fun i hi => ?_⟩
  rw [getElem?_take_clusters hle (by omega), hw.bytes i, if_neg (by omega)]

/-- **What a write past the end leaves in the gap.** The gap reads as zero exactly when the clusters
that the file had before hold zeros there, and the new size, cut to 32 bits, reaches the offset. -/
theorem gapZero_iff (h : WellFormed fs d) (he : IsEntry live fs d e) (hfile : e.isDirectory = false)
    (hcs : DirChain fs d e.first cs) (hgap : (nodeOf e).size < offset)
    (hrun : write fs offset data ⟨nodeOf e, d⟩ = .ok n h') :
    GapZero fs ⟨nodeOf e, d⟩ offset h' ↔ offset ≤ (offset + data.length) % 2 ^ 32 ∧
      ∀ i, (nodeOf e).size ≤ i → i < offset → (clusters fs d cs).getD i 0 = 0 := by
  constructor
  · rintro ⟨bytes, hbytes, -, hzero⟩
    have hreach : offset ≤ (offset + data.length) % 2 ^ 32 := by
      -- otherwise the last byte of the gap lies past the end
      by_contra hcut
      have hsize := (of_write hrun).2.2 (Nat.lt_add_right _ hgap)
      have hlen : (offset + data.length) % 2 ^ 32 = bytes.length := hsize.symm.trans hbytes.1
      have hlast := hzero (offset - 1) (Nat.le_sub_one_of_lt hgap) (by omega)
      rw [List.getElem?_eq_none (by omega)] at hlast
      cases hlast
    refine ⟨hreach, fun i hi hio => ?_⟩
    obtain ⟨bytes', hbytes', -, hbyte⟩ := (h.target he hfile hcs).gap h.fits hgap hrun hreach
    have hz := hzero i hi hio
    rw [hbytes.unique hbytes', hbyte i hio] at hz
    exact Option.some.inj hz
  · rintro ⟨hreach, hzero⟩
    obtain ⟨bytes, hbytes, hfound, hbyte⟩ := (h.target he hfile hcs).gap h.fits hgap hrun hreach
    refine ⟨bytes, hbytes, hfound, fun i hi hio => ?_⟩
    rw [hbyte i hio, hzero i hi hio]

end

/-- The entry of a root directory that has one. -/
theorem isEntry_of_root {fs : Fat32Fs} {d : Disk} {l : List ℕ} {file : DirEntry}
    (hroot : FatChain fs d fs.bpb.rootCluster l) (hview : live (dirSlots fs d l) = [file])
    (hfile : file.isDirectory = false) : IsEntry live fs d file := by
  refine ⟨_, l, .root, hroot, ?_, fun hdir => ?_⟩
  · rw [hview]
    exact List.mem_singleton.2 rfl
  · rw [hfile] at hdir
    cases hdir

/-- The second byte into an empty file: the first one is zero. -/
theorem gapZero_empty_file : ∃ h', write smallFs 1 [7] ⟨emptyNode, emptyFileDisk⟩ = .ok 1 h' ∧
    GapZero smallFs ⟨emptyNode, emptyFileDisk⟩ 1 h' := by
  have hroot := fatChain_rootDisk emptyFileDisk_rows
  have hfree : next smallFs emptyFileDisk 10 = 0 := by
    rw [next_emptyFileDisk (by decide)]
    rfl
  have hnode : nodeOf ⟨record (oneLetter 0x41) 0x20 0 0, 2, 0⟩ = emptyNode := by decide
  obtain ⟨h', -, hrun, -⟩ := write_of_empty 1 7 emptyFileDisk_readable.fits
    (fileNode_emptyNode (hroot.next_ne_zero (List.mem_singleton.2 rfl))) rfl (by decide)
    (show smallFs.InRange 10 by decide) hfree
  rw [← hnode] at hrun ⊢
  have hiff := gapZero_iff wellFormed_emptyFileDisk
    (isEntry_of_root hroot live_emptyFileDisk (by decide)) (by decide) (.inl ⟨by decide, rfl⟩)
    (by decide) hrun
  exact ⟨h', hrun, hiff.2 ⟨by decide, fun i _ _ => rfl⟩⟩

/-- The file `a` of one byte. -/
def tailEntry : DirEntry := ⟨record (oneLetter 0x41) 0x20 3 1, 2, 0⟩

/-- A root directory with the file, whose cluster has another byte behind the end. -/
def tailDisk : Disk := smallDisk [(2, 0x0FFFFFFF, smallRows [tailEntry.bytes]),
  (3, 0x0FFFFFFF, 7 :: 5 :: List.replicate 510 0)]

/-- The clusters of the drive with a short file are well formed. -/
theorem tailDisk_rows : ∀ e ∈ [(2, 0x0FFFFFFF, smallRows [tailEntry.bytes]),
    (3, 0x0FFFFFFF, 7 :: 5 :: List.replicate 510 0)],
    2 ≤ e.1 ∧ e.1 < 128 ∧ e.2.2.length = 512 := by
  have hlen : (smallRows [tailEntry.bytes]).length = 512 :=
    length_smallRows _ (by decide) (by decide)
  have htail : (7 :: 5 :: List.replicate 510 (0 : UInt8)).length = 512 := by
    rw [List.length_cons, List.length_cons, List.length_replicate]
  exact List.forall_mem_cons.2 ⟨⟨le_rfl, show 2 < 128 by decide, hlen⟩,
    List.forall_mem_singleton.2 ⟨show 2 ≤ 3 by decide, show 3 < 128 by decide, htail⟩⟩

/-- The drive has all sectors of the small volume. -/
theorem tailDisk_fits : smallFs.Fits tailDisk.capacity := by
  rw [tailDisk, smallDisk_capacity tailDisk_rows]
  exact smallFs_fits

/-- The directory and the file have one cluster each. -/
theorem fatChain_tailDisk {c : ℕ} (hc : c = 2 ∨ c = 3) : FatChain smallFs tailDisk c [c] := by
  refine .last ⟨by omega, show c < 128 by omega⟩ ?_
  rw [tailDisk, next_smallDisk tailDisk_rows (by omega)]
  rcases hc with rfl | rfl
  · decide
  · decide

/-- The short file is the only entry there. -/
theorem live_tailDisk : live (dirSlots smallFs tailDisk [2]) = [tailEntry] := by
  rw [dirSlots_singleton, tailDisk, cluster_smallDisk tailDisk_rows (by decide)]
  decide +kernel

/-- The drive with a short file is well-formed. -/
theorem wellFormed_tailDisk : WellFormed smallFs tailDisk :=
  wellFormed_of_oneFile tailDisk_fits (fatChain_tailDisk (.inl rfl)) live_tailDisk
    ⟨by decide, .inr (fatChain_tailDisk (.inr rfl)), by decide, by decide⟩

/-- A byte that the cluster of a file has behind its end becomes a byte of the file. -/
theorem gap_not_zero : ¬ ∀ (fs : Fat32Fs) (d : Disk) (e : DirEntry) (offset n : ℕ)
    (data : List UInt8) (h' : Handle), WellFormed fs d → IsEntry live fs d e →
    e.isDirectory = false → (nodeOf e).size < offset →
    write fs offset data ⟨nodeOf e, d⟩ = .ok n h' → GapZero fs ⟨nodeOf e, d⟩ offset h' := by
  intro hall
  have hroot : FatChain smallFs tailDisk 2 [2] := fatChain_tailDisk (.inl rfl)
  have hentry := isEntry_of_root hroot live_tailDisk (by decide)
  have ht : Target smallFs tailDisk (nodeOf tailEntry) [3] :=
    wellFormed_tailDisk.target hentry (by decide) (.inr (fatChain_tailDisk (.inr rfl)))
  have hfree : next smallFs tailDisk 10 = 0 := by
    rw [tailDisk, next_smallDisk tailDisk_rows (by decide)]
    rfl
  have hdata : ([9] : List UInt8) ≠ [] := List.cons_ne_nil 9 []
  have hok : ∃ h', write smallFs 2 [9] ⟨nodeOf tailEntry, tailDisk⟩ = .ok 1 h' :=
    write_ok_of_free tailDisk_fits ht.file hdata (by decide) (by decide)
      (show smallFs.InRange 10 by decide) hfree
  obtain ⟨h', hrun⟩ := hok
  obtain ⟨bytes, hbytes, -, hzero⟩ := hall smallFs tailDisk tailEntry 2 _ _ h' wellFormed_tailDisk
    hentry (by decide) (by decide) hrun
  obtain ⟨bytes', hbytes', -, hbyte⟩ := ht.gap tailDisk_fits (by decide) hrun (by decide)
  have hone := hzero 1 (by decide) (by decide)
  have hcluster : clusters smallFs tailDisk [3] = 7 :: 5 :: List.replicate 510 0 := by
    rw [clusters, List.flatMap_singleton, tailDisk, cluster_smallDisk tailDisk_rows (by decide)]
    rfl
  rw [hbytes.unique hbytes', hbyte 1 (by decide), hcluster] at hone
  exact absurd hone (by decide)

end Fat

end RossOs
