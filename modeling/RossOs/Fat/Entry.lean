import RossOs.Fat.Write

/-!
# The record of a file

The node that `finddir` makes of a record, on the drive as it is now: `entryNode`. A node that is
obtained for the record is this one (`finddir_eq_entryNode`), and after a call of `write` through it
the record says what the node says (`Wrote.entryNode_eq`). What the call does to the contents of the
file is `Updated`.
-/

namespace RossOs

open ByteMem Ahci

namespace Fat

/-! ## Records -/

/-- The node for the record at offset `o` of the cluster `p`. -/
def entryNode (fs : Fat32Fs) (d : Disk) (p o : ℕ) : Fat32Node :=
  nodeOf ⟨slice (cluster fs d p) o 32, p, o⟩

section
variable {buf : List UInt8} {o c n : ℕ} {node node' : Fat32Node}

/-- The first cluster in a record has 32 bits. -/
theorem firstClusterOf_lt (e : List UInt8) : firstClusterOf e < 2 ^ 32 := by
  have h1 : field e 0x14 2 < 2 ^ 16 := field_lt e 0x14 2
  have h2 : field e 0x1A 2 < 2 ^ 16 := field_lt e 0x1A 2
  rw [firstClusterOf, Nat.shiftLeft_eq, Bits.or_eq_add (Nat.dvd_mul_left _ _) h2]
  omega

/-- The size in a record has 32 bits. -/
theorem entrySize_lt (e : List UInt8) : entrySize e < 2 ^ 32 := field_lt e 0x1C 4

variable (ho : o + 32 ≤ buf.length)

include ho

/-- The first cluster just put into a record reads back. -/
theorem firstClusterOf_putFirst (hc : c < 2 ^ 32) :
    firstClusterOf (slice (putFirst o c buf) o 32) = c := by
  have hin : (splice buf (o + 0x14) (toLe 2 (c >>> 16))).length = buf.length :=
    length_splice (by rw [length_toLe]; omega)
  have hhigh : slice (putFirst o c buf) (o + 0x14) 2 = toLe 2 (c >>> 16) := by
    have hself := slice_splice_self buf (toLe 2 (c >>> 16)) (o + 0x14)
      (by rw [length_toLe]; omega)
    rw [length_toLe] at hself
    rw [putFirst, slice_splice_of_disjoint (by rw [length_toLe]; omega) (.inl (by omega)), hself]
  have hlow : slice (putFirst o c buf) (o + 0x1A) 2 = toLe 2 c := by
    have hself := slice_splice_self (splice buf (o + 0x14) (toLe 2 (c >>> 16)))
      (toLe 2 c) (o + 0x1A) (by rw [length_toLe]; omega)
    rwa [length_toLe] at hself
  have hlt : c % 256 ^ 2 < 2 ^ 16 := Nat.mod_lt _ (by decide)
  rw [firstClusterOf, field, field, slice_slice _ (by decide), slice_slice _ (by decide), hhigh,
    hlow, leNat_toLe, leNat_toLe, Nat.shiftRight_eq_div_pow, Nat.shiftLeft_eq,
    Bits.or_eq_add (Nat.dvd_mul_left _ _) hlt]
  omega

/-- The other fields of the record. -/
theorem slice_putFirst {k m : ℕ} (hk : k + m ≤ 0x14 ∨ 0x16 ≤ k ∧ k + m ≤ 0x1A ∨ 0x1C ≤ k)
    (hm : k + m ≤ 32) :
    slice (slice (putFirst o c buf) o 32) k m = slice (slice buf o 32) k m := by
  have hin : (splice buf (o + 0x14) (toLe 2 (c >>> 16))).length = buf.length :=
    length_splice (by rw [length_toLe]; omega)
  rw [slice_slice _ hm, slice_slice _ hm, putFirst,
    slice_splice_of_disjoint (by rw [length_toLe]; omega) (by rw [length_toLe]; omega),
    slice_splice_of_disjoint (by rw [length_toLe]; omega) (by rw [length_toLe]; omega)]

/-- The size just put into a record reads back. -/
theorem entrySize_putSize (hn : n < 2 ^ 32) : entrySize (slice (putSize o n buf) o 32) = n := by
  have hself := slice_splice_self buf (toLe 4 n) (o + 0x1C)
    (by rw [length_toLe]; omega)
  rw [length_toLe] at hself
  rw [entrySize, field, slice_slice _ (by decide), putSize, hself, leNat_toLe_of_lt hn]

/-- A size put into a record leaves the fields before it. -/
theorem slice_putSize {k m : ℕ} (hm : k + m ≤ 0x1C) :
    slice (slice (putSize o n buf) o 32) k m = slice (slice buf o 32) k m := by
  rw [slice_slice _ (by omega), slice_slice _ (by omega), putSize,
    slice_splice_of_disjoint (by rw [length_toLe]; omega) (.inl (by omega))]

omit ho in
/-- The call changes nothing of the cluster but its record. -/
theorem slice_patchRecord_of_disjoint (node node' : Fat32Node)
    (hbuf : node.dirEntryOffset + 32 ≤ buf.length) {k : ℕ}
    (hk : k + 32 ≤ node.dirEntryOffset ∨ node.dirEntryOffset + 32 ≤ k) :
    slice (patchRecord node node' buf) k 32 = slice buf k 32 := by
  have hfirst : ∀ c, slice (putFirst node.dirEntryOffset c buf) k 32 = slice buf k 32 := by
    intro c
    have hin : (splice buf (node.dirEntryOffset + 0x14) (toLe 2 (c >>> 16))).length = buf.length :=
      length_splice (by rw [length_toLe]; omega)
    rw [putFirst,
      slice_splice_of_disjoint (by rw [length_toLe]; omega) (by rw [length_toLe]; omega),
      slice_splice_of_disjoint (by rw [length_toLe]; omega) (by rw [length_toLe]; omega)]
  have hsize : ∀ {buf : List UInt8} (n : ℕ), node.dirEntryOffset + 32 ≤ buf.length →
      slice (putSize node.dirEntryOffset n buf) k 32 = slice buf k 32 := fun n hlen =>
    slice_splice_of_disjoint (by rw [length_toLe]; omega) (by rw [length_toLe]; omega)
  by_cases hc : node'.firstCluster = node.firstCluster
  · by_cases hn : node'.size = node.size
    · rw [patchRecord, if_pos hc, if_pos hn]
    · rw [patchRecord, if_pos hc, if_neg hn, hsize _ hbuf]
  · by_cases hn : node'.size = node.size
    · rw [patchRecord, if_neg hc, if_pos hn, hfirst]
    · rw [patchRecord, if_neg hc, if_neg hn, hsize _ (by rwa [length_putFirst hbuf]), hfirst]

omit ho in
/-- The call changes nothing of the record before the first cluster. -/
theorem slice_patchRecord_head (node node' : Fat32Node)
    (hbuf : node.dirEntryOffset + 32 ≤ buf.length) {k m : ℕ} (hk : k + m ≤ 0x14) :
    slice (slice (patchRecord node node' buf) node.dirEntryOffset 32) k m =
      slice (slice buf node.dirEntryOffset 32) k m := by
  have hfirst : ∀ c, slice (slice (putFirst node.dirEntryOffset c buf) node.dirEntryOffset 32) k m =
      slice (slice buf node.dirEntryOffset 32) k m := fun c =>
    slice_putFirst hbuf (.inl hk) (by omega)
  have hlen : ∀ c, node.dirEntryOffset + 32 ≤ (putFirst node.dirEntryOffset c buf).length := by
    intro c
    rwa [length_putFirst hbuf]
  by_cases hc : node'.firstCluster = node.firstCluster
  · by_cases hn : node'.size = node.size
    · rw [patchRecord, if_pos hc, if_pos hn]
    · rw [patchRecord, if_pos hc, if_neg hn, slice_putSize hbuf (by omega)]
  · by_cases hn : node'.size = node.size
    · rw [patchRecord, if_neg hc, if_pos hn, hfirst]
    · rw [patchRecord, if_neg hc, if_neg hn, slice_putSize (hlen _) (by omega), hfirst]

omit ho in
/-- The attributes are the byte at 11. -/
theorem attr_eq_getD_slice (e : List UInt8) : attr e = (slice e 0x0B 1).getD 0 0 :=
  (getD_slice e (o := 0x0B) (n := 1) (i := 0) (by decide)).symm

/-- The record after a call of `write`: it has the first cluster and the size of `node'`, where the
call stored them or they were there before. -/
theorem nodeOf_patchRecord {p : ℕ} (hfile : (nodeOf ⟨slice buf o 32, p, o⟩).isDir = false)
    (hoff : node.dirEntryOffset = o) (hfile' : node'.isDir = false) (hp : node'.parentCluster = p)
    (ho' : node'.dirEntryOffset = o) (hfirst : node'.firstCluster < 2 ^ 32)
    (hsize : node'.size < 2 ^ 32)
    (hfirst₀ : node'.firstCluster = node.firstCluster →
      firstClusterOf (slice buf o 32) = node'.firstCluster)
    (hsize₀ : node'.size = node.size → entrySize (slice buf o 32) = node'.size) :
    nodeOf ⟨slice (patchRecord node node' buf) o 32, p, o⟩ = node' := by
  have hattr : ¬ attr (slice buf o 32) &&& 0x10 ≠ 0 := by
    intro hdir
    rw [nodeOf, if_pos hdir] at hfile
    cases hfile
  -- The first patch.
  generalize hbuf₁ : (if node'.firstCluster = node.firstCluster then buf
    else putFirst node.dirEntryOffset node'.firstCluster buf) = buf₁
  have hstep₁ : buf₁.length = buf.length ∧ attr (slice buf₁ o 32) = attr (slice buf o 32) ∧
      firstClusterOf (slice buf₁ o 32) = node'.firstCluster ∧
      entrySize (slice buf₁ o 32) = entrySize (slice buf o 32) := by
    rw [← hbuf₁, hoff]
    split
    case isTrue heq => exact ⟨rfl, rfl, hfirst₀ heq, rfl⟩
    case isFalse =>
      refine ⟨length_putFirst ho, ?_, firstClusterOf_putFirst ho hfirst, ?_⟩
      · rw [attr_eq_getD_slice, slice_putFirst ho (.inl (by decide)) (by decide),
          ← attr_eq_getD_slice]
      · rw [entrySize, field, slice_putFirst ho (.inr (.inr le_rfl)) le_rfl]
        rfl
  obtain ⟨hlen₁, hattr₁, hfirst₁, hsize₁⟩ := hstep₁
  have ho₁ : o + 32 ≤ buf₁.length := by rwa [hlen₁]
  -- The second one.
  have hstep₂ : attr (slice (patchRecord node node' buf) o 32) = attr (slice buf o 32) ∧
      firstClusterOf (slice (patchRecord node node' buf) o 32) = node'.firstCluster ∧
      entrySize (slice (patchRecord node node' buf) o 32) = node'.size := by
    have hpatch : patchRecord node node' buf =
        if node'.size = node.size then buf₁ else putSize o node'.size buf₁ := by
      rw [← hbuf₁, ← hoff]
      rfl
    rw [hpatch]
    split
    case isTrue heq => exact ⟨hattr₁, hfirst₁, hsize₁.trans (hsize₀ heq)⟩
    case isFalse =>
      refine ⟨?_, ?_, entrySize_putSize ho₁ hsize⟩
      · rw [attr_eq_getD_slice, slice_putSize ho₁ (by decide), ← attr_eq_getD_slice, hattr₁]
      · rw [← hfirst₁, firstClusterOf, field, field, slice_putSize ho₁ (by decide),
          slice_putSize ho₁ (by decide)]
        rfl
  obtain ⟨hattr₂, hfirst₂, hsize₂⟩ := hstep₂
  rw [nodeOf, hattr₂, if_neg hattr, hfirst₂, hsize₂]
  obtain ⟨first, size, isDir, parent, off⟩ := node'
  cases hfile'
  cases hp
  cases ho'
  rfl

end

section
variable {fs : Fat32Fs} {d d' : Disk} {node : Fat32Node} {h h' : Handle} {cs cs' : List ℕ}
  {pos p o : ℕ} {data : List UInt8}

/-- The node of a record knows its place. -/
theorem entryNode_place (fs : Fat32Fs) (d : Disk) (p o : ℕ) :
    (entryNode fs d p o).parentCluster = p ∧ (entryNode fs d p o).dirEntryOffset = o :=
  ⟨parentCluster_nodeOf _, dirEntryOffset_nodeOf _⟩

/-- The numbers in the node of a record have 32 bits. -/
theorem entryNode_lt (fs : Fat32Fs) (d : Disk) (p o : ℕ) :
    (entryNode fs d p o).firstCluster < 2 ^ 32 ∧ (entryNode fs d p o).size < 2 ^ 32 := by
  rw [entryNode, nodeOf]
  split
  · exact ⟨firstClusterOf_lt _, Nat.two_pow_pos 32⟩
  · exact ⟨firstClusterOf_lt _, entrySize_lt _⟩

/-- The node of a file's record. -/
theorem entryNode_of_file (hfile : (entryNode fs d p o).isDir = false) :
    entryNode fs d p o = .file (firstClusterOf (slice (cluster fs d p) o 32))
      (entrySize (slice (cluster fs d p) o 32)) p o := by
  rw [entryNode, nodeOf] at hfile ⊢
  split at hfile
  case isTrue => cases hfile
  case isFalse hattr => rw [if_neg hattr]

/-- After a write the record says what the node says, when it did so before. -/
theorem Wrote.entryNode_eq (hfits : fs.Fits h.disk.capacity) (hw : Wrote fs h cs pos data h' cs')
    (hentry : entryNode fs h.disk p o = h.node) (hfile : h.node.isDir = false)
    (hlt : h'.node.size < 2 ^ 32) : entryNode fs h'.disk p o = h'.node := by
  have hplace := entryNode_place fs h.disk p o
  rw [hentry] at hplace
  obtain ⟨hp, ho⟩ := hplace
  have hoff := hw.node.offset
  rw [hw.place.2, ho] at hoff
  have hrecord := hw.record
  rw [hp] at hrecord
  have hfirst' : h'.node.firstCluster < 2 ^ 32 := by
    rcases hw.node.chain with ⟨hlt, -⟩ | hchain
    · omega
    · have := lt_of_inRange hfits (hchain.mem_in _ hchain.head_mem)
      omega
  rw [← hentry] at hfile
  have hfields := (entryNode_of_file hfile).symm.trans hentry
  rw [entryNode, hrecord]
  exact nodeOf_patchRecord (by rwa [length_cluster]) hfile ho hw.node.file (hw.place.1.trans hp)
    (hw.place.2.trans ho) hfirst' hlt
    (fun heq => (congrArg Fat32Node.firstCluster hfields).trans heq.symm)
    (fun heq => (congrArg Fat32Node.size hfields).trans heq.symm)

end

/-! ## Opening a file -/

section
variable {fs : Fat32Fs} {S T : Type} {f : DirEntry → S → Option T × S} {v : T} {s s' : S}
  {d d' : Disk} {c : ℕ}

/-- What a walk finds, it finds in a slot. -/
theorem walkSlots_found {buf : List UInt8} {n i : ℕ}
    (h : walkSlots f buf c n i s = (.found v, s')) :
    ∃ k s₀, f ⟨slice buf k 32, c, k⟩ s₀ = (some v, s') := by
  induction n generalizing i s with
  | zero => cases congrArg Prod.fst h
  | succ n ih =>
    rw [walkSlots] at h
    split at h
    · cases congrArg Prod.fst h
    split at h
    · exact ih h
    split at h
    · exact ih h
    split at h
    case h_1 v' s₁ hf =>
      cases h
      exact ⟨i, s, hf⟩
    case h_2 => exact ih h

/-- What a walk returns comes from a record of a cluster it read. -/
theorem walkDirFrom_found {fuel : ℕ}
    (h : walkDirFrom fs f fuel c s d = .ok (some v, s') d') :
    ∃ c' buf k s₀, readCluster fs c' (List.replicate fs.clusterSizeBytes 0) d = .ok buf d ∧
      f ⟨slice buf k 32, c', k⟩ s₀ = (some v, s') := by
  induction fuel generalizing c s with
  | zero =>
    rw [walkDirFrom] at h
    split at h
    · cases h
    · cases h
  | succ fuel ih =>
    rw [walkDirFrom] at h
    split at h
    case isFalse => cases h
    case isTrue =>
      obtain ⟨buf, d₁, hread, hrest⟩ := Exec.bind_eq_ok.1 h
      obtain rfl := (readCluster_readOnly fs c _).state_eq hread
      rcases hslots : walkSlots f buf c fs.slots 0 s with ⟨flow, s₁⟩
      rw [hslots] at hrest
      cases flow with
      | stop => cases hrest
      | found v' =>
        cases hrest
        obtain ⟨k, s₀, hf⟩ := walkSlots_found hslots
        exact ⟨c, buf, k, s₀, hread, hf⟩
      | more =>
        obtain ⟨x, d₂, hnext, hwalk⟩ := Exec.bind_eq_ok.1 hrest
        obtain rfl := (nextCluster_readOnly fs c).state_eq hnext
        exact ih hwalk

/-- A node that a lookup yields is the node of its record. -/
theorem finddir_eq_entryNode {dir node : Fat32Node} {fuel : ℕ} {name : String}
    (hfits : fs.Fits d.capacity) (h : dir.finddir fs fuel name d = .ok node d')
    (hp : fs.InRange node.parentCluster) :
    d' = d ∧ node = entryNode fs d node.parentCluster node.dirEntryOffset := by
  refine ⟨(finddir_readOnly fs fuel dir name).state_eq h, ?_⟩
  rw [Fat32Node.finddir] at h
  split at h
  · cases h
  · obtain ⟨⟨found, s⟩, d₁, hwalk, hrest⟩ := Exec.bind_eq_ok.1 h
    cases found with
    | none => cases hrest
    | some n =>
      cases hrest
      obtain ⟨c, buf, k, s₀, hread, hf⟩ := walkDirFrom_found (Exec.mapErr_eq_ok.1 hwalk)
      obtain ⟨-, rfl⟩ : nameMatches (slice buf k 32) name = true ∧
          nodeOf ⟨slice buf k 32, c, k⟩ = node := by
        simpa using congrArg Prod.fst hf
      have hc : fs.InRange c := by rwa [parentCluster_nodeOf] at hp
      rw [readCluster_run hfits hc (List.length_replicate ..)] at hread
      cases hread
      rw [parentCluster_nodeOf, dirEntryOffset_nodeOf]
      rfl

end

/-! ## The contents of a file -/

/-- The node has the size of these bytes, and a read yields them from the offset on, as far as they
and the buffer go. -/
def Fat32Node.Reads (fs : Fat32Fs) (d : Disk) (node : Fat32Node) (bytes : List UInt8) : Prop :=
  node.size = bytes.length ∧ ∀ offset buffer, node.read fs offset buffer d =
    .ok (min buffer.length (bytes.length - offset),
      splice buffer 0 (slice bytes offset buffer.length)) d

/-- The bytes `old` after a write of `data` at `pos`: nothing is said about a gap between the old
end and the data. -/
structure Updated (old : List UInt8) (pos : ℕ) (data new : List UInt8) : Prop where
  length : new.length = max old.length (pos + data.length)
  written : slice new pos data.length = data
  rest : ∀ i < old.length, i < pos ∨ pos + data.length ≤ i → new.getD i 0 = old.getD i 0

section
variable {fs : Fat32Fs} {d : Disk} {node : Fat32Node} {h h' : Handle} {cs cs' : List ℕ} {c pos : ℕ}
  {data : List UInt8}

/-- A chain is linked. -/
theorem FatChain.linked (hfits : fs.Fits d.capacity) (hchain : FatChain fs d c cs) :
    Linked fs d c cs := by
  have hdisk : ∀ {x}, fs.InRange x → OnDisk fs d x := fun {x} hx => by
    have hle := hfits.entries_le
    have hlt := hx.2
    have hsec := hfits.fat_sector hfits.copies hx.2
    rw [Nat.zero_mul, Nat.add_zero] at hsec
    exact ⟨hx.1, by omega, by omega, hfits.data x hx⟩
  induction hchain with
  | last hin _ => exact .cons (hdisk hin) (.nil _)
  | cons hin _ ih => exact .cons (hdisk hin) ih

/-- A node reads as one contents only. -/
theorem Fat32Node.Reads.unique {bytes bytes' : List UInt8} (h : node.Reads fs d bytes)
    (h' : node.Reads fs d bytes') : bytes = bytes' := by
  have hlen : bytes.length = bytes'.length := h.1.symm.trans h'.1
  have hall : ∀ {l : List UInt8}, l.length = bytes.length →
      splice (List.replicate bytes.length 0) 0 (slice l 0 bytes.length) = l := fun {l} hl => by
    rw [slice, List.drop_zero, List.take_of_length_le hl.le, splice_all]
    rw [hl, List.length_replicate]
  have hread := (h.2 0 (List.replicate bytes.length 0)).symm.trans (h'.2 0 _)
  rw [List.length_replicate, hall rfl, hall hlen.symm] at hread
  injection hread with hpair
  exact congrArg Prod.snd hpair

/-- A file whose chain covers its size reads as the bytes of its clusters. -/
theorem FileNode.reads (hfits : fs.Fits d.capacity) (hn : FileNode fs d node cs)
    (hcover : node.size ≤ cs.length * fs.clusterSizeBytes) :
    node.Reads fs d ((clusters fs d cs).take node.size) := by
  have hlinked : Linked fs d node.firstCluster cs := by
    rcases hn.chain with ⟨-, rfl⟩ | hchain
    · exact .nil _
    · exact hchain.linked hfits
  have hholds : node.Holds fs d ((clusters fs d cs).take node.size) :=
    ⟨hn.file, cs, hlinked, hcover, rfl⟩
  exact ⟨hholds.length.symm, Fat32Node.read_run hholds⟩

/-- The chain of a file that covered its size covers the new one. -/
theorem Wrote.covers (hw : Wrote fs h cs pos data h' cs')
    (hcover : h.node.size ≤ cs.length * fs.clusterSizeBytes)
    (hcover' : pos + data.length ≤ cs'.length * fs.clusterSizeBytes)
    (hsize : h'.node.size = max (pos + data.length) h.node.size) :
    h'.node.size ≤ cs'.length * fs.clusterSizeBytes := by
  obtain ⟨new, rfl, -⟩ := hw.grows.new
  rw [List.length_append, Nat.add_mul] at hcover' ⊢
  omega

/-- A write that went through updates the file's bytes. -/
theorem Wrote.updated (hw : Wrote fs h cs pos data h' cs')
    (hcover : h.node.size ≤ cs.length * fs.clusterSizeBytes)
    (hcover' : pos + data.length ≤ cs'.length * fs.clusterSizeBytes)
    (hsize : h'.node.size = max (pos + data.length) h.node.size) :
    Updated ((clusters fs h.disk cs).take h.node.size) pos data
      ((clusters fs h'.disk cs').take h'.node.size) := by
  have hold : ((clusters fs h.disk cs).take h.node.size).length = h.node.size := by
    rw [List.length_take, length_clusters, Nat.min_eq_left hcover]
  have hnew : ((clusters fs h'.disk cs').take h'.node.size).length = h'.node.size := by
    rw [List.length_take, length_clusters, Nat.min_eq_left (hw.covers hcover hcover' hsize)]
  have htake : ∀ {l : List UInt8} {n i : ℕ}, i < n → (l.take n).getD i 0 = l.getD i 0 :=
    fun {l n i} hi => by simp only [List.getD_eq_getElem?_getD, List.getElem?_take, if_pos hi]
  refine ⟨by rw [hold, hnew, hsize, Nat.max_comm], ?_, fun i hi hout => ?_⟩
  · have hlen : (slice ((clusters fs h'.disk cs').take h'.node.size) pos data.length).length =
        data.length := length_slice (by omega)
    refine ext_getD hlen fun i hi => ?_
    rw [hlen] at hi
    rw [getD_slice _ hi, htake (by omega), hw.bytes, if_pos (by omega), Nat.add_sub_cancel_left]
  · rw [hold] at hi
    rw [htake (by omega), htake hi, hw.bytes, if_neg (by omega)]

end

end Fat

end RossOs
