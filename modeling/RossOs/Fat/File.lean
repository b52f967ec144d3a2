import RossOs.Fat.Volume

/-!
# Reading a file

What `Fat32Node::read` returns: the bytes of the file at the offset, as far as the file and the
buffer go, when the chain of the file covers its size (`Fat32Node.read_run`). Reads and lookups
leave the drive as it is.
-/

namespace RossOs

open ByteMem Ahci

namespace Fat

variable (fs : Fat32Fs) (d : Disk)

/-- A cluster number whose FAT entry and data are on the drive. -/
structure OnDisk (c : ℕ) : Prop where
  two_le : 2 ≤ c
  not_eoc : c < 0x0FFFFFF8
  fat : fs.fatStart + 4 * c / 512 + 1 ≤ d.capacity
  data : fs.dataStart + (c - 2) * fs.bpb.sectorsPerCluster + fs.bpb.sectorsPerCluster ≤ d.capacity

/-- The clusters `cs` follow each other in the FAT from `c` on. -/
inductive Linked : ℕ → List ℕ → Prop
  | nil (c : ℕ) : Linked c []
  | cons {c : ℕ} {cs : List ℕ} : OnDisk fs d c → Linked (next fs d c) cs → Linked c (c :: cs)

/-- The bytes of a row of clusters. -/
def clusters (cs : List ℕ) : List UInt8 := cs.flatMap (cluster fs d)

/-- The node is a file of these bytes: its chain covers its size. -/
def Fat32Node.Holds (node : Fat32Node) (bytes : List UInt8) : Prop :=
  node.isDir = false ∧ ∃ cs, Linked fs d node.firstCluster cs ∧
    node.size ≤ cs.length * fs.clusterSizeBytes ∧ bytes = (clusters fs d cs).take node.size

section
variable {fs d} {c : ℕ} {cs : List ℕ}

/-- The bytes of a row of clusters. -/
theorem length_clusters (cs : List ℕ) :
    (clusters fs d cs).length = cs.length * fs.clusterSizeBytes := by
  induction cs with
  | nil => rw [clusters, List.flatMap_nil, List.length_nil, List.length_nil, Nat.zero_mul]
  | cons c cs ih =>
    rw [clusters, List.flatMap_cons, List.length_append, length_cluster, ← clusters, ih,
      List.length_cons, Nat.succ_mul, Nat.add_comm]

/-- A cluster that the drive has reads as its bytes. -/
theorem readCluster_onDisk (h : OnDisk fs d c) :
    readCluster fs c (List.replicate fs.clusterSizeBytes 0) d = .ok (cluster fs d c) d :=
  readCluster_of_le h.two_le h.data (List.length_replicate ..)

/-- The loop of `read_chain_into` on a chain that is long enough. -/
theorem readChainFrom_run (h : Linked fs d c cs) {left : ℕ} (out : List UInt8)
    (hleft : left ≤ cs.length * fs.clusterSizeBytes) :
    readChainFrom fs c left out d = .ok (out ++ (clusters fs d cs).take left) d := by
  induction h generalizing left out with
  | nil c =>
    obtain rfl : left = 0 := by
      rw [List.length_nil, Nat.zero_mul] at hleft
      exact Nat.le_zero.1 hleft
    rw [readChainFrom, if_neg (by omega), List.take_zero, List.append_nil]
    rfl
  | @cons c cs hc _ ih =>
    rw [readChainFrom]
    rcases Nat.eq_zero_or_pos left with rfl | hpos
    · rw [if_neg (by omega), List.take_zero, List.append_nil]
      rfl
    · have hcons : clusters fs d (c :: cs) = cluster fs d c ++ clusters fs d cs := List.flatMap_cons
      have htake : (cluster fs d c).take (min fs.clusterSizeBytes left) =
          (cluster fs d c).take left := by
        rcases Nat.le_total fs.clusterSizeBytes left with hle | hle
        · rw [Nat.min_eq_left hle, List.take_of_length_le (length_cluster fs d c).le,
            List.take_of_length_le ((length_cluster fs d c).trans_le hle)]
        · rw [Nat.min_eq_right hle]
      rw [List.length_cons, Nat.succ_mul] at hleft
      rw [if_pos ⟨hc.two_le, hc.not_eoc, hpos⟩, Exec.bind_of_ok (readCluster_onDisk hc),
        Exec.bind_of_ok (nextCluster_of_le hc.fat), ih _ (by omega), hcons, List.take_append,
        List.append_assoc, htake, length_cluster]
      congr 4
      omega

/-- What `read_chain_into` yields of a chain that covers what is asked for. -/
theorem readChainInto_run (h : Linked fs d c cs) {max : ℕ}
    (hmax : max ≤ cs.length * fs.clusterSizeBytes) :
    readChainInto fs c max d = .ok ((clusters fs d cs).take max) d := by
  rw [readChainInto]
  by_cases hc : c < 2
  · rw [if_pos hc]
    cases h with
    | nil =>
      rw [clusters, List.flatMap_nil, List.take_nil]
      rfl
    | cons hdisk => exact absurd hdisk.two_le (by omega)
  · rw [if_neg hc, readChainFrom_run h [] hmax, List.nil_append]

variable {node : Fat32Node} {bytes : List UInt8}

/-- A node holds as many bytes as its size says. -/
theorem Fat32Node.Holds.length (h : node.Holds fs d bytes) : bytes.length = node.size := by
  obtain ⟨-, cs, -, hsize, rfl⟩ := h
  rw [List.length_take, length_clusters, Nat.min_eq_left hsize]

/-- `Fat32Node::read` on a file whose chain covers its size. -/
theorem Fat32Node.read_run (h : node.Holds fs d bytes) (offset : ℕ) (buffer : List UInt8) :
    node.read fs offset buffer d =
      .ok (min buffer.length (bytes.length - offset),
        splice buffer 0 (slice bytes offset buffer.length)) d := by
  have hlen := h.length
  obtain ⟨hdir, cs, hlinked, hsize, rfl⟩ := h
  rw [hlen]
  show (if node.isDir = true then _ else _ : Exec Unit Disk _) d = _
  rw [hdir, if_neg Bool.false_ne_true]
  by_cases hoff : node.size ≤ offset
  · rw [if_pos hoff, slice, List.drop_eq_nil_of_le (by omega), List.take_nil, splice_nil,
      Nat.sub_eq_zero_of_le hoff, Nat.min_zero]
    rfl
  · generalize hwant : min buffer.length (node.size - offset) = want
    have hle : offset + want ≤ cs.length * fs.clusterSizeBytes := by omega
    have hchain : ((clusters fs d cs).take (offset + want)).length = offset + want := by
      rw [List.length_take, length_clusters, Nat.min_eq_left hle]
    rw [if_neg hoff]
    simp only
    rw [Exec.bind_of_ok (Exec.mapErr_of_ok (readChainInto_run hlinked hle)), hchain, Nat.min_self]
    have hslice : slice ((clusters fs d cs).take (offset + want)) offset want =
        slice ((clusters fs d cs).take node.size) offset buffer.length := by
      rw [slice, slice, List.drop_take, List.drop_take, List.take_take, List.take_take]
      congr 1
      omega
    split
    case isTrue hstop =>
      obtain rfl : want = 0 := by omega
      rw [← hslice, slice, List.take_zero, splice_nil]
      rfl
    case isFalse =>
      rw [Nat.add_sub_cancel_left, hslice]
      rfl

end

/-! ## Reading changes nothing -/

/-- A read request changes nothing. -/
theorem readSectors_readOnly (lba count : ℕ) (buf : List UInt8) :
    Exec.ReadOnly (readSectors lba count buf) := by
  rw [readSectors]
  refine .ite (.pure _) (.ite (.throw _) (.ite (.throw _) ?_))
  exact .bind .get fun d => .ite (.pure _) (.throw _)

/-- The sector loop of a read changes nothing. -/
theorem readChunks_readOnly (rem sec off : ℕ) (buf : List UInt8) :
    Exec.ReadOnly (readChunks rem sec off buf) := by
  induction rem using Nat.strong_induction_on generalizing sec off buf with
  | _ rem ih =>
    rw [readChunks]
    by_cases hrem : rem = 0
    · rw [if_pos hrem]
      exact .pure _
    · rw [if_neg hrem]
      refine .ite (.bind (readSectors_readOnly _ _ _) fun part => ?_) (.throw _)
      exact ih _ (by omega) _ _ _

/-- `read_cluster` changes nothing. -/
theorem readCluster_readOnly (c : ℕ) (buf : List UInt8) : Exec.ReadOnly (readCluster fs c buf) := by
  refine .bind ?_ fun first => readChunks_readOnly _ _ _ _
  rw [clusterToSector]
  exact .ite (.pure _) (.throw _)

/-- `next_cluster` changes nothing. -/
theorem nextCluster_readOnly (c : ℕ) : Exec.ReadOnly (nextCluster fs c) :=
  .bind (readSectors_readOnly _ _ _) fun _ => .pure _

/-- The read loop changes nothing. -/
theorem readChainFrom_readOnly (c left : ℕ) (out : List UInt8) :
    Exec.ReadOnly (readChainFrom fs c left out) := by
  induction left using Nat.strong_induction_on generalizing c out with
  | _ left ih =>
    rw [readChainFrom]
    by_cases h : 2 ≤ c ∧ c < 0x0FFFFFF8 ∧ 0 < left
    · have hpos := fs.clusterSizeBytes_pos
      rw [if_pos h]
      refine .bind (readCluster_readOnly _ _ _) fun part => ?_
      exact .bind (nextCluster_readOnly _ _) fun next => ih _ (by omega) _ _
    · rw [if_neg h]
      exact .pure _

/-- `read` changes nothing. -/
theorem read_readOnly (node : Fat32Node) (offset : ℕ) (buffer : List UInt8) :
    Exec.ReadOnly (node.read fs offset buffer) := by
  have hchain : ∀ first max, Exec.ReadOnly (readChainInto fs first max) := fun first max =>
    .ite (.pure _) (readChainFrom_readOnly fs _ _ _)
  refine .ite (.throw _) (.ite (.pure _) ?_)
  exact .bind (.mapErr (hchain _ _)) fun chain => .ite (.pure _) (.pure _)

/-- The walk of a directory changes nothing. -/
theorem walkDirFrom_readOnly {S T : Type} (f : DirEntry → S → Option T × S) (fuel c : ℕ) (s : S) :
    Exec.ReadOnly (walkDirFrom fs f fuel c s) := by
  induction fuel generalizing c s with
  | zero =>
    rw [walkDirFrom]
    exact .ite (.throw _) (.pure _)
  | succ fuel ih =>
    rw [walkDirFrom]
    refine .ite (.bind (readCluster_readOnly _ _ _) fun buf => ?_) (.pure _)
    split
    · exact .pure _
    · exact .pure _
    · exact .bind (nextCluster_readOnly _ _) fun next => ih _ _

/-- `finddir` changes nothing. -/
theorem finddir_readOnly (fuel : ℕ) (node : Fat32Node) (name : String) :
    Exec.ReadOnly (node.finddir fs fuel name) := by
  refine .ite (.throw _) (.bind (.mapErr (walkDirFrom_readOnly _ _ _ _ _)) fun found => ?_)
  split
  · exact .pure _
  · exact .throw _

end Fat

end RossOs
