import RossOs.Fat.Create
import RossOs.Fat.Entry
import RossOs.Lib.Run

/-!
# Several nodes for one file

Every lookup of a file makes a node of its own, with the first cluster and the size of that moment,
and `write` goes by these and stores them into the record. A run obtains nodes for one record and
writes through them. The nodes stay in step with the record, and with each other, as long as only a
file with a single node grows (`nodes_coherent`); two nodes of an empty file lose data.
-/

namespace RossOs

open ByteMem Ahci

namespace Fat

/-- The drive, and the nodes that were obtained for the file. -/
structure Nodes where
  disk : Disk
  nodes : List Fat32Node

/-- A lookup, or a write through the node with this index. -/
inductive Access where
  | finddir (fuel : ℕ) (dir : Fat32Node) (name : String)
  | write (i offset : ℕ) (data : List UInt8)

section
variable (fs : Fat32Fs) (p o : ℕ)

/-- One access. -/
def access (s : Nodes) : Access → Nodes
  | .finddir fuel dir name =>
    match dir.finddir fs fuel name s.disk with
    | .ok node d => ⟨d, s.nodes ++ [node]⟩
    | .error _ d => ⟨d, s.nodes⟩
  | .write i offset data =>
    match s.nodes[i]? with
    | none => s
    | some node =>
      match write fs offset data ⟨node, s.disk⟩ with
      | .ok _ h => ⟨h.disk, s.nodes.set i h.node⟩
      | .error _ h => ⟨h.disk, s.nodes.set i h.node⟩

/-- A lookup that yields a node adds it to those in use. -/
theorem access_finddir {s : Nodes} {fuel : ℕ} {dir node : Fat32Node} {name : String} {d : Disk}
    (h : dir.finddir fs fuel name s.disk = .ok node d) :
    access fs s (.finddir fuel dir name) = ⟨d, s.nodes ++ [node]⟩ := by
  rw [access, h]

/-- A write changes the drive and the node it was made through. -/
theorem access_write {s : Nodes} {i offset n : ℕ} {data : List UInt8} {node : Fat32Node}
    {h : Handle} (hi : s.nodes[i]? = some node)
    (hrun : write fs offset data ⟨node, s.disk⟩ = .ok n h) :
    access fs s (.write i offset data) = ⟨h.disk, s.nodes.set i h.node⟩ := by
  rw [access, hi]
  simp only
  rw [hrun]

/-- The access succeeds, and is to the record at offset `o` of the cluster `p`. -/
def Succeeds (s : Nodes) : Access → Prop
  | .finddir fuel dir name => ∃ node d, dir.finddir fs fuel name s.disk = .ok node d ∧
      node.parentCluster = p ∧ node.dirEntryOffset = o
  | .write i offset data => ∃ node n h, s.nodes[i]? = some node ∧
      write fs offset data ⟨node, s.disk⟩ = .ok n h

/-- A write stays within the file, or it is made through its only node. The size fits the record. -/
def KeepsStep (s : Nodes) : Access → Prop
  | .finddir .. => True
  | .write _ offset data => offset + data.length < 2 ^ 32 ∧
      (offset + data.length ≤ (entryNode fs s.disk p o).size ∨ s.nodes.length = 1)

/-- The record is that of a file with these contents, on a drive with all sectors of the volume. Its
chain is well-formed and covers its size, and the directory's cluster is neither free nor part of
the file. -/
structure FileAt (d : Disk) (bytes : List UInt8) : Prop where
  fits : fs.Fits d.capacity
  chain : ∃ cs, FileNode fs d (entryNode fs d p o) cs ∧
    (entryNode fs d p o).size ≤ cs.length * fs.clusterSizeBytes ∧
    bytes = (clusters fs d cs).take (entryNode fs d p o).size

/-- All nodes, and those that lookups yield now, read as these bytes. -/
def Coherent (s : Nodes) (bytes : List UInt8) : Prop :=
  (∀ node ∈ s.nodes, node.Reads fs s.disk bytes) ∧
  ∀ fuel dir name node d', Fat32Node.finddir fs fuel dir name s.disk = .ok node d' →
    node.parentCluster = p → node.dirEntryOffset = o → node.Reads fs s.disk bytes

end

/-- The writes of a run. -/
def writesOf : List Access → List (ℕ × List UInt8)
  | [] => []
  | .finddir .. :: l => writesOf l
  | .write _ offset data :: l => (offset, data) :: writesOf l

/-- The bytes `old` after these writes, one after the other. -/
def Applied : List UInt8 → List (ℕ × List UInt8) → List UInt8 → Prop
  | old, [], new => new = old
  | old, (pos, data) :: ws, new => ∃ mid, Updated old pos data mid ∧ Applied mid ws new

/-! ## Runs that keep step -/

attribute [ext] Fat32Node

section
variable {fs : Fat32Fs} {p o : ℕ} {d : Disk} {s : Nodes} {bytes : List UInt8}

/-- The file has these contents, and every node says what the record says. -/
structure InStep (fs : Fat32Fs) (p o : ℕ) (s : Nodes) (bytes : List UInt8) : Prop where
  file : FileAt fs p o s.disk bytes
  same : ∀ node ∈ s.nodes, node = entryNode fs s.disk p o

/-- The node that says what the record says reads as the contents. -/
theorem FileAt.reads (h : FileAt fs p o d bytes) : (entryNode fs d p o).Reads fs d bytes := by
  obtain ⟨cs, hn, hcover, rfl⟩ := h.chain
  exact hn.reads h.fits hcover

/-- The directory's cluster is one of the volume. -/
theorem FileAt.inRange (h : FileAt fs p o d bytes) : fs.InRange p := by
  obtain ⟨cs, hn, -⟩ := h.chain
  have hp := hn.parent
  rwa [(entryNode_place fs d p o).1] at hp

/-- A lookup yields the node that says what the record says. -/
theorem FileAt.finddir_eq (h : FileAt fs p o d bytes) {fuel : ℕ} {dir node : Fat32Node}
    {name : String} {d' : Disk} (hfind : dir.finddir fs fuel name d = .ok node d')
    (hp : node.parentCluster = p) (ho : node.dirEntryOffset = o) :
    d' = d ∧ node = entryNode fs d p o := by
  have heq := finddir_eq_entryNode h.fits hfind (hp ▸ h.inRange)
  rwa [hp, ho] at heq

/-- Nodes that say what the record says read as the contents. -/
theorem InStep.coherent (h : InStep fs p o s bytes) : Coherent fs p o s bytes := by
  refine ⟨fun node hnode => ?_, fun fuel dir name node d' hfind hp ho => ?_⟩
  · rw [h.same node hnode]
    exact h.file.reads
  · obtain ⟨-, rfl⟩ := h.file.finddir_eq hfind hp ho
    exact h.file.reads

/-- A write through the node of the record. -/
theorem FileAt.write (h : FileAt fs p o d bytes) {offset n : ℕ} {data : List UInt8} {h' : Handle}
    (hrun : Fat.write fs offset data ⟨entryNode fs d p o, d⟩ = .ok n h')
    (hsize : offset + data.length < 2 ^ 32) :
    h'.node = entryNode fs h'.disk p o ∧
      (∃ bytes', Updated bytes offset data bytes' ∧ FileAt fs p o h'.disk bytes') ∧
      (offset + data.length ≤ (entryNode fs d p o).size → h'.node = entryNode fs d p o) := by
  obtain ⟨cs, hn, hcover, rfl⟩ := h.chain
  have hdata : data ≠ [] := by
    rintro rfl
    rw [Fat.write, Exec.bind_of_ok (Exec.get_apply _)] at hrun
    simp at hrun
  have hsat := write_sat (h := ⟨entryNode fs d p o, d⟩) h.fits hn hdata hsize
  rw [hrun] at hsat
  obtain ⟨rfl, cs', hw, hsize', hcover', -⟩ := Exec.sat_ok.1 hsat
  obtain ⟨hp, ho⟩ := entryNode_place fs d p o
  have hlt := (entryNode_lt fs d p o).2
  simp only at hsize'
  have hentry : entryNode fs h'.disk p o = h'.node :=
    hw.entryNode_eq h.fits rfl hn.file (by omega)
  refine ⟨hentry.symm, ⟨_, hw.updated hcover hcover' hsize', hw.fits h.fits, cs', ?_, ?_, ?_⟩,
    fun hin => ?_⟩
  · rw [hentry]
    exact hw.node
  · rw [hentry]
    exact hw.covers hcover hcover' hsize'
  · rw [hentry]
  · -- A file with a byte has a first cluster.
    have hfirst : 2 ≤ (entryNode fs d p o).firstCluster := by
      rcases hn.chain with ⟨-, rfl⟩ | hchain
      · rw [List.length_nil, Nat.zero_mul] at hcover
        have := List.length_pos_iff.2 hdata
        omega
      · exact (hchain.mem_in _ hchain.head_mem).1
    refine Fat32Node.ext (hw.first hfirst) (hsize'.trans (by omega)) ?_ hw.place.1 hw.place.2
    exact hw.node.file.trans hn.file.symm

/-- One successful access applies its writes and keeps the nodes in step. -/
theorem InStep.access (h : InStep fs p o s bytes) {a : Access} (hok : Succeeds fs p o s a)
    (hkeeps : KeepsStep fs p o s a) :
    ∃ bytes', Applied bytes (writesOf [a]) bytes' ∧ InStep fs p o (Fat.access fs s a) bytes' := by
  cases a with
  | finddir fuel dir name =>
    obtain ⟨node, d', hfind, hp, ho⟩ := hok
    obtain ⟨rfl, rfl⟩ := h.file.finddir_eq hfind hp ho
    refine ⟨bytes, rfl, ?_⟩
    rw [access_finddir fs hfind]
    refine ⟨h.file, fun node hnode => ?_⟩
    rcases List.mem_append.1 hnode with hnode | hnode
    · exact h.same node hnode
    · exact List.mem_singleton.1 hnode
  | write i offset data =>
    obtain ⟨node, n, h', hi, hrun⟩ := hok
    obtain rfl := h.same node (List.mem_of_getElem? hi)
    obtain ⟨hlt, hkeeps⟩ := hkeeps
    obtain ⟨hnode, ⟨bytes', hupd, hfile⟩, hsame⟩ := h.file.write hrun hlt
    refine ⟨bytes', ⟨bytes', hupd, rfl⟩, ?_⟩
    rw [access_write fs hi hrun]
    refine ⟨hfile, fun x hx => ?_⟩
    rcases hkeeps with hin | hone
    · rcases List.mem_or_eq_of_mem_set hx with hx | rfl
      · rw [h.same x hx, ← hsame hin, hnode]
      · exact hnode
    · obtain ⟨y, hy⟩ := List.length_eq_one_iff.1 hone
      obtain rfl : i = 0 := by
        have := (List.getElem?_eq_some_iff.1 hi).1
        omega
      simp only [hy, List.set_cons_zero, List.mem_singleton] at hx
      rw [hx, hnode]

/-- A run of successful accesses applies its writes in order and keeps the nodes in step. -/
theorem InStep.run {l : List Access} (h : InStep fs p o s bytes)
    (hrun : Run.Guarded (Fat.access fs)
      (fun s a => Succeeds fs p o s a ∧ KeepsStep fs p o s a) s l) :
    ∃ bytes', Applied bytes (writesOf l) bytes' ∧
      InStep fs p o (l.foldl (Fat.access fs) s) bytes' := by
  induction l generalizing s bytes with
  | nil => exact ⟨bytes, rfl, h⟩
  | cons a l ih =>
    obtain ⟨mid, hmid, hstep⟩ := h.access hrun.1.1 hrun.1.2
    obtain ⟨bytes', hrest, hend⟩ := ih hstep hrun.2
    refine ⟨bytes', ?_, hend⟩
    cases a with
    | finddir fuel dir name =>
      cases hmid
      exact hrest
    | write i offset data =>
      obtain ⟨mid', hupd, rfl⟩ := hmid
      exact ⟨mid, hupd, hrest⟩

/-- In a run of successful lookups and writes, in which only a file with a single node grows, a node
that was obtained for the file, at any time, and a node that is obtained afterwards both read as the
old contents with the writes applied in their order. -/
theorem nodes_coherent {l : List Access} (h : FileAt fs p o d bytes)
    (hrun : Run.Guarded (access fs)
      (fun s a => Succeeds fs p o s a ∧ KeepsStep fs p o s a) ⟨d, []⟩ l) :
    ∃ bytes', Applied bytes (writesOf l) bytes' ∧
      Coherent fs p o (l.foldl (access fs) ⟨d, []⟩) bytes' := by
  have hstart : InStep fs p o ⟨d, []⟩ bytes := ⟨h, nofun⟩
  obtain ⟨bytes', happ, hend⟩ := hstart.run hrun
  exact ⟨bytes', happ, hend.coherent⟩

end

/-! ## Two files -/

/-- A file `a` of two bytes. -/
def fileA : DirEntry := ⟨record (oneLetter 0x41) 0x20 3 2, 2, 0⟩

/-- A file `b` of one byte. -/
def fileB : DirEntry := ⟨record (oneLetter 0x42) 0x20 4 1, 2, 32⟩

/-- The clusters of a volume with both in its root directory. -/
def twoFilesClusters : List (ℕ × ℕ × List UInt8) :=
  [(2, 0x0FFFFFFF, smallRows [fileA.bytes, fileB.bytes]),
    (3, 0x0FFFFFFF, 7 :: 5 :: List.replicate 510 0), (4, 0x0FFFFFFF, 9 :: List.replicate 511 0)]

/-- A volume with both in its root directory. -/
def twoFilesDisk : Disk := smallDisk twoFilesClusters

/-- The clusters of the drive with two files are well formed. -/
theorem twoFilesDisk_rows : ∀ e ∈ twoFilesClusters, 2 ≤ e.1 ∧ e.1 < 128 ∧ e.2.2.length = 512 := by
  have hlen : (smallRows [fileA.bytes, fileB.bytes]).length = 512 :=
    length_smallRows _ (by decide) (by decide)
  have hlenA : (7 :: 5 :: List.replicate 510 (0 : UInt8)).length = 512 := by
    rw [List.length_cons, List.length_cons, List.length_replicate]
  have hlenB : (9 :: List.replicate 511 (0 : UInt8)).length = 512 := by
    rw [List.length_cons, List.length_replicate]
  exact List.forall_mem_cons.2 ⟨⟨le_rfl, show 2 < 128 by decide, hlen⟩,
    List.forall_mem_cons.2 ⟨⟨show 2 ≤ 3 by decide, show 3 < 128 by decide, hlenA⟩,
    List.forall_mem_singleton.2 ⟨show 2 ≤ 4 by decide, show 4 < 128 by decide, hlenB⟩⟩⟩

/-- The drive with two files has all sectors of the small volume. -/
theorem twoFilesDisk_fits : smallFs.Fits twoFilesDisk.capacity := by
  rw [twoFilesDisk, smallDisk_capacity twoFilesDisk_rows]
  exact smallFs_fits

/-- The root and the two files have a cluster each; the others are free. -/
theorem next_twoFilesDisk {x : ℕ} (hx : x < 128) : next smallFs twoFilesDisk x =
    if x = 2 ∨ x = 3 ∨ x = 4 then 0x0FFFFFFF else 0 := by
  rw [twoFilesDisk, next_smallDisk twoFilesDisk_rows hx]
  by_cases h2 : x = 2
  · subst h2
    rfl
  by_cases h3 : x = 3
  · subst h3
    rfl
  by_cases h4 : x = 4
  · subst h4
    rfl
  have hnone : twoFilesClusters.find? (·.1 == x) = none := by
    rw [twoFilesClusters, List.find?_cons_of_neg (by simpa using Ne.symm h2),
      List.find?_cons_of_neg (by simpa using Ne.symm h3),
      List.find?_cons_of_neg (by simpa using Ne.symm h4), List.find?_nil]
  rw [hnone, if_neg (by omega)]
  rfl

/-- The directory and both files have one cluster each. -/
theorem fatChain_twoFilesDisk {c : ℕ} (hc : c = 2 ∨ c = 3 ∨ c = 4) :
    FatChain smallFs twoFilesDisk c [c] := by
  refine .last ⟨by omega, show c < 128 by omega⟩ ?_
  rw [next_twoFilesDisk (by omega), if_pos hc]
  decide

/-- The slots of the directory with two files. -/
theorem dirSlots_twoFilesDisk : dirSlots smallFs twoFilesDisk [2] =
    slotsOf smallFs (smallRows [fileA.bytes, fileB.bytes]) 2 := by
  rw [dirSlots_singleton, twoFilesDisk, cluster_smallDisk twoFilesDisk_rows (by decide)]
  rfl

/-- A lookup of `a` yields the first file. -/
theorem finddir_twoFilesDisk :
    smallFs.root.finddir smallFs 1 "a" twoFilesDisk = .ok (nodeOf fileA) twoFilesDisk := by
  have hlook : lookup (dirSlots smallFs twoFilesDisk [2]) "a" = some fileA := by
    rw [dirSlots_twoFilesDisk]
    decide +kernel
  exact finddir_of_lookup twoFilesDisk_fits (.inr (fatChain_twoFilesDisk (.inl rfl))) rfl hlook
    le_rfl

/-- The first record says what the first file's node says. -/
theorem entryNode_twoFilesDisk : entryNode smallFs twoFilesDisk 2 0 = nodeOf fileA := by
  rw [entryNode, twoFilesDisk, cluster_smallDisk twoFilesDisk_rows (by decide)]
  decide +kernel

/-- The node of `a` has the cluster 3. -/
theorem fileNode_fileA : FileNode smallFs twoFilesDisk (nodeOf fileA) [3] where
  file := by decide
  chain := .inr (fatChain_twoFilesDisk (.inr (.inl rfl)))
  parent := by decide
  used := by
    show next smallFs twoFilesDisk 2 ≠ 0
    rw [next_twoFilesDisk (by decide)]
    decide
  apart := by decide
  offset := by decide

/-- The first file has the bytes `[7, 5]`. -/
theorem fileAt_twoFilesDisk : FileAt smallFs 2 0 twoFilesDisk [7, 5] := by
  refine ⟨twoFilesDisk_fits, [3], ?_, ?_, ?_⟩
  · rw [entryNode_twoFilesDisk]
    exact fileNode_fileA
  · rw [entryNode_twoFilesDisk]
    decide
  · rw [entryNode_twoFilesDisk, clusters, List.flatMap_singleton, twoFilesDisk,
      cluster_smallDisk twoFilesDisk_rows (by decide)]
    rfl

/-- A write to `a` inside its first cluster succeeds. -/
theorem write_fileA (offset : ℕ) {data : List UInt8} (hdata : data ≠ [])
    (hin : offset + data.length ≤ 512) :
    ∃ h', write smallFs offset data ⟨nodeOf fileA, twoFilesDisk⟩ = .ok data.length h' := by
  have hfree : next smallFs twoFilesDisk 10 = 0 := by
    rw [next_twoFilesDisk (by decide)]
    rfl
  exact write_ok_of_free twoFilesDisk_fits fileNode_fileA hdata (by omega) hin
    (show smallFs.InRange 10 by decide) hfree

/-- Two nodes of `a`, and a write through the second one. -/
def twoNodes : List Access :=
  [.finddir 1 smallFs.root "a", .finddir 1 smallFs.root "a", .write 1 1 [9]]

/-- Both nodes read the byte that was written through the second one. -/
theorem nodes_coherent_two_nodes :
    Run.Guarded (access smallFs)
      (fun s a => Succeeds smallFs 2 0 s a ∧ KeepsStep smallFs 2 0 s a) ⟨twoFilesDisk, []⟩
      twoNodes ∧
    ∃ (node : Fat32Node) (h' : Handle), twoNodes.foldl (access smallFs) ⟨twoFilesDisk, []⟩ =
        ⟨h'.disk, [node, h'.node]⟩ ∧
      Coherent smallFs 2 0 ⟨h'.disk, [node, h'.node]⟩ [7, 9] ∧
      node.read smallFs 0 [0, 0] h'.disk = .ok (2, [7, 9]) h'.disk := by
  have hfind := finddir_twoFilesDisk
  obtain ⟨h', hrun⟩ := write_fileA 1 (List.cons_ne_nil 9 []) (by decide)
  have hstep₁ : access smallFs ⟨twoFilesDisk, []⟩ (.finddir 1 smallFs.root "a") =
      ⟨twoFilesDisk, [nodeOf fileA]⟩ := access_finddir _ hfind
  have hstep₂ : access smallFs ⟨twoFilesDisk, [nodeOf fileA]⟩ (.finddir 1 smallFs.root "a") =
      ⟨twoFilesDisk, [nodeOf fileA, nodeOf fileA]⟩ := access_finddir _ hfind
  have hstep₃ : access smallFs ⟨twoFilesDisk, [nodeOf fileA, nodeOf fileA]⟩ (.write 1 1 [9]) =
      ⟨h'.disk, [nodeOf fileA, h'.node]⟩ := access_write _ rfl hrun
  have hguard : Run.Guarded (access smallFs)
      (fun s a => Succeeds smallFs 2 0 s a ∧ KeepsStep smallFs 2 0 s a) ⟨twoFilesDisk, []⟩
      twoNodes := by
    refine ⟨⟨⟨_, _, hfind, rfl, rfl⟩, trivial⟩, ?_⟩
    rw [hstep₁]
    refine ⟨⟨⟨_, _, hfind, rfl, rfl⟩, trivial⟩, ?_⟩
    rw [hstep₂]
    refine ⟨⟨⟨_, _, _, rfl, hrun⟩, by decide, .inl ?_⟩, trivial⟩
    rw [entryNode_twoFilesDisk]
    decide
  have hend : twoNodes.foldl (access smallFs) ⟨twoFilesDisk, []⟩ =
      ⟨h'.disk, [nodeOf fileA, h'.node]⟩ := by
    rw [twoNodes, List.foldl_cons, List.foldl_cons, List.foldl_cons, List.foldl_nil, hstep₁, hstep₂,
      hstep₃]
  obtain ⟨bytes', ⟨mid, hupd, rfl⟩, hcoherent⟩ := nodes_coherent fileAt_twoFilesDisk hguard
  -- one byte was written, and the other one is as it was
  obtain ⟨x, y, rfl⟩ := List.length_eq_two.1 (show bytes'.length = 2 from hupd.length)
  obtain rfl : x = 7 := hupd.rest 0 (by decide) (.inl (by decide))
  obtain rfl : y = 9 := List.cons.inj hupd.written |>.1
  rw [hend] at hcoherent
  exact ⟨hguard, nodeOf fileA, h', hend, hcoherent,
    (hcoherent.1 _ List.mem_cons_self).2 0 [0, 0]⟩

/-! ## An empty file -/

/-- A root directory with an empty file `a`. -/
def emptyFileDisk : Disk := rootDisk [record (oneLetter 0x41) 0x20 0 0]

/-- The node of the empty file. -/
def emptyNode : Fat32Node := .file 0 0 2 0

/-- The record of the empty file fills its sector. -/
theorem emptyFileDisk_rows : (smallRows [record (oneLetter 0x41) 0x20 0 0]).length = 512 :=
  length_smallRows _ (by decide) (by decide)

/-- The directory of the empty file can be read. -/
theorem emptyFileDisk_readable : Readable smallFs emptyFileDisk smallFs.root [2] :=
  rootDisk_readable emptyFileDisk_rows

/-- The record says what the empty file's node says. -/
theorem entryNode_emptyFileDisk : entryNode smallFs emptyFileDisk 2 0 = emptyNode := by
  rw [entryNode, emptyFileDisk, rootDisk, cluster_smallDisk (List.forall_mem_singleton.2
    ⟨le_rfl, show 2 < 128 by decide, emptyFileDisk_rows⟩) (by decide)]
  decide

/-- A lookup of `a` yields the empty file. -/
theorem finddir_emptyFileDisk :
    smallFs.root.finddir smallFs 1 "a" emptyFileDisk = .ok emptyNode emptyFileDisk := by
  have hread := emptyFileDisk_readable
  have hslots : dirSlots smallFs emptyFileDisk [2] = _ := dirSlots_rootDisk emptyFileDisk_rows
  have hlook : lookup (slotsOf smallFs (smallRows [record (oneLetter 0x41) 0x20 0 0]) 2) "a" =
      some ⟨record (oneLetter 0x41) 0x20 0 0, 2, 0⟩ := by decide +kernel
  rw [← hslots] at hlook
  exact finddir_of_lookup hread.fits hread.chain rfl hlook le_rfl

/-- Only the directory's cluster is in use. -/
theorem next_emptyFileDisk {x : ℕ} (hx : x < 128) :
    next smallFs emptyFileDisk x = if x = 2 then 0x0FFFFFFF else 0 := by
  rw [emptyFileDisk, rootDisk, next_smallDisk (List.forall_mem_singleton.2
    ⟨le_rfl, show 2 < 128 by decide, emptyFileDisk_rows⟩) hx]
  by_cases h : x = 2
  · rw [if_pos h, h]
    rfl
  · rw [if_neg h, List.find?_cons_of_neg (by simpa using Ne.symm h)]
    rfl

/-- The empty file has no clusters. -/
theorem fileNode_emptyNode {d : Disk} (hused : next smallFs d 2 ≠ 0) :
    FileNode smallFs d emptyNode [] where
  file := rfl
  chain := .inl ⟨by decide, rfl⟩
  parent := by decide
  used := hused
  apart := List.not_mem_nil
  offset := by decide

/-- The empty file has no bytes. -/
theorem fileAt_emptyFileDisk : FileAt smallFs 2 0 emptyFileDisk [] := by
  have hused : next smallFs emptyFileDisk 2 ≠ 0 := by
    rw [next_emptyFileDisk (by decide)]
    decide
  refine ⟨emptyFileDisk_readable.fits, [], ?_, ?_, ?_⟩
  · rw [entryNode_emptyFileDisk]
    exact fileNode_emptyNode hused
  · rw [entryNode_emptyFileDisk]
    decide
  · rw [entryNode_emptyFileDisk]
    rfl

/-- A byte into an empty file, while a cluster is free. -/
theorem write_of_empty {d : Disk} {node : Fat32Node} {c : ℕ} (offset : ℕ) (b : UInt8)
    (hfits : smallFs.Fits d.capacity) (hn : FileNode smallFs d node []) (hzero : node.size = 0)
    (hoff : offset < 512) (hin : smallFs.InRange c) (hfree : next smallFs d c = 0) :
    ∃ h' cs', write smallFs offset [b] ⟨node, d⟩ = .ok 1 h' ∧
      Wrote smallFs ⟨node, d⟩ [] offset [b] h' cs' ∧ h'.node.size = offset + 1 ∧
      cs'.length = 1 := by
  have hcb : smallFs.clusterSizeBytes = 512 := rfl
  have hsize : offset + [b].length < 2 ^ 32 := by
    rw [List.length_singleton]
    omega
  obtain ⟨h', hrun⟩ := write_ok_of_free (h := ⟨node, d⟩) hfits
    hn (List.cons_ne_nil b []) hsize (by rw [List.length_singleton, hcb]; omega) hin hfree
  have hsat := write_sat (h := ⟨node, d⟩) hfits hn (List.cons_ne_nil b []) hsize
  rw [hrun] at hsat
  obtain ⟨-, cs', hw, hsize, hcover, hlen⟩ := Exec.sat_ok.1 hsat
  rw [List.length_singleton, hcb] at hcover hlen
  refine ⟨h', cs', hrun, hw, hsize.trans ?_, ?_⟩
  · exact Nat.max_eq_left (hzero.trans_le (Nat.zero_le _))
  · rcases hlen with rfl | hlen
    · rw [List.length_nil] at hcover
      omega
    · omega

/-- Two writes through two nodes of an empty file: the second node still has no first cluster, and
there is another free cluster for it. -/
theorem writes_of_empty : ∃ h₁ h₂ cs₂, write smallFs 0 [1] ⟨emptyNode, emptyFileDisk⟩ = .ok 1 h₁ ∧
    write smallFs 1 [2] ⟨emptyNode, h₁.disk⟩ = .ok 1 h₂ ∧ smallFs.Fits h₁.disk.capacity ∧
    Wrote smallFs ⟨emptyNode, h₁.disk⟩ [] 1 [2] h₂ cs₂ ∧ h₂.node.size = 2 ∧ cs₂.length = 1 := by
  have hfits := emptyFileDisk_readable.fits
  have hnext : ∀ {x}, x < 128 → _ := fun {x} hx => next_emptyFileDisk (x := x) hx
  have hused₀ : next smallFs emptyFileDisk 2 ≠ 0 := by
    rw [hnext (by decide)]
    decide
  obtain ⟨h₁, cs₁, hrun₁, hw₁, -, hlen₁⟩ := write_of_empty (c := 10) 0 1 hfits
    (fileNode_emptyNode hused₀) rfl (by decide) (by decide) (by rw [hnext (by decide)]; rfl)
  -- One cluster is taken, so that one of two free ones is left.
  obtain ⟨c, hc, hout⟩ : ∃ c, (c = 10 ∨ c = 11) ∧ c ∉ cs₁ := by
    obtain ⟨x, rfl⟩ := List.length_eq_one_iff.1 hlen₁
    by_cases hx : x = 10
    · exact ⟨11, .inr rfl, by rw [List.mem_singleton]; omega⟩
    · exact ⟨10, .inl rfl, by rw [List.mem_singleton]; omega⟩
  have hin : smallFs.InRange c := by rcases hc with rfl | rfl <;> decide
  have hfree : next smallFs h₁.disk c = 0 := by
    rw [hw₁.grows.next_eq hfits.copies hin.2 hout, hnext hin.2, if_neg (by omega)]
  have hused : next smallFs h₁.disk 2 ≠ 0 := by
    have := hw₁.node.used
    rwa [hw₁.place.1] at this
  have hfits₁ := hw₁.fits hfits
  obtain ⟨h₂, cs₂, hrun₂, hw₂, hsize₂, hlen₂⟩ := write_of_empty 1 2 hfits₁
    (fileNode_emptyNode hused) rfl (by decide) hin hfree
  exact ⟨h₁, h₂, cs₂, hrun₁, hrun₂, hfits₁, hw₂, hsize₂, hlen₂⟩

/-- Two nodes of an empty file: each write allocates a first cluster of its own, and the first byte
is lost. -/
theorem nodes_incoherent : ¬ ∀ (fs : Fat32Fs) (p o : ℕ) (d : Disk) (bytes : List UInt8)
    (l : List Access), FileAt fs p o d bytes →
    Run.Guarded (access fs) (Succeeds fs p o) ⟨d, []⟩ l →
    ∃ bytes', Applied bytes (writesOf l) bytes' ∧
      Coherent fs p o (l.foldl (access fs) ⟨d, []⟩) bytes' := by
  intro hall
  have hfind := finddir_emptyFileDisk
  obtain ⟨h₁, h₂, cs₂, hrun₁, hrun₂, hfits₁, hw₂, hsize₂, hlen₂⟩ := writes_of_empty
  have hstep₁ : access smallFs ⟨emptyFileDisk, []⟩ (.finddir 1 smallFs.root "a") =
      ⟨emptyFileDisk, [emptyNode]⟩ := access_finddir _ hfind
  have hstep₂ : access smallFs ⟨emptyFileDisk, [emptyNode]⟩ (.finddir 1 smallFs.root "a") =
      ⟨emptyFileDisk, [emptyNode, emptyNode]⟩ := access_finddir _ hfind
  have hstep₃ : access smallFs ⟨emptyFileDisk, [emptyNode, emptyNode]⟩ (.write 0 0 [1]) =
      ⟨h₁.disk, [h₁.node, emptyNode]⟩ := access_write _ rfl hrun₁
  have hstep₄ : access smallFs ⟨h₁.disk, [h₁.node, emptyNode]⟩ (.write 1 1 [2]) =
      ⟨h₂.disk, [h₁.node, h₂.node]⟩ := access_write _ rfl hrun₂
  have hend := hall smallFs 2 0 emptyFileDisk [] [.finddir 1 smallFs.root "a",
    .finddir 1 smallFs.root "a", .write 0 0 [1], .write 1 1 [2]] fileAt_emptyFileDisk (by
      refine ⟨⟨_, _, hfind, rfl, rfl⟩, ?_⟩
      rw [hstep₁]
      refine ⟨⟨_, _, hfind, rfl, rfl⟩, ?_⟩
      rw [hstep₂]
      refine ⟨⟨_, _, _, rfl, hrun₁⟩, ?_⟩
      rw [hstep₃]
      exact ⟨⟨_, _, _, rfl, hrun₂⟩, trivial⟩)
  rw [List.foldl_cons, List.foldl_cons, List.foldl_cons, List.foldl_cons, List.foldl_nil, hstep₁,
    hstep₂, hstep₃, hstep₄] at hend
  obtain ⟨bytes', ⟨mid, hupd, last, hupd', rfl⟩, hnodes, -⟩ := hend
  have hcover : h₂.node.size ≤ cs₂.length * smallFs.clusterSizeBytes := by
    rw [hsize₂, hlen₂]
    decide
  have heq := (hnodes h₂.node (by simp)).unique (hw₂.node.reads (hw₂.fits hfits₁) hcover)
  have hfirst : mid.getD 0 0 = 1 := by
    have hslice : (slice mid 0 1).getD 0 0 = 1 := congrArg (·.getD 0 0) hupd.written
    rwa [getD_slice _ (by decide)] at hslice
  have hkept : mid.getD 0 0 = bytes'.getD 0 0 :=
    (hupd'.rest 0 (by rw [hupd.length]; decide) (.inl (by decide))).symm
  have hlost : bytes'.getD 0 0 = 0 := by
    have hzero := hw₂.bytes 0
    rw [if_neg (by decide)] at hzero
    rw [heq, List.getD_eq_getElem?_getD, List.getElem?_take, hsize₂, if_pos (by decide),
      ← List.getD_eq_getElem?_getD, hzero]
    rfl
  rw [← hkept, hfirst] at hlost
  exact absurd hlost (by decide)

end Fat

end RossOs
