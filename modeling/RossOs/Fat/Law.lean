import RossOs.Fat.Handles
import RossOs.Fat.Tree

/-!
# The law of `write`

On a well-formed volume (`WellFormed`), a successful `write` through a node that was just looked up
or created puts the data into the contents of its file, and no other file changes (`WriteLaw`). The
other files are found by their entries; their chains are apart from the chain of the file, from the
clusters it gains, which were free, and from the directory cluster that holds its record.
-/

namespace RossOs

open ByteMem Ahci

namespace Fat

/-- The volume is well-formed: its drive has all its sectors; the root and the entries have chains,
which are apart from each other; and the chain of a file covers its size. -/
structure WellFormed (fs : Fat32Fs) (d : Disk) : Prop where
  fits : fs.Fits d.capacity
  root : ∃ cs, FatChain fs d fs.bpb.rootCluster cs
  chain : ∀ e, IsEntry live fs d e → ∃ cs, DirChain fs d e.first cs
  apartRoot : ∀ e cs cs', IsEntry live fs d e → FatChain fs d fs.bpb.rootCluster cs →
    DirChain fs d e.first cs' → ∀ x ∈ cs, x ∉ cs'
  apart : ∀ e e' cs cs', IsEntry live fs d e → IsEntry live fs d e' → e ≠ e' →
    DirChain fs d e.first cs → DirChain fs d e'.first cs' → ∀ x ∈ cs, x ∉ cs'
  covers : ∀ e cs, IsEntry live fs d e → e.isDirectory = false → DirChain fs d e.first cs →
    (nodeOf e).size ≤ cs.length * fs.clusterSizeBytes

/-- The nodes just obtained on a drive, through directories whose first clusters satisfy `P`: those
that lookups from the root on yield, and what a `create` returned that left this drive. -/
inductive Obtained (fs : Fat32Fs) (P : Disk → ℕ → Prop) : Disk → Fat32Node → Prop
  | finddir {d : Disk} {node : Fat32Node} : Opened fs d (P d) node → Obtained fs P d node
  | create {d d' : Disk} {dir node : Fat32Node} {fuel : ℕ} {name : String} : WellFormed fs d →
      Opened fs d (P d) dir → dir.create fs fuel name d = .ok node d' → Obtained fs P d' node

/-- Every node that a lookup yields for the record at offset `o` of the cluster `p` reads as these
bytes. -/
def Found (fs : Fat32Fs) (d : Disk) (p o : ℕ) (bytes : List UInt8) : Prop :=
  ∀ (dir node : Fat32Node) (fuel : ℕ) (name : String) (d' : Disk),
    dir.finddir fs fuel name d = .ok node d' → node.parentCluster = p → node.dirEntryOffset = o →
    node.Reads fs d bytes

/-- What a successful `write` of `data` at `offset` did, from `h` to `h'`. -/
structure WriteLaw (fs : Fat32Fs) (h : Handle) (offset : ℕ) (data : List UInt8) (h' : Handle) :
    Prop where
  /-- The file has the data, seen through the node and through every later one. -/
  file : ∃ old new, h.node.Reads fs h.disk old ∧ Updated old offset data new ∧
    h'.node.Reads fs h'.disk new ∧
    Found fs h'.disk h.node.parentCluster h.node.dirEntryOffset new
  /-- The other files of the volume are as they were. -/
  others : ∀ e, IsEntry live fs h.disk e → e.isDirectory = false →
    ¬ (e.cluster = h.node.parentCluster ∧ e.off = h.node.dirEntryOffset) →
    ∃ bytes, (nodeOf e).Reads fs h.disk bytes ∧ (nodeOf e).Reads fs h'.disk bytes ∧
      Found fs h'.disk e.cluster e.off bytes

/-! ## Chains -/

section
variable {fs : Fat32Fs} {d d' : Disk} {a c p : ℕ} {cs cs' l l' : List ℕ} {e e' : DirEntry}

/-- An entry has one chain. -/
theorem DirChain.unique (hfits : fs.Fits d.capacity) (h : DirChain fs d c cs)
    (h' : DirChain fs d c cs') : cs = cs' := by
  rcases h with ⟨hlt, rfl⟩ | h
  · rcases h' with ⟨-, rfl⟩ | h'
    · rfl
    · exact absurd (h'.mem_in c h'.head_mem).1 (Nat.not_le.2 hlt)
  · rcases h' with ⟨hlt, -⟩ | h'
    · exact absurd (h.mem_in c h.head_mem).1 (Nat.not_le.2 hlt)
    · exact h.unique hfits h'

/-- The chain of a file, possibly empty, is apart from a chain that grows. -/
theorem Grows.dirChain (hcopies : 1 ≤ fs.bpb.numFats) (h : Grows fs p d cs d' cs')
    (hl : DirChain fs d a l) (hdisj : ∀ x ∈ l, x ∉ cs) :
    DirChain fs d' a l ∧ ∀ x ∈ l, x ∉ cs' := by
  rcases hl with ⟨hlt, rfl⟩ | hl
  · exact ⟨.inl ⟨hlt, rfl⟩, nofun⟩
  · obtain ⟨hl', hout⟩ := h.fatChain hcopies hl hdisj
    exact ⟨.inr hl', hout⟩

/-- Every directory of a well-formed volume has a chain. -/
theorem WellFormed.chain_of_isDir (h : WellFormed fs d) (hdir : IsDir live fs d c) :
    ∃ cs, FatChain fs d c cs := by
  rcases hdir.eq_or_entry with rfl | ⟨e, he, -, hfirst, rfl⟩
  · exact h.root
  · obtain ⟨cs, hcs⟩ := h.chain e he
    exact ⟨cs, hcs.resolve_left fun hlt => absurd hfirst (Nat.not_le.2 hlt.1)⟩

/-- The chain of a directory is apart from those of the files. -/
theorem WellFormed.apart_of_file (h : WellFormed fs d) (hdir : IsDir live fs d c)
    (hl : FatChain fs d c l) (he : IsEntry live fs d e) (hfile : e.isDirectory = false)
    (hcs : DirChain fs d e.first cs) : ∀ x ∈ l, x ∉ cs := by
  rcases hdir.eq_or_entry with rfl | ⟨e', he', hdir', -, rfl⟩
  · exact h.apartRoot e l cs he hl hcs
  · refine h.apart e' e l cs he' he ?_ (.inr hl) hcs
    rintro rfl
    rw [hfile] at hdir'
    cases hdir'

/-- The chains of two directories are apart. -/
theorem WellFormed.apart_of_dirs (h : WellFormed fs d) (hc : IsDir live fs d c)
    (ha : IsDir live fs d a) (hne : c ≠ a) (hl : FatChain fs d c l) (hl' : FatChain fs d a l') :
    ∀ x ∈ l, x ∉ l' := by
  rcases hc.eq_or_entry with rfl | ⟨e, he, -, -, rfl⟩
  · rcases ha.eq_or_entry with rfl | ⟨e', he', -, -, rfl⟩
    · exact absurd rfl hne
    · exact h.apartRoot e' l l' he' hl (.inr hl')
  · rcases ha.eq_or_entry with rfl | ⟨e', he', -, -, rfl⟩
    · exact fun x hx hx' => h.apartRoot e l' l he hl' (.inr hl) x hx' hx
    · exact h.apart e e' l l' he he' (fun heq => hne (congrArg DirEntry.first heq)) (.inr hl)
        (.inr hl')

end

/-! ## Lookups -/

section
variable {fs : Fat32Fs} {d : Disk} {node : Fat32Node} {p o : ℕ} {bytes : List UInt8}

/-- Every lookup yields the node that the record describes. -/
theorem found_of_reads (hfits : fs.Fits d.capacity) (hp : fs.InRange p)
    (h : (entryNode fs d p o).Reads fs d bytes) : Found fs d p o bytes := by
  rintro dir node fuel name d' hfind rfl rfl
  obtain ⟨-, heq⟩ := finddir_eq_entryNode hfits hfind hp
  rwa [heq]

end

/-! ## The law for a file apart from the others -/

section
variable {fs : Fat32Fs} {d : Disk} {node : Fat32Node} {cs cs' l l' : List ℕ} {c i pos : ℕ}
  {e : DirEntry} {data : List UInt8} {h' : Handle}

/-- A file apart from the one that is written keeps its entry, its chain and its bytes. -/
theorem Wrote.other (hfits : fs.Fits d.capacity) (hw : Wrote fs ⟨node, d⟩ cs pos data h' cs')
    (hi : node.dirEntryOffset = 32 * i) (hl : FatChain fs d c l) (he : e ∈ dirSlots fs d l)
    (hne : ¬ (e.cluster = node.parentCluster ∧ e.off = node.dirEntryOffset))
    (hfile : e.isDirectory = false) (hchain : DirChain fs d e.first l') (hll : ∀ x ∈ l, x ∉ l')
    (hl_cs : ∀ x ∈ l, x ∉ cs) (hl'_cs : ∀ x ∈ l', x ∉ cs) (hp : node.parentCluster ∉ l')
    (hcover : (nodeOf e).size ≤ l'.length * fs.clusterSizeBytes) :
    ∃ bytes, (nodeOf e).Reads fs d bytes ∧ (nodeOf e).Reads fs h'.disk bytes ∧
      Found fs h'.disk e.cluster e.off bytes := by
  have hfits' := hw.fits hfits
  obtain ⟨hl₁, hl_cs'⟩ := hw.grows.fatChain hfits.copies hl hl_cs
  obtain ⟨hchain₁, hl'_cs'⟩ := hw.grows.dirChain hfits.copies hchain hl'_cs
  have he₁ : e ∈ dirSlots fs h'.disk l := by
    obtain ⟨x, hx, j, hj, rfl⟩ := mem_dirSlots_iff.1 he
    refine mem_dirSlots_iff.2
      ⟨x, hx, j, hj, (hw.slotIn_eq hi (hl.mem_in x hx).1 (hl_cs' x hx) ?_).symm⟩
    by_contra hboth
    obtain ⟨hx', hj'⟩ := not_or.1 hboth
    rw [not_not] at hx' hj'
    exact hne ⟨hx', by rw [hi, ← hj']; rfl⟩
  have hbytes : clusters fs h'.disk l' = clusters fs d l' := by
    refine clusters_congr fun x hx => hw.grows.cluster x (hchain.two_le x hx) (hl'_cs' x hx) ?_
    rintro rfl
    exact hp hx
  have hreads := (fileNode_of_mem hl he hfile hchain hll).reads hfits hcover
  have hreads' := (fileNode_of_mem hl₁ he₁ hfile hchain₁ hll).reads hfits' hcover
  rw [hbytes] at hreads'
  refine ⟨_, hreads, hreads', found_of_reads hfits' (hl.mem_in _ (mem_dirSlots he).1) ?_⟩
  rwa [entryNode_of_mem he₁]

/-- A node for a file of the volume: its record is what the node says, its chain covers it, and
chain and record are apart from the chains of the directories and of the other files. -/
structure Target (fs : Fat32Fs) (d : Disk) (node : Fat32Node) (cs : List ℕ) : Prop where
  file : FileNode fs d node cs
  entry : entryNode fs d node.parentCluster node.dirEntryOffset = node
  slot : ∃ i, node.dirEntryOffset = 32 * i
  covers : node.size ≤ cs.length * fs.clusterSizeBytes
  dirs : ∀ c l, IsDir live fs d c → FatChain fs d c l → ∀ x ∈ l, x ∉ cs
  files : ∀ e l, IsEntry live fs d e → e.isDirectory = false →
    ¬ (e.cluster = node.parentCluster ∧ e.off = node.dirEntryOffset) → DirChain fs d e.first l →
    node.parentCluster ∉ l ∧ ∀ x ∈ l, x ∉ cs

/-- The node that a lookup yields for a file. -/
theorem WellFormed.target (h : WellFormed fs d) (he : IsEntry live fs d e)
    (hfile : e.isDirectory = false) (hchain : DirChain fs d e.first cs) :
    Target fs d (nodeOf e) cs := by
  obtain ⟨c, l, hdir, hl, hmem, -⟩ := id he
  have hslot := (mem_live hmem).1
  obtain ⟨hp, i, -, hoff, -⟩ := mem_dirSlots hslot
  have hpe := parentCluster_nodeOf e
  have hoe := dirEntryOffset_nodeOf e
  have hapart := h.apart_of_file hdir hl he hfile hchain
  refine ⟨fileNode_of_mem hl hslot hfile hchain hapart, ?_, ⟨i, hoe.trans hoff⟩,
    h.covers e cs he hfile hchain, fun c l hc hl => h.apart_of_file hc hl he hfile hchain,
    fun e' l' he' hfile' hne hl' => ⟨?_, ?_⟩⟩
  · rw [hpe, hoe, entryNode_of_mem hslot]
  · rw [hpe]
    exact h.apart_of_file hdir hl he' hfile' hl' e.cluster hp
  · refine h.apart e' e l' cs he' he ?_ hl' hchain
    rintro rfl
    exact hne ⟨hpe.symm, hoe.symm⟩

/-- The other files of the volume are as they were. -/
def OthersKept (fs : Fat32Fs) (h : Handle) (d' : Disk) : Prop :=
  ∀ e, IsEntry live fs h.disk e → e.isDirectory = false →
    ¬ (e.cluster = h.node.parentCluster ∧ e.off = h.node.dirEntryOffset) →
    ∃ bytes, (nodeOf e).Reads fs h.disk bytes ∧ (nodeOf e).Reads fs d' bytes ∧
      Found fs d' e.cluster e.off bytes

/-- What is written of a file leaves the others alone. -/
theorem Target.others (ht : Target fs d node cs) (h : WellFormed fs d)
    (hw : Wrote fs ⟨node, d⟩ cs pos data h' cs') : OthersKept fs ⟨node, d⟩ h'.disk := by
  intro e he hfile hne
  obtain ⟨i, hi⟩ := ht.slot
  obtain ⟨l', hchain⟩ := h.chain e he
  obtain ⟨c, l, hdir, hl, hmem, -⟩ := id he
  obtain ⟨hp, hl'_cs⟩ := ht.files e l' he hfile hne hchain
  exact hw.other h.fits hi hl (mem_live hmem).1 hne hfile hchain
    (h.apart_of_file hdir hl he hfile hchain) (ht.dirs c l hdir hl) hl'_cs hp
    (h.covers e l' he hfile hchain)

/-- The record on the disk follows the node. -/
theorem Target.entry_after (ht : Target fs d node cs) (hfits : fs.Fits d.capacity)
    (hw : Wrote fs ⟨node, d⟩ cs pos data h' cs') (hlt : h'.node.size < 2 ^ 32) :
    entryNode fs h'.disk node.parentCluster node.dirEntryOffset = h'.node :=
  hw.entryNode_eq hfits ht.entry ht.file.file hlt

/-- The size of a file has 32 bits. -/
theorem Target.size_lt (ht : Target fs d node cs) : node.size < 2 ^ 32 := by
  have := (entryNode_lt fs d node.parentCluster node.dirEntryOffset).2
  rwa [ht.entry] at this

/-- What the node reads after the write, every later node reads. -/
theorem Target.found (ht : Target fs d node cs) (hfits : fs.Fits d.capacity)
    (hw : Wrote fs ⟨node, d⟩ cs pos data h' cs') (hlt : h'.node.size < 2 ^ 32)
    {bytes : List UInt8} (hreads : h'.node.Reads fs h'.disk bytes) :
    Found fs h'.disk node.parentCluster node.dirEntryOffset bytes := by
  refine found_of_reads (hw.fits hfits) ht.file.parent ?_
  rwa [ht.entry_after hfits hw hlt]

/-- The law, for a node of the volume. -/
theorem Target.law (ht : Target fs d node cs) (h : WellFormed fs d) (hdata : data ≠ [])
    (hsize : pos + data.length < 2 ^ 32) {n : ℕ} (hrun : write fs pos data ⟨node, d⟩ = .ok n h') :
    n = data.length ∧ WriteLaw fs ⟨node, d⟩ pos data h' := by
  have hsat := write_sat (h := ⟨node, d⟩) h.fits ht.file hdata hsize
  rw [hrun] at hsat
  obtain ⟨rfl, cs', hw, hsize', hcover', -⟩ := Exec.sat_ok.1 hsat
  have hlt : h'.node.size < 2 ^ 32 := by
    rw [hsize']
    exact Nat.max_lt.2 ⟨hsize, ht.size_lt⟩
  have hreads' := hw.node.reads (hw.fits h.fits) (hw.covers ht.covers hcover' hsize')
  exact ⟨rfl, ⟨_, _, ht.file.reads h.fits ht.covers, hw.updated ht.covers hcover' hsize', hreads',
    ht.found h.fits hw hlt hreads'⟩, ht.others h hw⟩

end

/-! ## A file that was just created -/

section
variable {fs : Fat32Fs} {d d' d₁ : Disk} {dir n : Fat32Node} {cs : List ℕ} {p off x : ℕ}
  {name : String} {raw : List UInt8} (hfits : fs.Fits d.capacity)
  (hcreated : Created fs d dir cs name n d' raw p off d₁)

include hfits hcreated

/-- `create` leaves the clusters in use outside its directory. -/
theorem Created.frame (hchain : DirChain fs d dir.firstCluster cs) (hx : fs.InRange x)
    (hused : next fs d x ≠ 0) (hout : x ∉ cs) :
    x ≠ p ∧ next fs d' x = next fs d x ∧ cluster fs d' x = cluster fs d x := by
  obtain ⟨hp, hoff, -⟩ := hcreated.placed.inRange hchain
  have hlen := length_putRecord fs off (cluster fs d₁ p) (length_to83 hcreated.name83) hoff
    (length_cluster ..)
  rw [hcreated.disk_eq]
  cases hcreated.placed with
  | @slot e hfree =>
    have hne : x ≠ e.cluster := by
      rintro rfl
      exact hout (mem_dirSlots (List.mem_of_find?_eq_some hfree)).1
    exact ⟨hne, next_setCluster hfits.copies hx.2, by
      rw [cluster_setCluster hlen hp.1 hx.1, if_neg hne]⟩
  | grown _ hfirst =>
    obtain ⟨hin, h0⟩ := firstFree_some hfirst
    have hne : x ≠ p := by
      rintro rfl
      exact hused h0
    have hprev : ∀ q ∈ some (cs.getLastD dir.firstCluster), q < fs.entries := fun q hq =>
      Option.some.inj hq ▸ lt_entries_of_lt_two hin hchain.getLastD_lt
    have hlast : some (cs.getLastD dir.firstCluster) ≠ some x := by
      rintro ⟨rfl⟩
      rcases hchain with ⟨hlt, rfl⟩ | hchain
      · exact absurd hx.1 (Nat.not_le.2 hlt)
      · exact hout (List.mem_of_getLast? (hchain.getLast?_eq dir.firstCluster))
    refine ⟨hne, ?_, ?_⟩
    · rw [next_setCluster hfits.copies hx.2,
        next_allocated hfits.copies hin (lt_of_inRange hfits hin) hprev hx.2, if_neg hlast,
        if_neg hne]
    · rw [cluster_setCluster hlen hp.1 hx.1, if_neg hne, cluster_allocated hin hprev hx.1,
        if_neg hne]

/-- The cluster of the new record is in use, and the record is one of its slots. -/
theorem Created.place (hchain : DirChain fs d dir.firstCluster cs) :
    next fs d' p ≠ 0 ∧ ∃ i < fs.slots, off = 32 * i := by
  obtain ⟨hp, -⟩ := hcreated.placed.inRange hchain
  rw [hcreated.disk_eq, next_setCluster hfits.copies hp.2]
  cases hcreated.placed with
  | slot hfree =>
    obtain ⟨hmem, i, hi, hoff, -⟩ := mem_dirSlots (List.mem_of_find?_eq_some hfree)
    rcases hchain with ⟨-, rfl⟩ | hchain
    · cases hmem
    · exact ⟨hchain.next_ne_zero hmem, i, hi, hoff⟩
  | grown _ hfirst =>
    have hprev : ∀ q ∈ some (cs.getLastD dir.firstCluster), q < fs.entries := fun q hq =>
      Option.some.inj hq ▸ lt_entries_of_lt_two hp hchain.getLastD_lt
    have hpos : 0 < fs.slots := by
      have := fs.slots_eq
      have := fs.clusterSizeBytes_pos
      omega
    refine ⟨?_, 0, hpos, rfl⟩
    rw [next_allocated hfits.copies hp (lt_of_inRange hfits hp) hprev hp.2, if_pos rfl]
    have := hp.1
    split
    · omega
    · decide

/-- The new node is the empty file of its record. -/
theorem Created.fileNode (hchain : DirChain fs d dir.firstCluster cs) :
    FileNode fs d' n [] ∧ n.size = 0 ∧ n.parentCluster = p ∧
      entryNode fs d' n.parentCluster n.dirEntryOffset = n ∧ ∃ i, n.dirEntryOffset = 32 * i := by
  obtain ⟨hp, hoff, -⟩ := hcreated.placed.inRange hchain
  obtain ⟨hused, i, hi, hslot⟩ := hcreated.place hfits hchain
  have hraw := length_to83 hcreated.name83
  have hlen := length_putRecord fs off (cluster fs d₁ p) hraw hoff (length_cluster ..)
  have hbytes : cluster fs d' p = putRecord fs raw off (cluster fs d₁ p) := by
    rw [hcreated.disk_eq, cluster_setCluster hlen hp.1 hp.1, if_pos rfl]
  have hentry : entryNode fs d' p off = .file 0 0 p off := by
    have hself := slotIn_putRecord_self (c := p) hraw (length_cluster fs d₁ p) hi
    rw [← hslot, ← hbytes] at hself
    rw [← nodeOf_newRecord p off hraw, ← hself, hslot]
    rfl
  rw [hcreated.node_eq]
  exact ⟨⟨rfl, .inl ⟨Nat.two_pos, rfl⟩, hp, hused, List.not_mem_nil, hoff⟩, rfl, rfl, hentry, i,
    hslot⟩

end

section
variable {fs : Fat32Fs} {d d' d₁ : Disk} {dir n : Fat32Node} {cs l : List ℕ} {c p off : ℕ}
  {name : String} {raw : List UInt8} {e : DirEntry} (h : WellFormed fs d)
  (hcreated : Created fs d dir cs name n d' raw p off d₁)

include h hcreated

/-- The directories other than that of the new entry keep their slots. -/
theorem Created.dirSlots_eq (hdir : dir.firstCluster < 2 ∨ IsDir live fs d dir.firstCluster)
    (hchain : DirChain fs d dir.firstCluster cs) (hc : IsDir live fs d c)
    (hne : c ≠ dir.firstCluster) (hl : FatChain fs d c l) :
    FatChain fs d' c l ∧ dirSlots fs d' l = dirSlots fs d l := by
  have hdisj : ∀ x ∈ l, x ∉ cs := by
    rcases hchain with ⟨-, rfl⟩ | hcs
    · exact fun x _ => List.not_mem_nil
    · rcases hdir with hlt | hdir
      · exact absurd (hcs.mem_in _ hcs.head_mem).1 (Nat.not_le.2 hlt)
      · exact h.apart_of_dirs hc hdir hne hl hcs
  have hframe : ∀ x ∈ l, x ≠ p ∧ next fs d' x = next fs d x ∧ cluster fs d' x = cluster fs d x :=
    fun x hx => hcreated.frame h.fits hchain (hl.mem_in x hx) (hl.next_ne_zero hx) (hdisj x hx)
  exact ⟨hl.of_next_eq fun x hx => (hframe x hx).2.1,
    dirSlots_congr d d' fun x hx => (hframe x hx).2.2⟩

/-- The directory of the new entry is still there. -/
theorem Created.isDir_after (hdir : IsDir live fs d dir.firstCluster)
    (hchain : DirChain fs d dir.firstCluster cs) : IsDir live fs d' dir.firstCluster := by
  -- a directory that is lost was below it
  have hall : ∀ c, IsDir live fs d c → IsDir live fs d' c ∨ IsDir live fs d' dir.firstCluster := by
    intro c hc
    induction hc with
    | root => exact .inl .root
    | @sub c l e hc hl he hsub hdot hfirst ih =>
      by_cases hne : c = dir.firstCluster
      · rw [hne] at ih
        exact .inr (ih.elim id id)
      · refine ih.imp_left fun hc' => ?_
        obtain ⟨hl', hslots⟩ := hcreated.dirSlots_eq h (.inr hdir) hchain hc hne hl
        exact .sub hc' hl' (hslots ▸ he) hsub hdot hfirst
  exact (hall _ hdir).elim id id

/-- An entry that `create` makes in a directory without clusters is seen nowhere. -/
theorem Created.of_isEntry (hlt : dir.firstCluster < 2) (hchain : DirChain fs d dir.firstCluster cs)
    (he : IsEntry live fs d' e) : IsEntry live fs d e := by
  have hfits' : fs.Fits d'.capacity := by
    rw [hcreated.disk_eq, setCluster_capacity, (hcreated.placed.inRange hchain).2.2]
    exact h.fits
  have hne : ∀ {c l}, FatChain fs d c l → c ≠ dir.firstCluster := by
    rintro c l hl rfl
    exact absurd (hl.mem_in _ hl.head_mem).1 (Nat.not_le.2 hlt)
  have hdirs : ∀ c, IsDir live fs d' c → IsDir live fs d c := by
    intro c hc
    induction hc with
    | root => exact .root
    | @sub c l e _ hl he hsub hdot hfirst ih =>
      obtain ⟨l₀, hl₀⟩ := h.chain_of_isDir ih
      obtain ⟨hl', hslots⟩ := hcreated.dirSlots_eq h (.inl hlt) hchain ih (hne hl₀) hl₀
      obtain rfl := hl.unique hfits' hl'
      exact .sub ih hl₀ (hslots ▸ he) hsub hdot hfirst
  obtain ⟨c, l, hc, hl, hmem, hdot⟩ := he
  obtain ⟨l₀, hl₀⟩ := h.chain_of_isDir (hdirs c hc)
  obtain ⟨hl', hslots⟩ := hcreated.dirSlots_eq h (.inl hlt) hchain (hdirs c hc) (hne hl₀) hl₀
  obtain rfl := hl.unique hfits' hl'
  exact ⟨c, l, hdirs c hc, hl₀, hslots ▸ hmem, hdot⟩

/-- The record of the new file is in no cluster of another file. -/
theorem Created.apart (h' : WellFormed fs d')
    (hdir : dir.firstCluster < 2 ∨ IsDir live fs d dir.firstCluster)
    (hchain : DirChain fs d dir.firstCluster cs) (he : IsEntry live fs d' e)
    (hfile : e.isDirectory = false) (hl : DirChain fs d' e.first l) : p ∉ l := by
  rcases hdir with hlt | hdir
  · obtain rfl : cs = [] := hchain.unique h.fits (.inl ⟨hlt, rfl⟩)
    have he₀ := hcreated.of_isEntry h hlt hchain he
    obtain ⟨l₀, hl₀⟩ := h.chain e he₀
    rcases hl₀ with ⟨hlt₀, rfl⟩ | hl₀
    · obtain rfl := hl.unique h'.fits (.inl ⟨hlt₀, rfl⟩)
      exact List.not_mem_nil
    · have hframe : ∀ x ∈ l₀, x ≠ p ∧ next fs d' x = next fs d x ∧
          cluster fs d' x = cluster fs d x :=
        fun x hx => hcreated.frame h.fits hchain (hl₀.mem_in x hx) (hl₀.next_ne_zero hx)
          List.not_mem_nil
      obtain rfl := hl.unique h'.fits (.inr (hl₀.of_next_eq fun x hx => (hframe x hx).2.1))
      exact fun hp => (hframe p hp).1 rfl
  · have hcs : FatChain fs d dir.firstCluster cs := by
      obtain ⟨cs₀, hcs₀⟩ := h.chain_of_isDir hdir
      obtain rfl := hchain.unique h.fits (.inr hcs₀)
      exact hcs₀
    obtain ⟨cs', -, hcs', hp, -⟩ := hcreated.grows h.fits hcs
    exact h'.apart_of_file (hcreated.isDir_after h hdir hchain) hcs' he hfile hl p hp

/-- The node that `create` yields is one of the files of the volume. -/
theorem Created.target (h' : WellFormed fs d')
    (hdir : dir.firstCluster < 2 ∨ IsDir live fs d dir.firstCluster)
    (hchain : DirChain fs d dir.firstCluster cs) : Target fs d' n [] := by
  obtain ⟨hn, hzero, hp, hentry, hslot⟩ := hcreated.fileNode h.fits hchain
  refine ⟨hn, hentry, hslot, by rw [hzero]; exact Nat.zero_le _,
    fun _ _ _ _ x _ => List.not_mem_nil,
    fun e l he hfile _ hl => ⟨?_, fun x _ => List.not_mem_nil⟩⟩
  rw [hp]
  exact hcreated.apart h h' hdir hchain he hfile hl

end

/-! ## The law -/

section
variable {fs : Fat32Fs} {d : Disk} {node : Fat32Node} {offset n : ℕ} {data : List UInt8}
  {h' : Handle}

/-- A directory that was reached has a chain of clusters, or none. -/
theorem WellFormed.dirChain (h : WellFormed fs d) {c : ℕ} (hc : c < 2 ∨ IsDir live fs d c) :
    ∃ cs, DirChain fs d c cs := by
  rcases hc with hlt | hdir
  · exact ⟨[], .inl ⟨hlt, rfl⟩⟩
  · obtain ⟨cs, hcs⟩ := h.chain_of_isDir hdir
    exact ⟨cs, .inr hcs⟩

/-- A directory that was reached is the root, or one of those on the way. -/
theorem Opened.first (hopened : Opened fs d (fun c => c < 2 ∨ IsDir live fs d c) node)
    (hdir : node.isDir = true) : node.firstCluster < 2 ∨ IsDir live fs d node.firstCluster := by
  rcases hopened.dir hdir with rfl | hP
  · exact .inr .root
  · exact hP

/-- A file that was reached through directories of the volume is one of its files. -/
theorem WellFormed.target_of_opened (h : WellFormed fs d)
    (hopened : Opened fs d (fun c => c < 2 ∨ IsDir live fs d c) node) (hfile : node.isDir = false) :
    ∃ cs, Target fs d node cs := by
  obtain ⟨e, he, hfile', rfl⟩ := hopened.file live hfile h.fits (fun _ _ => id)
    (fun c hc => h.chain_of_isDir hc) (fun _ => id)
  obtain ⟨cs, hchain⟩ := h.chain e he
  exact ⟨cs, h.target he hfile' hchain⟩

/-- The same for a file that `create` has just made. -/
theorem WellFormed.target_of_obtained (h : WellFormed fs d)
    (hnode : Obtained fs (fun d c => c < 2 ∨ IsDir live fs d c) d node)
    (hfile : node.isDir = false) : ∃ cs, Target fs d node cs := by
  cases hnode with
  | finddir hopened => exact h.target_of_opened hopened hfile
  | @create d₀ _ dir _ fuel name h₀ hopened hcreate =>
    cases hdir : dir.isDir with
    | false =>
      rw [Fat32Node.create, hdir] at hcreate
      cases hcreate
    | true =>
      have hfirst := hopened.first hdir
      obtain ⟨cs, hchain⟩ := h₀.dirChain hfirst
      have hsat : Exec.Sat (dir.create fs fuel name d₀) _ _ := create_sat h₀.fits hchain
      rw [hcreate] at hsat
      obtain ⟨raw, p, off, d₁, hcreated⟩ := Exec.sat_ok.1 hsat
      exact ⟨[], hcreated.target h₀ h hfirst hchain⟩

/-- On a well-formed volume, a successful `write` through a node just obtained, by a lookup or by
`create`, changes its file as it should, and no other one. The directories on the way are those
below the root, or have no clusters. -/
theorem write_law (h : WellFormed fs d)
    (hnode : Obtained fs (fun d c => c < 2 ∨ IsDir live fs d c) d node) (hfile : node.isDir = false)
    (hdata : data ≠ []) (hsize : offset + data.length < 2 ^ 32)
    (hrun : write fs offset data ⟨node, d⟩ = .ok n h') :
    n = data.length ∧ WriteLaw fs ⟨node, d⟩ offset data h' := by
  obtain ⟨cs, ht⟩ := h.target_of_obtained hnode hfile
  exact ht.law h hdata hsize hrun

end

/-- A file of the root has a chain of its own, which is apart from the root's and covers its size.
-/
structure FileChain (fs : Fat32Fs) (d : Disk) (l : List ℕ) (e : DirEntry) (cs : List ℕ) :
    Prop where
  file : e.isDirectory = false
  chain : DirChain fs d e.first cs
  apart : ∀ x ∈ l, x ∉ cs
  covers : (nodeOf e).size ≤ cs.length * fs.clusterSizeBytes

/-- A volume whose root has these files, and nothing else. -/
theorem wellFormed_of_files {fs : Fat32Fs} {d : Disk} {l : List ℕ} {files : List DirEntry}
    (hfits : fs.Fits d.capacity) (hroot : FatChain fs d fs.bpb.rootCluster l)
    (hview : live (dirSlots fs d l) = files) (clustersOf : DirEntry → List ℕ)
    (hfiles : ∀ e ∈ files, FileChain fs d l e (clustersOf e))
    (hapart : ∀ e ∈ files, ∀ e' ∈ files, e ≠ e' → ∀ x ∈ clustersOf e, x ∉ clustersOf e') :
    WellFormed fs d := by
  have hentry : ∀ e, IsEntry live fs d e → e ∈ files := fun e he =>
    isEntry_of_files hfits hroot hview (fun e he => (hfiles e he).file) he
  have hunique : ∀ e cs, IsEntry live fs d e → DirChain fs d e.first cs → cs = clustersOf e :=
    fun e cs he hcs => hcs.unique hfits (hfiles e (hentry e he)).chain
  refine ⟨hfits, ⟨l, hroot⟩, fun e he => ⟨_, (hfiles e (hentry e he)).chain⟩,
    fun e l' cs' he hl hcs' => ?_, fun e e' cs cs' he he' hne hcs hcs' => ?_,
    fun e cs' he _ hcs' => ?_⟩
  · rw [hl.unique hfits hroot, hunique e cs' he hcs']
    exact (hfiles e (hentry e he)).apart
  · rw [hunique e cs he hcs, hunique e' cs' he' hcs']
    exact hapart e (hentry e he) e' (hentry e' he') hne
  · rw [hunique e cs' he hcs']
    exact (hfiles e (hentry e he)).covers

/-- A volume whose root has one file, and nothing else. -/
theorem wellFormed_of_oneFile {fs : Fat32Fs} {d : Disk} {l cs : List ℕ} {file : DirEntry}
    (hfits : fs.Fits d.capacity) (hroot : FatChain fs d fs.bpb.rootCluster l)
    (hview : live (dirSlots fs d l) = [file]) (hfile : FileChain fs d l file cs) :
    WellFormed fs d := by
  refine wellFormed_of_files hfits hroot hview (fun _ => cs) (List.forall_mem_singleton.2 hfile)
    fun e he e' he' hne => ?_
  exact absurd ((List.mem_singleton.1 he).trans (List.mem_singleton.1 he').symm) hne

/-- The only entry of the drive with an empty file. -/
theorem live_emptyFileDisk : live (dirSlots smallFs emptyFileDisk [2]) =
    [⟨record (oneLetter 0x41) 0x20 0 0, 2, 0⟩] := by
  rw [emptyFileDisk, dirSlots_rootDisk emptyFileDisk_rows]
  decide +kernel

/-- The drive with an empty file is well-formed. -/
theorem wellFormed_emptyFileDisk : WellFormed smallFs emptyFileDisk :=
  wellFormed_of_oneFile emptyFileDisk_readable.fits (fatChain_rootDisk emptyFileDisk_rows)
    live_emptyFileDisk
    ⟨by decide, .inl ⟨by decide, rfl⟩, fun _ _ => List.not_mem_nil, by decide⟩

/-- The entries of the drive with two files. -/
theorem live_twoFilesDisk : live (dirSlots smallFs twoFilesDisk [2]) = [fileA, fileB] := by
  rw [dirSlots_twoFilesDisk]
  decide +kernel

/-- The drive with two files is well-formed. -/
theorem wellFormed_twoFilesDisk : WellFormed smallFs twoFilesDisk := by
  refine wellFormed_of_files twoFilesDisk_fits (fatChain_twoFilesDisk (.inl rfl)) live_twoFilesDisk
    (fun e => [e.first]) (List.forall_mem_cons.2 ⟨?_, List.forall_mem_singleton.2 ?_⟩) ?_
  · exact ⟨by decide, .inr (fatChain_twoFilesDisk (.inr (.inl rfl))), by decide, by decide⟩
  · exact ⟨by decide, .inr (fatChain_twoFilesDisk (.inr (.inr rfl))), by decide, by decide⟩
  · decide +kernel

/-- A byte into the file `a`: the file `b` is as it was. -/
theorem write_law_two_files :
    ∃ h' : Handle, write smallFs 1 [8] ⟨nodeOf fileA, twoFilesDisk⟩ = .ok 1 h' ∧
      WriteLaw smallFs ⟨nodeOf fileA, twoFilesDisk⟩ 1 [8] h' ∧
      (nodeOf fileB).Reads smallFs h'.disk [9] := by
  obtain ⟨h', hrun⟩ := write_fileA 1 (List.cons_ne_nil 8 []) (by decide)
  have hlaw := write_law wellFormed_twoFilesDisk
    (.finddir (.finddir .root finddir_twoFilesDisk fun hdir => absurd hdir (by decide)))
    (by decide) (List.cons_ne_nil 8 []) (by decide) hrun
  refine ⟨h', hrun, hlaw.2, ?_⟩
  have hroot : FatChain smallFs twoFilesDisk 2 [2] := fatChain_twoFilesDisk (.inl rfl)
  have hentry : IsEntry live smallFs twoFilesDisk fileB := by
    refine ⟨2, [2], .root, hroot, ?_, by decide⟩
    rw [live_twoFilesDisk]
    decide
  have hold : (nodeOf fileB).Reads smallFs twoFilesDisk [9] := by
    have ht := wellFormed_twoFilesDisk.target hentry (by decide)
      (.inr (fatChain_twoFilesDisk (.inr (.inr rfl))))
    have hreads := ht.file.reads twoFilesDisk_fits (by decide)
    rw [clusters, List.flatMap_singleton, twoFilesDisk, cluster_smallDisk twoFilesDisk_rows
      (by decide)] at hreads
    exact hreads
  obtain ⟨bytes, hbefore, hafter, -⟩ := hlaw.2.others fileB hentry (by decide) (by decide)
  rwa [hbefore.unique hold] at hafter

/-! ## A stray `..` into a file -/

/-- The cluster 4 is the contents of the file `a`, and looks like a directory with an empty file
`b`. -/
def fileUpDisk : Disk := strayDisk (record (oneLetter 0x41) 0x20 4 512) 0x0FFFFFFF
  (smallRows [record (oneLetter 0x42) 0x20 0 0])

/-- The node of `b`. -/
def innerNode : Fat32Node := .file 0 0 4 0

/-- The record in the file's cluster fills its sector. -/
theorem fileUpDisk_bytes : (smallRows [record (oneLetter 0x42) 0x20 0 0]).length = 512 :=
  length_smallRows _ (by decide) (by decide)

/-- The drive has all sectors of the small volume. -/
theorem fileUpDisk_fits : smallFs.Fits fileUpDisk.capacity := strayDisk_fits rfl fileUpDisk_bytes

/-- Both directories and the file have one cluster each. -/
theorem fatChain_fileUpDisk {c : ℕ} (hc : c = 2 ∨ c = 3 ∨ c = 4) :
    FatChain smallFs fileUpDisk c [c] := by
  rcases or_assoc.2 hc with hc | rfl
  · exact fatChain_strayDisk rfl fileUpDisk_bytes hc
  · refine .last (by decide) ?_
    rw [fileUpDisk, next_strayDisk rfl fileUpDisk_bytes (by decide)]
    decide

/-- The root has the subdirectory and the file `a` as entries. -/
theorem fileUpDisk_root : live (slotsOf smallFs (smallRows [subRecord,
    record (oneLetter 0x41) 0x20 4 512]) 2) =
    [⟨subRecord, 2, 0⟩, ⟨record (oneLetter 0x41) 0x20 4 512, 2, 32⟩] := by decide +kernel

/-- The subdirectory has the entry `..` only. -/
theorem fileUpDisk_sub : live (slotsOf smallFs (smallRows [upRecord]) 3) = [⟨upRecord, 3, 0⟩] := by
  decide +kernel

/-- The drive is well-formed: the dot entries do not count. -/
theorem wellFormed_fileUpDisk : WellFormed smallFs fileUpDisk := by
  have hfits := fileUpDisk_fits
  have hentry : ∀ e, IsEntry live smallFs fileUpDisk e →
      e = ⟨subRecord, 2, 0⟩ ∨ e = ⟨record (oneLetter 0x41) 0x20 4 512, 2, 32⟩ := fun e he =>
    isEntry_strayDisk rfl fileUpDisk_bytes fileUpDisk_root fileUpDisk_sub (by decide) he
  have hfirst : ∀ e, IsEntry live smallFs fileUpDisk e → e.first = 3 ∨ e.first = 4 := by
    intro e he
    rcases hentry e he with rfl | rfl
    · exact .inl (by decide)
    · exact .inr (by decide)
  have hchain : ∀ e, IsEntry live smallFs fileUpDisk e →
      FatChain smallFs fileUpDisk e.first [e.first] := fun e he =>
    fatChain_fileUpDisk (.inr (hfirst e he))
  have hunique : ∀ e cs, IsEntry live smallFs fileUpDisk e →
      DirChain smallFs fileUpDisk e.first cs → cs = [e.first] := fun e cs he hcs =>
    hcs.unique hfits (.inr (hchain e he))
  refine ⟨hfits, ⟨[2], fatChain_fileUpDisk (.inl rfl)⟩, fun e he => ⟨_, .inr (hchain e he)⟩,
    fun e cs cs' he hcs hcs' x hx hx' => ?_, fun e e' cs cs' he he' hne hcs hcs' x hx hx' => ?_,
    fun e cs he hdir hcs => ?_⟩
  · obtain rfl := hcs.unique hfits (fatChain_fileUpDisk (.inl rfl))
    rw [hunique e cs' he hcs', List.mem_singleton] at hx'
    have := hfirst e he
    have hx2 : x = 2 := List.mem_singleton.1 hx
    omega
  · rw [hunique e cs he hcs, List.mem_singleton] at hx
    rw [hunique e' cs' he' hcs', List.mem_singleton, hx] at hx'
    rcases hentry e he with rfl | rfl <;> rcases hentry e' he' with rfl | rfl
    · exact hne rfl
    · exact absurd hx' (by decide)
    · exact absurd hx' (by decide)
    · exact hne rfl
  · rw [hunique e cs he hcs]
    rcases hentry e he with rfl | rfl
    · exact absurd hdir (by decide)
    · decide

/-- The empty file in the stray directory is found. -/
theorem obtained_innerNode : Obtained smallFs (fun _ _ => True) fileUpDisk innerNode := by
  have hup : Opened smallFs fileUpDisk (fun _ => True) upNode :=
    opened_upNode rfl fileUpDisk_bytes trivial trivial (by decide +kernel)
  have hfind : upNode.finddir smallFs 1 "b" fileUpDisk = .ok innerNode fileUpDisk := by
    have hlook : lookup (slotsOf smallFs (smallRows [record (oneLetter 0x42) 0x20 0 0]) 4) "b" =
        some ⟨record (oneLetter 0x42) 0x20 0 0, 4, 0⟩ := by decide +kernel
    have hchain : DirChain smallFs fileUpDisk upNode.firstCluster [4] :=
      .inr (fatChain_fileUpDisk (.inr (.inr rfl)))
    have hcluster : cluster smallFs fileUpDisk 4 = _ := cluster_strayDisk rfl fileUpDisk_bytes
    rw [← hcluster, ← dirSlots_singleton] at hlook
    exact finddir_of_lookup fileUpDisk_fits hchain rfl hlook le_rfl
  exact .finddir (.finddir hup hfind (Bool.noConfusion ·))

/-- The file that a lookup yields there has no clusters. -/
theorem fileNode_innerNode : FileNode smallFs fileUpDisk innerNode [] := by
  have hfile : FatChain smallFs fileUpDisk 4 [4] := fatChain_fileUpDisk (.inr (.inr rfl))
  exact ⟨rfl, .inl ⟨by decide, rfl⟩, by decide, hfile.next_ne_zero (List.mem_singleton.2 rfl),
    List.not_mem_nil, by decide⟩

/-- What is stored in its record overwrites a part of the file `a`. -/
theorem not_othersKept_fileUpDisk {pos : ℕ} {data : List UInt8} {h' : Handle} {cs' : List ℕ}
    (hw : Wrote smallFs ⟨innerNode, fileUpDisk⟩ [] pos data h' cs') (hlt : h'.node.size < 2 ^ 32)
    (hne : h'.node ≠ innerNode) : ¬ OthersKept smallFs ⟨innerNode, fileUpDisk⟩ h'.disk := by
  intro hothers
  have hfits := fileUpDisk_fits
  have hroot : FatChain smallFs fileUpDisk 2 [2] := fatChain_fileUpDisk (.inl rfl)
  have hfile : FatChain smallFs fileUpDisk 4 [4] := fatChain_fileUpDisk (.inr (.inr rfl))
  have hentry : IsEntry live smallFs fileUpDisk ⟨record (oneLetter 0x41) 0x20 4 512, 2, 32⟩ := by
    refine ⟨2, [2], .root, hroot, ?_, fun hdir => absurd hdir (by decide)⟩
    rw [fileUpDisk, dirSlots_strayDisk_root rfl fileUpDisk_bytes, fileUpDisk_root]
    exact List.mem_cons_of_mem _ List.mem_cons_self
  obtain ⟨bytes, hbytes, hbytes', -⟩ := hothers _ hentry (by decide) (by decide)
  -- the file `a` reads as its cluster, before and after
  have hreads : ∀ d, smallFs.Fits d.capacity → FatChain smallFs d 2 [2] → FatChain smallFs d 4 [4] →
      (nodeOf ⟨record (oneLetter 0x41) 0x20 4 512, 2, 32⟩).Reads smallFs d
        (cluster smallFs d 4) := by
    intro d hd hd2 hd4
    have hnode : FileNode smallFs d (nodeOf ⟨record (oneLetter 0x41) 0x20 4 512, 2, 32⟩) [4] :=
      ⟨by decide, .inr hd4, by decide, hd2.next_ne_zero (List.mem_singleton.2 rfl), by decide,
        by decide⟩
    have htake : (clusters smallFs d [4]).take 512 = cluster smallFs d 4 := by
      rw [clusters, List.flatMap_singleton]
      exact List.take_of_length_le (length_cluster ..).le
    rw [← htake]
    exact hnode.reads hd (by decide)
  have hsame : cluster smallFs h'.disk 4 = cluster smallFs fileUpDisk 4 :=
    ((hreads h'.disk (hw.fits hfits)
      (hw.grows.fatChain hfits.copies hroot fun _ _ => List.not_mem_nil).1
      (hw.grows.fatChain hfits.copies hfile fun _ _ => List.not_mem_nil).1).unique hbytes').trans
      (hbytes.unique (hreads fileUpDisk hfits hroot hfile))
  have hinner : entryNode smallFs fileUpDisk 4 0 = innerNode := by
    rw [entryNode, fileUpDisk, cluster_strayDisk rfl fileUpDisk_bytes]
    decide
  have hnode : entryNode smallFs h'.disk 4 0 = h'.node :=
    hw.entryNode_eq hfits hinner rfl hlt
  rw [entryNode, hsame, ← entryNode, hinner] at hnode
  exact hne hnode.symm

/-- A write to the empty file in the stray directory succeeds and overwrites a part of the file
`a`. -/
theorem write_law_fails : ¬ ∀ (fs : Fat32Fs) (d : Disk) (node : Fat32Node) (offset n : ℕ)
    (data : List UInt8) (h' : Handle), WellFormed fs d → Obtained fs (fun _ _ => True) d node →
    node.isDir = false → data ≠ [] → offset + data.length < 2 ^ 32 →
    write fs offset data ⟨node, d⟩ = .ok n h' →
    n = data.length ∧ WriteLaw fs ⟨node, d⟩ offset data h' := by
  intro hall
  have hfree : next smallFs fileUpDisk 10 = 0 := by
    rw [fileUpDisk, next_strayDisk rfl fileUpDisk_bytes (by decide)]
    rfl
  obtain ⟨h', cs', hrun, hw, hsize, -⟩ := write_of_empty 0 7 fileUpDisk_fits fileNode_innerNode rfl
    (by decide) (show smallFs.InRange 10 by decide) hfree
  obtain ⟨-, hlaw⟩ := hall smallFs fileUpDisk innerNode 0 1 [7] h' wellFormed_fileUpDisk
    obtained_innerNode rfl (List.cons_ne_nil 7 []) (by decide) hrun
  refine not_othersKept_fileUpDisk hw (by rw [hsize]; decide) (fun hsame => ?_) hlaw.others
  rw [hsame] at hsize
  exact absurd hsize (by decide)

end Fat

end RossOs
