import RossOs.Fat.Create
import RossOs.Fat.Entry

/-!
# The directories of a volume

The directories that hang below the root, and their entries. Entries with the names `.` and `..`
lead back up and do not count. `view` says which slots of a directory hold entries: those before the
end mark (`live`), or all that are in use (`used`). A call of `write` leaves the slots of the others
(`Wrote.slotIn_eq`), and `create` adds one (`Created.grows`).
-/

namespace RossOs

open ByteMem Ahci

namespace Fat

/-! ## Entries -/

/-- The first cluster of an entry. -/
def DirEntry.first (e : DirEntry) : ℕ := firstClusterOf e.bytes

/-- The entry has the directory attribute. -/
def DirEntry.isDirectory (e : DirEntry) : Bool := attr e.bytes &&& 0x10 ≠ 0

/-- The entry has the name `.` or `..`. -/
def DirEntry.isDot (e : DirEntry) : Bool := decode83 e.bytes = "." ∨ decode83 e.bytes = ".."

/-- The slots that hold an 8.3 entry, before or after the end mark. -/
def used (l : List DirEntry) : List DirEntry := l.filter (·.isUsed)

section
variable (view : List DirEntry → List DirEntry) (fs : Fat32Fs) (d : Disk)

/-- The first clusters of the directories. -/
inductive IsDir : ℕ → Prop
  | root : IsDir fs.bpb.rootCluster
  | sub {c : ℕ} {cs : List ℕ} {e : DirEntry} : IsDir c → FatChain fs d c cs →
      e ∈ view (dirSlots fs d cs) → e.isDirectory = true → e.isDot = false → 2 ≤ e.first →
      IsDir e.first

/-- The entries of the directories, other than the directories `.` and `..`. -/
def IsEntry (e : DirEntry) : Prop := ∃ c cs, IsDir view fs d c ∧ FatChain fs d c cs ∧
  e ∈ view (dirSlots fs d cs) ∧ (e.isDirectory = true → e.isDot = false)

/-- The nodes that lookups from the root on yield, through directories whose first clusters satisfy
`P`. -/
inductive Opened (P : ℕ → Prop) : Fat32Node → Prop
  | root : Opened P fs.root
  | finddir {dir node : Fat32Node} {fuel : ℕ} {name : String} : Opened P dir →
      dir.finddir fs fuel name d = .ok node d → (node.isDir = true → P node.firstCluster) →
      Opened P node

end

section
variable {view : List DirEntry → List DirEntry} {fs : Fat32Fs} {d d' : Disk} {c : ℕ} {cs : List ℕ}
  {e e' : DirEntry} {node : Fat32Node}

/-- A used slot is a slot with an entry in it. -/
theorem mem_used {l : List DirEntry} : e ∈ used l ↔ e ∈ l ∧ e.isUsed = true := List.mem_filter

/-- The slots of a directory, by cluster and index. -/
theorem mem_dirSlots_iff : e ∈ dirSlots fs d cs ↔
    ∃ x ∈ cs, ∃ i < fs.slots, e = slotIn (cluster fs d x) x i := by
  rw [dirSlots, List.mem_flatMap]
  refine exists_congr fun x => and_congr_right fun _ => ?_
  rw [slotsOf_eq, List.mem_map]
  constructor
  · rintro ⟨i, hi, rfl⟩
    exact ⟨i, List.mem_range.1 hi, rfl⟩
  · rintro ⟨i, hi, rfl⟩
    exact ⟨i, List.mem_range.2 hi, rfl⟩

/-- The place of an entry determines it. -/
theorem eq_of_mem_dirSlots {cs' : List ℕ} (h : e ∈ dirSlots fs d cs) (h' : e' ∈ dirSlots fs d cs')
    (hc : e.cluster = e'.cluster) (ho : e.off = e'.off) : e = e' := by
  obtain ⟨x, -, i, -, rfl⟩ := mem_dirSlots_iff.1 h
  obtain ⟨y, -, j, -, rfl⟩ := mem_dirSlots_iff.1 h'
  obtain rfl : x = y := hc
  obtain rfl : i = j := Nat.eq_of_mul_eq_mul_left (by decide) ho
  rfl

/-- The node of a slot is the one its record describes. -/
theorem entryNode_of_mem (h : e ∈ dirSlots fs d cs) :
    entryNode fs d e.cluster e.off = nodeOf e := by
  obtain ⟨x, -, i, -, rfl⟩ := mem_dirSlots_iff.1 h
  rfl

/-- The node of an entry is a directory if the entry is. -/
theorem isDir_nodeOf (e : DirEntry) : (nodeOf e).isDir = e.isDirectory := by
  by_cases h : attr e.bytes &&& 0x10 ≠ 0
  · rw [nodeOf, if_pos h, DirEntry.isDirectory, decide_eq_true h]
    rfl
  · rw [nodeOf, if_neg h, DirEntry.isDirectory, decide_eq_false h]
    rfl

/-- The node of an entry starts where the entry does. -/
theorem firstCluster_nodeOf (e : DirEntry) : (nodeOf e).firstCluster = e.first := by
  rw [nodeOf]
  split <;> rfl

/-- A directory is the root, or that of an entry. -/
theorem IsDir.eq_or_entry (h : IsDir view fs d c) :
    c = fs.bpb.rootCluster ∨ ∃ e, IsEntry view fs d e ∧ e.isDirectory = true ∧ 2 ≤ e.first ∧
      c = e.first := by
  cases h with
  | root => exact .inl rfl
  | sub hc hchain he hdir hdot hfirst =>
    exact .inr ⟨_, ⟨_, _, hc, hchain, he, fun _ => hdot⟩, hdir, hfirst, rfl⟩

/-- A directory that lookups yield is the root or starts as asked. -/
theorem Opened.dir {P : ℕ → Prop} (h : Opened fs d P node) (hdir : node.isDir = true) :
    node = fs.root ∨ P node.firstCluster := by
  cases h with
  | root => exact .inl rfl
  | finddir _ _ hP => exact .inr (hP hdir)

/-- A file that is opened through directories below the root has an entry in one. A directory
without clusters shows nothing. -/
theorem Opened.file (view : List DirEntry → List DirEntry) {P : ℕ → Prop} (h : Opened fs d P node)
    (hfile : node.isDir = false) (hfits : fs.Fits d.capacity)
    (hview : ∀ l e, e ∈ live l → e ∈ view l)
    (hchains : ∀ c, IsDir view fs d c → ∃ cs, FatChain fs d c cs)
    (hP : ∀ c, P c → c < 2 ∨ IsDir view fs d c) :
    ∃ e, IsEntry view fs d e ∧ e.isDirectory = false ∧ node = nodeOf e := by
  cases h with
  | root => cases hfile
  | @finddir dir _ fuel name hopened hfind =>
    cases hdir : dir.isDir with
    | false =>
      rw [Fat32Node.finddir, hdir] at hfind
      cases hfind
    | true =>
      have hfirst : dir.firstCluster < 2 ∨ IsDir view fs d dir.firstCluster := by
        rcases hopened.dir hdir with rfl | hP'
        · exact .inr .root
        · exact hP _ hP'
      rcases hfirst with hlt | hdir'
      · obtain ⟨e, hlook, -⟩ := (finds_iff hfits (.inl ⟨hlt, rfl⟩) hdir).1 ⟨fuel, hfind⟩
        cases hlook
      · obtain ⟨cs, hcs⟩ := hchains _ hdir'
        obtain ⟨e, hlook, rfl⟩ := (finds_iff hfits (.inr hcs) hdir).1 ⟨fuel, hfind⟩
        rw [isDir_nodeOf] at hfile
        refine ⟨e, ⟨_, cs, hdir', hcs, hview _ e (List.mem_of_find?_eq_some hlook), ?_⟩, hfile, rfl⟩
        intro htrue
        rw [hfile] at htrue
        cases htrue

/-- A file with an entry in a directory. -/
theorem fileNode_of_mem {a : ℕ} {l : List ℕ} (hl : FatChain fs d a l) (he : e ∈ dirSlots fs d l)
    (hfile : e.isDirectory = false) (hcs : DirChain fs d e.first cs) (hdisj : ∀ x ∈ l, x ∉ cs) :
    FileNode fs d (nodeOf e) cs := by
  have hp := parentCluster_nodeOf e
  have ho := dirEntryOffset_nodeOf e
  have hcb := fs.slots_eq
  obtain ⟨hmem, i, hi, hoff, -⟩ := mem_dirSlots he
  refine ⟨(isDir_nodeOf e).trans hfile, ?_, ?_, ?_, ?_, ?_⟩
  · rwa [firstCluster_nodeOf]
  · rw [hp]
    exact hl.mem_in _ hmem
  · rw [hp]
    exact hl.next_ne_zero hmem
  · rw [hp]
    exact hdisj _ hmem
  · rw [ho, hoff]
    omega

/-- A write leaves the slots of the clusters outside the file, but for that of its record. -/
theorem Wrote.slotIn_eq {h h' : Handle} {cs' : List ℕ} {pos i j x : ℕ} {data : List UInt8}
    (hw : Wrote fs h cs pos data h' cs') (hi : h.node.dirEntryOffset = 32 * i) (hx : 2 ≤ x)
    (hout : x ∉ cs') (hne : x ≠ h.node.parentCluster ∨ j ≠ i) :
    slotIn (cluster fs h'.disk x) x j = slotIn (cluster fs h.disk x) x j := by
  by_cases hxp : x = h.node.parentCluster
  · have hoff := hw.node.offset
    rw [hw.place.2] at hoff
    have hlen : h.node.dirEntryOffset + 32 ≤ (cluster fs h.disk x).length := by
      rwa [length_cluster]
    have hslice := slice_patchRecord_of_disjoint h.node h'.node (k := 32 * j) hlen (by omega)
    rw [slotIn, slotIn, ← hslice, hxp, hw.record]
  · rw [hw.grows.cluster x hx hout hxp]

end

/-! ## A new file -/

section
variable {fs : Fat32Fs} {d d' d₁ : Disk} {node n : Fat32Node} {cs : List ℕ} {p off i j x : ℕ}
  {name : String} {raw buf : List UInt8}

/-- The entry is that of an empty file. -/
def IsEmptyFile (e : DirEntry) : Prop := e.isDirectory = false ∧ e.first = 0

/-- The used slots of a cluster into which a record is put. -/
theorem slotIn_putRecord_used (hraw : raw.length = 11) (hbuf : buf.length = fs.clusterSizeBytes)
    (hi : i < fs.slots) (hj : j < fs.slots)
    (hused : (slotIn (putRecord fs raw (32 * i) buf) x j).isUsed = true) :
    slotIn (putRecord fs raw (32 * i) buf) x j = slotIn buf x j ∨
      IsEmptyFile (slotIn (putRecord fs raw (32 * i) buf) x j) := by
  by_cases hji : j = i
  · subst hji
    have hnode := nodeOf_newRecord x (32 * j) hraw
    rw [slotIn_putRecord_self hraw hbuf hi]
    right
    exact ⟨by rw [← isDir_nodeOf, hnode]; rfl, by rw [← firstCluster_nodeOf, hnode]; rfl⟩
  · by_cases hji' : j = i + 1
    · subst hji'
      have hend := slotIn_putRecord_next (c := x) hraw hbuf hi hj
      rw [DirEntry.isUsed_of_isFree (DirEntry.isFree_of_isEnd hend)] at hused
      cases hused
    · exact .inl (slotIn_putRecord_of_ne hraw hbuf hi hji hji')

/-- A slot of a cluster of zeros is free. -/
theorem isUsed_slotIn_zeros (n x j : ℕ) : (slotIn (List.replicate n 0) x j).isUsed = false := by
  refine DirEntry.isUsed_of_isFree (DirEntry.isFree_iff.2 (.inl ?_))
  rw [b0_slotIn, List.getD_eq_getElem?_getD, List.getElem?_replicate]
  split <;> rfl

/-- A record put into a cluster of a directory: the used slots are those from before, and the new
one. -/
theorem used_putRecord {e : DirEntry} (hraw : raw.length = 11) (hp : 2 ≤ p) (hcs : ∀ x ∈ cs, 2 ≤ x)
    (hi : i < fs.slots)
    (he : e ∈ used (dirSlots fs
      (setCluster fs d p (putRecord fs raw (32 * i) (cluster fs d p))) cs)) :
    e ∈ used (dirSlots fs d cs) ∨ IsEmptyFile e := by
  have hcb := fs.slots_eq
  have hlen := length_putRecord fs (32 * i) (cluster fs d p) hraw (by omega) (length_cluster ..)
  obtain ⟨he, hused⟩ := mem_used.1 he
  obtain ⟨x, hx, j, hj, rfl⟩ := mem_dirSlots_iff.1 he
  rw [cluster_setCluster hlen hp (hcs x hx)] at hused ⊢
  by_cases hxp : x = p
  · subst hxp
    rw [if_pos rfl] at hused ⊢
    rcases slotIn_putRecord_used hraw (length_cluster ..) hi hj hused with heq | hempty
    · rw [heq] at hused ⊢
      exact .inl (mem_used.2 ⟨mem_dirSlots_iff.2 ⟨_, hx, j, hj, rfl⟩, hused⟩)
    · exact .inr hempty
  · rw [if_neg hxp] at hused ⊢
    exact .inl (mem_used.2 ⟨mem_dirSlots_iff.2 ⟨_, hx, j, hj, rfl⟩, hused⟩)

/-- A new cluster brings no used slot to a directory. -/
theorem used_allocated {e : DirEntry} {prev : Option ℕ} (hin : fs.InRange p)
    (hprev : ∀ q ∈ prev, q < fs.entries) (hcs : ∀ x ∈ cs, 2 ≤ x)
    (he : e ∈ used (dirSlots fs (allocated fs d prev p) (cs ++ [p]))) :
    e ∈ used (dirSlots fs d cs) := by
  obtain ⟨he, hused⟩ := mem_used.1 he
  obtain ⟨x, hx, j, hj, rfl⟩ := mem_dirSlots_iff.1 he
  by_cases hxp : x = p
  · rw [hxp, cluster_allocated hin hprev hin.1, if_pos rfl, isUsed_slotIn_zeros] at hused
    cases hused
  · have hxcs : x ∈ cs := (List.mem_append.1 hx).resolve_right fun hx =>
      hxp (List.mem_singleton.1 hx)
    rw [cluster_allocated hin hprev (hcs x hxcs), if_neg hxp] at hused ⊢
    exact mem_used.2 ⟨mem_dirSlots_iff.2 ⟨_, hxcs, j, hj, rfl⟩, hused⟩

/-- What a successful `create` did to its directory: the used slots are those from before, and the
new one. -/
theorem Created.grows (hfits : fs.Fits d.capacity) (hcs : FatChain fs d node.firstCluster cs)
    (hcreated : Created fs d node cs name n d' raw p off d₁) :
    ∃ cs', Grows fs 0 d cs d' cs' ∧ FatChain fs d' node.firstCluster cs' ∧ p ∈ cs' ∧
      ∀ e ∈ used (dirSlots fs d' cs'), e ∈ used (dirSlots fs d cs) ∨ IsEmptyFile e := by
  have hraw := length_to83 hcreated.name83
  have hcb := fs.slots_eq
  have hnodup := hcs.nodup hfits
  have hcs2 : ∀ x ∈ cs, 2 ≤ x := fun x hx => (hcs.mem_in x hx).1
  rw [hcreated.disk_eq]
  cases hcreated.placed with
  | @slot e hfree =>
    obtain ⟨hp, i, hi, hoff, -⟩ := mem_dirSlots (List.mem_of_find?_eq_some hfree)
    have hlen := length_putRecord fs e.off (cluster fs d e.cluster) hraw (by omega)
      (length_cluster ..)
    refine ⟨cs, grows_setCluster hfits hnodup (hcs2 _ hp) (.inl hp) hlen, hcs.setCluster hfits, hp,
      fun e' he' => ?_⟩
    rw [hoff] at he'
    exact used_putRecord hraw (hcs2 _ hp) hcs2 hi he'
  | grown hfree hfirst =>
    have hlast := hcs.getLast?_eq node.firstCluster
    obtain ⟨hgrows, hchain, -⟩ := grows_allocated (p := 0) hfits hcs hlast hfirst
    obtain ⟨hin, -⟩ := firstFree_some hfirst
    have hprev : ∀ q ∈ some (cs.getLastD node.firstCluster), q < fs.entries := fun q hq =>
      Option.some.inj hq ▸ (hcs.mem_in _ (List.mem_of_getLast? hlast)).2
    have hfits₁ : fs.Fits (allocated fs d (some (cs.getLastD node.firstCluster)) p).capacity := by
      rw [hgrows.capacity]
      exact hfits
    have hpos := fs.clusterSizeBytes_pos
    have hlen := length_putRecord fs 0
      (cluster fs (allocated fs d (some (cs.getLastD node.firstCluster)) p) p) hraw (by omega)
      (length_cluster ..)
    have hmem : p ∈ cs ++ [p] := List.mem_append_right _ (List.mem_singleton.2 rfl)
    refine ⟨cs ++ [p], hgrows.trans hfits.copies
      (grows_setCluster hfits₁ hgrows.nodup hin.1 (.inl hmem) hlen), hchain.setCluster hfits₁, hmem,
      fun e' he' => ?_⟩
    have hchain2 : ∀ x ∈ cs ++ [p], 2 ≤ x := fun x hx => (hchain.mem_in x hx).1
    exact (used_putRecord (i := 0) hraw hin.1 hchain2 (by omega) he').imp_left
      (used_allocated hin hprev hcs2)

end

/-! ## A volume with files in its root only -/

section
variable {fs : Fat32Fs} {d : Disk} {view : List DirEntry → List DirEntry} {l : List ℕ} {c : ℕ}
  {e : DirEntry} {files : List DirEntry} (hfits : fs.Fits d.capacity)
  (hroot : FatChain fs d fs.bpb.rootCluster l) (hview : view (dirSlots fs d l) = files)
  (hfiles : ∀ e ∈ files, e.isDirectory = false)

include hfits hroot hview hfiles

/-- The root is the only directory. -/
theorem isDir_of_files (h : IsDir view fs d c) : c = fs.bpb.rootCluster := by
  induction h with
  | root => rfl
  | @sub c cs e _ hcs he hdir _ _ ih =>
    subst ih
    rw [hcs.unique hfits hroot, hview] at he
    rw [hfiles e he] at hdir
    cases hdir

/-- The files are the only entries. -/
theorem isEntry_of_files (h : IsEntry view fs d e) : e ∈ files := by
  obtain ⟨c, cs, hc, hcs, he, -⟩ := h
  obtain rfl := isDir_of_files hfits hroot hview hfiles hc
  rwa [hcs.unique hfits hroot, hview] at he

end

/-- The root directory of the small drive has one cluster. -/
theorem fatChain_rootDisk {r : List UInt8} (hr : (smallRows [r]).length = 512) :
    FatChain smallFs (rootDisk [r]) 2 [2] :=
  (rootDisk_readable hr).chain.resolve_left fun hlt => absurd hlt.1 (by decide)

/-- The only entry of a drive with one file. -/
theorem isEntry_rootDisk {view : List DirEntry → List DirEntry} {r : List UInt8} {e : DirEntry}
    (hr : (smallRows [r]).length = 512)
    (hroot : view (slotsOf smallFs (smallRows [r]) 2) = [⟨r, 2, 0⟩])
    (hfile : (⟨r, 2, 0⟩ : DirEntry).isDirectory = false)
    (h : IsEntry view smallFs (rootDisk [r]) e) : e = ⟨r, 2, 0⟩ := by
  rw [← dirSlots_rootDisk hr] at hroot
  exact List.mem_singleton.1 (isEntry_of_files (rootDisk_readable hr).fits (fatChain_rootDisk hr)
    hroot (List.forall_mem_singleton.2 hfile) h)

/-! ## A volume with a stray `..`

A directory `s` below the root, whose entry `..` leads to the cluster 4 instead of its parent. -/

/-- The entry of the directory `s`. -/
def subRecord : List UInt8 := record (oneLetter 0x53) 0x10 3 0

/-- The entry `..` in it. -/
def upRecord : List UInt8 := record (0x2E :: 0x2E :: List.replicate 9 0x20) 0x10 4 0

/-- The drive, with another record `r` in the root, and the link and the bytes of the cluster 4. -/
def strayDisk (r : List UInt8) (v : ℕ) (bs : List UInt8) : Disk :=
  smallDisk [(2, 0x0FFFFFFF, smallRows [subRecord, r]), (3, 0x0FFFFFFF, smallRows [upRecord]),
    (4, v, bs)]

/-- The node of the directory `..`. -/
def upNode : Fat32Node := .dir 4 3 0

section
variable {r bs : List UInt8} {v : ℕ} (hr : r.length = 32) (hbs : bs.length = 512)

include hr hbs

/-- The clusters of the drive with a subdirectory are well formed. -/
theorem strayDisk_rows : ∀ e ∈ [(2, 0x0FFFFFFF, smallRows [subRecord, r]),
    (3, 0x0FFFFFFF, smallRows [upRecord]), (4, v, bs)],
    2 ≤ e.1 ∧ e.1 < 128 ∧ e.2.2.length = 512 := by
  have hroot : (smallRows [subRecord, r]).length = 512 :=
    length_smallRows _ (List.forall_mem_cons.2 ⟨rfl, List.forall_mem_singleton.2 hr⟩)
      (show 2 ≤ 16 by decide)
  have hsub : (smallRows [upRecord]).length = 512 := length_smallRows _ (by decide) (by decide)
  exact List.forall_mem_cons.2 ⟨⟨le_rfl, show 2 < 128 by decide, hroot⟩,
    List.forall_mem_cons.2 ⟨⟨by decide, by decide, hsub⟩,
      List.forall_mem_singleton.2 ⟨show 2 ≤ 4 by decide, show 4 < 128 by decide, hbs⟩⟩⟩

/-- The drive with a subdirectory has all sectors of the small volume. -/
theorem strayDisk_fits : smallFs.Fits (strayDisk r v bs).capacity := by
  rw [strayDisk, smallDisk_capacity (strayDisk_rows hr hbs)]
  exact smallFs_fits

/-- Its links: both directories end at once, the file as it is given. -/
theorem next_strayDisk {x : ℕ} (hx : x < 128) : next smallFs (strayDisk r v bs) x =
    if x = 2 ∨ x = 3 then 0x0FFFFFFF else if x = 4 then v % 2 ^ 28 else 0 := by
  rw [strayDisk, next_smallDisk (strayDisk_rows hr hbs) hx]
  by_cases h2 : x = 2
  · rw [if_pos (.inl h2), h2]
    rfl
  by_cases h3 : x = 3
  · rw [if_pos (.inr h3), h3]
    rfl
  rw [if_neg (by omega), List.find?_cons_of_neg (by simpa using Ne.symm h2),
    List.find?_cons_of_neg (by simpa using Ne.symm h3)]
  by_cases h4 : x = 4
  · rw [if_pos h4, h4]
    rfl
  · rw [if_neg h4, List.find?_cons_of_neg (by simpa using Ne.symm h4)]
    rfl

/-- Both directories have one cluster. -/
theorem fatChain_strayDisk {c : ℕ} (hc : c = 2 ∨ c = 3) :
    FatChain smallFs (strayDisk r v bs) c [c] := by
  have hlt : c < 128 := by omega
  refine .last ⟨by omega, hlt⟩ ?_
  rw [next_strayDisk hr hbs hlt, if_pos hc]
  decide

/-- The slots of the root are its two records. -/
theorem dirSlots_strayDisk_root : dirSlots smallFs (strayDisk r v bs) [2] =
    slotsOf smallFs (smallRows [subRecord, r]) 2 := by
  rw [dirSlots_singleton, strayDisk, cluster_smallDisk (strayDisk_rows hr hbs) (by decide)]
  rfl

/-- The subdirectory has one record. -/
theorem dirSlots_strayDisk_sub : dirSlots smallFs (strayDisk r v bs) [3] =
    slotsOf smallFs (smallRows [upRecord]) 3 := by
  rw [dirSlots_singleton, strayDisk, cluster_smallDisk (strayDisk_rows hr hbs) (by decide)]
  rfl

/-- The cluster of its file has the bytes that are given. -/
theorem cluster_strayDisk : cluster smallFs (strayDisk r v bs) 4 = bs := by
  rw [strayDisk, cluster_smallDisk (strayDisk_rows hr hbs) (by decide)]
  rfl

/-- The stray directory is opened through `s`. -/
theorem opened_upNode {P : ℕ → Prop} (h3 : P 3) (h4 : P 4)
    (hsub : lookup (slotsOf smallFs (smallRows [subRecord, r]) 2) "s" = some ⟨subRecord, 2, 0⟩) :
    Opened smallFs (strayDisk r v bs) P upNode := by
  have hfits := strayDisk_fits (v := v) hr hbs
  have hroot : smallFs.root.finddir smallFs 1 "s" (strayDisk r v bs) =
      .ok (.dir 3 2 0) (strayDisk r v bs) := by
    have hchain : DirChain smallFs (strayDisk r v bs) smallFs.root.firstCluster [2] :=
      .inr (fatChain_strayDisk hr hbs (.inl rfl))
    rw [← dirSlots_strayDisk_root hr hbs] at hsub
    exact finddir_of_lookup hfits hchain rfl hsub le_rfl
  have hup : lookup (slotsOf smallFs (smallRows [upRecord]) 3) ".." = some ⟨upRecord, 3, 0⟩ := by
    decide +kernel
  have hfind : (Fat32Node.dir 3 2 0).finddir smallFs 1 ".." (strayDisk r v bs) =
      .ok upNode (strayDisk r v bs) := by
    have hchain : DirChain smallFs (strayDisk r v bs) (Fat32Node.dir 3 2 0).firstCluster [3] :=
      .inr (fatChain_strayDisk hr hbs (.inr rfl))
    rw [← dirSlots_strayDisk_sub hr hbs] at hup
    exact finddir_of_lookup hfits hchain rfl hup le_rfl
  exact .finddir (.finddir .root hroot fun _ => h3) hfind fun _ => h4

variable {view : List DirEntry → List DirEntry} {c : ℕ} {e : DirEntry}
  (hroot : view (slotsOf smallFs (smallRows [subRecord, r]) 2) =
    [⟨subRecord, 2, 0⟩, ⟨r, 2, 32⟩])
  (hsub : view (slotsOf smallFs (smallRows [upRecord]) 3) = [⟨upRecord, 3, 0⟩])
  (hfile : (⟨r, 2, 32⟩ : DirEntry).isDirectory = false)

include hroot hsub

/-- Its entries, directory by directory: the subdirectory and the file. -/
theorem mem_strayDisk {cs : List ℕ} (hc : c = 2 ∨ c = 3)
    (hcs : FatChain smallFs (strayDisk r v bs) c cs)
    (he : e ∈ view (dirSlots smallFs (strayDisk r v bs) cs))
    (hdot : e.isDirectory = true → e.isDot = false) :
    e = ⟨subRecord, 2, 0⟩ ∨ e = ⟨r, 2, 32⟩ := by
  obtain rfl := hcs.unique (strayDisk_fits hr hbs) (fatChain_strayDisk hr hbs hc)
  rcases hc with rfl | rfl
  · rw [dirSlots_strayDisk_root hr hbs, hroot] at he
    simpa using he
  · rw [dirSlots_strayDisk_sub hr hbs, hsub] at he
    obtain rfl := List.mem_singleton.1 he
    exact absurd (hdot (by decide)) (by decide)

include hfile

/-- Its directories are the root and the subdirectory. -/
theorem isDir_strayDisk (h : IsDir view smallFs (strayDisk r v bs) c) : c = 2 ∨ c = 3 := by
  induction h with
  | root => exact .inl rfl
  | @sub c cs e _ hcs he hdir hdot _ ih =>
    rcases mem_strayDisk hr hbs hroot hsub ih hcs he fun _ => hdot with rfl | rfl
    · exact .inr (by decide)
    · rw [hfile] at hdir
      cases hdir

/-- Its entries are the subdirectory and the file. -/
theorem isEntry_strayDisk (h : IsEntry view smallFs (strayDisk r v bs) e) :
    e = ⟨subRecord, 2, 0⟩ ∨ e = ⟨r, 2, 32⟩ := by
  obtain ⟨c, cs, hc, hcs, he, hdot⟩ := h
  exact mem_strayDisk hr hbs hroot hsub (isDir_strayDisk hr hbs hroot hsub hfile hc) hcs he hdot

end

end Fat

end RossOs
