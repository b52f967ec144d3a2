import RossOs.Paths
import RossOs.Fat.Law
import RossOs.Fat.Names
import RossOs.Fat.WellFormed

/-!
# Parent links

`finddir` in `ross-kernel/src/fat32.rs` makes a node from the first cluster that an entry holds. The
entry `..` of a directory below the root holds the cluster 0 there, and the driver takes that for a
directory without clusters: it lists nothing, and a file that is created in it is linked to the
entry 0 of the FAT. `parentLink_iff` says that a path through `..` leads back to the parent exactly
when the parent is not the root.
-/

namespace RossOs

namespace Fat

/-- The directory with the clusters `l` has an entry of this name, and every such entry is a
directory with the first cluster `c`. -/
structure Links (fs : Fat32Fs) (d : Disk) (l : List ℕ) (name : String) (c : ℕ) : Prop where
  exists_entry : ∃ x ∈ live (dirSlots fs d l), decode83 x.bytes = name
  leads : ∀ x ∈ live (dirSlots fs d l), decode83 x.bytes = name → x.isDirectory = true ∧ x.first = c

/-- Every directory below the root has the entries `.` and `..` of the format: the first for itself
and the second for its parent, with the cluster 0 for the root. -/
def Dotted (fs : Fat32Fs) (d : Disk) : Prop :=
  ∀ c cs e l, IsDir live fs d c → FatChain fs d c cs → e ∈ live (dirSlots fs d cs) →
    e.isDirectory = true → e.isDot = false → DirChain fs d e.first l →
    Links fs d l "." e.first ∧ Links fs d l ".." (if c = fs.bpb.rootCluster then 0 else c)

/-- The record of the new file is in a slot of the directory. -/
def Added (fs : Fat32Fs) (d' : Disk) (c : ℕ) (name : String) (n : Fat32Node) : Prop :=
  ∃ raw cs', to83 name = some raw ∧ FatChain fs d' c cs' ∧
    ⟨newRecord raw, n.parentCluster, n.dirEntryOffset⟩ ∈ dirSlots fs d' cs'

/-- The node `up` stands for the directory of the node `dir`. -/
structure ParentLink (fs : Fat32Fs) (d : Disk) (dir up : Fat32Node) : Prop where
  isDir : up.isDir = true
  readdir : ∀ fuel, up.readdir fs fuel d = dir.readdir fs fuel d
  finddir : ∀ fuel name, up.finddir fs fuel name d = dir.finddir fs fuel name d
  create : ∀ fuel name n d', up.create fs fuel name d = .ok n d' →
    Added fs d' dir.firstCluster name n
  kept : ∀ fuel name, ∀ f < fs.bpb.numFats, ∀ x < 2,
    fat fs (Exec.Outcome.state (up.create fs fuel name d)) f x = fat fs d f x

/-! ## Names of dots -/

/-- A text without letters is the lower case of itself only. -/
theorem map_toLower_eq_iff {l l' : List Char} (h : ∀ c ∈ l', c.toNat < 65) :
    l.map Char.toLower = l' ↔ l = l' := by
  induction l generalizing l' with
  | nil => rw [List.map_nil]
  | cons c l ih =>
    cases l' with
    | nil => simp
    | cons c' l' =>
      obtain ⟨hc', hl'⟩ := List.forall_mem_cons.1 h
      rw [List.map_cons, List.cons_eq_cons, List.cons_eq_cons, toLower_eq_iff hc', ih hl']

/-- A name without letters matches itself only. -/
theorem nameMatches_iff_eq {e : List UInt8} {name : String} (h : ∀ c ∈ name.toList, c.toNat < 65) :
    nameMatches e name = true ↔ decode83 e = name := by
  have hname : name.toList.map Char.toLower = name.toList := (map_toLower_eq_iff h).2 rfl
  rw [nameMatches, eqIgnoreAsciiCase, beq_iff_eq, hname, map_toLower_eq_iff h, String.toList_inj]

section
variable {fs : Fat32Fs} {d : Disk} {l cs : List ℕ} {name : String} {c : ℕ} {dir up : Fat32Node}

/-- The lookup of such a name yields an entry for the cluster. -/
theorem Links.lookup (h : Links fs d l name c) (hname : ∀ c ∈ name.toList, c.toNat < 65) :
    ∃ x, Fat.lookup (dirSlots fs d l) name = some x ∧ x.isDirectory = true ∧ x.first = c := by
  obtain ⟨x, hx, hxname⟩ := h.exists_entry
  cases hlook : Fat.lookup (dirSlots fs d l) name with
  | none => exact absurd ((nameMatches_iff_eq hname).2 hxname) (List.find?_eq_none.1 hlook x hx)
  | some y =>
    have hmatches : nameMatches y.bytes name = true := by simpa using List.find?_some hlook
    exact ⟨y, rfl, h.leads y (List.mem_of_find?_eq_some hlook)
      ((nameMatches_iff_eq hname).1 hmatches)⟩

/-- A chain has at most as many clusters as the FAT has entries. -/
theorem FatChain.length_le (h : FatChain fs d c cs) (hfits : fs.Fits d.capacity) :
    cs.length ≤ fs.entries := by
  have hsub : cs ⊆ List.range fs.entries := fun x hx => List.mem_range.2 (h.mem_in x hx).2
  exact ((h.nodup hfits).subperm hsub).length_le.trans_eq (List.length_range ..)

/-! ## The parent -/

/-- A node for the same cluster stands for the directory. -/
theorem parentLink_of_first (hfits : fs.Fits d.capacity) (hcs : FatChain fs d dir.firstCluster cs)
    (hdir : dir.isDir = true) (hup : up.isDir = true)
    (hfirst : up.firstCluster = dir.firstCluster) : ParentLink fs d dir up := by
  have hcs' : FatChain fs d up.firstCluster cs := hfirst ▸ hcs
  refine ⟨hup, fun fuel => ?_, fun fuel name => ?_, fun fuel name n d' hrun => ?_,
    fun fuel name f hf x hx => ?_⟩
  · rw [Fat32Node.readdir, Fat32Node.readdir, walkDir, walkDir, hfirst, hup, hdir]
  · rw [Fat32Node.finddir, Fat32Node.finddir, walkDir, walkDir, hfirst, hup, hdir]
  · obtain ⟨raw, p, off, d₁, hcreated⟩ := (create_sat hfits (.inr hcs')).of_ok hrun
    rw [hcreated.node_eq, ← hfirst]
    have h2 : ¬ up.firstCluster < 2 := not_lt.2 (hcs'.mem_in _ hcs'.head_mem).1
    cases hcreated.shows hfits (.inr hcs') with
    | nowhere hnil _ => exact absurd hnil hcs'.ne_nil
    | slot _ hread _ _ _ hslots _ _ _ =>
      refine ⟨raw, cs, hcreated.name83, hread.chain.resolve_left fun hlt => h2 hlt.1, ?_⟩
      rw [hslots]
      exact List.mem_append_right _ List.mem_cons_self
    | grown _ hread _ hslots _ =>
      refine ⟨raw, _, hcreated.name83, hread.chain.resolve_left fun hlt => h2 hlt.1, ?_⟩
      rw [hslots]
      exact List.mem_append_right _ List.mem_cons_self
  · have hkept : Kept fs d (Exec.Outcome.state (up.create fs fuel name d)) := by
      refine Exec.Sat.state ((create_sat hfits (.inr hcs')).mono ?_ ?_)
      · rintro n d' ⟨raw, p, off, d₁, hcreated⟩
        obtain ⟨cs₁, hgrows, hchain, -⟩ := hcreated.grows hfits hcs'
        exact hgrows.kept (hcs'.mem_in _ hcs'.head_mem) fun x hx => (hchain.mem_in x hx).1
      · rintro e d' rfl
        exact .refl fs _
    exact (hkept f hf).2 x hx

/-- A node without clusters stands for no directory that lists something. -/
theorem not_parentLink_of_first (hfits : fs.Fits d.capacity)
    (hcs : FatChain fs d dir.firstCluster cs) (hdir : dir.isDir = true)
    (hlive : live (dirSlots fs d cs) ≠ []) (hfirst : up.firstCluster < 2) :
    ¬ ParentLink fs d dir up := by
  intro h
  have hempty : Lists fs d up [] := (lists_iff hfits (.inl ⟨hfirst, rfl⟩) h.isDir).2 rfl
  obtain ⟨fuel, hrun⟩ := hempty
  rw [h.readdir] at hrun
  have hnames : [] = names (dirSlots fs d cs) := (lists_iff hfits (.inr hcs) hdir).1 ⟨fuel, hrun⟩
  exact hlive (List.map_eq_nil_iff.1 hnames.symm)

variable {vfs : VfsRoot} {p s : List Char} {e x : DirEntry} {fuel : ℕ}

/-- A lookup in a directory, with fuel for every chain of the volume. -/
theorem Node.finddir_eq (hfits : fs.Fits d.capacity)
    (hchain : DirChain fs d dir.firstCluster cs) (hdir : dir.isDir = true)
    (hfuel : fs.entries ≤ fuel) (name : String) : Node.finddir fuel name (.fat32 fs dir) d =
      match lookup (dirSlots fs d cs) name with
      | some e => .ok (.fat32 fs (nodeOf e)) d
      | none => .error (.err ()) d := by
  have hlen : cs.length ≤ fuel := by
    rcases hchain with ⟨-, rfl⟩ | hchain
    · exact Nat.zero_le _
    · exact (hchain.length_le hfits).trans hfuel
  rcases finddir_run fuel name hfits hchain hdir with hrun | ⟨hlt, -⟩
  · rw [Node.finddir, Exec.bind_apply, hrun]
    cases lookup (dirSlots fs d cs) name <;> rfl
  · exact absurd hlen (Nat.not_le.2 hlt)

/-- A lookup in a directory of the volume, through the node of the VFS. -/
theorem Node.finddir_of_lookup (hfits : fs.Fits d.capacity)
    (hchain : DirChain fs d dir.firstCluster cs) (hdir : dir.isDir = true)
    (hlook : lookup (dirSlots fs d cs) name = some e) (hfuel : fs.entries ≤ fuel) :
    Node.finddir fuel name (.fat32 fs dir) d = .ok (.fat32 fs (nodeOf e)) d := by
  rw [Node.finddir_eq hfits hchain hdir hfuel, hlook]

/-- Where a path through `..` leads. -/
theorem openPath_dots (h : WellFormed fs d) (hdots : Dotted fs d) (hfuel : fs.entries ≤ fuel)
    (hp : diskPrefix <+: trimSlashes p) (hopen : vfs.openPath fuel p d = .ok (.fat32 fs dir) d)
    (hnode : dir.isDir = true) (hdir : IsDir live fs d dir.firstCluster)
    (hcs : FatChain fs d dir.firstCluster cs)
    (hs : lookup (dirSlots fs d cs) (String.ofList s) = some e) (hsub : e.isDirectory = true)
    (hdot : e.isDot = false) (hne : s ≠ []) (hslash : '/' ∉ s) :
    ∃ up, vfs.openPath fuel (p ++ '/' :: (s ++ ['/', '.', '.'])) d = .ok (.fat32 fs up) d ∧
      up.isDir = true ∧
      up.firstCluster = if dir.firstCluster = fs.bpb.rootCluster then 0 else dir.firstCluster := by
  have hmem : e ∈ live (dirSlots fs d cs) := List.mem_of_find?_eq_some hs
  obtain ⟨l, hl⟩ := h.chain e ⟨_, cs, hdir, hcs, hmem, fun _ => hdot⟩
  obtain ⟨x, hx, hxdir, hxfirst⟩ :=
    (hdots _ cs e l hdir hcs hmem hsub hdot hl).2.lookup (by simp)
  have hcomponents : components (s ++ ['/', '.', '.']) = [String.ofList s, ".."] := by
    rw [components_append_slash, components_word hslash hne,
      components_word (w := ['.', '.']) (by decide) (by decide)]
    rfl
  have hchild := Node.finddir_of_lookup h.fits (.inr hcs) hnode hs hfuel
  have hback : Node.finddir fuel ".." (.fat32 fs (nodeOf e)) d = _ :=
    Node.finddir_of_lookup h.fits (by rw [firstCluster_nodeOf]; exact hl)
      (by rw [isDir_nodeOf]; exact hsub) hx hfuel
  refine ⟨nodeOf x, ?_, (isDir_nodeOf x).trans hxdir, (firstCluster_nodeOf x).trans hxfirst⟩
  rw [openPath_append hp, Exec.bind_of_ok hopen, hcomponents, List.foldlM_cons,
    Exec.bind_of_ok hchild, List.foldlM_cons, Exec.bind_of_ok hback]
  rfl

/-- **Parent links.** In a volume with the entries `.` and `..` of the format, the path `p/s/..` for
a directory `s` of the directory `p` leads back to it exactly when it is not the root. -/
theorem parentLink_iff (h : WellFormed fs d) (hdots : Dotted fs d) (hfuel : fs.entries ≤ fuel)
    (hp : diskPrefix <+: trimSlashes p) (hopen : vfs.openPath fuel p d = .ok (.fat32 fs dir) d)
    (hnode : dir.isDir = true) (hdir : IsDir live fs d dir.firstCluster)
    (hcs : FatChain fs d dir.firstCluster cs)
    (hs : lookup (dirSlots fs d cs) (String.ofList s) = some e) (hsub : e.isDirectory = true)
    (hdot : e.isDot = false) (hne : s ≠ []) (hslash : '/' ∉ s) :
    (∃ up, vfs.openPath fuel (p ++ '/' :: (s ++ ['/', '.', '.'])) d = .ok (.fat32 fs up) d ∧
      ParentLink fs d dir up) ↔ dir.firstCluster ≠ fs.bpb.rootCluster := by
  obtain ⟨up, hrun, hup, hfirst⟩ :=
    openPath_dots h hdots hfuel hp hopen hnode hdir hcs hs hsub hdot hne hslash
  constructor
  · rintro ⟨up', hrun', hlink⟩ hroot
    rw [hrun] at hrun'
    cases hrun'
    rw [if_pos hroot] at hfirst
    have hlive := List.ne_nil_of_mem (List.mem_of_find?_eq_some hs)
    exact not_parentLink_of_first h.fits hcs hnode hlive (hfirst.trans_lt (by decide)) hlink
  · intro hroot
    rw [if_neg hroot] at hfirst
    exact ⟨up, hrun, parentLink_of_first h.fits hcs hnode hup hfirst⟩

end

/-! ## A directory in a directory -/

/-- The entry `.` of a directory. -/
def dotRecord (c : ℕ) : List UInt8 := record (oneLetter 0x2E) 0x10 c 0

/-- The entry `..` of a directory. -/
def dotDotRecord (c : ℕ) : List UInt8 :=
  record (0x2E :: 0x2E :: List.replicate 9 0x20) 0x10 c 0

/-- The entry of the directory `s` of the root. -/
def outerEntry : DirEntry := ⟨subRecord, 2, 0⟩

/-- The entry of the directory `t` of `s`. -/
def innerEntry : DirEntry := ⟨record (oneLetter 0x54) 0x10 4 0, 3, 64⟩

/-- The drive. -/
def nestDisk : Disk := smallDisk [(2, 0x0FFFFFFF, smallRows [outerEntry.bytes]),
  (3, 0x0FFFFFFF, smallRows [dotRecord 3, dotDotRecord 0, innerEntry.bytes]),
  (4, 0x0FFFFFFF, smallRows [dotRecord 4, dotDotRecord 3])]

/-- The clusters of the drive with nested directories are well formed. -/
theorem nestDisk_rows : ∀ e ∈ [(2, 0x0FFFFFFF, smallRows [outerEntry.bytes]),
    (3, 0x0FFFFFFF, smallRows [dotRecord 3, dotDotRecord 0, innerEntry.bytes]),
    (4, 0x0FFFFFFF, smallRows [dotRecord 4, dotDotRecord 3])],
    2 ≤ e.1 ∧ e.1 < 128 ∧ e.2.2.length = 512 := by
  have hlen2 : (smallRows [outerEntry.bytes]).length = 512 :=
    length_smallRows _ (by decide) (by decide)
  have hlen3 : (smallRows [dotRecord 3, dotDotRecord 0, innerEntry.bytes]).length = 512 :=
    length_smallRows _ (by decide) (by decide)
  have hlen4 : (smallRows [dotRecord 4, dotDotRecord 3]).length = 512 :=
    length_smallRows _ (by decide) (by decide)
  exact List.forall_mem_cons.2 ⟨⟨le_rfl, show 2 < 128 by decide, hlen2⟩,
    List.forall_mem_cons.2 ⟨⟨show 2 ≤ 3 by decide, show 3 < 128 by decide, hlen3⟩,
      List.forall_mem_singleton.2 ⟨show 2 ≤ 4 by decide, show 4 < 128 by decide, hlen4⟩⟩⟩

/-- The drive with nested directories has all sectors of the small volume. -/
theorem nestDisk_fits : smallFs.Fits nestDisk.capacity := by
  rw [nestDisk, smallDisk_capacity nestDisk_rows]
  exact smallFs_fits

/-- All three directories have one cluster. -/
theorem fatChain_nestDisk {c : ℕ} (hc : c ∈ [2, 3, 4]) : FatChain smallFs nestDisk c [c] := by
  have hlt : 2 ≤ c ∧ c < 128 := by
    simp only [List.mem_cons, List.not_mem_nil, or_false] at hc
    omega
  refine .last hlt ?_
  rw [nestDisk, next_smallDisk nestDisk_rows hlt.2]
  revert c
  decide

/-- The root holds the outer directory. -/
theorem live_nestDisk_root : live (dirSlots smallFs nestDisk [2]) = [outerEntry] := by
  rw [dirSlots_singleton, nestDisk, cluster_smallDisk nestDisk_rows (by decide)]
  decide +kernel

/-- The outer directory holds its dot entries and the inner one. -/
theorem live_nestDisk_outer : live (dirSlots smallFs nestDisk [3]) =
    [⟨dotRecord 3, 3, 0⟩, ⟨dotDotRecord 0, 3, 32⟩, innerEntry] := by
  rw [dirSlots_singleton, nestDisk, cluster_smallDisk nestDisk_rows (by decide)]
  decide +kernel

/-- The inner directory holds its dot entries. -/
theorem live_nestDisk_inner : live (dirSlots smallFs nestDisk [4]) =
    [⟨dotRecord 4, 4, 0⟩, ⟨dotDotRecord 3, 4, 32⟩] := by
  rw [dirSlots_singleton, nestDisk, cluster_smallDisk nestDisk_rows (by decide)]
  decide +kernel

section
variable {c : ℕ} {cs : List ℕ} {e : DirEntry}

/-- Its entries other than the dots, directory by directory. -/
theorem mem_nestDisk (hc : c ∈ [2, 3, 4]) (hcs : FatChain smallFs nestDisk c cs)
    (he : e ∈ live (dirSlots smallFs nestDisk cs)) (hdot : e.isDirectory = true → e.isDot = false) :
    c = 2 ∧ e = outerEntry ∨ c = 3 ∧ e = innerEntry := by
  rw [hcs.unique nestDisk_fits (fatChain_nestDisk hc)] at he
  simp only [List.mem_cons, List.not_mem_nil, or_false] at hc
  rcases hc with rfl | rfl | rfl
  · rw [live_nestDisk_root] at he
    exact .inl ⟨rfl, List.mem_singleton.1 he⟩
  · rw [live_nestDisk_outer] at he
    revert hdot
    revert e
    decide
  · rw [live_nestDisk_inner] at he
    revert hdot
    revert e
    decide

/-- Its directories start at the clusters 2, 3 and 4. -/
theorem isDir_nestDisk (h : IsDir live smallFs nestDisk c) : c ∈ [2, 3, 4] := by
  induction h with
  | root => decide
  | @sub c cs e _ hcs he _ hdot _ ih =>
    rcases mem_nestDisk ih hcs he fun _ => hdot with ⟨-, rfl⟩ | ⟨-, rfl⟩
    · decide
    · decide

/-- Its entries are the outer and the inner directory. -/
theorem isEntry_nestDisk (h : IsEntry live smallFs nestDisk e) :
    e = outerEntry ∨ e = innerEntry := by
  obtain ⟨c, cs, hc, hcs, he, hdot⟩ := h
  exact (mem_nestDisk (isDir_nestDisk hc) hcs he hdot).imp And.right And.right

/-- Each of them has one cluster. -/
theorem dirChain_nestDisk (he : e = outerEntry ∨ e = innerEntry)
    (hcs : DirChain smallFs nestDisk e.first cs) : cs = [e.first] := by
  refine hcs.unique nestDisk_fits (.inr (fatChain_nestDisk ?_))
  rcases he with rfl | rfl
  · decide
  · decide

/-- The drive with nested directories is well-formed. -/
theorem wellFormed_nestDisk : WellFormed smallFs nestDisk := by
  have hfirst : ∀ e, IsEntry live smallFs nestDisk e → e.first ∈ [3, 4] := by
    intro e he
    rcases isEntry_nestDisk he with rfl | rfl
    · decide
    · decide
  refine ⟨nestDisk_fits, ⟨[2], fatChain_nestDisk (by decide)⟩, fun e he =>
    ⟨[e.first], .inr (fatChain_nestDisk (List.mem_cons_of_mem 2 (hfirst e he)))⟩,
    fun e cs cs' he hcs hcs' x hx hx' => ?_, fun e e' cs cs' he he' hne hcs hcs' x hx hx' => ?_,
    fun e cs he hdir _ => ?_⟩
  · rw [hcs.unique nestDisk_fits (fatChain_nestDisk (c := 2) (by decide)),
      List.mem_singleton] at hx
    rw [dirChain_nestDisk (isEntry_nestDisk he) hcs', List.mem_singleton] at hx'
    have hmem := hfirst e he
    rw [← hx', hx] at hmem
    exact absurd hmem (by decide)
  · rw [dirChain_nestDisk (isEntry_nestDisk he) hcs, List.mem_singleton] at hx
    rw [dirChain_nestDisk (isEntry_nestDisk he') hcs', List.mem_singleton, hx] at hx'
    rcases isEntry_nestDisk he with rfl | rfl <;> rcases isEntry_nestDisk he' with rfl | rfl
    · exact hne rfl
    · exact absurd hx' (by decide)
    · exact absurd hx' (by decide)
    · exact hne rfl
  · rcases isEntry_nestDisk he with rfl | rfl
    · exact absurd hdir (by decide)
    · exact absurd hdir (by decide)

/-- A name links as all the entries of that name do. -/
theorem links_of_live {l : List ℕ} {xs : List DirEntry} {name : String}
    (hlive : live (dirSlots smallFs nestDisk l) = xs) (hex : ∃ x ∈ xs, decode83 x.bytes = name)
    (hall : ∀ x ∈ xs, decode83 x.bytes = name → x.isDirectory = true ∧ x.first = c) :
    Links smallFs nestDisk l name c := by
  constructor
  · rw [hlive]
    exact hex
  · rw [hlive]
    exact hall

/-- The dot entries of the drive lead where they should. -/
theorem dotted_nestDisk : Dotted smallFs nestDisk := by
  intro c cs e l hc hcs he _ hdot hl
  have hmem := mem_nestDisk (isDir_nestDisk hc) hcs he fun _ => hdot
  obtain rfl := dirChain_nestDisk (hmem.imp And.right And.right) hl
  rcases hmem with ⟨rfl, rfl⟩ | ⟨rfl, rfl⟩
  · exact ⟨links_of_live live_nestDisk_outer (by decide) (by decide),
      links_of_live live_nestDisk_outer (by decide) (by decide)⟩
  · exact ⟨links_of_live live_nestDisk_inner (by decide) (by decide),
      links_of_live live_nestDisk_inner (by decide) (by decide)⟩

end

/-- The disk is mounted. -/
def nestVfs : VfsRoot := ⟨none, some (.fat32 smallFs smallFs.root)⟩

/-- A lookup of `s` in the root finds the outer directory. -/
theorem lookup_nestDisk_root : lookup (dirSlots smallFs nestDisk [2]) "s" = some outerEntry := by
  rw [lookup, live_nestDisk_root]
  decide

/-- The path `/mnt/disk/s` opens the outer directory. -/
theorem openPath_nestDisk : nestVfs.openPath 128 "/mnt/disk/s".toList nestDisk =
    .ok (.fat32 smallFs (nodeOf outerEntry)) nestDisk := by
  have hchain : DirChain smallFs nestDisk smallFs.root.firstCluster [2] :=
    .inr (fatChain_nestDisk (by decide))
  have hfind : Node.finddir 128 "s" (.fat32 smallFs smallFs.root) nestDisk = _ :=
    Node.finddir_of_lookup nestDisk_fits hchain rfl lookup_nestDisk_root (by decide)
  exact (openPath_append (p := "/mnt/disk".toList) ⟨[], rfl⟩ nestVfs 128 ['s'] ▸
    Exec.bind_of_ok rfl).trans (Exec.bind_of_ok hfind)

/-- The path `/mnt/disk/s/t/..` leads back to `s`. -/
theorem parentLink_nested : ∃ up,
    nestVfs.openPath 128 "/mnt/disk/s/t/..".toList nestDisk = .ok (.fat32 smallFs up) nestDisk ∧
      ParentLink smallFs nestDisk (nodeOf outerEntry) up := by
  have hroot : FatChain smallFs nestDisk 2 [2] := fatChain_nestDisk (by decide)
  have hdir : IsDir live smallFs nestDisk 3 := by
    refine .sub (e := outerEntry) .root hroot ?_ (by decide) (by decide) (by decide)
    rw [live_nestDisk_root]
    exact List.mem_singleton.2 rfl
  have hlook : lookup (dirSlots smallFs nestDisk [3]) "t" = some innerEntry := by
    rw [lookup, live_nestDisk_outer]
    decide
  exact (parentLink_iff wellFormed_nestDisk dotted_nestDisk (by decide) (by decide)
    openPath_nestDisk (by decide) hdir (fatChain_nestDisk (by decide)) hlook (by decide)
    (by decide) (by decide) (by decide)).2 (by decide)

/-- The path `/mnt/disk/s/..` leads to a directory without entries. -/
theorem parentLink_fails : ¬ ∀ (fs : Fat32Fs) (d : Disk) (vfs : VfsRoot) (fuel : ℕ)
    (p s : List Char) (dir : Fat32Node) (cs : List ℕ) (e : DirEntry), WellFormed fs d →
    Dotted fs d → fs.entries ≤ fuel → diskPrefix <+: trimSlashes p →
    vfs.openPath fuel p d = .ok (.fat32 fs dir) d → dir.isDir = true →
    IsDir live fs d dir.firstCluster → FatChain fs d dir.firstCluster cs →
    lookup (dirSlots fs d cs) (String.ofList s) = some e → e.isDirectory = true →
    e.isDot = false → s ≠ [] → '/' ∉ s →
    ∃ up, vfs.openPath fuel (p ++ '/' :: (s ++ ['/', '.', '.'])) d = .ok (.fat32 fs up) d ∧
      ParentLink fs d dir up := by
  intro hall
  have hroot : FatChain smallFs nestDisk 2 [2] := fatChain_nestDisk (by decide)
  obtain ⟨up, hrun, hlink⟩ := hall smallFs nestDisk nestVfs 128 "/mnt/disk".toList ['s']
    smallFs.root [2] outerEntry wellFormed_nestDisk dotted_nestDisk (by decide) (by decide) rfl rfl
    .root hroot lookup_nestDisk_root (by decide) (by decide) (by decide) (by decide)
  have hdots : ∃ up, nestVfs.openPath 128 "/mnt/disk/s/..".toList nestDisk =
      .ok (.fat32 smallFs up) nestDisk ∧ _ :=
    openPath_dots (p := "/mnt/disk".toList) (s := ['s']) wellFormed_nestDisk dotted_nestDisk
      (by decide) (by decide) rfl rfl .root hroot lookup_nestDisk_root (by decide) (by decide)
      (by decide) (by decide)
  obtain ⟨up', hrun', -, hfirst⟩ := hdots
  cases hrun.symm.trans hrun'
  have hlive : live (dirSlots smallFs nestDisk [2]) ≠ [] := by
    rw [live_nestDisk_root]
    exact List.cons_ne_nil _ _
  exact not_parentLink_of_first nestDisk_fits hroot rfl hlive (hfirst.trans_lt (by decide)) hlink

end Fat

end RossOs
