import RossOs.Fat.Carry
import RossOs.Fat.Growth
import RossOs.Fat.Parent
import RossOs.Lib.Run

/-!
# `write` in the shell

`cmd_write` in `ross-kernel/src/shell.rs`: the file is opened, or created when that fails, and the
contents are written from its start on. Nothing cuts the file off after them, so shorter contents
leave the end of the old ones (`writes_not_read_back`). `writes_read_back` is the law of a session
of such commands: where each of them suits the volume that it finds, and so is not shorter than the
file, every path reads as it was written last.
-/

namespace RossOs

open ByteMem Ahci Fat

/-- `cmd_write`: the number of bytes that it reports, or the message. -/
def cmdWrite (vfs : VfsRoot) (fuel : ℕ) (path : List Char) (data : List UInt8) :
    Exec String Disk ℕ := do
  let found ← Exec.attempt (vfs.openPath fuel path)
  let node ← match found with
    | .ok node => pure node
    | .error _ => Exec.mapErr (fun _ => "  Error: cannot create file\n") (vfs.create fuel path)
  Exec.mapErr (fun _ => "  Error: write failed (read-only?)\n") (node.write 0 data)

namespace Shell

/-- A command `write path data`. -/
structure Command where
  path : List Char
  data : List UInt8

/-- The drive, and the commands that reported success, the last one first. -/
structure Session where
  disk : Disk
  log : List Command

/-- The contents that were written last to a path. -/
def Session.last (s : Session) (path : List Char) : Option (List UInt8) :=
  (s.log.find? (·.path = path)).map (·.data)

/-- What is mounted: the ram disk, if there is one, and a FAT32 volume. -/
structure Mounted (fs : Fat32Fs) (vfs : VfsRoot) : Prop where
  root : ∀ node, vfs.rootNode = some node → ∃ files, node = .tarFileSystem files
  disk : vfs.diskRoot = some (.fat32 fs fs.root)

/-- The path names `name` in the directory `c` of the volume. -/
structure At (fs : Fat32Fs) (d : Disk) (path : List Char) (c : ℕ) (name : String) : Prop where
  onDisk : diskPrefix <+: trimSlashes path
  leads : ∃ names, components ((trimSlashes path).drop 8) = names ++ [name] ∧
    Leads fs d fs.bpb.rootCluster names c

/-- The path leads to the entry `e` of the volume. -/
def PathTo (fs : Fat32Fs) (d : Disk) (path : List Char) (e : DirEntry) : Prop :=
  ∃ c cs name, At fs d path c name ∧ FatChain fs d c cs ∧
    lookup (dirSlots fs d cs) name = some e

section
variable (fs : Fat32Fs) (vfs : VfsRoot) (fuel : ℕ)

/-- One command. -/
def command (s : Session) (a : Command) : Session :=
  match cmdWrite vfs fuel a.path a.data s.disk with
  | .ok _ d => ⟨d, a :: s.log⟩
  | .error _ d => ⟨d, s.log⟩

/-- The command reports success. -/
def Reports (s : Session) (a : Command) : Prop :=
  ∃ n d, cmdWrite vfs fuel a.path a.data s.disk = .ok n d

/-- Where a command finds its place: a file that is not longer than the contents, and that was not
written under another path; or no entry, and `create` makes one that is found under the name and
hides no other. -/
inductive Suits (s : Session) (a : Command) : Prop
  | file {e : DirEntry} : PathTo fs s.disk a.path e → (nodeOf e).size ≤ a.data.length →
    (∀ b ∈ s.log, b.path ≠ a.path →
      vfs.openPath fuel b.path s.disk ≠ vfs.openPath fuel a.path s.disk) → Suits s a
  | fresh {c : ℕ} {cs : List ℕ} {name : String} {raw : List UInt8} :
    At fs s.disk a.path c name → FatChain fs s.disk c cs →
    lookup (dirSlots fs s.disk cs) name = none → to83 name = some raw → Plain name →
    KeepsAll fs s.disk cs raw → Suits s a

/-- The file of the path, opened anew, has these bytes. -/
def ReadsBack (d : Disk) (path : List Char) (bytes : List UInt8) : Prop :=
  ∃ node, vfs.openPath fuel path d = .ok (.fat32 fs node) d ∧ node.Reads fs d bytes

end

/-! ## One command -/

section
variable {vfs : VfsRoot} {fs : Fat32Fs} {fuel n : ℕ} {d d' : Disk} {path : List Char}
  {data : List UInt8} {node : Node}

/-- A path that can be opened is written to. -/
theorem cmdWrite_of_open (hopen : vfs.openPath fuel path d = .ok node d) :
    cmdWrite vfs fuel path data d = Exec.mapErr (fun _ => "  Error: write failed (read-only?)\n")
      (node.write 0 data) d := by
  have hattempt : (Exec.attempt (vfs.openPath fuel path) : Exec String Disk _) d =
      .ok (.ok node) d := by
    rw [Exec.attempt, hopen]
  rw [cmdWrite, Exec.bind_of_ok hattempt]
  rfl

/-- A path that cannot be opened is created before it is written to. -/
theorem of_cmdWrite (hopen : vfs.openPath fuel path d = .error (.err ()) d)
    (hrun : cmdWrite vfs fuel path data d = .ok n d') :
    ∃ node d₁, vfs.create fuel path d = .ok node d₁ ∧ node.write 0 data d₁ = .ok n d' := by
  have hattempt : (Exec.attempt (vfs.openPath fuel path) : Exec String Disk _) d =
      .ok (.error ()) d := by
    rw [Exec.attempt, hopen]
  rw [cmdWrite, Exec.bind_of_ok hattempt] at hrun
  obtain ⟨node, d₁, hcreate, hwrite⟩ := Exec.bind_eq_ok.1 hrun
  exact ⟨node, d₁, Exec.mapErr_eq_ok.1 hcreate, Exec.mapErr_eq_ok.1 hwrite⟩

/-- A write that succeeds is to a file. -/
theorem of_nodeWrite {node : Fat32Node} {offset : ℕ}
    (hrun : Node.write offset data (.fat32 fs node) d = .ok n d') :
    ∃ h', Fat.write fs offset data ⟨node, d⟩ = .ok n h' ∧ node.isDir = false ∧ h'.disk = d' := by
  rw [Node.write] at hrun
  cases hwrite : Fat.write fs offset data ⟨node, d⟩ with
  | ok m h' =>
    simp only [hwrite] at hrun
    cases hrun
    refine ⟨h', rfl, Bool.eq_false_of_not_eq_true fun hdir => ?_, rfl⟩
    rw [write_of_isDir hdir] at hwrite
    cases hwrite
  | error err h' =>
    simp only [hwrite] at hrun
    cases hrun

end

/-! ## Opening a path -/

section
variable {fs : Fat32Fs} {vfs : VfsRoot} {fuel : ℕ} {d d' : Disk} {path : List Char} {c c' : ℕ}
  {cs : List ℕ} {name : String} {names : List String} {e : DirEntry} {f : DirEntry → DirEntry}

/-- The loop of `open` follows the directories. -/
theorem foldlM_of_leads (hfits : fs.Fits d.capacity) (hfuel : fs.entries ≤ fuel)
    (h : Leads fs d c names c') (dir : Fat32Node) (hdir : dir.isDir = true)
    (hfirst : dir.firstCluster = c) : ∃ dir',
      names.foldlM (fun node name => Node.finddir fuel name node) (.fat32 fs dir) d =
        .ok (.fat32 fs dir') d ∧ dir'.isDir = true ∧ dir'.firstCluster = c' := by
  induction h generalizing dir with
  | nil => exact ⟨dir, rfl, hdir, hfirst⟩
  | @cons _ _ _ _ _ e hcs hlook hsub _ _ ih =>
    rw [List.foldlM_cons, Exec.bind_of_ok (Node.finddir_of_lookup hfits
      (.inr (hfirst ▸ hcs)) hdir hlook hfuel)]
    exact ih _ ((isDir_nodeOf e).trans hsub) (firstCluster_nodeOf e)

variable (hm : Mounted fs vfs) (hfits : fs.Fits d.capacity) (hfuel : fs.entries ≤ fuel)

include hm hfits hfuel

/-- What `open` does with a path on the disk. -/
theorem At.openPath_eq (h : At fs d path c name) (hcs : FatChain fs d c cs) :
    vfs.openPath fuel path d = match lookup (dirSlots fs d cs) name with
      | some e => .ok (.fat32 fs (nodeOf e)) d
      | none => .error (.err ()) d := by
  obtain ⟨names, hnames, hleads⟩ := h.leads
  obtain ⟨dir, hrun, hdir, rfl⟩ := foldlM_of_leads hfits hfuel hleads fs.root rfl rfl
  rw [openPath_of_disk h.onDisk, hm.disk, lookupFrom, hnames, List.foldlM_append,
    Exec.bind_of_ok hrun, List.foldlM_cons]
  rw [Exec.bind_apply, Node.finddir_eq hfits (.inr hcs) hdir hfuel]
  cases lookup (dirSlots fs d cs) name <;> rfl

/-- `open` opens the entry of the path. -/
theorem PathTo.openPath_eq (h : PathTo fs d path e) :
    vfs.openPath fuel path d = .ok (.fat32 fs (nodeOf e)) d := by
  obtain ⟨c, cs, name, hat, hcs, hlook⟩ := h
  rw [hat.openPath_eq hm hfits hfuel hcs, hlook]

/-- A command with a path that can be opened writes to that file. -/
theorem PathTo.cmdWrite_eq (h : PathTo fs d path e) {data : List UInt8} {n : ℕ} {h' : Handle}
    (hrun : Fat.write fs 0 data ⟨nodeOf e, d⟩ = .ok n h') :
    cmdWrite vfs fuel path data d = .ok n h'.disk := by
  rw [cmdWrite_of_open (h.openPath_eq hm hfits hfuel), Exec.mapErr_eq_ok, Node.write]
  simp only [hrun]

omit hm hfits hfuel

/-- The path leads to an entry of the volume. -/
theorem PathTo.isEntry (h : PathTo fs d path e) (hfile : e.isDirectory = false) :
    IsEntry live fs d e := by
  obtain ⟨c, cs, name, hat, hcs, hlook⟩ := h
  obtain ⟨names, -, hleads⟩ := hat.leads
  refine ⟨c, cs, hleads.isDir .root, hcs, List.mem_of_find?_eq_some hlook, fun hdir => ?_⟩
  rw [hfile] at hdir
  cases hdir

/-- The path leads to one entry. -/
theorem PathTo.unique {e' : DirEntry} (hfits : fs.Fits d.capacity) (h : PathTo fs d path e)
    (h' : PathTo fs d path e') : e = e' := by
  obtain ⟨c, cs, name, ⟨-, names, hnames, hleads⟩, hcs, hlook⟩ := h
  obtain ⟨c', cs', name', ⟨-, names', hnames', hleads'⟩, hcs', hlook'⟩ := h'
  obtain ⟨rfl, hlast⟩ := List.append_inj' (hnames.symm.trans hnames') rfl
  obtain rfl := List.singleton_inj.1 hlast
  obtain rfl := hleads.unique hfits hleads'
  obtain rfl := hcs.unique hfits hcs'
  exact Option.some.inj (hlook.symm.trans hlook')

/-- Paths lead to what became of the entries. -/
theorem PathTo.carries (h : PathTo fs d path e) (hcarries : Carries fs d d' f) :
    PathTo fs d' path (f e) ∧ (f e).isDirectory = e.isDirectory := by
  obtain ⟨c, cs, name, ⟨hdisk, names, hnames, hleads⟩, hcs, hlook⟩ := h
  obtain ⟨cs', hcs', hslots⟩ := hcarries.dir (hleads.isDir .root) hcs
  exact ⟨⟨c, cs', name, ⟨hdisk, names, hnames, hcarries.leads hleads .root⟩, hcs',
    hslots.lookup hlook⟩, hslots.isDirectory (List.mem_of_find?_eq_some hlook)⟩

/-! ## Creating a file -/

/-- The parent of a path on the disk is on the disk, too, or it is where the disk is mounted. -/
theorem splitParent_disk (r : List Char) :
    (∃ a w, splitParent (diskPrefix ++ r) = (diskPrefix ++ a, w) ∧ r = a ++ '/' :: w ∧ '/' ∉ w) ∨
      (splitParent (diskPrefix ++ r)).1 = ['m', 'n', 't'] := by
  have hmem : '/' ∈ diskPrefix ++ r := List.mem_append_left _ (by decide)
  obtain ⟨hsplit, hword⟩ := rsplit_of_mem hmem
  rw [splitParent, if_pos hmem]
  generalize ((diskPrefix ++ r).rdropWhile (· != '/')).dropLast = parent at *
  generalize (diskPrefix ++ r).rtakeWhile (· != '/') = w at *
  rcases List.append_eq_append_iff.1 hsplit with ⟨a, rfl, hr⟩ | ⟨a, hdisk, hr⟩
  · exact .inl ⟨a, w, rfl, hr, hword⟩
  · cases a with
    | nil =>
      rw [List.append_nil] at hdisk
      exact .inl ⟨[], w, by rw [hdisk, List.append_nil], hr.symm, hword⟩
    | cons b a =>
      obtain ⟨rfl, -⟩ := List.cons_eq_cons.1 hr
      have hslash : ['m', 'n', 't'] ++ '/' :: ['d', 'i', 's', 'k'] = parent ++ '/' :: a := hdisk
      have hparts := (List.append_cons_inj_of_notMem (by decide) (by decide)).1 hslash
      exact .inr hparts.1.symm

/-- Nothing is created beside the disk. -/
theorem create_mnt (hm : Mounted fs vfs) {node : Node} :
    (vfs.openPath fuel ['m', 'n', 't'] >>= Node.create fuel name) d ≠ .ok node d' := by
  intro hrun
  obtain ⟨parent, d₁, hopen, hcreate⟩ := Exec.bind_eq_ok.1 hrun
  rw [openPath_eq_openIn] at hopen
  cases hroot : vfs.rootNode with
  | none =>
    rw [hroot] at hopen
    cases hopen
  | some node =>
    obtain ⟨files, rfl⟩ := hm.root node hroot
    rw [hroot] at hopen
    have hfound : Node.finddir fuel "mnt" (.tarFileSystem files) d = .ok parent d₁ :=
      (congrFun (bind_pure _) d).symm.trans hopen
    unfold Node.finddir at hfound
    cases hfind : files.find? (·.name = "mnt") with
    | none =>
      simp only [hfind] at hfound
      cases hfound
    | some file =>
      simp only [hfind] at hfound
      cases hfound
      cases hcreate

/-- A file without a name is not created. -/
theorem create_empty {parent node : Node} :
    parent.create fuel (String.ofList []) d ≠ .ok node d' := by
  intro hrun
  cases parent with
  | tarFile _ => cases hrun
  | tarFileSystem _ => cases hrun
  | fat32 fs dir =>
    obtain ⟨n, d₁, hcreate, -⟩ := Exec.bind_eq_ok.1 hrun
    have hnone : to83 (String.ofList []) = none := by decide
    rw [Fat32Node.create, hnone] at hcreate
    split at hcreate <;> cases hcreate

/-- `create` of a path on the disk is `create` in the directory that the path leads to. -/
theorem At.create_eq (hm : Mounted fs vfs) (hfits : fs.Fits d.capacity) (hfuel : fs.entries ≤ fuel)
    (h : At fs d path c name) {node : Node} (hrun : vfs.create fuel path d = .ok node d') :
    ∃ (dir n : Fat32Node), dir.isDir = true ∧ dir.firstCluster = c ∧ node = .fat32 fs n ∧
      dir.create fs fuel name d = .ok n d' := by
  obtain ⟨r, hr⟩ := h.onDisk
  obtain ⟨names, hnames, hleads⟩ := h.leads
  rw [← hr] at hnames
  rw [VfsRoot.create, ← hr] at hrun
  rcases splitParent_disk r with ⟨a, w, hsplit, rfl, hw⟩ | hsplit
  · simp only [hsplit] at hrun
    rw [if_neg (List.append_ne_nil_of_left_ne_nil (show diskPrefix ≠ [] by decide) a)] at hrun
    have hne : w ≠ [] := by
      rintro rfl
      obtain ⟨parent, d₁, -, hcreate⟩ := Exec.bind_eq_ok.1 hrun
      exact create_empty hcreate
    have hcomponents : components (a ++ '/' :: w) = components a ++ [String.ofList w] := by
      rw [components_append_slash, components_word hw hne]
    obtain ⟨rfl, hlast⟩ := List.append_inj' (hcomponents.symm.trans hnames) rfl
    obtain rfl : String.ofList w = name := List.singleton_inj.1 hlast
    obtain ⟨dir, hopen, hdir, hfirst⟩ := foldlM_of_leads hfits hfuel hleads fs.root rfl rfl
    have hpath : vfs.openPath fuel (diskPrefix ++ a) d = .ok (.fat32 fs dir) d := by
      rw [openPath_of_disk ⟨a, rfl⟩, hm.disk]
      exact hopen
    rw [Exec.bind_of_ok hpath] at hrun
    obtain ⟨n, d₁, hcreate, hpure⟩ := Exec.bind_eq_ok.1 hrun
    obtain ⟨rfl, rfl⟩ := Exec.pure_eq_ok.1 hpure
    exact ⟨dir, n, hdir, hfirst, rfl, hcreate⟩
  · simp only [hsplit] at hrun
    exact absurd hrun (create_mnt hm)

end

/-! ## What a session keeps -/

/-- The path leads to a file that reads as these bytes. -/
def Stored (fs : Fat32Fs) (d : Disk) (path : List Char) (bytes : List UInt8) : Prop :=
  ∃ e, PathTo fs d path e ∧ e.isDirectory = false ∧ (nodeOf e).Reads fs d bytes

/-- The volume is well-formed, and every path has the contents that were written last. -/
structure Current (fs : Fat32Fs) (s : Session) : Prop where
  wellFormed : WellFormed fs s.disk
  stored : ∀ path bytes, s.last path = some bytes → Stored fs s.disk path bytes

section
variable {fs : Fat32Fs} {vfs : VfsRoot} {fuel n : ℕ} {s : Session} {a : Command} {e : DirEntry}
  {path : List Char} {bytes old new data : List UInt8}

/-- The last data written to a path, after one command more. -/
theorem Session.last_cons (d : Disk) (a : Command) (log : List Command) (path : List Char) :
    Session.last ⟨d, a :: log⟩ path =
      if a.path = path then some a.data else Session.last ⟨d, log⟩ path := by
  by_cases h : a.path = path
  · simp [Session.last, h]
  · simp [Session.last, h]

/-- It was written by a command of the session. -/
theorem Session.mem_of_last (h : s.last path = some bytes) : ∃ b ∈ s.log, b.path = path := by
  obtain ⟨b, hb, -⟩ := Option.map_eq_some_iff.1 h
  exact ⟨b, List.mem_of_find?_eq_some hb, by simpa using List.find?_some hb⟩

/-- Contents that are not shorter than the old ones replace them. -/
theorem eq_of_updated (h : Updated old 0 data new) (hlen : old.length ≤ data.length) :
    new = data := by
  have hlength : new.length = data.length := by
    rw [h.length]
    omega
  rw [← h.written, slice, List.drop_zero, ← hlength, List.take_length]

/-- Contents are written into a file that is not longer. -/
theorem Current.overwrite (h : Current fs s) (hpath : PathTo fs s.disk a.path e)
    (hfile : e.isDirectory = false) (hsize : (nodeOf e).size ≤ a.data.length)
    (hlt : a.data.length < 2 ^ 32)
    (hother : ∀ path bytes e', s.last path = some bytes → path ≠ a.path →
      PathTo fs s.disk path e' → e' ≠ e)
    {h' : Handle} (hrun : Fat.write fs 0 a.data ⟨nodeOf e, s.disk⟩ = .ok n h') :
    Current fs ⟨h'.disk, a :: s.log⟩ := by
  have he := hpath.isEntry hfile
  obtain ⟨f, hrew⟩ := h.wellFormed.rewrites he hfile (by rwa [Nat.zero_add]) hrun
  refine ⟨hrew.wellFormed, fun path bytes hlast => ?_⟩
  rw [Session.last_cons] at hlast
  split at hlast
  case isTrue heq =>
    obtain rfl : a.data = bytes := Option.some.inj hlast
    subst heq
    obtain ⟨hpath', hfile'⟩ := hpath.carries hrew.carries
    refine ⟨_, hpath', hfile'.trans hfile, ?_⟩
    obtain ⟨old, new, hold, hupd, hnew⟩ := hrew.file
    rwa [hrew.node, ← eq_of_updated hupd (hold.1 ▸ hsize)]
  case isFalse hne =>
    obtain ⟨e', hpath', hfile', hreads⟩ := h.stored path bytes hlast
    have hdiff := hother path bytes e' hlast (Ne.symm hne) hpath'
    obtain ⟨hsame, hkeep⟩ := hrew.others e' (hpath'.isEntry hfile') hfile' hdiff
    obtain ⟨hpath₁, -⟩ := hpath'.carries hrew.carries
    rw [hsame] at hpath₁
    exact ⟨e', hpath₁, hfile', hkeep bytes hreads⟩

/-- A file that is created leaves the others current. -/
theorem Current.created (h : Current fs s) {c : ℕ} {cs : List ℕ} {name : String} {raw : List UInt8}
    {dir m : Fat32Node} {d' d₁ : Disk} {p off : ℕ} (hat : At fs s.disk a.path c name)
    (hcs : FatChain fs s.disk c cs) (hplain : Plain name) (hkeep : KeepsAll fs s.disk cs raw)
    (hfirst : dir.firstCluster = c) (hcreated : Created fs s.disk dir cs name m d' raw p off d₁) :
    Current fs ⟨d', s.log⟩ ∧ PathTo fs d' a.path ⟨newRecord raw, p, off⟩ ∧
      ∀ path bytes e', s.last path = some bytes → PathTo fs d' path e' →
        e' ≠ ⟨newRecord raw, p, off⟩ := by
  have hwf := h.wellFormed
  subst hfirst
  obtain ⟨hdisk, names, hnames, hleads⟩ := hat
  have hdir := hleads.isDir .root
  have hcarries := hcreated.carries hwf hdir hcs hkeep
  obtain ⟨cs', -, hcs', -, hnew⟩ := hcreated.carriesDir hwf hcs hkeep
  refine ⟨⟨hwf.created hdir hcs hcreated hkeep, fun path bytes hlast => ?_⟩,
    ⟨_, cs', name, ⟨hdisk, names, hnames, hcarries.leads hleads .root⟩, hcs', hnew hplain⟩,
    fun path bytes e' hlast hpath' => ?_⟩
  · obtain ⟨e, hpath, hfile, hreads⟩ := h.stored path bytes hlast
    exact ⟨e, (hpath.carries hcarries).1, hfile,
      hcreated.reads hwf hdir hcs hkeep (hpath.isEntry hfile) hfile hreads⟩
  · obtain ⟨e, hpath, hfile, -⟩ := h.stored path bytes hlast
    obtain rfl := (hpath.carries hcarries).1.unique hcarries.fits hpath'
    exact hcreated.ne_of_isEntry hwf hdir hcs hplain (hpath.isEntry hfile)

variable (hm : Mounted fs vfs) (hfuel : fs.entries ≤ fuel)

include hm hfuel

/-- A command that suits the volume and reports success leaves every path current. -/
theorem Current.command (h : Current fs s) (hlt : a.data.length < 2 ^ 32)
    (hsuits : Suits fs vfs fuel s a) (hreports : Reports vfs fuel s a) :
    Current fs (Shell.command vfs fuel s a) := by
  have hfits := h.wellFormed.fits
  obtain ⟨n, d, hrun⟩ := hreports
  rw [Shell.command, hrun]
  cases hsuits with
  | @file e hpath hsize halias =>
    rw [cmdWrite_of_open (hpath.openPath_eq hm hfits hfuel), Exec.mapErr_eq_ok] at hrun
    obtain ⟨h', hwrite, hfile, rfl⟩ := of_nodeWrite hrun
    refine h.overwrite hpath ((isDir_nodeOf e).symm.trans hfile) hsize hlt
      (fun path bytes e' hlast hne hpath' => ?_) hwrite
    rintro rfl
    obtain ⟨b, hb, rfl⟩ := Session.mem_of_last hlast
    refine halias b hb hne ?_
    rw [hpath'.openPath_eq hm hfits hfuel, hpath.openPath_eq hm hfits hfuel]
  | @fresh c cs name raw hat hcs hnone hraw hplain hkeep =>
    have hopen := hat.openPath_eq hm hfits hfuel hcs
    rw [hnone] at hopen
    obtain ⟨node, d₁, hcreate, hnodeWrite⟩ := of_cmdWrite hopen hrun
    obtain ⟨dir, m, -, hfirst, rfl, hdirCreate⟩ := hat.create_eq hm hfits hfuel hcreate
    obtain ⟨raw', p, off, d₂, hcreated⟩ :=
      (create_sat hfits (.inr (hfirst ▸ hcs))).of_ok hdirCreate
    obtain rfl : raw = raw' := Option.some.inj (hraw.symm.trans hcreated.name83)
    obtain ⟨h₁, hpath, hne⟩ := h.created hat hcs hplain hkeep hfirst hcreated
    obtain ⟨h', hwrite, -, rfl⟩ := of_nodeWrite hnodeWrite
    have hnode := nodeOf_newRecord p off (length_to83 hraw)
    rw [hcreated.node_eq, ← hnode] at hwrite
    refine h₁.overwrite hpath ?_ ?_ hlt (fun path bytes e' hlast _ => hne path bytes e' hlast)
      hwrite
    · rw [← isDir_nodeOf, hnode]
      rfl
    · rw [hnode]
      exact Nat.zero_le _

/-- A session of commands that report success, and that suit the volume when they are given: every
path reads as it was written last. -/
theorem writes_read_back {d : Disk} {l : List Command} (h : WellFormed fs d)
    (hrun : Run.Guarded (Shell.command vfs fuel)
      (fun s a => Reports vfs fuel s a ∧ a.data.length < 2 ^ 32 ∧ Suits fs vfs fuel s a) ⟨d, []⟩ l)
    (hlast : (l.foldl (Shell.command vfs fuel) ⟨d, []⟩).last path = some bytes) :
    ReadsBack fs vfs fuel (l.foldl (Shell.command vfs fuel) ⟨d, []⟩).disk path bytes := by
  have hstart : Current fs ⟨d, []⟩ := ⟨h, nofun⟩
  have hend : Current fs (l.foldl (Shell.command vfs fuel) ⟨d, []⟩) :=
    Run.invariant (fun s a hs ha => hs.command hm hfuel ha.2.1 ha.2.2 ha.1) hstart hrun
  obtain ⟨e, hpath, -, hreads⟩ := hend.stored path bytes hlast
  exact ⟨nodeOf e, hpath.openPath_eq hm hend.wellFormed.fits hfuel, hreads⟩

end

/-! ## Shorter contents -/

/-- A small volume beside an empty ram disk. -/
def smallVfs : VfsRoot := ⟨some (.tarFileSystem []), some (.fat32 smallFs smallFs.root)⟩

/-- The path of the file `a`. -/
def aPath : List Char := ['/', 'm', 'n', 't', '/', 'd', 'i', 's', 'k', '/', 'a']

/-- The entry of the file `a` while it is empty. -/
def emptyEntry : DirEntry := ⟨record (oneLetter 0x41) 0x20 0 0, 2, 0⟩

/-- The small volume is mounted. -/
theorem mounted_smallVfs : Mounted smallFs smallVfs := by
  refine ⟨fun node hnode => ⟨[], ?_⟩, rfl⟩
  exact (Option.some.inj hnode).symm

/-- The small volume has 128 clusters at most. -/
theorem entries_smallFs : smallFs.entries ≤ 128 := le_rfl

/-- The path leads to the empty file. -/
theorem pathTo_emptyEntry : PathTo smallFs emptyFileDisk aPath emptyEntry := by
  refine ⟨2, [2], "a", ⟨by decide, [], by decide, .nil _⟩, fatChain_rootDisk emptyFileDisk_rows, ?_⟩
  rw [lookup, live_emptyFileDisk]
  decide

section
variable {xs ys : List UInt8} {n₁ n₂ : ℕ} {d d₁ d₂ : Disk}

/-- A command that succeeds is logged. -/
theorem command_of_ok (h : cmdWrite smallVfs 128 aPath xs d = .ok n₁ d₁) (log : List Command) :
    command smallVfs 128 ⟨d, log⟩ ⟨aPath, xs⟩ = ⟨d₁, ⟨aPath, xs⟩ :: log⟩ := by
  rw [command, h]

/-- Two commands that succeed are logged, the last one first. -/
theorem foldl_of_ok (h₁ : cmdWrite smallVfs 128 aPath xs d = .ok n₁ d₁)
    (h₂ : cmdWrite smallVfs 128 aPath ys d₁ = .ok n₂ d₂) :
    [⟨aPath, xs⟩, ⟨aPath, ys⟩].foldl (command smallVfs 128) ⟨d, []⟩ =
      ⟨d₂, [⟨aPath, ys⟩, ⟨aPath, xs⟩]⟩ := by
  rw [List.foldl_cons, command_of_ok h₁, List.foldl_cons, command_of_ok h₂, List.foldl_nil]

/-- Two commands for the empty file, with contents of at most one cluster. -/
theorem twice (hxs : xs ≠ []) (hxs' : xs.length ≤ 512) (hys : ys ≠ []) (hys' : ys.length ≤ 512) :
    ∃ h₁ f₁ h₂ f₂, cmdWrite smallVfs 128 aPath xs emptyFileDisk = .ok xs.length h₁.disk ∧
      Rewrites smallFs emptyFileDisk emptyEntry 0 xs h₁ f₁ ∧
      PathTo smallFs h₁.disk aPath (f₁ emptyEntry) ∧
      cmdWrite smallVfs 128 aPath ys h₁.disk = .ok ys.length h₂.disk ∧
      Rewrites smallFs h₁.disk (f₁ emptyEntry) 0 ys h₂ f₂ := by
  have hroot := fatChain_rootDisk emptyFileDisk_rows
  have hfits := emptyFileDisk_readable.fits
  have hfree : next smallFs emptyFileDisk 10 = 0 := by
    rw [next_emptyFileDisk (by decide)]
    rfl
  have hcb : smallFs.clusterSizeBytes = 512 := rfl
  have hnode : nodeOf emptyEntry = emptyNode := by decide
  have hfile : emptyEntry.isDirectory = false := by decide
  have hfileNode : FileNode smallFs emptyFileDisk emptyNode [] :=
    fileNode_emptyNode (hroot.next_ne_zero (List.mem_singleton.2 rfl))
  have hsum : 0 + xs.length < 2 ^ 32 := by omega
  obtain ⟨h₁, hrun₁⟩ := write_ok_of_free (h := ⟨emptyNode, emptyFileDisk⟩) hfits hfileNode hxs hsum
    (by omega) (show smallFs.InRange 10 by decide) hfree
  rw [← hnode] at hrun₁
  obtain ⟨f₁, hrew₁⟩ := wellFormed_emptyFileDisk.rewrites (pathTo_emptyEntry.isEntry hfile) hfile
    hsum hrun₁
  obtain ⟨hpath₁, hfile₁⟩ := pathTo_emptyEntry.carries hrew₁.carries
  rw [hfile] at hfile₁
  have hentry₁ := hpath₁.isEntry hfile₁
  obtain ⟨cs, hcs⟩ := hrew₁.wellFormed.chain _ hentry₁
  have hpos : 0 < cs.length * smallFs.clusterSizeBytes := by
    have hcover := hrew₁.wellFormed.covers _ cs hentry₁ hfile₁ hcs
    rw [hrew₁.node, hrew₁.size] at hcover
    have := List.length_pos_iff.2 hxs
    omega
  have hcover : 0 + ys.length ≤ cs.length * smallFs.clusterSizeBytes := by
    rw [hcb] at hpos ⊢
    omega
  obtain ⟨h₂, hrun₂⟩ := hrew₁.wellFormed.write_ok hentry₁ hfile₁ (by omega) hcs hys hcover
  obtain ⟨f₂, hrew₂⟩ := hrew₁.wellFormed.rewrites hentry₁ hfile₁ (by omega) hrun₂
  have hcmd₁ := pathTo_emptyEntry.cmdWrite_eq mounted_smallVfs hfits entries_smallFs hrun₁
  have hcmd₂ := hpath₁.cmdWrite_eq mounted_smallVfs hrew₁.carries.fits entries_smallFs hrun₂
  exact ⟨h₁, f₁, h₂, f₂, hcmd₁, hrew₁, hpath₁, hcmd₂, hrew₂⟩

end

/-- Longer contents replace the first ones. -/
theorem writes_read_back_twice :
    Run.Guarded (command smallVfs 128) (fun s a => Reports smallVfs 128 s a ∧
      a.data.length < 2 ^ 32 ∧ Suits smallFs smallVfs 128 s a) ⟨emptyFileDisk, []⟩
      [⟨aPath, [7]⟩, ⟨aPath, [8, 9]⟩] ∧
    ReadsBack smallFs smallVfs 128 ([⟨aPath, [7]⟩, ⟨aPath, [8, 9]⟩].foldl (command smallVfs 128)
      ⟨emptyFileDisk, []⟩).disk aPath [8, 9] := by
  obtain ⟨h₁, f₁, h₂, f₂, hrun₁, hrew₁, hpath₁, hrun₂, hrew₂⟩ :=
    twice (List.cons_ne_nil 7 []) (by decide) (List.cons_ne_nil 8 [9]) (by decide)
  have hguard : Run.Guarded (command smallVfs 128) (fun s a => Reports smallVfs 128 s a ∧
      a.data.length < 2 ^ 32 ∧ Suits smallFs smallVfs 128 s a) ⟨emptyFileDisk, []⟩
      [⟨aPath, [7]⟩, ⟨aPath, [8, 9]⟩] := by
    refine ⟨⟨⟨_, _, hrun₁⟩, by decide, .file pathTo_emptyEntry (by decide) nofun⟩, ?_, trivial⟩
    rw [command_of_ok hrun₁]
    refine ⟨⟨_, _, hrun₂⟩, by decide, .file hpath₁ ?_ fun b hb hne => ?_⟩
    · rw [hrew₁.node, hrew₁.size]
      decide
    · rw [List.mem_singleton.1 hb] at hne
      exact absurd rfl hne
  refine ⟨hguard, ?_⟩
  refine writes_read_back mounted_smallVfs entries_smallFs wellFormed_emptyFileDisk hguard ?_
  rw [foldl_of_ok hrun₁ hrun₂]
  rfl

/-- Shorter contents leave the end of the first ones. -/
theorem writes_not_read_back : ¬ ∀ (fs : Fat32Fs) (vfs : VfsRoot) (fuel : ℕ) (d : Disk)
    (l : List Command) (path : List Char) (bytes : List UInt8), Mounted fs vfs →
    fs.entries ≤ fuel → WellFormed fs d →
    Run.Guarded (command vfs fuel) (Reports vfs fuel) ⟨d, []⟩ l →
    (l.foldl (command vfs fuel) ⟨d, []⟩).last path = some bytes →
    ReadsBack fs vfs fuel (l.foldl (command vfs fuel) ⟨d, []⟩).disk path bytes := by
  intro hall
  obtain ⟨h₁, f₁, h₂, f₂, hrun₁, hrew₁, hpath₁, hrun₂, hrew₂⟩ :=
    twice (List.cons_ne_nil 7 [7]) (by decide) (List.cons_ne_nil 9 []) (by decide)
  obtain ⟨node, hopen, hreads⟩ := hall smallFs smallVfs 128 emptyFileDisk
    [⟨aPath, [7, 7]⟩, ⟨aPath, [9]⟩] aPath [9] mounted_smallVfs entries_smallFs
    wellFormed_emptyFileDisk
    ⟨⟨_, _, hrun₁⟩, by rw [command_of_ok hrun₁]; exact ⟨_, _, hrun₂⟩, trivial⟩
    (by rw [foldl_of_ok hrun₁ hrun₂]; rfl)
  rw [foldl_of_ok hrun₁ hrun₂] at hopen hreads
  have hpath₂ := (hpath₁.carries hrew₂.carries).1
  rw [hpath₂.openPath_eq mounted_smallVfs hrew₂.carries.fits entries_smallFs] at hopen
  cases hopen
  have hsize := hreads.1
  rw [hrew₂.node, hrew₂.size, hrew₁.node, hrew₁.size] at hsize
  exact absurd hsize (by decide)

end Shell

end RossOs
