import RossOs.Fat.Boot
import RossOs.Shell

/-!
# Files across reboots

`kernel_main` in `ross-kernel/src/main.rs` mounts the ram disk that the loader passed, and the FAT32
volume when there is a drive. Nothing is kept in memory between two starts: what the files hold is
on the drive. `writes_survive_reboots` is the law of `write` commands and restarts in any order,
also of restarts that do not find the drive: at the end the drive is mounted as it was at first, and
every path reads as it was written last.
-/

namespace RossOs

open Ahci Exec Fat

/-! ## Requests through the file systems -/

/-- A node of the volume `fs`, or of the ram disk. -/
def Node.On (fs : Fat32Fs) : Node → Prop
  | .tarFile _ => True
  | .tarFileSystem _ => True
  | .fat32 fs' node => fs' = fs ∧ node.Proper

/-- What is mounted is the volume `fs`, if any, and a ram disk. -/
structure VfsRoot.On (fs : Fat32Fs) (vfs : VfsRoot) : Prop where
  root : ∀ node ∈ vfs.rootNode, node.On fs
  disk : ∀ node ∈ vfs.diskRoot, node.On fs

section
variable {fs : Fat32Fs} {vfs : VfsRoot} {node : Node}

/-- A lookup leads to a node of the volume or of the ramdisk. -/
theorem Node.On.finddir (h : node.On fs) (fuel : ℕ) (name : String) :
    AlongTo (KeepsBoot fs) (Node.On fs) (node.finddir fuel name) := by
  cases node with
  | tarFile f => exact .throw _
  | tarFileSystem files =>
    rw [Node.finddir]
    cases files.find? (·.name = name) with
    | some f => exact .pure trivial
    | none => exact .throw _
  | fat32 fs' n =>
    obtain ⟨rfl, -⟩ := h
    exact (finddir_keepsBoot fs' fuel n name).bind fun _ hn => .pure ⟨rfl, hn⟩

/-- So does `create`, which leaves the reserved sectors. -/
theorem Node.On.create (h : node.On fs) (fuel : ℕ) (name : String) :
    AlongTo (KeepsBoot fs) (Node.On fs) (node.create fuel name) := by
  cases node with
  | tarFile f => exact .throw _
  | tarFileSystem files => exact .throw _
  | fat32 fs' n =>
    obtain ⟨rfl, hn⟩ := h
    exact (create_keepsBoot fuel name hn.first).bind fun _ hn' => .pure ⟨rfl, hn'⟩

/-- `write` leaves the reserved sectors. -/
theorem Node.On.write (h : node.On fs) (offset : ℕ) (data : List UInt8) :
    AlongTo (KeepsBoot fs) (fun _ => True) (node.write offset data) := by
  cases node with
  | tarFile f => exact .throw _
  | tarFileSystem files => exact .throw _
  | fat32 fs' n =>
    obtain ⟨rfl, hn⟩ := h
    intro d
    have hwrite := @write_keepsBoot fs' ⟨n, d⟩ offset data hn
    rw [Node.write]
    cases hrun : Fat.write fs' offset data ⟨n, d⟩ with
    | ok m h' =>
      simp only [hrun, sat_ok, and_true]
      exact hwrite.of_ok hrun
    | error e h' =>
      simp only [hrun, sat_error]
      exact hwrite.of_error hrun

/-- `open` leads to a node of the volume or of the ramdisk. -/
theorem VfsRoot.On.openPath (h : vfs.On fs) (fuel : ℕ) (path : List Char) :
    AlongTo (KeepsBoot fs) (Node.On fs) (vfs.openPath fuel path) := by
  have hlookup : ∀ (root : Option Node) (rest : List Char), (∀ node ∈ root, node.On fs) →
      AlongTo (KeepsBoot fs) (Node.On fs) (lookupFrom fuel root rest) := by
    intro root rest hroot
    cases root with
    | none => exact .throw _
    | some node => exact .foldlM (fun node name hn => hn.finddir fuel name) _ (hroot node rfl)
  exact .ite (fun _ => hlookup _ _ h.disk) fun _ => hlookup _ _ h.root

/-- So does `create` by a path. -/
theorem VfsRoot.On.create (h : vfs.On fs) (fuel : ℕ) (path : List Char) :
    AlongTo (KeepsBoot fs) (Node.On fs) (vfs.create fuel path) := by
  rw [VfsRoot.create]
  generalize splitParent (trimSlashes path) = parts
  obtain ⟨parentPath, name⟩ := parts
  refine .ite (fun _ => ?_) fun _ => ?_
  · exact (h.openPath fuel _).bind fun _ hp => hp.create fuel _
  · exact (h.openPath fuel _).bind fun _ hp => hp.create fuel _

/-- However the command ends, the drive is as it was up to the FAT. -/
theorem VfsRoot.On.cmdWrite (h : vfs.On fs) (fuel : ℕ) (path : List Char) (data : List UInt8) :
    AlongTo (KeepsBoot fs) (fun _ => True) (cmdWrite vfs fuel path data) := by
  refine (h.openPath fuel path).attempt.bind fun found hfound => ?_
  cases found with
  | ok node => exact (AlongTo.pure (hfound node rfl)).bind fun _ hn => (hn.write 0 data).mapErr
  | error e => exact (h.create fuel path).mapErr.bind fun _ hn => (hn.write 0 data).mapErr

end

/-! ## The machine -/

/-- What `kernel_main` mounts: the ram disk, if the loader passed one, and the volume, if the AHCI
driver is ready and `mount` succeeds. -/
def mountAll (ready : Bool) (ramdisk : Option (List TarFile)) (d : Disk) : VfsRoot where
  rootNode := ramdisk.map .tarFileSystem
  diskRoot :=
    if ready then
      match Fat32Fs.mount d with
      | .ok fs _ => some (.fat32 fs fs.root)
      | .error _ _ => none
    else none

namespace Shell

/-- What is mounted, the drive, and the commands that reported success. -/
structure Machine where
  vfs : VfsRoot
  session : Session

/-- A `write` command is given, or the machine is started anew. -/
inductive Event
  | command (a : Command)
  | reboot (ready : Bool) (ramdisk : Option (List TarFile))

/-- The machine after an event. -/
def Machine.step (fuel : ℕ) (m : Machine) : Event → Machine
  | .command a => { m with session := command m.vfs fuel m.session a }
  | .reboot ready ramdisk => { m with vfs := mountAll ready ramdisk m.session.disk }

/-- A command prints a message and leaves the drive as it is, or it reports success and suits the
volume. -/
def Machine.Allows (fs : Fat32Fs) (fuel : ℕ) (m : Machine) : Event → Prop
  | .command a => (∃ e, cmdWrite m.vfs fuel a.path a.data m.session.disk =
      .error e m.session.disk) ∨ (Reports m.vfs fuel m.session a ∧ a.data.length < 2 ^ 32 ∧
        Suits fs m.vfs fuel m.session a)
  | .reboot .. => True

/-- What the machine keeps: the volume is the one of the start, it is mounted or no drive is, and
the paths have the contents that were written last. -/
structure Machine.Holds (fs : Fat32Fs) (m : Machine) : Prop where
  current : Current fs m.session
  mount : Fat32Fs.mount m.session.disk = .ok fs m.session.disk
  root : ∀ node, m.vfs.rootNode = some node → ∃ files, node = .tarFileSystem files
  disk : m.vfs.diskRoot = none ∨ m.vfs.diskRoot = some (.fat32 fs fs.root)

section
variable {fs : Fat32Fs} {fuel n : ℕ} {m : Machine} {vfs : VfsRoot} {d d' : Disk} {path : List Char}
  {bytes data : List UInt8}

/-- The drive is mounted if there is one. -/
theorem mountAll_of_mount (h : Fat32Fs.mount d = .ok fs d) (ready : Bool)
    (ramdisk : Option (List TarFile)) : (mountAll ready ramdisk d).diskRoot =
      if ready then some (.fat32 fs fs.root) else none := by
  rw [mountAll]
  simp only [h]

/-- The root is the ramdisk. -/
theorem rootNode_mountAll (ready : Bool) (ramdisk : Option (List TarFile)) (d : Disk) (node : Node)
    (h : (mountAll ready ramdisk d).rootNode = some node) :
    ∃ files, node = .tarFileSystem files := by
  obtain ⟨files, -, rfl⟩ := Option.map_eq_some_iff.1 h
  exact ⟨files, rfl⟩

end

/-! ## Without the drive -/

section
variable {fuel n : ℕ} {vfs : VfsRoot} {node : Node} {d d' : Disk} {path : List Char}
  {data : List UInt8}

/-- A node of the ram disk. -/
def OnRamdisk (node : Node) : Prop :=
  (∃ f, node = .tarFile f) ∨ ∃ files, node = .tarFileSystem files

/-- A lookup on the ramdisk stays there. -/
theorem OnRamdisk.finddir (h : OnRamdisk node) (fuel : ℕ) (name : String) :
    AlongTo Eq OnRamdisk (node.finddir fuel name) := by
  rcases h with ⟨f, rfl⟩ | ⟨files, rfl⟩
  · exact .throw _
  · rw [Node.finddir]
    cases files.find? (·.name = name) with
    | some f => exact .pure (.inl ⟨f, rfl⟩)
    | none => exact .throw _

/-- Nothing is created on the ramdisk. -/
theorem OnRamdisk.create (h : OnRamdisk node) (fuel : ℕ) (name : String) :
    AlongTo Eq (fun _ => False) (node.create fuel name) := by
  rcases h with ⟨f, rfl⟩ | ⟨files, rfl⟩
  · exact .throw _
  · exact .throw _

/-- Nothing is written on the ramdisk. -/
theorem OnRamdisk.write (h : OnRamdisk node) (offset : ℕ) (data : List UInt8) :
    AlongTo Eq (fun _ => False) (node.write offset data) := by
  rcases h with ⟨f, rfl⟩ | ⟨files, rfl⟩
  · exact .throw _
  · exact .throw _

variable (hroot : ∀ node, vfs.rootNode = some node → ∃ files, node = .tarFileSystem files)
  (hdisk : vfs.diskRoot = none)

include hroot hdisk

/-- Without a drive every path leads to the ramdisk. -/
theorem openPath_of_none (fuel : ℕ) (path : List Char) :
    AlongTo Eq OnRamdisk (vfs.openPath fuel path) := by
  refine .ite (fun _ => ?_) fun _ => ?_
  · rw [hdisk]
    exact .throw _
  · cases h : vfs.rootNode with
    | none => exact .throw _
    | some node =>
      obtain ⟨files, rfl⟩ := hroot node h
      exact .foldlM (fun node name hn => hn.finddir fuel name) _ (.inr ⟨files, rfl⟩)

/-- Without a drive every write is refused. -/
theorem cmdWrite_of_none (fuel : ℕ) (path : List Char) (data : List UInt8) :
    AlongTo Eq (fun _ => False) (cmdWrite vfs fuel path data) := by
  have hopen := openPath_of_none hroot hdisk fuel
  have hcreate : AlongTo Eq (fun _ => False) (vfs.create fuel path) := by
    rw [VfsRoot.create]
    generalize splitParent (trimSlashes path) = parts
    obtain ⟨parentPath, name⟩ := parts
    refine .ite (fun _ => ?_) fun _ => ?_
    · exact (hopen _).bind fun _ hp => hp.create fuel _
    · exact (hopen _).bind fun _ hp => hp.create fuel _
  refine (hopen path).attempt.bind fun found hfound => ?_
  cases found with
  | ok node => exact (AlongTo.pure (hfound node rfl)).bind fun _ hn => (hn.write 0 data).mapErr
  | error e => exact hcreate.mapErr.bind fun _ h => h.elim

/-- While there is no drive, a command is refused. -/
theorem refused_of_none (fuel : ℕ) (path : List Char) (data : List UInt8) (d : Disk) :
    ∃ e, cmdWrite vfs fuel path data d = .error e d := by
  have hsat := cmdWrite_of_none hroot hdisk fuel path data d
  cases hrun : cmdWrite vfs fuel path data d with
  | ok n d' => exact (hsat.of_ok hrun).2.elim
  | error e d' =>
    obtain rfl := hsat.of_error hrun
    exact ⟨e, rfl⟩

end

/-! ## Runs -/

section
variable {fs : Fat32Fs} {fuel : ℕ} {m : Machine} {path : List Char} {bytes : List UInt8}

/-- A write that succeeds is logged. -/
theorem Machine.step_of_ok {a : Command} {n : ℕ} {d : Disk}
    (h : cmdWrite m.vfs fuel a.path a.data m.session.disk = .ok n d) :
    m.step fuel (.command a) = ⟨m.vfs, d, a :: m.session.log⟩ := by
  rw [Machine.step, command, h]

/-- A write that is refused leaves the machine. -/
theorem Machine.step_of_refused {a : Command} {e : Fault String}
    (h : cmdWrite m.vfs fuel a.path a.data m.session.disk = .error e m.session.disk) :
    m.step fuel (.command a) = m := by
  rw [Machine.step, command, h]

variable (hstart : 1 ≤ fs.fatStart) (hfuel : fs.entries ≤ fuel)

include hstart hfuel

/-- One event, a command or a reboot, keeps the files as they were written. -/
theorem Machine.Holds.step (h : m.Holds fs) {e : Event} (he : m.Allows fs fuel e) :
    (m.step fuel e).Holds fs := by
  cases e with
  | reboot ready ramdisk =>
    have hroot := rootNode_mountAll ready ramdisk m.session.disk
    have hdisk := mountAll_of_mount h.mount ready ramdisk
    rw [Machine.step]
    generalize mountAll ready ramdisk m.session.disk = vfs at hroot hdisk
    refine ⟨h.current, h.mount, hroot, ?_⟩
    cases ready with
    | true => exact .inr hdisk
    | false => exact .inl hdisk
  | command a =>
    rcases he with ⟨e, hrefused⟩ | ⟨hreports, hlt, hsuits⟩
    · rwa [Machine.step_of_refused hrefused]
    · obtain ⟨n, d, hrun⟩ := hreports
      rcases h.disk with hnone | hdisk
      · obtain ⟨e, hrefused⟩ := refused_of_none h.root hnone fuel a.path a.data m.session.disk
        rw [hrefused] at hrun
        cases hrun
      · have hmounted : Mounted fs m.vfs := ⟨h.root, hdisk⟩
        have hcurrent := h.current.command hmounted hfuel hlt hsuits ⟨n, d, hrun⟩
        rw [command, hrun] at hcurrent
        have hon : m.vfs.On fs := by
          refine ⟨fun node hnode => ?_, fun node hnode => ?_⟩
          · obtain ⟨files, rfl⟩ := h.root node hnode
            trivial
          · rw [hdisk] at hnode
            obtain rfl := Option.some.inj hnode
            exact ⟨rfl, proper_root fs⟩
        have hkeeps := ((hon.cmdWrite fuel a.path a.data m.session.disk).of_ok hrun).1
        rw [Machine.step_of_ok hrun]
        exact ⟨hcurrent, mount_again h.mount hstart hkeeps, h.root, h.disk⟩

/-- Over any run of commands and restarts, the drive stays the volume that it was at first, and a
restart that finds it mounts it so that every path reads as it was written last, before or during
the run. -/
theorem writes_survive_reboots (events : List Event) (ramdisk : Option (List TarFile))
    (h : m.Holds fs) (hrun : Run.Guarded (Machine.step fuel) (Machine.Allows fs fuel) m events) :
    let s := (events.foldl (Machine.step fuel) m).session
    (mountAll true ramdisk s.disk).diskRoot = some (.fat32 fs fs.root) ∧
      ∀ path bytes, s.last path = some bytes →
        ReadsBack fs (mountAll true ramdisk s.disk) fuel s.disk path bytes := by
  have hend : (events.foldl (Machine.step fuel) m).Holds fs :=
    Run.invariant (fun _ _ hm he => hm.step hstart hfuel he) h hrun
  generalize events.foldl (Machine.step fuel) m = m' at hend
  have hdisk := mountAll_of_mount hend.mount true ramdisk
  refine ⟨hdisk, fun path bytes hlast => ?_⟩
  obtain ⟨e, hpath, -, hreads⟩ := hend.current.stored path bytes hlast
  have hmounted : Mounted fs (mountAll true ramdisk m'.session.disk) :=
    ⟨rootNode_mountAll true ramdisk _, hdisk⟩
  exact ⟨nodeOf e, hpath.openPath_eq hmounted hend.current.wellFormed.fits hfuel, hreads⟩

end

/-- A drive with the empty file `a`. -/
def fileDisk : Disk := bootDisk emptyFileDisk

/-- The machine with that drive. -/
def fileMachine : Machine := ⟨mountAll true none fileDisk, ⟨fileDisk, []⟩⟩

/-- The file is written, the machine is started without the drive, and a second write fails; then it
is started with the drive. -/
def fileEvents : List Event :=
  [.command ⟨aPath, [7]⟩, .reboot false none, .command ⟨aPath, [8]⟩, .reboot true (some [])]

/-- The drive is mounted. -/
theorem mount_fileDisk : Fat32Fs.mount fileDisk = .ok smallFs fileDisk :=
  mount_bootDisk (show 1 ≤ 128 by decide)

/-- Its volume is well-formed. -/
theorem wellFormed_fileDisk : WellFormed smallFs fileDisk :=
  (sameVolume_bootDisk emptyFileDisk).wellFormed wellFormed_emptyFileDisk

/-- The machine has its volume mounted. -/
theorem mounted_fileMachine : Mounted smallFs fileMachine.vfs :=
  ⟨rootNode_mountAll true none fileDisk, mountAll_of_mount mount_fileDisk true none⟩

/-- The invariant holds of the machine. -/
theorem holds_fileMachine : fileMachine.Holds smallFs :=
  ⟨⟨wellFormed_fileDisk, nofun⟩, mount_fileDisk, mounted_fileMachine.root,
    .inr mounted_fileMachine.disk⟩

/-- The path leads to the file. -/
theorem pathTo_fileDisk : PathTo smallFs fileDisk aPath emptyEntry := by
  have hsame := sameVolume_bootDisk emptyFileDisk
  refine ⟨2, [2], "a", ⟨by decide, [], by decide, .nil _⟩,
    hsame.fatChain (fatChain_rootDisk emptyFileDisk_rows), ?_⟩
  rw [fileDisk, hsame.dirSlots, lookup, live_emptyFileDisk]
  decide

/-- A byte is written to it. -/
theorem cmdWrite_fileDisk : ∃ d, cmdWrite fileMachine.vfs 128 aPath [7] fileDisk = .ok 1 d := by
  have hsame := sameVolume_bootDisk emptyFileDisk
  have hroot := fatChain_rootDisk emptyFileDisk_rows
  have hnode : nodeOf emptyEntry = emptyNode := by decide
  have hfileNode : FileNode smallFs fileDisk emptyNode [] :=
    fileNode_emptyNode ((hsame.fatChain hroot).next_ne_zero (List.mem_singleton.2 rfl))
  have hfree : next smallFs fileDisk 10 = 0 := by
    rw [fileDisk, next_bootDisk, next_emptyFileDisk (by decide)]
    rfl
  obtain ⟨h, hrun⟩ := write_ok_of_free (h := ⟨emptyNode, fileDisk⟩) wellFormed_fileDisk.fits
    hfileNode (List.cons_ne_nil 7 []) (show 0 + 1 < 2 ^ 32 by decide) (by decide)
    (show smallFs.InRange 10 by decide) hfree
  rw [← hnode] at hrun
  exact ⟨h.disk, pathTo_fileDisk.cmdWrite_eq mounted_fileMachine wellFormed_fileDisk.fits
    entries_smallFs hrun⟩

/-- A byte, a reboot: the file reads as the byte. -/
theorem writes_survive_reboots_file :
    let s := (fileEvents.foldl (Machine.step 128) fileMachine).session
    ReadsBack smallFs (mountAll true none s.disk) 128 s.disk aPath [7] := by
  obtain ⟨d, hrun⟩ := cmdWrite_fileDisk
  have hstep₁ : fileMachine.step 128 (.command ⟨aPath, [7]⟩) =
      ⟨fileMachine.vfs, d, [⟨aPath, [7]⟩]⟩ := Machine.step_of_ok hrun
  -- the second command is refused, since there is no drive
  generalize hm : (⟨mountAll false none d, d, [⟨aPath, [7]⟩]⟩ : Machine) = m
  have hoff : m.vfs.diskRoot = none := by
    rw [← hm]
    rfl
  have hroot : ∀ node, m.vfs.rootNode = some node → ∃ files, node = .tarFileSystem files := by
    rw [← hm]
    exact rootNode_mountAll false none d
  obtain ⟨e, hrefused⟩ := refused_of_none hroot hoff 128 aPath [8] m.session.disk
  have hstep₂ : m.step 128 (.command ⟨aPath, [8]⟩) = m := Machine.step_of_refused hrefused
  have hreboot : Machine.step 128 ⟨fileMachine.vfs, d, [⟨aPath, [7]⟩]⟩ (.reboot false none) = m :=
    hm
  have hguard : Run.Guarded (Machine.step 128) (Machine.Allows smallFs 128) fileMachine
      fileEvents := by
    refine ⟨.inr ⟨⟨1, d, hrun⟩, by decide, .file pathTo_fileDisk (by decide) nofun⟩, trivial, ?_⟩
    rw [hstep₁, hreboot]
    exact ⟨.inl ⟨e, hrefused⟩, trivial, trivial⟩
  have hlaw := writes_survive_reboots (by decide) entries_smallFs fileEvents none
    holds_fileMachine hguard
  refine hlaw.2 aPath [7] ?_
  simp only [fileEvents, List.foldl_cons, List.foldl_nil, hstep₁, hreboot, hstep₂]
  rw [← hm]
  rfl

end Shell

end RossOs
