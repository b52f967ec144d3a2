import RossOs.Fat.File

/-!
# The file systems

`ross-kernel/src/vfs.rs`: the nodes of the initial ram disk (`ramfs.rs`) and of a FAT32 volume
behind one interface, and the lookup of a path. `Node.read_run` says that both kinds of files read
alike, and `openPath_readOnly` that a lookup changes nothing.
-/

namespace RossOs

open ByteMem Ahci Fat

/-! ## Nodes -/

/-- `TarFile`. -/
structure TarFile where
  name : String
  data : List UInt8
deriving DecidableEq, Repr

/-- `TarFile::read`: the number of bytes, and the buffer. -/
def TarFile.read (f : TarFile) (offset : ℕ) (buffer : List UInt8) : ℕ × List UInt8 :=
  if f.data.length ≤ offset then (0, buffer)
  else
    let toCopy := min (f.data.length - offset) buffer.length
    (toCopy, splice buffer 0 (slice f.data offset toCopy))

/-- `dyn VfsNode`: a file of the ram disk, the ram disk itself, or a node of a FAT32 volume. -/
inductive Node
  | tarFile (f : TarFile)
  | tarFileSystem (files : List TarFile)
  | fat32 (fs : Fat32Fs) (node : Fat32Node)

/-- `VfsNode::read`. -/
def Node.read (offset : ℕ) (buffer : List UInt8) : Node → Exec Unit Disk (ℕ × List UInt8)
  | .tarFile f => pure (f.read offset buffer)
  | .tarFileSystem _ => Exec.fail ()
  | .fat32 fs node => node.read fs offset buffer

/-- `VfsNode::finddir`. -/
def Node.finddir (fuel : ℕ) (name : String) : Node → Exec Unit Disk Node
  | .tarFile _ => Exec.fail ()
  | .tarFileSystem files =>
    match files.find? (·.name = name) with
    | some f => pure (.tarFile f)
    | none => Exec.fail ()
  | .fat32 fs node => do
    let found ← node.finddir fs fuel name
    pure (.fat32 fs found)

/-- `VfsNode::write`. The ram disk is read-only; what a FAT32 node keeps of its file is dropped with
the node. -/
def Node.write (offset : ℕ) (data : List UInt8) : Node → Exec Unit Disk ℕ
  | .tarFile _ => Exec.fail ()
  | .tarFileSystem _ => Exec.fail ()
  | .fat32 fs node => fun d =>
    match Fat.write fs offset data ⟨node, d⟩ with
    | .ok n h => .ok n h.disk
    | .error e h => .error e h.disk

/-- `VfsNode::create`. -/
def Node.create (fuel : ℕ) (name : String) : Node → Exec Unit Disk Node
  | .tarFile _ => Exec.fail ()
  | .tarFileSystem _ => Exec.fail ()
  | .fat32 fs node => do
    let new ← node.create fs fuel name
    pure (.fat32 fs new)

/-! ## Paths -/

/-- `VfsRoot`. -/
structure VfsRoot where
  rootNode : Option Node
  diskRoot : Option Node

/-- `trim_start_matches('/')`. -/
def trimSlashes (path : List Char) : List Char := path.dropWhile (· = '/')

/-- `split('/').filter(|s| !s.is_empty())`. -/
def components (path : List Char) : List String :=
  ((path.splitOn '/').filter (· ≠ [])).map String.ofList

/-- The prefix of the paths on the disk. -/
def diskPrefix : List Char := ['m', 'n', 't', '/', 'd', 'i', 's', 'k']

/-- The loop of `open` over the components of a path. -/
def lookupFrom (fuel : ℕ) (root : Option Node) (path : List Char) : Exec Unit Disk Node :=
  match root with
  | none => Exec.fail ()
  | some node => (components path).foldlM (fun node name => node.finddir fuel name) node

/-- `open`. -/
def VfsRoot.openPath (vfs : VfsRoot) (fuel : ℕ) (path : List Char) : Exec Unit Disk Node :=
  let trimmed := trimSlashes path
  if diskPrefix.isPrefixOf trimmed then
    lookupFrom fuel vfs.diskRoot (trimSlashes (trimmed.drop diskPrefix.length))
  else lookupFrom fuel vfs.rootNode trimmed

/-- A path at its last slash: the path of the parent, and the name. -/
def splitParent (path : List Char) : List Char × List Char :=
  if '/' ∈ path then ((path.rdropWhile (· != '/')).dropLast, path.rtakeWhile (· != '/'))
  else ([], path)

/-- `create`. -/
def VfsRoot.create (vfs : VfsRoot) (fuel : ℕ) (path : List Char) : Exec Unit Disk Node := do
  let (parentPath, name) := splitParent (trimSlashes path)
  let parent ← if parentPath = [] then vfs.openPath fuel ['/'] else vfs.openPath fuel parentPath
  parent.create fuel (String.ofList name)

/-! ## Files read alike -/

/-- The node is a file of these bytes. -/
inductive Node.Holds (d : Disk) : Node → List UInt8 → Prop
  | tarFile (f : TarFile) : Holds d (.tarFile f) f.data
  | fat32 {fs : Fat32Fs} {node : Fat32Node} {bytes : List UInt8} :
    node.Holds fs d bytes → Holds d (.fat32 fs node) bytes

/-- A read of a file of the ramdisk is a slice of its data. -/
theorem TarFile.read_eq (f : TarFile) (offset : ℕ) (buffer : List UInt8) : f.read offset buffer =
    (min buffer.length (f.data.length - offset),
      splice buffer 0 (slice f.data offset buffer.length)) := by
  rw [TarFile.read]
  split
  case isTrue h =>
    rw [slice, List.drop_eq_nil_of_le h, List.take_nil, splice_nil, Nat.sub_eq_zero_of_le h,
      Nat.min_zero]
  case isFalse h =>
    have hslice : slice f.data offset (min (f.data.length - offset) buffer.length) =
        slice f.data offset buffer.length := by
      rw [slice, slice, ← List.length_drop, ← List.take_take]
      exact List.take_of_length_le (by rw [List.length_take]; exact Nat.min_le_right _ _)
    simp only
    rw [hslice, Nat.min_comm]

/-- A file yields its bytes from the offset on, as far as they and the buffer go. -/
theorem Node.read_run {d : Disk} {node : Node} {bytes : List UInt8} (h : node.Holds d bytes)
    (offset : ℕ) (buffer : List UInt8) : node.read offset buffer d =
      .ok (min buffer.length (bytes.length - offset),
        splice buffer 0 (slice bytes offset buffer.length)) d := by
  cases h with
  | tarFile f => exact congrArg (EStateM.Result.ok · d) (f.read_eq offset buffer)
  | fat32 h => exact Fat32Node.read_run h offset buffer

/-! ## Reading changes nothing -/

/-- `read` changes nothing. -/
theorem Node.read_readOnly (node : Node) (offset : ℕ) (buffer : List UInt8) :
    Exec.ReadOnly (node.read offset buffer) := by
  cases node with
  | tarFile f => exact .pure _
  | tarFileSystem files => exact .throw _
  | fat32 fs node => exact Fat.read_readOnly fs node offset buffer

/-- `finddir` changes nothing. -/
theorem Node.finddir_readOnly (node : Node) (fuel : ℕ) (name : String) :
    Exec.ReadOnly (node.finddir fuel name) := by
  cases node with
  | tarFile f => exact .throw _
  | tarFileSystem files =>
    rw [Node.finddir]
    split
    · exact .pure _
    · exact .throw _
  | fat32 fs node => exact .bind (Fat.finddir_readOnly fs fuel node name) fun _ => .pure _

/-- Looking up a path leaves the disk as it is. -/
theorem openPath_readOnly (vfs : VfsRoot) (fuel : ℕ) (path : List Char) :
    Exec.ReadOnly (vfs.openPath fuel path) := by
  have hlookup : ∀ root rest, Exec.ReadOnly (lookupFrom fuel root rest) := by
    intro root rest
    cases root with
    | none => exact .throw _
    | some node => exact .foldlM (fun node name => node.finddir_readOnly fuel name) _ _
  exact .ite (hlookup _ _) (hlookup _ _)

end RossOs
