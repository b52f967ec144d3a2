import Mathlib.Data.List.DropRight
import RossOs.Fat.Disk

/-!
# The FAT32 driver

`ross-kernel/src/fat32.rs`. Buffers that the code fills in place are passed in and returned. The
two loops over a directory's chain that nothing bounds, in `walk_dir` and `find_free_slot`, take
fuel. Subtractions below zero and slices out of range panic, as in the kernel's build. A handle is
a node with the drive: `write` changes both.
-/

namespace RossOs

open ByteMem Ahci

namespace Fat

/-! ## The boot sector -/

/-- `BiosParameterBlock`, with what `parse_bpb` makes sure of. -/
structure BiosParameterBlock where
  sectorsPerCluster : ℕ
  reservedSectors : ℕ
  numFats : ℕ
  fatSizeSectors : ℕ
  rootCluster : ℕ
  sectorsPerCluster_pow : sectorsPerCluster.isPowerOfTwo
  sectorsPerCluster_lt : sectorsPerCluster < 2 ^ 8
  reservedSectors_lt : reservedSectors < 2 ^ 16
  numFats_lt : numFats < 2 ^ 8
  fatSizeSectors_lt : fatSizeSectors < 2 ^ 32
  rootCluster_lt : rootCluster < 2 ^ 32

/-- `parse_bpb`, on the 512 bytes of the sector. `bytes_per_sector` is 512 when it returns. -/
def parseBpb (sector : List UInt8) : Except String BiosParameterBlock :=
  if sector.getD 510 0 ≠ 0x55 ∨ sector.getD 511 0 ≠ 0xAA then
    .error "FAT32: missing 0x55AA signature"
  else if field sector 0x16 2 ≠ 0 then .error "FAT32: FAT12/16 not supported"
  else if field sector 0x0B 2 ≠ 512 then .error "FAT32: only 512-byte sectors supported"
  else if h : field sector 0x0D 1 = 0 ∨ ¬ (field sector 0x0D 1).isPowerOfTwo then
    .error "FAT32: bad sectors_per_cluster"
  else
    .ok
      { sectorsPerCluster := field sector 0x0D 1
        reservedSectors := field sector 0x0E 2
        numFats := field sector 0x10 1
        fatSizeSectors := field sector 0x24 4
        rootCluster := field sector 0x2C 4
        sectorsPerCluster_pow := not_not.1 (not_or.1 h).2
        sectorsPerCluster_lt := field_lt _ _ 1
        reservedSectors_lt := field_lt _ _ 2
        numFats_lt := field_lt _ _ 1
        fatSizeSectors_lt := field_lt _ _ 4
        rootCluster_lt := field_lt _ _ 4 }

/-! ## The filesystem object -/

/-- `Fat32Fs`. Where the FAT and the data area start is computed from the boot sector, at mount in
the code. -/
structure Fat32Fs where
  bpb : BiosParameterBlock

/-- `Fat32Fs::mount`. -/
def Fat32Fs.mount : Exec String Disk Fat32Fs := do
  let sec ← readSectors 0 1 (List.replicate 512 0)
  match parseBpb sec with
  | .ok bpb => pure ⟨bpb⟩
  | .error e => Exec.fail e

section
variable {ε σ : Type} (fs : Fat32Fs)

/-- `fat_start_sector`. -/
def Fat32Fs.fatStart : ℕ := fs.bpb.reservedSectors

/-- `data_start_sector`. -/
def Fat32Fs.dataStart : ℕ := fs.fatStart + fs.bpb.numFats * fs.bpb.fatSizeSectors

/-- `cluster_to_sector`. -/
def clusterToSector (cluster : ℕ) : Exec ε σ ℕ :=
  if 2 ≤ cluster then pure (fs.dataStart + (cluster - 2) * fs.bpb.sectorsPerCluster)
  else Exec.panic

/-- `cluster_size_bytes`. -/
def Fat32Fs.clusterSizeBytes : ℕ := 512 * fs.bpb.sectorsPerCluster

/-- The chunk loop of `read_cluster`. -/
def readChunks (rem sec off : ℕ) (buf : List UInt8) : Exec String Disk (List UInt8) :=
  if rem = 0 then pure buf
  else if off ≤ buf.length then do
    let cnt := min rem 8
    let part ← readSectors sec cnt (buf.drop off)
    readChunks (rem - cnt) (sec + cnt) (off + 512 * cnt) (buf.take off ++ part)
  else Exec.panic
termination_by rem
decreasing_by omega

/-- `read_cluster`: the buffer with the cluster at its start. -/
def readCluster (cluster : ℕ) (buf : List UInt8) : Exec String Disk (List UInt8) := do
  let first ← clusterToSector fs cluster
  readChunks fs.bpb.sectorsPerCluster first 0 buf

/-- The chunk loop of `write_cluster`. -/
def writeChunks (rem sec off : ℕ) (buf : List UInt8) : Exec String Disk PUnit :=
  if rem = 0 then pure ⟨⟩
  else if off ≤ buf.length then do
    let cnt := min rem 8
    writeSectors sec cnt (buf.drop off)
    writeChunks (rem - cnt) (sec + cnt) (off + 512 * cnt) buf
  else Exec.panic
termination_by rem
decreasing_by omega

/-- `write_cluster`. -/
def writeCluster (cluster : ℕ) (buf : List UInt8) : Exec String Disk PUnit := do
  let first ← clusterToSector fs cluster
  writeChunks fs.bpb.sectorsPerCluster first 0 buf

/-- `next_cluster`. -/
def nextCluster (cluster : ℕ) : Exec String Disk ℕ := do
  let buf ← readSectors (fs.fatStart + 4 * cluster / 512) 1 (List.replicate 512 0)
  pure (field buf (4 * cluster % 512) 4 &&& 0x0FFFFFFF)

/-- `set_fat_entry` in one copy of the FAT. -/
def setFatEntryIn (cluster value f : ℕ) : Exec String Disk PUnit := do
  let sec := fs.fatStart + f * fs.bpb.fatSizeSectors + 4 * cluster / 512
  let pos := 4 * cluster % 512
  let buf ← readSectors sec 1 (List.replicate 512 0)
  let existing := field buf pos 4
  let new := (existing &&& 0xF0000000) ||| (value &&& 0x0FFFFFFF)
  writeSectors sec 1 (splice buf pos (toLe 4 new))

/-- `set_fat_entry`. -/
def setFatEntry (cluster value : ℕ) : Exec String Disk PUnit :=
  (List.range fs.bpb.numFats).forM (setFatEntryIn fs cluster value)

/-- The search of `alloc_cluster` in one sector of the FAT. `si * entries_per_sector` is cut to 32
bits. -/
def scanSector (buf : List UInt8) (si : ℕ) : Option ℕ :=
  (List.range 128).findSome? fun i =>
    let cluster := 128 * si % 2 ^ 32 + i
    if cluster < 2 then none
    else if field buf (4 * i) 4 &&& 0x0FFFFFFF = 0 then some cluster
    else none

/-- The search of `alloc_cluster` in the `n` sectors from `si` on. -/
def scanFat : (n si : ℕ) → Exec String Disk (Option ℕ)
  | 0, _ => pure none
  | n + 1, si => do
    let buf ← readSectors (fs.fatStart + si) 1 (List.replicate 512 0)
    match scanSector buf si with
    | some c => pure (some c)
    | none => scanFat n (si + 1)

/-- `alloc_cluster`. -/
def allocCluster (prev : Option ℕ) : Exec String Disk ℕ := do
  match ← scanFat fs fs.bpb.fatSizeSectors 0 with
  | none => Exec.fail "FAT32: disk full"
  | some c =>
    setFatEntry fs c 0x0FFFFFFF
    match prev with
    | some p => setFatEntry fs p c
    | none => pure ⟨⟩
    writeCluster fs c (List.replicate fs.clusterSizeBytes 0)
    pure c

/-- A cluster is not empty. -/
theorem Fat32Fs.clusterSizeBytes_pos : 0 < fs.clusterSizeBytes :=
  Nat.mul_pos (by decide) (Nat.pos_of_isPowerOfTwo fs.bpb.sectorsPerCluster_pow)

/-- An offset in a cluster lies in it. -/
theorem Fat32Fs.mod_clusterSizeBytes_lt (offset : ℕ) :
    offset % fs.clusterSizeBytes < fs.clusterSizeBytes :=
  Nat.mod_lt offset fs.clusterSizeBytes_pos

/-- The loop of `read_chain_into`: `left` is `max - out.len()`. -/
def readChainFrom (cluster left : ℕ) (out : List UInt8) : Exec String Disk (List UInt8) :=
  if 2 ≤ cluster ∧ cluster < 0x0FFFFFF8 ∧ 0 < left then do
    let take := min fs.clusterSizeBytes left
    let part ← readCluster fs cluster (List.replicate fs.clusterSizeBytes 0)
    let next ← nextCluster fs cluster
    readChainFrom next (left - take) (out ++ part.take take)
  else pure out
termination_by left
decreasing_by
  have := fs.clusterSizeBytes_pos
  omega

/-- `read_chain_into`, on a vector that is empty. -/
def readChainInto (first max : ℕ) : Exec String Disk (List UInt8) :=
  if first < 2 then pure [] else readChainFrom fs first max []

end

/-! ## Directory entries and names -/

/-- A 32-byte record of a directory with its place: the cluster and the offset in it. -/
structure DirEntry where
  bytes : List UInt8
  cluster : ℕ
  off : ℕ
deriving DecidableEq, Repr

/-- The attribute byte of a record. -/
def attr (e : List UInt8) : UInt8 := e.getD 0x0B 0

/-- `to_ascii_lowercase` on a byte. -/
def toAsciiLowercase (b : UInt8) : UInt8 := if 0x41 ≤ b ∧ b ≤ 0x5A then b + 32 else b

/-- `to_ascii_uppercase` on a byte. -/
def toAsciiUppercase (b : UInt8) : UInt8 := if 0x61 ≤ b ∧ b ≤ 0x7A then b - 32 else b

/-- `b as char`. -/
def asChar (b : UInt8) : Char := Char.ofNat b.toNat

/-- A name field without the spaces at its end. -/
def trimSpaces (bs : List UInt8) : List UInt8 := bs.rdropWhile (· == 0x20)

/-- `decode_8_3`. -/
def decode83 (e : List UInt8) : String :=
  let base := trimSpaces (slice e 0 8)
  let ext := trimSpaces (slice e 8 3)
  String.ofList (base.map (asChar ∘ toAsciiLowercase) ++
    if ext = [] then [] else '.' :: ext.map (asChar ∘ toAsciiLowercase))

/-- `str::eq_ignore_ascii_case`. -/
def eqIgnoreAsciiCase (s t : String) : Bool :=
  s.toList.map Char.toLower == t.toList.map Char.toLower

/-- `name_matches`. -/
def nameMatches (e : List UInt8) (target : String) : Bool := eqIgnoreAsciiCase (decode83 e) target

/-- `first_cluster_of`. -/
def firstClusterOf (e : List UInt8) : ℕ := field e 0x14 2 <<< 16 ||| field e 0x1A 2

/-- `entry_size`. -/
def entrySize (e : List UInt8) : ℕ := field e 0x1C 4

/-- The bytes of a string in UTF-8. -/
def utf8 (cs : List Char) : List UInt8 := cs.flatMap String.utf8EncodeChar

/-- A name at its last dot: the part before it and the part after it. -/
def splitAtDot (cs : List Char) : List Char × List Char :=
  if '.' ∈ cs then
    ((cs.rdropWhile (· != '.')).dropLast, cs.rtakeWhile (· != '.'))
  else (cs, [])

/-- A name field of `n` bytes: the letters in upper case, padded with spaces. -/
def nameField (n : ℕ) (bs : List UInt8) : List UInt8 :=
  bs.map toAsciiUppercase ++ List.replicate (n - bs.length) 0x20

/-- `to_8_3`. -/
def to83 (name : String) : Option (List UInt8) :=
  let base := utf8 (splitAtDot name.toList).1
  let ext := utf8 (splitAtDot name.toList).2
  if base = [] ∨ base.length > 8 ∨ ext.length > 3 then none
  else some (nameField 8 base ++ nameField 3 ext)

/-! ## Nodes -/

/-- `Fat32Node`. `parentCluster` and `dirEntryOffset` say where its record is, `0` for the root. -/
structure Fat32Node where
  firstCluster : ℕ
  size : ℕ
  isDir : Bool
  parentCluster : ℕ
  dirEntryOffset : ℕ
deriving DecidableEq, Repr

/-- `Fat32Node::dir`. -/
def Fat32Node.dir (first parent off : ℕ) : Fat32Node := ⟨first, 0, true, parent, off⟩

/-- `Fat32Node::file`. -/
def Fat32Node.file (first size parent off : ℕ) : Fat32Node := ⟨first, size, false, parent, off⟩

/-- `Fat32Fs::root`. -/
def Fat32Fs.root (fs : Fat32Fs) : Fat32Node := .dir fs.bpb.rootCluster 0 0

/-- How the walk over the slots of a cluster ends: at the end of the cluster, at the end of the
directory, or with what was looked for. -/
inductive Flow (T : Type) where
  | more
  | stop
  | found (v : T)

section
variable (fs : Fat32Fs) {S T : Type}

/-- The slot loop of `walk_dir`, over the `n` slots from offset `i` on. The callback `f` may change
the state `S` of its closure. -/
def walkSlots (f : DirEntry → S → Option T × S) (buf : List UInt8) (cluster : ℕ) :
    (n i : ℕ) → S → Flow T × S
  | 0, _, s => (.more, s)
  | n + 1, i, s =>
    let entry := slice buf i 32
    let b0 := entry.getD 0 0
    if b0 = 0x00 then (.stop, s)
    else if b0 = 0xE5 then walkSlots f buf cluster n (i + 32) s
    else if attr entry = 0x0F ∨ attr entry &&& 0x08 ≠ 0 then walkSlots f buf cluster n (i + 32) s
    else
      match f ⟨entry, cluster, i⟩ s with
      | (some v, s) => (.found v, s)
      | (none, s) => walkSlots f buf cluster n (i + 32) s

/-- The slots of a cluster: `while i + 32 <= cb` takes this many turns. -/
def Fat32Fs.slots : ℕ := fs.clusterSizeBytes / 32

/-- The cluster loop of `walk_dir`. -/
def walkDirFrom (f : DirEntry → S → Option T × S) :
    (fuel cluster : ℕ) → S → Exec String Disk (Option T × S)
  | fuel, cluster, s =>
    if 2 ≤ cluster ∧ cluster < 0x0FFFFFF8 then
      match fuel with
      | 0 => throw .fuel
      | fuel + 1 => do
        let buf ← readCluster fs cluster (List.replicate fs.clusterSizeBytes 0)
        match walkSlots f buf cluster fs.slots 0 s with
        | (.stop, s) => pure (none, s)
        | (.found v, s) => pure (some v, s)
        | (.more, s) => do
          let next ← nextCluster fs cluster
          walkDirFrom f fuel next s
    else pure (none, s)

/-- `walk_dir`. -/
def walkDir (fuel : ℕ) (node : Fat32Node) (f : DirEntry → S → Option T × S) (s : S) :
    Exec String Disk (Option T × S) := walkDirFrom fs f fuel node.firstCluster s

/-- The slot loop of `find_free_slot`. -/
def freeSlotIn (buf : List UInt8) : Option ℕ :=
  ((List.range fs.slots).find? fun i => buf.getD (32 * i) 0 = 0x00 ∨ buf.getD (32 * i) 0 = 0xE5).map
    (32 * ·)

/-- The cluster loop of `find_free_slot`. -/
def findFreeSlotFrom : (fuel cluster last : ℕ) → Exec String Disk (ℕ × ℕ)
  | fuel, cluster, last =>
    if 2 ≤ cluster ∧ cluster < 0x0FFFFFF8 then
      match fuel with
      | 0 => throw .fuel
      | fuel + 1 => do
        let buf ← readCluster fs cluster (List.replicate fs.clusterSizeBytes 0)
        match freeSlotIn fs buf with
        | some i => pure (cluster, i)
        | none => do
          let next ← nextCluster fs cluster
          findFreeSlotFrom fuel next cluster
    else do
      let new ← allocCluster fs (some last)
      pure (new, 0)

/-- `find_free_slot`. -/
def findFreeSlot (fuel : ℕ) (node : Fat32Node) : Exec String Disk (ℕ × ℕ) :=
  findFreeSlotFrom fs fuel node.firstCluster node.firstCluster

/-- Reads the cluster `cluster`, changes its bytes and writes it back. -/
def modifyCluster (cluster : ℕ) (g : List UInt8 → List UInt8) : Exec String Disk PUnit := do
  let buf ← readCluster fs cluster (List.replicate fs.clusterSizeBytes 0)
  writeCluster fs cluster (g buf)

/-- `update_size_on_disk`. -/
def updateSizeOnDisk (node : Fat32Node) (newSize : ℕ) : Exec String Disk PUnit :=
  if node.parentCluster = 0 then pure ⟨⟩
  else modifyCluster fs node.parentCluster fun buf =>
    splice buf (node.dirEntryOffset + 0x1C) (toLe 4 newSize)

/-! ## The operations of a node -/

/-- `Fat32Node::read`: the number of bytes, and the buffer. -/
def Fat32Node.read (node : Fat32Node) (offset : ℕ) (buffer : List UInt8) :
    Exec Unit Disk (ℕ × List UInt8) := do
  if node.isDir then Exec.fail ()
  else if node.size ≤ offset then pure (0, buffer)
  else
    let want := min buffer.length (node.size - offset)
    let chain ← Exec.mapErr (fun _ => ()) (readChainInto fs node.firstCluster (offset + want))
    let stop := min chain.length (offset + want)
    if stop ≤ offset then pure (0, buffer)
    else pure (stop - offset, splice buffer 0 (slice chain offset (stop - offset)))

/-- A node and the drive. -/
structure Handle where
  node : Fat32Node
  disk : Disk

/-- A run of the driver on the drive of a handle; its error becomes `()`. -/
def onDisk {α : Type} (x : Exec String Disk α) : Exec Unit Handle α :=
  Exec.mapErr (fun _ => ()) (Exec.zoom Handle.disk (fun d h => { h with disk := d }) x)

/-- The first part of `write`: make sure that there is a first cluster, and put it into the
record. -/
def ensureFirstCluster : Exec Unit Handle PUnit := do
  let node := (← get).node
  if node.firstCluster < 2 then
    let c ← onDisk (allocCluster fs none)
    modify fun h => { h with node := { h.node with firstCluster := c } }
    if node.parentCluster ≠ 0 then
      onDisk (modifyCluster fs node.parentCluster fun buf =>
        let o := node.dirEntryOffset
        splice (splice buf (o + 0x14) (toLe 2 (c >>> 16))) (o + 0x1A) (toLe 2 c))

/-- The step that `write` takes from a cluster to the next one, which it allocates at the end of the
chain. -/
def nextOrAlloc (cluster : ℕ) : Exec String Disk ℕ := do
  let next ← nextCluster fs cluster
  if 0x0FFFFFF8 ≤ next then allocCluster fs (some cluster) else pure next

/-- The loop of `write` to the cluster of the offset. -/
def seekCluster : (n cluster : ℕ) → Exec String Disk ℕ
  | 0, cluster => pure cluster
  | n + 1, cluster => do
    let next ← nextOrAlloc fs cluster
    seekCluster n next

/-- The loop of `write` over the data. `bufOff` is below the cluster size. -/
def writeData (data : List UInt8) (cluster bufOff written : ℕ)
    (_hoff : bufOff < fs.clusterSizeBytes) : Exec String Disk ℕ :=
  if written < data.length then do
    let take := min (data.length - written) (fs.clusterSizeBytes - bufOff)
    modifyCluster fs cluster fun buf => splice buf bufOff (slice data written take)
    if written + take < data.length then
      let next ← nextOrAlloc fs cluster
      writeData data next 0 (written + take) fs.clusterSizeBytes_pos
    else pure (written + take)
  else pure written
termination_by data.length - written
decreasing_by omega

/-- `Fat32Node::write`. The sum of the offset and the length of the data panics when it leaves 64
bits; the size is cut to 32 bits. -/
def write (offset : ℕ) (data : List UInt8) : Exec Unit Handle ℕ := do
  let node := (← get).node
  if node.isDir ∨ data = [] then Exec.fail ()
  else if 2 ^ 64 ≤ offset + data.length then Exec.panic
  else
    let cb := fs.clusterSizeBytes
    let oldSize := node.size
    let newSize := max (offset + data.length) oldSize
    ensureFirstCluster fs
    let first := (← get).node.firstCluster
    let cluster ← onDisk (seekCluster fs (offset / cb) first)
    let written ← onDisk (writeData fs data cluster (offset % cb) 0
      (fs.mod_clusterSizeBytes_lt offset))
    if oldSize < newSize then
      modify fun h => { h with node := { h.node with size := newSize % 2 ^ 32 } }
      onDisk (updateSizeOnDisk fs node (newSize % 2 ^ 32))
    pure written

/-- The record `create` writes. -/
def newRecord (name83 : List UInt8) : List UInt8 := name83 ++ [0x20] ++ List.replicate 20 0

/-- What `create` makes of the cluster of the slot. -/
def putRecord (name83 : List UInt8) (off : ℕ) (buf : List UInt8) : List UInt8 :=
  let buf := splice buf off (newRecord name83)
  if off + 64 ≤ fs.clusterSizeBytes then splice buf (off + 32) [0x00] else buf

/-- `Fat32Node::create`. -/
def Fat32Node.create (fuel : ℕ) (node : Fat32Node) (name : String) : Exec Unit Disk Fat32Node := do
  if !node.isDir then Exec.fail ()
  else
    match to83 name with
    | none => Exec.fail ()
    | some name83 =>
      let dup ← Exec.mapErr (fun _ => ()) (walkDir fs fuel node
        (fun e (s : Unit) => (if nameMatches e.bytes name then some () else none, s)) ())
      if dup.1.isSome then Exec.fail ()
      else
        let (cluster, off) ← Exec.mapErr (fun _ => ()) (findFreeSlot fs fuel node)
        Exec.mapErr (fun _ => ()) (modifyCluster fs cluster (putRecord fs name83 off))
        pure (.file 0 0 cluster off)

/-- `Fat32Node::readdir`. -/
def Fat32Node.readdir (fuel : ℕ) (node : Fat32Node) : Exec Unit Disk (List String) := do
  if !node.isDir then Exec.fail ()
  else
    let r ← Exec.mapErr (fun _ => ()) (walkDir fs fuel node
      (fun e names => ((none : Option Unit), names ++ [decode83 e.bytes])) [])
    pure r.2

/-- The node for a record. -/
def nodeOf (e : DirEntry) : Fat32Node :=
  if attr e.bytes &&& 0x10 ≠ 0 then .dir (firstClusterOf e.bytes) e.cluster e.off
  else .file (firstClusterOf e.bytes) (entrySize e.bytes) e.cluster e.off

/-- `Fat32Node::finddir`. -/
def Fat32Node.finddir (fuel : ℕ) (node : Fat32Node) (name : String) : Exec Unit Disk Fat32Node := do
  if !node.isDir then Exec.fail ()
  else
    let found ← Exec.mapErr (fun _ => ()) (walkDir fs fuel node
      (fun e (s : Unit) => (if nameMatches e.bytes name then some (nodeOf e) else none, s)) ())
    match found.1 with
    | some n => pure n
    | none => Exec.fail ()

end

end Fat

end RossOs
