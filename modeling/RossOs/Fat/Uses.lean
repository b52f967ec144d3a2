import RossOs.Fat.Alloc
import RossOs.Fat.Handles

/-!
# The clusters the driver uses

The driver again, with a log of the clusters it uses: the arguments of `cluster_to_sector`, which
`read_cluster` and `write_cluster` call once each, and the entries that `set_fat_entry` changes.
Each function is the one of the driver with notes, and agrees with it when the log is left out.
-/

namespace RossOs

open ByteMem Ahci Exec

namespace Fat

/-- A use of a cluster number. -/
inductive Use where
  /-- `cluster_to_sector` is called with it. -/
  | sector (c : ℕ)
  /-- `set_fat_entry` is called on it. -/
  | entry (c : ℕ)
deriving DecidableEq, Repr

/-- The cluster number. -/
def Use.cluster : Use → ℕ
  | .sector c => c
  | .entry c => c

namespace Uses

section
variable (fs : Fat32Fs)

/-- `read_cluster`. -/
def readCluster (c : ℕ) (buf : List UInt8) : Exec String (Disk × List Use) (List UInt8) := do
  note (.sector c)
  quiet (Fat.readCluster fs c buf)

/-- `write_cluster`. -/
def writeCluster (c : ℕ) (buf : List UInt8) : Exec String (Disk × List Use) PUnit := do
  note (.sector c)
  quiet (Fat.writeCluster fs c buf)

/-- `set_fat_entry`. -/
def setFatEntry (c value : ℕ) : Exec String (Disk × List Use) PUnit := do
  note (.entry c)
  quiet (Fat.setFatEntry fs c value)

/-- `alloc_cluster`. -/
def allocCluster : Option ℕ → Exec String (Disk × List Use) ℕ :=
  allocLogged fs (quiet (scanFat fs fs.bpb.fatSizeSectors 0)) (setFatEntry fs) (writeCluster fs)

/-- The loop of `read_chain_into`. -/
def readChainFrom (c left : ℕ) (out : List UInt8) :
    Exec String (Disk × List Use) (List UInt8) :=
  if 2 ≤ c ∧ c < 0x0FFFFFF8 ∧ 0 < left then do
    let take := min fs.clusterSizeBytes left
    let part ← readCluster fs c (List.replicate fs.clusterSizeBytes 0)
    let next ← quiet (nextCluster fs c)
    readChainFrom next (left - take) (out ++ part.take take)
  else pure out
termination_by left
decreasing_by
  have := fs.clusterSizeBytes_pos
  omega

/-- `read_chain_into`. -/
def readChainInto (first max : ℕ) : Exec String (Disk × List Use) (List UInt8) :=
  if first < 2 then pure [] else readChainFrom fs first max []

section
variable {S T : Type}

/-- The cluster loop of `walk_dir`. -/
def walkDirFrom (f : DirEntry → S → Option T × S) :
    (fuel c : ℕ) → S → Exec String (Disk × List Use) (Option T × S)
  | fuel, c, s =>
    if 2 ≤ c ∧ c < 0x0FFFFFF8 then
      match fuel with
      | 0 => throw .fuel
      | fuel + 1 => do
        let buf ← readCluster fs c (List.replicate fs.clusterSizeBytes 0)
        match walkSlots f buf c fs.slots 0 s with
        | (.stop, s) => pure (none, s)
        | (.found v, s) => pure (some v, s)
        | (.more, s) => do
          let next ← quiet (nextCluster fs c)
          walkDirFrom f fuel next s
    else pure (none, s)

/-- `walk_dir`. -/
def walkDir (fuel : ℕ) (node : Fat32Node) (f : DirEntry → S → Option T × S) (s : S) :
    Exec String (Disk × List Use) (Option T × S) := walkDirFrom fs f fuel node.firstCluster s

end

/-- The cluster loop of `find_free_slot`. -/
def findFreeSlotFrom : (fuel c last : ℕ) → Exec String (Disk × List Use) (ℕ × ℕ)
  | fuel, c, last =>
    if 2 ≤ c ∧ c < 0x0FFFFFF8 then
      match fuel with
      | 0 => throw .fuel
      | fuel + 1 => do
        let buf ← readCluster fs c (List.replicate fs.clusterSizeBytes 0)
        match freeSlotIn fs buf with
        | some i => pure (c, i)
        | none => do
          let next ← quiet (nextCluster fs c)
          findFreeSlotFrom fuel next c
    else do
      let new ← allocCluster fs (some last)
      pure (new, 0)

/-- `find_free_slot`. -/
def findFreeSlot (fuel : ℕ) (node : Fat32Node) : Exec String (Disk × List Use) (ℕ × ℕ) :=
  findFreeSlotFrom fs fuel node.firstCluster node.firstCluster

/-- Reads the cluster `c`, changes its bytes and writes it back. -/
def modifyCluster (c : ℕ) (g : List UInt8 → List UInt8) : Exec String (Disk × List Use) PUnit := do
  let buf ← readCluster fs c (List.replicate fs.clusterSizeBytes 0)
  writeCluster fs c (g buf)

/-- `update_size_on_disk`. -/
def updateSizeOnDisk (node : Fat32Node) (newSize : ℕ) : Exec String (Disk × List Use) PUnit :=
  if node.parentCluster = 0 then pure ⟨⟩
  else modifyCluster fs node.parentCluster fun buf =>
    splice buf (node.dirEntryOffset + 0x1C) (toLe 4 newSize)

/-- `Fat32Node::read`. -/
def read (node : Fat32Node) (offset : ℕ) (buffer : List UInt8) :
    Exec Unit (Disk × List Use) (ℕ × List UInt8) := do
  if node.isDir then Exec.fail ()
  else if node.size ≤ offset then pure (0, buffer)
  else
    let want := min buffer.length (node.size - offset)
    let chain ← Exec.mapErr (fun _ => ()) (readChainInto fs node.firstCluster (offset + want))
    let stop := min chain.length (offset + want)
    if stop ≤ offset then pure (0, buffer)
    else pure (stop - offset, splice buffer 0 (slice chain offset (stop - offset)))

/-- A run of the driver on the drive of a handle. -/
def onDisk {α : Type} (x : Exec String (Disk × List Use) α) : Exec Unit (Handle × List Use) α :=
  Exec.mapErr (fun _ => ()) (zoomLog Handle.disk (fun d h => { h with disk := d }) x)

/-- The first part of `write`. -/
def ensureFirstCluster : Exec Unit (Handle × List Use) PUnit := do
  let node := (← quiet get).node
  if node.firstCluster < 2 then
    let c ← onDisk (allocCluster fs none)
    quiet (modify fun h => { h with node := { h.node with firstCluster := c } })
    if node.parentCluster ≠ 0 then
      onDisk (modifyCluster fs node.parentCluster fun buf =>
        let o := node.dirEntryOffset
        splice (splice buf (o + 0x14) (toLe 2 (c >>> 16))) (o + 0x1A) (toLe 2 c))

/-- The step that `write` takes from a cluster to the next one. -/
def nextOrAlloc (c : ℕ) : Exec String (Disk × List Use) ℕ := do
  let next ← quiet (nextCluster fs c)
  if 0x0FFFFFF8 ≤ next then allocCluster fs (some c) else pure next

/-- The loop of `write` to the cluster of the offset. -/
def seekCluster : (n c : ℕ) → Exec String (Disk × List Use) ℕ
  | 0, c => pure c
  | n + 1, c => do
    let next ← nextOrAlloc fs c
    seekCluster n next

/-- The loop of `write` over the data. -/
def writeData (data : List UInt8) (c bufOff written : ℕ) (_hoff : bufOff < fs.clusterSizeBytes) :
    Exec String (Disk × List Use) ℕ :=
  if written < data.length then do
    let take := min (data.length - written) (fs.clusterSizeBytes - bufOff)
    modifyCluster fs c fun buf => splice buf bufOff (slice data written take)
    if written + take < data.length then
      let next ← nextOrAlloc fs c
      writeData data next 0 (written + take) fs.clusterSizeBytes_pos
    else pure (written + take)
  else pure written
termination_by data.length - written
decreasing_by omega

/-- `Fat32Node::write`. -/
def write (offset : ℕ) (data : List UInt8) : Exec Unit (Handle × List Use) ℕ := do
  let node := (← quiet get).node
  if node.isDir ∨ data = [] then Exec.fail ()
  else if 2 ^ 64 ≤ offset + data.length then Exec.panic
  else
    let cb := fs.clusterSizeBytes
    let oldSize := node.size
    let newSize := max (offset + data.length) oldSize
    ensureFirstCluster fs
    let first := (← quiet get).node.firstCluster
    let cluster ← onDisk (seekCluster fs (offset / cb) first)
    let written ← onDisk (writeData fs data cluster (offset % cb) 0
      (fs.mod_clusterSizeBytes_lt offset))
    if oldSize < newSize then
      quiet (modify fun h => { h with node := { h.node with size := newSize % 2 ^ 32 } })
      onDisk (updateSizeOnDisk fs node (newSize % 2 ^ 32))
    pure written

/-- `Fat32Node::create`. -/
def create (fuel : ℕ) (node : Fat32Node) (name : String) :
    Exec Unit (Disk × List Use) Fat32Node := do
  if !node.isDir then Exec.fail ()
  else
    match to83 name with
    | none => Exec.fail ()
    | some name83 =>
      let dup ← Exec.mapErr (fun _ => ()) (walkDir fs fuel node
        (fun e (s : Unit) => (if nameMatches e.bytes name then some () else none, s)) ())
      if dup.1.isSome then Exec.fail ()
      else
        let (cluster, off) ← Exec.mapErr (fun _ => ()) (findFreeSlot fs fuel node)
        Exec.mapErr (fun _ => ()) (modifyCluster fs cluster (putRecord fs name83 off))
        pure (.file 0 0 cluster off)

/-- `Fat32Node::readdir`. -/
def readdir (fuel : ℕ) (node : Fat32Node) : Exec Unit (Disk × List Use) (List String) := do
  if !node.isDir then Exec.fail ()
  else
    let r ← Exec.mapErr (fun _ => ()) (walkDir fs fuel node
      (fun e names => ((none : Option Unit), names ++ [decode83 e.bytes])) [])
    pure r.2

/-- `Fat32Node::finddir`. -/
def finddir (fuel : ℕ) (node : Fat32Node) (name : String) :
    Exec Unit (Disk × List Use) Fat32Node := do
  if !node.isDir then Exec.fail ()
  else
    let found ← Exec.mapErr (fun _ => ()) (walkDir fs fuel node
      (fun e (s : Unit) => (if nameMatches e.bytes name then some (nodeOf e) else none, s)) ())
    match found.1 with
    | some n => pure n
    | none => Exec.fail ()

end

/-! ## Without the log -/

section
variable (fs : Fat32Fs)

/-- The logged `read_cluster` is a copy of the driver's. -/
theorem logs_readCluster (c : ℕ) (buf : List UInt8) :
    Logs (readCluster fs c buf) (Fat.readCluster fs c buf) := .noted _ (.quiet _)

/-- The logged `write_cluster` is a copy of the driver's. -/
theorem logs_writeCluster (c : ℕ) (buf : List UInt8) :
    Logs (writeCluster fs c buf) (Fat.writeCluster fs c buf) := .noted _ (.quiet _)

/-- The logged `set_fat_entry` is a copy of the driver's. -/
theorem logs_setFatEntry (c value : ℕ) :
    Logs (setFatEntry fs c value) (Fat.setFatEntry fs c value) := .noted _ (.quiet _)

/-- The logged change of a cluster is a copy of the driver's. -/
theorem logs_modifyCluster (c : ℕ) (g : List UInt8 → List UInt8) :
    Logs (modifyCluster fs c g) (Fat.modifyCluster fs c g) :=
  .bind (logs_readCluster fs c _) fun _ => logs_writeCluster fs c _

/-- The logged `alloc_cluster` is a copy of the driver's. -/
theorem logs_allocCluster (prev : Option ℕ) :
    Logs (allocCluster fs prev) (Fat.allocCluster fs prev) :=
  logs_allocLogged fs (.quiet _) (logs_setFatEntry fs) (logs_writeCluster fs) prev

/-- The logged read loop is a copy of the driver's. -/
theorem logs_readChainFrom (c left : ℕ) (out : List UInt8) :
    Logs (readChainFrom fs c left out) (Fat.readChainFrom fs c left out) := by
  induction left using Nat.strong_induction_on generalizing c out with
  | _ left ih =>
    rw [readChainFrom, Fat.readChainFrom]
    by_cases h : 2 ≤ c ∧ c < 0x0FFFFFF8 ∧ 0 < left
    · have hpos := fs.clusterSizeBytes_pos
      rw [if_pos h, if_pos h]
      refine .bind (logs_readCluster fs c _) fun part => .bind (.quiet _) fun next => ?_
      exact ih _ (by omega) _ _
    · rw [if_neg h, if_neg h]
      exact .pure out

/-- The logged walk of a directory is a copy of the driver's. -/
theorem logs_walkDirFrom {S T : Type} (f : DirEntry → S → Option T × S) (fuel c : ℕ) (s : S) :
    Logs (walkDirFrom fs f fuel c s) (Fat.walkDirFrom fs f fuel c s) := by
  induction fuel generalizing c s with
  | zero =>
    rw [walkDirFrom, Fat.walkDirFrom]
    exact .ite (.throw _) (.pure _)
  | succ fuel ih =>
    rw [walkDirFrom, Fat.walkDirFrom]
    refine .ite (.bind (logs_readCluster fs c _) fun buf => ?_) (.pure _)
    rcases walkSlots f buf c fs.slots 0 s with ⟨_ | _ | v, s'⟩
    · exact .bind (.quiet _) fun next => ih next s'
    · exact .pure _
    · exact .pure _

/-- The logged search for a slot is a copy of the driver's. -/
theorem logs_findFreeSlotFrom (fuel c last : ℕ) :
    Logs (findFreeSlotFrom fs fuel c last) (Fat.findFreeSlotFrom fs fuel c last) := by
  induction fuel generalizing c last with
  | zero =>
    rw [findFreeSlotFrom, Fat.findFreeSlotFrom]
    exact .ite (.throw _) (.bind (logs_allocCluster fs _) fun _ => .pure _)
  | succ fuel ih =>
    rw [findFreeSlotFrom, Fat.findFreeSlotFrom]
    refine .ite (.bind (logs_readCluster fs c _) fun buf => ?_)
      (.bind (logs_allocCluster fs _) fun _ => .pure _)
    cases freeSlotIn fs buf with
    | some i => exact .pure (c, i)
    | none => exact .bind (.quiet _) fun next => ih next c

/-- The logged step of the seek is a copy of the driver's. -/
theorem logs_nextOrAlloc (c : ℕ) : Logs (nextOrAlloc fs c) (Fat.nextOrAlloc fs c) :=
  .bind (.quiet _) fun _ => .ite (logs_allocCluster fs _) (.pure _)

/-- The logged seek is a copy of the driver's. -/
theorem logs_seekCluster (n c : ℕ) : Logs (seekCluster fs n c) (Fat.seekCluster fs n c) := by
  induction n generalizing c with
  | zero => exact .pure c
  | succ n ih => exact .bind (logs_nextOrAlloc fs c) fun next => ih next

/-- The logged copy loop is a copy of the driver's. -/
theorem logs_writeData (data : List UInt8) (c off written : ℕ) (hoff : off < fs.clusterSizeBytes) :
    Logs (writeData fs data c off written hoff) (Fat.writeData fs data c off written hoff) := by
  induction h : data.length - written using Nat.strong_induction_on generalizing c off written with
  | _ n ih =>
    rw [writeData, Fat.writeData]
    by_cases hw : written < data.length
    · rw [if_pos hw, if_pos hw]
      refine .bind (logs_modifyCluster fs c _) fun _ => .ite ?_ (.pure _)
      exact .bind (logs_nextOrAlloc fs c) fun next => ih _ (by omega) next 0 _ _ rfl
    · rw [if_neg hw, if_neg hw]
      exact .pure written

/-- A logged call on the drive is a copy of the call. -/
theorem logs_onDisk {α : Type} {y : Exec String (Disk × List Use) α} {x : Exec String Disk α}
    (h : Logs y x) : Logs (onDisk y) (Fat.onDisk x) := .mapErr _ h.zoom

/-- The logged first cluster of an empty file is a copy of the driver's. -/
theorem logs_ensureFirstCluster : Logs (ensureFirstCluster fs) (Fat.ensureFirstCluster fs) := by
  refine .bind (.quiet get) fun h => .ite ?_ (.pure _)
  refine .bind (logs_onDisk (logs_allocCluster fs none)) fun c => .bind (.quiet _) fun _ => ?_
  exact .ite (logs_onDisk (logs_modifyCluster fs _ _)) (.pure _)

/-- `write` with the log is `write`. -/
theorem logs_write (offset : ℕ) (data : List UInt8) :
    Logs (write fs offset data) (Fat.write fs offset data) := by
  refine .bind (.quiet get) fun h => .ite (.throw _) (.ite (.throw _) ?_)
  refine .bind (logs_ensureFirstCluster fs) fun _ => .bind (.quiet get) fun h' => ?_
  refine .bind (logs_onDisk (logs_seekCluster fs _ _)) fun c => ?_
  refine .bind (logs_onDisk (logs_writeData fs _ _ _ _ _)) fun n => .ite ?_ (.pure _)
  refine .bind (.quiet _) fun _ => .bind (logs_onDisk ?_) fun _ => .pure _
  exact .ite (.pure _) (logs_modifyCluster fs _ _)

/-- `read` with the log is `read`. -/
theorem logs_read (node : Fat32Node) (offset : ℕ) (buffer : List UInt8) :
    Logs (read fs node offset buffer) (node.read fs offset buffer) := by
  refine .ite (.throw _) (.ite (.pure _) ?_)
  refine .bind (.mapErr _ ?_) fun chain => .ite (.pure _) (.pure _)
  exact .ite (.pure _) (logs_readChainFrom fs _ _ _)

/-- `create` with the log is `create`. -/
theorem logs_create (fuel : ℕ) (node : Fat32Node) (name : String) :
    Logs (create fs fuel node name) (node.create fs fuel name) := by
  refine .ite (.throw _) ?_
  cases to83 name with
  | none => exact .throw _
  | some raw =>
    refine .bind (.mapErr _ (logs_walkDirFrom fs _ _ _ _)) fun dup => .ite (.throw _) ?_
    refine .bind (.mapErr _ (logs_findFreeSlotFrom fs _ _ _)) fun slot => ?_
    exact .bind (.mapErr _ (logs_modifyCluster fs _ _)) fun _ => .pure _

/-- `readdir` with the log is `readdir`. -/
theorem logs_readdir (fuel : ℕ) (node : Fat32Node) :
    Logs (readdir fs fuel node) (node.readdir fs fuel) :=
  .ite (.throw _) (.bind (.mapErr _ (logs_walkDirFrom fs _ _ _ _)) fun _ => .pure _)

/-- `finddir` with the log is `finddir`. -/
theorem logs_finddir (fuel : ℕ) (node : Fat32Node) (name : String) :
    Logs (finddir fs fuel node name) (node.finddir fs fuel name) := by
  refine .ite (.throw _) (.bind (.mapErr _ (logs_walkDirFrom fs _ _ _ _)) fun found => ?_)
  cases found.1 with
  | some n => exact .pure n
  | none => exact .throw _

end

end Uses

end Fat

end RossOs
