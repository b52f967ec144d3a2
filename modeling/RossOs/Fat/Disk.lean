import RossOs.Lib.Bytes
import RossOs.Lib.Exec

/-!
# The drive

The sector interface of `ross-kernel/src/ahci.rs`. A request travels to the drive as a command FIS,
from which the drive takes the sector number and the count back; it succeeds when all its sectors
are on the drive. Timeouts and drive faults are left out: the drive here is free of faults.
-/

namespace RossOs

open ByteMem

/-- A drive: its number of sectors, at most what 48 bits address, and its bytes. -/
structure Disk where
  capacity : ℕ
  capacity_le : capacity ≤ 2 ^ 48
  bytes : Mem

/-- The drive that nothing is on. -/
def emptyDisk : Disk := ⟨0, by decide, fun _ => 0⟩

/-- The drive with other bytes. -/
def Disk.setBytes (d : Disk) (m : Mem) : Disk := { d with bytes := m }

/-- New bytes leave the size. -/
@[simp] theorem Disk.setBytes_capacity (d : Disk) (m : Mem) :
    (d.setBytes m).capacity = d.capacity := rfl

/-- The bytes are the new ones. -/
@[simp] theorem Disk.setBytes_bytes (d : Disk) (m : Mem) : (d.setBytes m).bytes = m := rfl

/-- The last bytes count. -/
@[simp] theorem Disk.setBytes_setBytes (d : Disk) (m m' : Mem) :
    (d.setBytes m).setBytes m' = d.setBytes m' := rfl

namespace Ahci

/-- `((v >> k) & 0xFF) as u8`. -/
def byteOf (v k : ℕ) : UInt8 := UInt8.ofNat (v >>> k &&& 0xFF)

/-- `ATA_CMD_READ_DMA_EXT`. -/
def ataCmdReadDmaExt : UInt8 := 0x25
/-- `ATA_CMD_WRITE_DMA_EXT`. -/
def ataCmdWriteDmaExt : UInt8 := 0x35

/-- The command FIS, `ct.cfis`. -/
def commandFis (command : UInt8) (lba count : ℕ) : List UInt8 :=
  [0x27, 0x80, command, 0,
    byteOf lba 0, byteOf lba 8, byteOf lba 16, 0x40,
    byteOf lba 24, byteOf lba 32, byteOf lba 40, 0,
    byteOf count 0, byteOf count 8] ++ List.replicate 50 0

/-- The sector number as the drive reads it from the FIS. -/
def fisLba (fis : List UInt8) : ℕ := leNat (slice fis 4 3 ++ slice fis 8 3)

/-- The sector count as the drive reads it from the FIS. -/
def fisCount (fis : List UInt8) : ℕ := field fis 12 2

/-- `read_sectors`: the buffer with the sectors at its start. -/
def readSectors (lba count : ℕ) (buf : List UInt8) : Exec String Disk (List UInt8) := do
  if count = 0 then pure buf
  else if count > 8 then Exec.fail "AHCI: max 8 sectors per call"
  else if buf.length < 512 * count then Exec.fail "AHCI: buf too small"
  else
    let fis := commandFis ataCmdReadDmaExt lba count
    let d ← get
    if fisLba fis + fisCount fis ≤ d.capacity then
      pure (splice buf 0 (read d.bytes (512 * fisLba fis) (512 * count)))
    else Exec.fail "AHCI task file error"

/-- `write_sectors`. -/
def writeSectors (lba count : ℕ) (buf : List UInt8) : Exec String Disk PUnit := do
  if count = 0 then pure ⟨⟩
  else if count > 8 then Exec.fail "AHCI: max 8 sectors per call"
  else if buf.length < 512 * count then Exec.fail "AHCI: buf too small"
  else
    let fis := commandFis ataCmdWriteDmaExt lba count
    let d ← get
    if fisLba fis + fisCount fis ≤ d.capacity then
      set (d.setBytes (write d.bytes (512 * fisLba fis) (slice buf 0 (512 * count))))
    else Exec.fail "AHCI task file error"

/-! ## What a request does -/

/-- A byte of the command FIS is eight bits of its number. -/
theorem toNat_byteOf (v k : ℕ) : (byteOf v k).toNat = v / 2 ^ k % 256 := by
  have h : v >>> k &&& 0xFF = v >>> k % 2 ^ 8 := Nat.and_two_pow_sub_one_eq_mod _ 8
  rw [byteOf, h, Nat.shiftRight_eq_div_pow]
  exact UInt8.toNat_ofNat_of_lt' (Nat.mod_lt _ (by decide))

/-- The sector number survives the trip, up to its 48 bits. -/
theorem fisLba_commandFis (command : UInt8) (lba count : ℕ) :
    fisLba (commandFis command lba count) = lba % 2 ^ 48 := by
  have hbytes : slice (commandFis command lba count) 4 3 ++
      slice (commandFis command lba count) 8 3 = [byteOf lba 0, byteOf lba 8, byteOf lba 16,
        byteOf lba 24, byteOf lba 32, byteOf lba 40] := rfl
  rw [fisLba, hbytes]
  simp only [leNat, toNat_byteOf]
  omega

/-- The FIS has 16 bits for the count. -/
theorem fisCount_commandFis (command : UInt8) (lba count : ℕ) :
    fisCount (commandFis command lba count) = count % 2 ^ 16 := by
  have hbytes : slice (commandFis command lba count) 12 2 = [byteOf count 0, byteOf count 8] := rfl
  rw [fisCount, field, hbytes]
  simp only [leNat, toNat_byteOf]
  omega

section
variable {lba count : ℕ} {buf : List UInt8} {d : Disk}

/-- Reading sectors that are on the drive. -/
theorem readSectors_run (h0 : 0 < count) (h8 : count ≤ 8) (hbuf : 512 * count ≤ buf.length)
    (hd : lba + count ≤ d.capacity) :
    readSectors lba count buf d =
      .ok (splice buf 0 (read d.bytes (512 * lba) (512 * count))) d := by
  have hcap := d.capacity_le
  have hlba : fisLba (commandFis ataCmdReadDmaExt lba count) = lba := by
    rw [fisLba_commandFis, Nat.mod_eq_of_lt (by omega)]
  have hcount : fisCount (commandFis ataCmdReadDmaExt lba count) = count := by
    rw [fisCount_commandFis, Nat.mod_eq_of_lt (by omega)]
  rw [readSectors, if_neg (by omega), if_neg (by omega), if_neg (by omega),
    Exec.bind_of_ok (Exec.get_apply d), hlba, hcount, if_pos hd]
  rfl

/-- Writing sectors that are on the drive. -/
theorem writeSectors_run (h0 : 0 < count) (h8 : count ≤ 8) (hbuf : 512 * count ≤ buf.length)
    (hd : lba + count ≤ d.capacity) :
    writeSectors lba count buf d =
      .ok ⟨⟩ (d.setBytes (write d.bytes (512 * lba) (slice buf 0 (512 * count)))) := by
  have hcap := d.capacity_le
  have hlba : fisLba (commandFis ataCmdWriteDmaExt lba count) = lba := by
    rw [fisLba_commandFis, Nat.mod_eq_of_lt (by omega)]
  have hcount : fisCount (commandFis ataCmdWriteDmaExt lba count) = count := by
    rw [fisCount_commandFis, Nat.mod_eq_of_lt (by omega)]
  rw [writeSectors, if_neg (by omega), if_neg (by omega), if_neg (by omega),
    Exec.bind_of_ok (Exec.get_apply d), hlba, hcount, if_pos hd]
  rfl

/-- Reading sectors that are not all on the drive. -/
theorem readSectors_beyond (h0 : 0 < count) (h8 : count ≤ 8) (hbuf : 512 * count ≤ buf.length)
    (hlba : lba < 2 ^ 48) (hd : d.capacity < lba + count) :
    readSectors lba count buf d = .error (.err "AHCI task file error") d := by
  have hfis : fisLba (commandFis ataCmdReadDmaExt lba count) = lba := by
    rw [fisLba_commandFis, Nat.mod_eq_of_lt hlba]
  have hcount : fisCount (commandFis ataCmdReadDmaExt lba count) = count := by
    rw [fisCount_commandFis, Nat.mod_eq_of_lt (by omega)]
  rw [readSectors, if_neg (by omega), if_neg (by omega), if_neg (by omega),
    Exec.bind_of_ok (Exec.get_apply d), hfis, hcount, if_neg (by omega)]
  rfl

/-- Writing sectors that are not all on the drive. -/
theorem writeSectors_beyond (h0 : 0 < count) (h8 : count ≤ 8) (hbuf : 512 * count ≤ buf.length)
    (hlba : lba < 2 ^ 48) (hd : d.capacity < lba + count) :
    writeSectors lba count buf d = .error (.err "AHCI task file error") d := by
  have hfis : fisLba (commandFis ataCmdWriteDmaExt lba count) = lba := by
    rw [fisLba_commandFis, Nat.mod_eq_of_lt hlba]
  have hcount : fisCount (commandFis ataCmdWriteDmaExt lba count) = count := by
    rw [fisCount_commandFis, Nat.mod_eq_of_lt (by omega)]
  rw [writeSectors, if_neg (by omega), if_neg (by omega), if_neg (by omega),
    Exec.bind_of_ok (Exec.get_apply d), hfis, hcount, if_neg (by omega)]
  rfl

end

end Ahci

end RossOs
