import RossOs.Fat.Disk
import RossOs.Paging.Model
import RossOs.Pci

/-!
# The AHCI driver

`ross-kernel/src/ahci.rs` at the level of registers and memory. The driver lays out a command in the
memory it shares with the controller, rings the controller through its registers and polls them; the
controller fetches the command and moves the data by itself. `Hba` is the controller as the
processor sees it: each access to a register may move it along, and then it may access memory.
`init` finds the controller and a drive, `readSectors` and `writeSectors` are the requests.
-/

namespace RossOs

open ByteMem

namespace Ahci

/-! ## Registers -/

/-- `HBA_CAP`. -/
def hbaCap : ℕ := 0x00
/-- `HBA_GHC`. -/
def hbaGhc : ℕ := 0x04
/-- `HBA_PI`. -/
def hbaPi : ℕ := 0x0C
/-- `GHC_AE`. -/
def ghcAe : ℕ := 1 <<< 31

/-- `HBA_PORT_BASE`. -/
def hbaPortBase : ℕ := 0x100
/-- `HBA_PORT_SIZE`. -/
def hbaPortSize : ℕ := 0x80

/-- `PX_CLB`. -/
def pxClb : ℕ := 0x00
/-- `PX_CLBU`. -/
def pxClbu : ℕ := 0x04
/-- `PX_FB`. -/
def pxFb : ℕ := 0x08
/-- `PX_FBU`. -/
def pxFbu : ℕ := 0x0C
/-- `PX_IS`. -/
def pxIs : ℕ := 0x10
/-- `PX_CMD`. -/
def pxCmd : ℕ := 0x18
/-- `PX_TFD`. -/
def pxTfd : ℕ := 0x20
/-- `PX_SIG`. -/
def pxSig : ℕ := 0x24
/-- `PX_SSTS`. -/
def pxSsts : ℕ := 0x28
/-- `PX_SERR`. -/
def pxSerr : ℕ := 0x30
/-- `PX_CI`. -/
def pxCi : ℕ := 0x38

/-- `CMD_ST`. -/
def cmdSt : ℕ := 1 <<< 0
/-- `CMD_FRE`. -/
def cmdFre : ℕ := 1 <<< 4
/-- `CMD_FR`. -/
def cmdFr : ℕ := 1 <<< 14
/-- `CMD_CR`. -/
def cmdCr : ℕ := 1 <<< 15

/-- `TFD_ERR`. -/
def tfdErr : ℕ := 1 <<< 0
/-- `TFD_DRQ`. -/
def tfdDrq : ℕ := 1 <<< 3
/-- `TFD_BSY`. -/
def tfdBsy : ℕ := 1 <<< 7

/-- `IS_TFES`. -/
def isTfes : ℕ := 1 <<< 30

/-- `SIG_SATA`. -/
def sigSata : ℕ := 0x00000101

/-- The offset of a register of a port. -/
def portReg (port off : ℕ) : ℕ := hbaPortBase + port * hbaPortSize + off

/-! ## The machine -/

/-- A controller: what a read of the register at an offset shows and what a write does, where each
may change the memory and moves the controller along. -/
structure Hba (δ : Type) where
  mmioRead : (off : ℕ) → Mem × δ → ℕ × Mem × δ
  mmioWrite : (off v : ℕ) → Mem × δ → Mem × δ

/-- `PortState`. -/
structure PortState where
  port : ℕ
  clbPhys : ℕ
  ctPhys : ℕ
  dmaPhys : ℕ
deriving DecidableEq, Repr

/-- Memory and the page allocator, the controller, and the driver's `PORT`. -/
structure State (δ σ : Type) extends Machine σ where
  hba : δ
  port : Option PortState

section
variable {δ σ : Type} (hba : Hba δ)

/-- `mmio_read`. -/
def mmioRead (off : ℕ) : Exec String (State δ σ) ℕ := fun s =>
  match hba.mmioRead off (s.mem, s.hba) with
  | (v, m, h) => .ok v { s with mem := m, hba := h }

/-- `mmio_write`. -/
def mmioWrite (off v : ℕ) : Exec String (State δ σ) PUnit := modify fun s =>
  match hba.mmioWrite off v (s.mem, s.hba) with
  | (m, h) => { s with mem := m, hba := h }

/-- `port_read`. -/
def portRead (port off : ℕ) : Exec String (State δ σ) ℕ := mmioRead hba (portReg port off)

/-- `port_write`. -/
def portWrite (port off v : ℕ) : Exec String (State δ σ) PUnit :=
  mmioWrite hba (portReg port off) v

/-- `phys_to_virt(phys)`, as the physical address that the kernel's window shows there. -/
def window (phys : ℕ) : Exec String (State δ σ) ℕ :=
  if phys + Paging.kernelVmaBase < 2 ^ 64 then pure phys else Exec.panic

/-- A store through the window. -/
def store (a : ℕ) (bs : List UInt8) : Exec String (State δ σ) PUnit :=
  modify fun s => { s with mem := write s.mem a bs }

/-- `write_bytes(ptr, 0, 4096)`. -/
def zeroPage (a : ℕ) : Exec String (State δ σ) PUnit :=
  modify fun s => { s with mem := clear s.mem a 4096 }

/-- `for _ in 0..n { if port_read(port, off) & mask == 0 { break; } }`. -/
def waitClear (port off mask : ℕ) : ℕ → Exec String (State δ σ) PUnit
  | 0 => pure ⟨⟩
  | n + 1 => do
    let v ← portRead hba port off
    if v &&& mask = 0 then pure ⟨⟩ else waitClear port off mask n

/-! ## Requests -/

/-- The rounds of the loop that waits for the port to be idle. -/
def idleRounds : ℕ := 1000000
/-- The rounds of the loop that waits for the command. -/
def doneRounds : ℕ := 10000000

/-- The command in the shared memory: the FIS, one PRDT entry for the driver's buffer, and command
header 0. The bytes of the table and of the header that the code leaves alone stay. -/
def fillCommand (st : PortState) (command : UInt8) (flags lba count : ℕ) :
    Exec String (State δ σ) PUnit := do
  let ct ← window st.ctPhys
  store ct (commandFis command lba count)
  store (ct + 128) (toLe 4 (st.dmaPhys &&& 0xFFFFFFFF))
  store (ct + 132) (toLe 4 (st.dmaPhys >>> 32))
  store (ct + 136) (toLe 4 0)
  store (ct + 140) (toLe 4 (count * 512 - 1))
  let hdr ← window st.clbPhys
  store hdr (toLe 2 flags)
  store (hdr + 2) (toLe 2 1)
  store (hdr + 4) (toLe 4 0)

/-- The loop that polls for the command: whether it saw the command done. -/
def pollDone (port : ℕ) : ℕ → Exec String (State δ σ) Bool
  | 0 => pure false
  | n + 1 => do
    let is ← portRead hba port pxIs
    if is &&& isTfes ≠ 0 then Exec.fail "AHCI task file error"
    else
      let ci ← portRead hba port pxCi
      if ci &&& 1 = 0 then pure true else pollDone port n

/-- Command 0 of the port: wait for the port, start the command, and poll for it. -/
def runCommand (port : ℕ) (timedOut : String) : Exec String (State δ σ) PUnit := do
  waitClear hba port pxTfd (tfdBsy ||| tfdDrq) idleRounds
  portWrite hba port pxIs 0xFFFFFFFF
  portWrite hba port pxCi 1
  let ok ← pollDone hba port doneRounds
  if ok = false then Exec.fail timedOut
  else
    let tfd ← portRead hba port pxTfd
    if tfd &&& tfdErr ≠ 0 then Exec.fail "AHCI TFD error bit" else pure ⟨⟩

namespace Driver

/-- `read_sectors`: the buffer with the sectors at its start. -/
def readSectors (lba count : ℕ) (buf : List UInt8) : Exec String (State δ σ) (List UInt8) := do
  if count = 0 then pure buf
  else if count > 8 then Exec.fail "AHCI: max 8 sectors per call"
  else if buf.length < count * 512 then Exec.fail "AHCI: buf too small"
  else
    match (← get).port with
    | none => Exec.fail "AHCI not initialized"
    | some st =>
      fillCommand st ataCmdReadDmaExt 5 lba count
      runCommand hba st.port "AHCI read timed out"
      let dma ← window st.dmaPhys
      let s ← get
      pure (splice buf 0 (read s.mem dma (count * 512)))

/-- `write_sectors`. -/
def writeSectors (lba count : ℕ) (buf : List UInt8) : Exec String (State δ σ) PUnit := do
  if count = 0 then pure ⟨⟩
  else if count > 8 then Exec.fail "AHCI: max 8 sectors per call"
  else if buf.length < count * 512 then Exec.fail "AHCI: buf too small"
  else
    match (← get).port with
    | none => Exec.fail "AHCI not initialized"
    | some st =>
      let dma ← window st.dmaPhys
      store dma (slice buf 0 (count * 512))
      fillCommand st ataCmdWriteDmaExt (5 ||| 1 <<< 6) lba count
      runCommand hba st.port "AHCI write timed out"

/-! ## Initialisation -/

/-- The rounds of the loops of `init_port`. -/
def engineRounds : ℕ := 100000

variable [PageAllocator σ]

/-- `pmm::alloc_page().ok_or(msg)?`. -/
def allocPage (msg : String) : Exec String (State δ σ) ℕ := fun s =>
  match PageAllocator.allocPage s.pages with
  | none => .error (.err msg) s
  | some (f, pages) => .ok f { s with pages := pages }

/-- The start of `init_port`: stop the command engine. -/
def stopPort (port : ℕ) : Exec String (State δ σ) PUnit := do
  let cmd ← portRead hba port pxCmd
  portWrite hba port pxCmd (cmd &&& (0xFFFFFFFF - (cmdSt ||| cmdFre)))
  waitClear hba port pxCmd (cmdFr ||| cmdCr) engineRounds

/-- The pages of `init_port`: all zero, but for the address of the table in command header 0. -/
def fillPages (st : PortState) (fbPhys : ℕ) : Exec String (State δ σ) PUnit := do
  let clb ← window st.clbPhys
  let fb ← window fbPhys
  let ct ← window st.ctPhys
  let dma ← window st.dmaPhys
  zeroPage clb
  zeroPage fb
  zeroPage ct
  zeroPage dma
  store (clb + 8) (toLe 4 (st.ctPhys &&& 0xFFFFFFFF))
  store (clb + 12) (toLe 4 (st.ctPhys >>> 32))

/-- The registers of `init_port`: the two areas, the pending errors, and the command engine. -/
def startPort (st : PortState) (fbPhys : ℕ) : Exec String (State δ σ) PUnit := do
  portWrite hba st.port pxClb (st.clbPhys &&& 0xFFFFFFFF)
  portWrite hba st.port pxClbu (st.clbPhys >>> 32)
  portWrite hba st.port pxFb (fbPhys &&& 0xFFFFFFFF)
  portWrite hba st.port pxFbu (fbPhys >>> 32)
  portWrite hba st.port pxSerr 0xFFFFFFFF
  portWrite hba st.port pxIs 0xFFFFFFFF
  waitClear hba st.port pxCmd cmdCr engineRounds
  let cmd ← portRead hba st.port pxCmd
  portWrite hba st.port pxCmd (cmd ||| cmdFre ||| cmdSt)

/-- `init_port`. -/
def initPort (port : ℕ) : Exec String (State δ σ) PUnit := do
  stopPort hba port
  let clbPhys ← allocPage "OOM: CLB"
  let fbPhys ← allocPage "OOM: FB"
  let ctPhys ← allocPage "OOM: CT"
  let dmaPhys ← allocPage "OOM: DMA"
  let st : PortState := ⟨port, clbPhys, ctPhys, dmaPhys⟩
  fillPages st fbPhys
  startPort hba st fbPhys
  modify fun s => { s with port := some st }

/-- The loop of `init` over the ports from `p` on, the port with an active SATA drive first. -/
def initPorts (pi : ℕ) : (n p : ℕ) → Exec String (State δ σ) PUnit
  | 0, _ => Exec.fail "No SATA drive attached"
  | n + 1, p => do
    if pi &&& 1 <<< p = 0 then initPorts pi n (p + 1)
    else
      let sig ← portRead hba p pxSig
      let ssts ← portRead hba p pxSsts
      let det := ssts &&& 0x0F
      let ipm := ssts >>> 8 &&& 0x0F
      if det = 3 ∧ ipm = 1 ∧ sig = sigSata then initPort hba p else initPorts pi n (p + 1)

/-- `init`, on the registry of the PCI bus and the controller whose registers are at `ABAR`. -/
def init (cs : Pci.ConfigSpace) (devices : List Pci.PciDevice) : Exec String (State δ σ) PUnit := do
  match Pci.findByClass devices 0x01 0x06 with
  | none => Exec.fail "No AHCI controller"
  | some controller =>
    match controller.readBar cs 5 with
    | none => Exec.panic
    | some bar5 =>
      if bar5 &&& 0xFFFFFFF0 = 0 then Exec.fail "ABAR is zero"
      else
        let ghc ← mmioRead hba hbaGhc
        mmioWrite hba hbaGhc (ghc ||| ghcAe)
        let _ ← mmioRead hba hbaCap
        let pi ← mmioRead hba hbaPi
        initPorts hba pi 32 0

end Driver

end

end Ahci

end RossOs
