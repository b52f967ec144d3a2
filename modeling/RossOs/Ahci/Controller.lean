import RossOs.Ahci.Model

/-!
# What the driver relies on of a controller

A controller with a drive on one port, as its specification describes it. Between the write that
starts command 0 and its end it may take its time, move the data piece by piece and write the byte
count of the header, and at any time it may post to the area for received FISes; what it writes
elsewhere, and what it leaves when it is done, is fixed (`Lawful`). A command it cannot execute ends
with the task file error, and nothing is said about what comes after that: the port would have to be
started again.
-/

namespace RossOs

open ByteMem

namespace Ahci

/-- A command as the controller fetches it: the FIS, the direction of the data, and the address and
length of the one buffer. -/
structure Command where
  fis : List UInt8
  toDevice : Bool
  dba : ℕ
  bytes : ℕ
deriving DecidableEq, Repr

/-- Command 0 of the list at `clb`. -/
def fetch (m : Mem) (clb : ℕ) : Command :=
  let ctba := leNat (read m (clb + 8) 4) + 2 ^ 32 * leNat (read m (clb + 12) 4)
  { fis := read m ctba 64
    toDevice := (leNat (read m clb 2)).testBit 6
    dba := leNat (read m (ctba + 128) 4) + 2 ^ 32 * leNat (read m (ctba + 132) 4)
    bytes := leNat (read m (ctba + 140) 4) % 2 ^ 22 + 1 }

/-- The sectors of the command are on the drive, and the buffer is as long as they are. -/
structure Command.Fits (c : Command) (d : Disk) : Prop where
  bytes : c.bytes = 512 * fisCount c.fis
  within : fisLba c.fis + fisCount c.fis ≤ d.capacity

/-- The end of a command that found the drive as `d`, with memory `m'` and the drive as `d'` after
it. -/
inductive Completes (c : Command) (d : Disk) (m' : Mem) : (failed : Bool) → (d' : Disk) → Prop
  /-- The sectors are in the buffer. -/
  | read : c.fis.getD 2 0 = ataCmdReadDmaExt → c.toDevice = false → c.Fits d →
      read m' c.dba c.bytes = read d.bytes (512 * fisLba c.fis) c.bytes → Completes c d m' false d
  /-- The buffer is on the drive. -/
  | write : c.fis.getD 2 0 = ataCmdWriteDmaExt → c.toDevice = true → c.Fits d →
      Completes c d m' false
        (d.setBytes (write d.bytes (512 * fisLba c.fis) (ByteMem.read m' c.dba c.bytes)))
  /-- The command asks for sectors that are not on the drive. -/
  | beyond : d.capacity < fisLba c.fis + fisCount c.fis → Completes c d m' true d
  /-- The command is none of these. -/
  | refused (d' : Disk) : ¬ c.Fits d → fisLba c.fis + fisCount c.fis ≤ d.capacity →
      Completes c d m' true d'
  /-- The direction or the operation is another. -/
  | other (failed : Bool) (d' : Disk) :
      ¬ (c.fis.getD 2 0 = ataCmdReadDmaExt ∧ c.toDevice = false) →
      ¬ (c.fis.getD 2 0 = ataCmdWriteDmaExt ∧ c.toDevice = true) → Completes c d m' failed d'

/-- Command slot 0 of a port. -/
inductive Slot where
  /-- No command, and whether the last one failed. -/
  | idle (failed : Bool)
  /-- A command that found the drive as `d` and ends within `left` accesses. -/
  | busy (left : ℕ) (c : Command) (d : Disk)

/-- The registers of a port that hold what was last written to them. -/
def programmed : List ℕ := [pxClb, pxClbu, pxFb, pxFbu, pxCmd]

/-- A port of a controller: its command slot, its drive, and what was last written to its
registers. -/
structure Port (δ : Type) where
  slot : δ → Slot
  drive : δ → Disk
  reg : δ → ℕ → ℕ

section
variable {δ : Type} (P : Port δ) (h : δ)

/-- The address of the command list. -/
def Port.clb : ℕ := P.reg h pxClb + 2 ^ 32 * P.reg h pxClbu

/-- The address of the area for received FISes. -/
def Port.fb : ℕ := P.reg h pxFb + 2 ^ 32 * P.reg h pxFbu

/-- The port takes commands: `ST` and `FRE` are set. -/
def Port.Started : Prop := (P.reg h pxCmd).testBit 0 ∧ (P.reg h pxCmd).testBit 4

/-- What the controller may write to at any time: the area for received FISes, once `FRE` is set. -/
def Port.Posts (a : ℕ) : Prop :=
  (P.reg h pxCmd).testBit 4 ∧ P.fb h ≤ a ∧ a < P.fb h + 256

/-- What a command in flight may write to besides: its buffer, when the data comes from the drive,
and the byte count of the command header. -/
def Port.Touches (c : Command) (a : ℕ) : Prop :=
  P.Posts h a ∨ P.clb h + 4 ≤ a ∧ a < P.clb h + 8 ∨
    c.toDevice = false ∧ c.dba ≤ a ∧ a < c.dba + c.bytes

end

/-- A read of a register took the controller from `h` to `h'` and memory from `m` to `m'`. -/
structure Progress {δ : Type} (P : Port δ) (m : Mem) (h : δ) (m' : Mem) (h' : δ) : Prop where
  reg : ∀ r ∈ programmed, P.reg h' r = P.reg h r
  /-- Without a command the drive stays as it is. -/
  idle : ∀ failed, P.slot h = .idle failed → (∀ a, ¬ P.Posts h a → m' a = m a) ∧
    P.slot h' = .idle failed ∧ P.drive h' = P.drive h
  /-- A command in flight stays so, with less time left, or ends. -/
  busy : ∀ left c d, P.slot h = .busy left c d → (∀ a, ¬ P.Touches h c a → m' a = m a) ∧
    ((∃ left' < left, P.slot h' = .busy left' c d) ∨
      ∃ failed, P.slot h' = .idle failed ∧ Completes c d m' failed (P.drive h'))

/-- The writes of the driver to the registers, other than the one that starts a command: `GHC`
without a reset, the areas at addresses that the controller takes, and the other registers of the
port. -/
inductive Programs (port : ℕ) : (off v : ℕ) → Prop
  | ghc {v : ℕ} : v.testBit 0 = false → Programs port hbaGhc v
  | clb {v : ℕ} : 1024 ∣ v → Programs port (portReg port pxClb) v
  | fb {v : ℕ} : 256 ∣ v → Programs port (portReg port pxFb) v
  | other {r v : ℕ} : r ∈ [pxClbu, pxFbu, pxIs, pxCmd, pxSerr] → Programs port (portReg port r) v

/-- A controller with a drive on the port. -/
structure Lawful {δ : Type} (hba : Hba δ) (port : ℕ) (P : Port δ) : Prop where
  read_progress : ∀ off m h v m' h', hba.mmioRead off (m, h) = (v, m', h') → Progress P m h m' h'
  /-- `GHC` shows no reset. -/
  ghc_value : ∀ m h v m' h', hba.mmioRead hbaGhc (m, h) = (v, m', h') → v.testBit 0 = false
  /-- The task file error shows in `IS`. -/
  is_value : ∀ m h v m' h', hba.mmioRead (portReg port pxIs) (m, h) = (v, m', h') →
    (v &&& isTfes ≠ 0 ↔ P.slot h' = .idle true)
  /-- The bit of the command in `CI` is clear when it ended well. -/
  ci_value : ∀ m h v m' h', hba.mmioRead (portReg port pxCi) (m, h) = (v, m', h') →
    (v &&& 1 = 0 ↔ P.slot h' = .idle false)
  /-- After a command that ended well the task file shows no error. -/
  tfd_value : ∀ m h v m' h', hba.mmioRead (portReg port pxTfd) (m, h) = (v, m', h') →
    P.slot h' = .idle false → v &&& tfdErr = 0
  /-- A write of the driver, with no command there and none failed, programs the register. -/
  write_reg : ∀ off v m h m' h', Programs port off v → P.slot h = .idle false →
    hba.mmioWrite off v (m, h) = (m', h') →
    (∀ a, ¬ P.Posts h a → ¬ P.Posts h' a → m' a = m a) ∧ P.slot h' = .idle false ∧
      P.drive h' = P.drive h ∧
      ∀ r ∈ programmed, P.reg h' r = if off = portReg port r then v else P.reg h r
  /-- A write to `CI` starts command 0, which ends within the time that the driver polls. -/
  write_ci : ∀ m h m' h', P.slot h = .idle false → P.Started h →
    hba.mmioWrite (portReg port pxCi) 1 (m, h) = (m', h') →
    m' = m ∧ P.drive h' = P.drive h ∧ (∀ r ∈ programmed, P.reg h' r = P.reg h r) ∧
      ∃ left < doneRounds, P.slot h' = .busy left (fetch m (P.clb h)) (P.drive h)

/-- None of these writes starts a command. -/
theorem Programs.ne_ci {port off v : ℕ} (h : Programs port off v) : off ≠ portReg port pxCi := by
  cases h with
  | ghc =>
    unfold hbaGhc portReg hbaPortBase
    omega
  | clb | fb => exact fun heq => absurd (Nat.add_left_cancel heq) (by decide)
  | other hr =>
    intro heq
    rw [Nat.add_left_cancel heq] at hr
    exact absurd hr (by decide)

/-! ## The simplest controller -/

/-- A controller that executes a command when a register is read next, and posts nothing. -/
structure Device where
  drive : Disk
  slot : Slot
  /-- What was last written at each offset. -/
  reg : ℕ → ℕ

/-- A drive of sixteen sectors of zeroes. -/
def smallDrive : Disk := ⟨16, by decide, fun _ => 0⟩

/-- The execution of a command: memory, whether it failed, and the drive. -/
def Command.execute (c : Command) (d : Disk) (m : Mem) : Mem × Bool × Disk :=
  if c.bytes = 512 * fisCount c.fis ∧ fisLba c.fis + fisCount c.fis ≤ d.capacity then
    if c.fis.getD 2 0 = ataCmdReadDmaExt ∧ c.toDevice = false then
      (write m c.dba (read d.bytes (512 * fisLba c.fis) c.bytes), false, d)
    else if c.fis.getD 2 0 = ataCmdWriteDmaExt ∧ c.toDevice = true then
      (m, false, d.setBytes (write d.bytes (512 * fisLba c.fis) (read m c.dba c.bytes)))
    else (m, true, d)
  else (m, true, d)

/-- The controller and memory once a command in flight is executed. -/
def Device.settle (x : Mem × Device) : Mem × Device :=
  match x.2.slot with
  | .idle _ => x
  | .busy _ c d =>
    match c.execute d x.1 with
    | (m, failed, d') => (m, { x.2 with slot := .idle failed, drive := d' })

/-- What the controller with its drive on the port shows. -/
def Device.value (port off : ℕ) (h : Device) : ℕ :=
  if off = portReg port pxSig then sigSata
  else if off = portReg port pxSsts then 0x103
  else if off = hbaPi then 1 <<< port
  else if off ∈ programmed.map (portReg port) then h.reg off
  else match h.slot with
    | .idle true =>
      if off = portReg port pxIs then isTfes else if off = portReg port pxCi then 1 else 0
    | _ => 0

/-- The controller with its drive on the port. -/
def Device.hba (port : ℕ) : Hba Device where
  mmioRead off x := (Device.value port off (Device.settle x).2, Device.settle x)
  mmioWrite off v x :=
    if off = portReg port pxCi ∧ v = 1 then
      let clb := x.2.reg (portReg port pxClb) + 2 ^ 32 * x.2.reg (portReg port pxClbu)
      (x.1, { x.2 with slot := .busy 0 (fetch x.1 clb) x.2.drive })
    else (x.1, { x.2 with reg := Function.update x.2.reg off v })

/-- Its port. -/
def Device.port (port : ℕ) : Port Device where
  slot := Device.slot
  drive := Device.drive
  reg := fun h r => h.reg (portReg port r)

/-- Once the device has settled no command is in flight. -/
theorem Device.settle_slot (x : Mem × Device) : ∃ failed, (settle x).2.slot = .idle failed := by
  unfold settle
  cases hslot : x.2.slot with
  | idle failed => exact ⟨failed, hslot⟩
  | busy left c d => exact ⟨(c.execute d x.1).2.1, rfl⟩

/-- The execution of a command writes to the buffer at most, and ends it. -/
theorem Command.execute_completes (c : Command) (d : Disk) (m : Mem) :
    Completes c d (c.execute d m).1 (c.execute d m).2.1 (c.execute d m).2.2 ∧
      ∀ a, ¬ (c.toDevice = false ∧ c.dba ≤ a ∧ a < c.dba + c.bytes) →
        (c.execute d m).1 a = m a := by
  unfold execute
  split
  case isTrue hfits =>
    split
    case isTrue hread =>
      have hlen := length_read d.bytes (512 * fisLba c.fis) c.bytes
      refine ⟨.read hread.1 hread.2 ⟨hfits.1, hfits.2⟩ ?_, fun a ha => ?_⟩
      · have hself := read_write_self m c.dba (read d.bytes (512 * fisLba c.fis) c.bytes)
        rwa [hlen] at hself
      · refine write_apply_of_outside ?_
        rw [hlen]
        by_contra hin
        exact ha ⟨hread.2, by omega, by omega⟩
    case isFalse hread =>
      split
      case isTrue hwrite => exact ⟨.write hwrite.1 hwrite.2 ⟨hfits.1, hfits.2⟩, fun _ _ => rfl⟩
      case isFalse hwrite => exact ⟨.other _ _ hread hwrite, fun _ _ => rfl⟩
  case isFalse hfits =>
    refine ⟨?_, fun _ _ => rfl⟩
    rcases Nat.lt_or_ge d.capacity (fisLba c.fis + fisCount c.fis) with hbeyond | hwithin
    · exact .beyond hbeyond
    · exact .refused _ (fun h => hfits ⟨h.bytes, h.within⟩) hwithin

/-- The device settles by steps that it may take. -/
theorem Device.settle_progress (port : ℕ) (m : Mem) (h : Device) :
    Progress (Device.port port) m h (settle (m, h)).1 (settle (m, h)).2 := by
  unfold settle
  cases hslot : h.slot with
  | idle failed =>
    refine ⟨fun _ _ => rfl, fun failed' hs => ⟨fun _ _ => rfl, hs, rfl⟩, fun left c d hs => ?_⟩
    rw [show (Device.port port).slot h = h.slot from rfl, hslot] at hs
    cases hs
  | busy left c d =>
    obtain ⟨hdone, hmem⟩ := c.execute_completes d m
    refine ⟨fun _ _ => rfl, fun failed' hs => ?_, fun left' c' d' hs => ?_⟩
    · rw [show (Device.port port).slot h = h.slot from rfl, hslot] at hs
      cases hs
    · rw [show (Device.port port).slot h = h.slot from rfl, hslot] at hs
      cases hs
      exact ⟨fun a ha => hmem a fun hin => ha (.inr (.inr hin)), .inr ⟨_, rfl, hdone⟩⟩

/-- A register reads as its value once the device has settled. -/
theorem Device.mmioRead_eq {port off v : ℕ} {m m' : Mem} {h h' : Device}
    (hread : (Device.hba port).mmioRead off (m, h) = (v, m', h')) :
    v = value port off h' ∧ settle (m, h) = (m', h') ∧ ∃ failed, h'.slot = .idle failed := by
  obtain ⟨rfl, hsettle⟩ := Prod.ext_iff.1 hread
  obtain ⟨failed, hslot⟩ := settle_slot (m, h)
  have hsettle : settle (m, h) = (m', h') := hsettle
  rw [hsettle] at hslot
  exact ⟨congrArg (value port off) (congrArg Prod.snd hsettle), hsettle, failed, hslot⟩

/-- The simplest controller is one. -/
theorem Device.lawful (port : ℕ) : Lawful (Device.hba port) port (Device.port port) where
  read_progress := by
    intro off m h v m' h' hread
    have hp := settle_progress port m h
    rw [(mmioRead_eq hread).2.1] at hp
    exact hp
  ghc_value := by
    intro m h v m' h' hread
    obtain ⟨rfl, -, failed, hslot⟩ := mmioRead_eq hread
    have hfar : ∀ r, hbaGhc ≠ portReg port r := fun r => by
      unfold hbaGhc portReg hbaPortBase
      omega
    have hpi : hbaGhc ≠ hbaPi := by decide
    cases failed <;> simp [value, hslot, hfar, hpi, programmed]
  is_value := by
    intro m h v m' h' hread
    obtain ⟨rfl, -, failed, hslot⟩ := mmioRead_eq hread
    rw [show (Device.port port).slot h' = h'.slot from rfl, hslot]
    cases failed <;> simp [value, hslot, portReg, hbaPortBase, hbaPortSize, programmed, pxIs, pxSig,
      pxSsts, pxClb, pxClbu, pxFb, pxFbu, pxCmd, hbaPi, isTfes]
  ci_value := by
    intro m h v m' h' hread
    obtain ⟨rfl, -, failed, hslot⟩ := mmioRead_eq hread
    rw [show (Device.port port).slot h' = h'.slot from rfl, hslot]
    cases failed <;> simp [value, hslot, portReg, hbaPortBase, hbaPortSize, programmed, pxIs, pxSig,
      pxSsts, pxClb, pxClbu, pxFb, pxFbu, pxCmd, pxCi, hbaPi]
  tfd_value := by
    intro m h v m' h' hread hs
    obtain ⟨rfl, -, -⟩ := mmioRead_eq hread
    rw [show (Device.port port).slot h' = h'.slot from rfl] at hs
    simp [value, hs, portReg, hbaPortBase, hbaPortSize, programmed, pxTfd, pxSig,
      pxSsts, pxClb, pxClbu, pxFb, pxFbu, pxCmd, hbaPi]
  write_reg := by
    intro off v m h m' h' hoff hs hwrite
    have hne : ¬ (off = portReg port pxCi ∧ v = 1) := fun h => hoff.ne_ci h.1
    simp only [hba, hne, if_false] at hwrite
    cases hwrite
    refine ⟨fun _ _ _ => rfl, hs, rfl, fun r _ => ?_⟩
    simp only [Device.port, Function.update_apply, eq_comm]
  write_ci := by
    intro m h m' h' hs _ hwrite
    simp only [hba, true_and, if_true] at hwrite
    cases hwrite
    exact ⟨rfl, rfl, fun _ _ => rfl, 0, by decide, rfl⟩

end Ahci

end RossOs
