import Mathlib.Data.Prod.Lex
import RossOs.Lib.Bits
import RossOs.Lib.Bytes

/-!
# The PCI bus

`ross-kernel/src/pci.rs`. A configuration register is read through two ports: the address goes to
`CONFIG_ADDRESS`, and `CONFIG_DATA` then shows the four bytes there. `enumerate` probes every
function of every device on every bus. What is proved is that nothing is lost between the address
that the code packs and the function that answers (`readConfigDword_eq`), and from it that the
registry holds each function that is there once, in the order of the buses (`enumerate_finds`),
and that `find_by_class` finds the first of a class.
-/

namespace RossOs

open ByteMem

namespace Pci

/-! ## The configuration space -/

/-- The registers of each function of each device on each bus, as bytes. A function that is not
there reads as ones. -/
abbrev ConfigSpace := ℕ → ℕ → ℕ → Mem

/-- What `CONFIG_DATA` shows while `CONFIG_ADDRESS` holds an address: the bus in bits 23:16, the
device in bits 15:11, the function in bits 10:8, and ones when bit 31 is clear. -/
def ConfigSpace.data (cs : ConfigSpace) (addr : ℕ) : ℕ :=
  if addr.testBit 31 then
    leNat (read (cs (addr >>> 16 &&& 0xFF) (addr >>> 11 &&& 0x1F) (addr >>> 8 &&& 7))
      (addr &&& 0xFC) 4)
  else 0xFFFFFFFF

/-- `PciDevice`. -/
structure PciDevice where
  bus : ℕ
  device : ℕ
  function : ℕ
  vendorId : ℕ
  deviceId : ℕ
  /-- `class`. -/
  classCode : ℕ
  subclass : ℕ
  progIf : ℕ
  headerType : ℕ
deriving DecidableEq, Repr

/-- `address`. -/
def address (bus device function offset : ℕ) : ℕ :=
  0x80000000 ||| bus <<< 16 ||| device <<< 11 ||| function <<< 8 ||| (offset &&& 0xFC)

section
variable (cs : ConfigSpace)

/-- `read_config_dword`: one write to `CONFIG_ADDRESS`, one read of `CONFIG_DATA`. -/
def readConfigDword (bus device function offset : ℕ) : ℕ :=
  cs.data (address bus device function offset)

/-- `read_config_word`. -/
def readConfigWord (bus device function offset : ℕ) : ℕ :=
  let dw := readConfigDword cs bus device function (offset &&& 0xFC)
  let shift := (offset &&& 2) * 8
  dw >>> shift &&& 0xFFFF

/-- `read_config_byte`. -/
def readConfigByte (bus device function offset : ℕ) : ℕ :=
  let dw := readConfigDword cs bus device function (offset &&& 0xFC)
  let shift := (offset &&& 3) * 8
  dw >>> shift &&& 0xFF

/-- `probe`. -/
def probe (bus device function : ℕ) : Option PciDevice :=
  let vendorId := readConfigWord cs bus device function 0x00
  if vendorId = 0xFFFF then none
  else some {
    bus := bus, device := device, function := function
    vendorId := vendorId
    deviceId := readConfigWord cs bus device function 0x02
    progIf := readConfigByte cs bus device function 0x09
    subclass := readConfigByte cs bus device function 0x0A
    classCode := readConfigByte cs bus device function 0x0B
    headerType := readConfigByte cs bus device function 0x0E }

/-- One turn of the inner loop of `enumerate`: what is pushed for one device. -/
def enumerateDevice (bus dev : ℕ) : List PciDevice :=
  match probe cs bus dev 0 with
  | none => []
  | some d0 =>
    d0 :: if d0.headerType &&& 0x80 ≠ 0 then
      (List.range' 1 7).filterMap fun func => probe cs bus dev func
    else []

/-- `enumerate`: what `DEVICES` holds afterwards. -/
def enumerate : List PciDevice :=
  (List.range 256).flatMap fun bus =>
    (List.range 32).flatMap fun dev => enumerateDevice cs bus dev

end

/-- `find_by_class`. -/
def findByClass (devices : List PciDevice) (classCode subclass : ℕ) : Option PciDevice :=
  devices.find? fun d => d.classCode = classCode ∧ d.subclass = subclass

/-- `PciDevice::read_bar`, which asserts that there is such a register. -/
def PciDevice.readBar (cs : ConfigSpace) (d : PciDevice) (index : ℕ) : Option ℕ :=
  if index < 6 then some (readConfigDword cs d.bus d.device d.function (0x10 + index * 4)) else none

/-! ## Reading a register -/

section
variable {bus device function offset : ℕ}

/-- The offset is cut to four bytes. -/
theorem and_FC (h : offset < 256) : offset &&& 0xFC = offset / 4 * 4 := by
  have hmask := Bits.and_high_mask (show 2 ≤ 8 by omega) (show offset < 2 ^ 8 by omega)
  simpa using hmask

/-- The parts of an address do not overlap. -/
theorem address_eq (hb : bus < 256) (hd : device < 32) (hf : function < 8) (ho : offset < 256) :
    address bus device function offset =
      2 ^ 31 + 2 ^ 16 * bus + 2 ^ 11 * device + 2 ^ 8 * function + offset / 4 * 4 := by
  have h1 : 0x80000000 ||| bus <<< 16 = 2 ^ 31 + 2 ^ 16 * bus := by
    rw [Nat.shiftLeft_eq, Nat.mul_comm bus]
    exact Bits.or_eq_add (k := 31) ⟨1, rfl⟩ (by omega)
  have h2 : (2 ^ 31 + 2 ^ 16 * bus) ||| device <<< 11 =
      2 ^ 31 + 2 ^ 16 * bus + 2 ^ 11 * device := by
    rw [Nat.shiftLeft_eq, Nat.mul_comm device]
    exact Bits.or_eq_add (k := 16) ⟨2 ^ 15 + bus, by omega⟩ (by omega)
  have h3 : (2 ^ 31 + 2 ^ 16 * bus + 2 ^ 11 * device) ||| function <<< 8 =
      2 ^ 31 + 2 ^ 16 * bus + 2 ^ 11 * device + 2 ^ 8 * function := by
    rw [Nat.shiftLeft_eq, Nat.mul_comm function]
    exact Bits.or_eq_add (k := 11) ⟨2 ^ 20 + 2 ^ 5 * bus + device, by omega⟩ (by omega)
  rw [address, h1, h2, h3, and_FC ho]
  exact Bits.or_eq_add (k := 8) ⟨2 ^ 23 + 2 ^ 8 * bus + 2 ^ 3 * device + function, by omega⟩
    (by omega)

/-- The function that answers is the one asked, at the double word of the offset. -/
theorem readConfigDword_eq (cs : ConfigSpace) (hb : bus < 256) (hd : device < 32)
    (hf : function < 8) (ho : offset < 256) :
    readConfigDword cs bus device function offset =
      leNat (read (cs bus device function) (offset / 4 * 4) 4) := by
  unfold readConfigDword
  have haddr := address_eq hb hd hf ho
  generalize address bus device function offset = a at haddr
  have hbit : a.testBit 31 = true := by
    rw [Nat.testBit_eq_decide_div_mod_eq]
    exact decide_eq_true (by omega)
  have hbus : a >>> 16 &&& 0xFF = bus := by
    rw [show 0xFF = 2 ^ 8 - 1 by rfl, Bits.and_low_mask, Nat.shiftRight_eq_div_pow]
    omega
  have hdev : a >>> 11 &&& 0x1F = device := by
    rw [show 0x1F = 2 ^ 5 - 1 by rfl, Bits.and_low_mask, Nat.shiftRight_eq_div_pow]
    omega
  have hfun : a >>> 8 &&& 7 = function := by
    rw [show 7 = 2 ^ 3 - 1 by rfl, Bits.and_low_mask, Nat.shiftRight_eq_div_pow]
    omega
  have hoff : a &&& 0xFC = offset / 4 * 4 := by
    have hlow : a &&& 0xFC = (a &&& 0xFF) &&& 0xFC := by
      rw [Nat.and_assoc]
      rfl
    have hmod : a &&& 0xFF = a % 256 := Bits.and_low_mask a 8
    rw [hlow, hmod, and_FC (Nat.mod_lt _ (by decide))]
    omega
  unfold ConfigSpace.data
  rw [if_pos hbit, hbus, hdev, hfun, hoff]

/-- A part of a double word, by a shift and a mask. -/
theorem shiftRight_and_leNat (m : Mem) (a : ℕ) {n k j : ℕ} (h : k + j ≤ n) :
    leNat (read m a n) >>> (8 * k) &&& (2 ^ (8 * j) - 1) = leNat (read m (a + k) j) := by
  obtain ⟨i, rfl⟩ := Nat.exists_eq_add_of_le h
  have hlow : leNat (read m a k) < 256 ^ k := by simpa using leNat_lt (read m a k)
  have hmid : leNat (read m (a + k) j) < 256 ^ j := by simpa using leNat_lt (read m (a + k) j)
  have hpow : ∀ e, 2 ^ (8 * e) = 256 ^ e := fun e => by rw [Nat.pow_mul]
  have hsplit : leNat (read m a (k + j + i)) = leNat (read m a k) + 256 ^ k *
      (leNat (read m (a + k) j) + 256 ^ j * leNat (read m (a + k + j) i)) := by
    rw [Nat.add_assoc, read_add, read_add m (a + k), leNat_append, leNat_append, length_read,
      length_read]
  rw [Bits.and_low_mask, Nat.shiftRight_eq_div_pow, hpow, hpow, hsplit,
    Nat.add_mul_div_left _ _ (Nat.pow_pos (by decide)), Nat.div_eq_of_lt hlow, Nat.zero_add,
    Nat.add_mul_mod_self_left, Nat.mod_eq_of_lt hmid]

section
variable (cs : ConfigSpace) (hb : bus < 256) (hd : device < 32) (hf : function < 8)
include hb hd hf

/-- `read_config_word` at an even offset yields the two bytes there. -/
theorem readConfigWord_eq (ho : offset < 256) (heven : offset % 2 = 0) :
    readConfigWord cs bus device function offset =
      leNat (read (cs bus device function) offset 2) := by
  have htwo : offset &&& 2 = offset % 4 := by
    have hbit : offset &&& 2 = 2 * (offset / 2 % 2) := by
      rw [show 2 = 2 ^ 1 by rfl, Nat.and_two_pow, Nat.testBit_eq_decide_div_mod_eq]
      rcases Nat.mod_two_eq_zero_or_one (offset / 2) with h | h <;> simp [h]
    omega
  have hpart := shiftRight_and_leNat (cs bus device function) (offset / 4 * 4)
    (show offset % 4 + 2 ≤ 4 by omega)
  unfold readConfigWord
  rw [and_FC ho, readConfigDword_eq cs hb hd hf (by omega), htwo, Nat.mul_comm (offset % 4)]
  simp only [Nat.mul_div_cancel _ (show 0 < 4 by decide)]
  rw [show 0xFFFF = 2 ^ (8 * 2) - 1 by rfl, hpart,
    show offset / 4 * 4 + offset % 4 = offset by omega]

/-- `read_config_byte` yields the byte at the offset. -/
theorem readConfigByte_eq (ho : offset < 256) :
    readConfigByte cs bus device function offset =
      leNat (read (cs bus device function) offset 1) := by
  have hpart := shiftRight_and_leNat (cs bus device function) (offset / 4 * 4)
    (show offset % 4 + 1 ≤ 4 by omega)
  have hthree : offset &&& 3 = offset % 4 := Bits.and_low_mask offset 2
  unfold readConfigByte
  rw [and_FC ho, readConfigDword_eq cs hb hd hf (by omega), hthree, Nat.mul_comm (offset % 4)]
  simp only [Nat.mul_div_cancel _ (show 0 < 4 by decide)]
  rw [show 0xFF = 2 ^ (8 * 1) - 1 by rfl, hpart, show offset / 4 * 4 + offset % 4 = offset by omega]

end

end

/-! ## What the scan comes to -/

section
variable (cs : ConfigSpace)

/-- A function as the 64 bytes of its header describe it. -/
def describe (bus device function : ℕ) : PciDevice :=
  let header := read (cs bus device function) 0 64
  { bus := bus, device := device, function := function
    vendorId := field header 0x00 2
    deviceId := field header 0x02 2
    progIf := field header 0x09 1
    subclass := field header 0x0A 1
    classCode := field header 0x0B 1
    headerType := field header 0x0E 1 }

/-- There is a function: its header names a vendor. -/
def Present (bus device function : ℕ) : Prop := (describe cs bus device function).vendorId ≠ 0xFFFF

/-- The header of a device says that it has more functions than the first. -/
def MultiFunction (bus device : ℕ) : Prop := (describe cs bus device 0).headerType.testBit 7

/-- The functions that the bus has to show: the first of each device, and the others of a device
that says it has them. -/
structure Visible (bus device function : ℕ) : Prop where
  bus_lt : bus < 256
  device_lt : device < 32
  function_lt : function < 8
  present : Present cs bus device function
  reached : function = 0 ∨ Present cs bus device 0 ∧ MultiFunction cs bus device

/-- Where a function sits. -/
def PciDevice.location (d : PciDevice) : ℕ × ℕ × ℕ := (d.bus, d.device, d.function)

/-- The order of the buses, of the devices on a bus, and of the functions of a device. -/
def PciDevice.Before (d e : PciDevice) : Prop :=
  Prod.Lex (· < ·) (Prod.Lex (· < ·) (· < ·)) d.location e.location

instance (bus device function : ℕ) : Decidable (Present cs bus device function) :=
  inferInstanceAs (Decidable (_ ≠ _))

instance (bus device : ℕ) : Decidable (MultiFunction cs bus device) :=
  inferInstanceAs (Decidable (_ = true))

variable {cs} {bus device function : ℕ}

/-- A function is found if it is there. -/
theorem probe_eq (hb : bus < 256) (hd : device < 32) (hf : function < 8) :
    probe cs bus device function =
      if Present cs bus device function then some (describe cs bus device function) else none := by
  have hword : ∀ o, o < 64 → o % 2 = 0 → readConfigWord cs bus device function o =
      field (read (cs bus device function) 0 64) o 2 := by
    intro o ho heven
    rw [readConfigWord_eq cs hb hd hf (by omega) heven, field, slice_read _ _ (by omega),
      Nat.zero_add]
  have hbyte : ∀ o, o < 64 → readConfigByte cs bus device function o =
      field (read (cs bus device function) 0 64) o 1 := by
    intro o ho
    rw [readConfigByte_eq cs hb hd hf (by omega), field, slice_read _ _ (by omega), Nat.zero_add]
  unfold probe
  simp only [hword 0x00 (by decide) rfl, hword 0x02 (by decide) rfl, hbyte 0x09 (by decide),
    hbyte 0x0A (by decide), hbyte 0x0B (by decide), hbyte 0x0E (by decide)]
  have hiff : Present cs bus device function ↔
      ¬ field (read (cs bus device function) 0 64) 0x00 2 = 0xFFFF := Iff.rfl
  simp only [hiff, ite_not]
  rfl

/-- What is found is the function that is there. -/
theorem probe_eq_some {d : PciDevice} (hb : bus < 256) (hd : device < 32) (hf : function < 8) :
    probe cs bus device function = some d ↔
      Present cs bus device function ∧ d = describe cs bus device function := by
  rw [probe_eq hb hd hf]
  split
  case isTrue h => simp [h, eq_comm]
  case isFalse h => simp [h]

/-- What is pushed for a device whose first function is there. -/
theorem enumerateDevice_of_present (hb : bus < 256) (hd : device < 32)
    (h : Present cs bus device 0) : enumerateDevice cs bus device =
      describe cs bus device 0 :: if MultiFunction cs bus device then
        (List.range' 1 7).filterMap fun func => probe cs bus device func
      else [] := by
  have hflag :
      (describe cs bus device 0).headerType &&& 0x80 ≠ 0 ↔ MultiFunction cs bus device := by
    rw [show 0x80 = 2 ^ 7 by rfl, ne_eq, Bits.and_bit_eq_zero, MultiFunction, Bool.not_eq_false]
  unfold enumerateDevice
  rw [(probe_eq_some hb hd (by decide)).2 ⟨h, rfl⟩]
  simp only [hflag]

/-- Without function 0 nothing is found. -/
theorem enumerateDevice_of_absent (hb : bus < 256) (hd : device < 32)
    (h : ¬ Present cs bus device 0) : enumerateDevice cs bus device = [] := by
  unfold enumerateDevice
  rw [probe_eq hb hd (by decide), if_neg h]

/-- The functions pushed for one device are those to be shown. -/
theorem mem_enumerateDevice {d : PciDevice} (hb : bus < 256) (hd : device < 32) :
    d ∈ enumerateDevice cs bus device ↔
      ∃ function, Visible cs bus device function ∧ d = describe cs bus device function := by
  by_cases h : Present cs bus device 0
  · rw [enumerateDevice_of_present hb hd h, List.mem_cons]
    constructor
    · intro hmem
      rcases hmem with rfl | hmem
      · exact ⟨0, ⟨hb, hd, by decide, h, .inl rfl⟩, rfl⟩
      · split at hmem
        case isTrue hm =>
          obtain ⟨f, hf, hprobe⟩ := List.mem_filterMap.1 hmem
          rw [List.mem_range'_1] at hf
          obtain ⟨hpresent, rfl⟩ := (probe_eq_some hb hd (by omega)).1 hprobe
          exact ⟨f, ⟨hb, hd, by omega, hpresent, .inr ⟨h, hm⟩⟩, rfl⟩
        case isFalse => cases hmem
    · intro hmem
      obtain ⟨f, hv, rfl⟩ := hmem
      rcases hv.reached with rfl | hmulti
      · exact .inl rfl
      · rcases Nat.eq_zero_or_pos f with rfl | hpos
        · exact .inl rfl
        · right
          have hf := hv.function_lt
          rw [if_pos hmulti.2, List.mem_filterMap]
          exact ⟨f, List.mem_range'_1.2 (by omega),
            (probe_eq_some hb hd hf).2 ⟨hv.present, rfl⟩⟩
  · rw [enumerateDevice_of_absent hb hd h]
    constructor
    · intro hmem
      cases hmem
    · intro hmem
      obtain ⟨f, hv, rfl⟩ := hmem
      rcases hv.reached with rfl | hmulti
      · exact absurd hv.present h
      · exact absurd hmulti.1 h

/-- The functions of one device are pushed in their order. -/
theorem pairwise_enumerateDevice (hb : bus < 256) (hd : device < 32) :
    (enumerateDevice cs bus device).Pairwise PciDevice.Before := by
  by_cases h : Present cs bus device 0
  · rw [enumerateDevice_of_present hb hd h]
    split
    case isTrue =>
      have hlater : ∀ f d, f ∈ List.range' 1 7 → probe cs bus device f = some d →
          d = describe cs bus device f := by
        intro f d hf hprobe
        rw [List.mem_range'_1] at hf
        exact ((probe_eq_some hb hd (by omega)).1 hprobe).2
      rw [List.pairwise_cons, List.pairwise_filterMap]
      constructor
      · intro d hmem
        obtain ⟨f, hf, hprobe⟩ := List.mem_filterMap.1 hmem
        rw [hlater f d hf hprobe]
        rw [List.mem_range'_1] at hf
        exact .right _ (.right _ (show 0 < f by omega))
      · have hrange : (List.range' 1 7).Pairwise (· < ·) := List.pairwise_lt_range'
        refine hrange.imp_of_mem fun hf hf' hlt d hd d' hd' => ?_
        rw [hlater _ d hf hd, hlater _ d' hf' hd']
        exact .right _ (.right _ hlt)
    case isFalse => simp
  · rw [enumerateDevice_of_absent hb hd h]
    exact .nil

/-- The registry after a scan: each function that is to be shown, once, with what its header says,
in the order of the buses. -/
structure Registry (cs : ConfigSpace) (devices : List PciDevice) : Prop where
  ordered : devices.Pairwise PciDevice.Before
  mem_iff : ∀ d, d ∈ devices ↔
    ∃ bus device function, Visible cs bus device function ∧ d = describe cs bus device function

end

/-- A scan finds every function there is, and each once. -/
theorem enumerate_registry (cs : ConfigSpace) : Registry cs (enumerate cs) where
  ordered := by
    unfold enumerate
    rw [List.pairwise_flatMap]
    refine ⟨fun bus hbus => ?_, ?_⟩
    · rw [List.pairwise_flatMap]
      refine ⟨fun device hdev => pairwise_enumerateDevice (List.mem_range.1 hbus)
        (List.mem_range.1 hdev), ?_⟩
      refine List.pairwise_lt_range.imp_of_mem fun hi hj hlt d hd e he => ?_
      obtain ⟨f, -, rfl⟩ := (mem_enumerateDevice (List.mem_range.1 hbus) (List.mem_range.1 hi)).1 hd
      obtain ⟨g, -, rfl⟩ := (mem_enumerateDevice (List.mem_range.1 hbus) (List.mem_range.1 hj)).1 he
      exact .right _ (.left _ _ hlt)
    · refine List.pairwise_lt_range.imp_of_mem fun hi hj hlt d hd e he => ?_
      obtain ⟨i, hi', hd⟩ := List.mem_flatMap.1 hd
      obtain ⟨j, hj', he⟩ := List.mem_flatMap.1 he
      obtain ⟨f, -, rfl⟩ := (mem_enumerateDevice (List.mem_range.1 hi) (List.mem_range.1 hi')).1 hd
      obtain ⟨g, -, rfl⟩ := (mem_enumerateDevice (List.mem_range.1 hj) (List.mem_range.1 hj')).1 he
      exact .left _ _ hlt
  mem_iff := by
    intro d
    unfold enumerate
    simp only [List.mem_flatMap, List.mem_range]
    constructor
    · intro h
      obtain ⟨bus, hb, device, hd, hmem⟩ := h
      obtain ⟨f, hv, rfl⟩ := (mem_enumerateDevice hb hd).1 hmem
      exact ⟨bus, device, f, hv, rfl⟩
    · intro h
      obtain ⟨bus, device, f, hv, rfl⟩ := h
      exact ⟨bus, hv.bus_lt, device, hv.device_lt,
        (mem_enumerateDevice hv.bus_lt hv.device_lt).2 ⟨f, hv, rfl⟩⟩

/-- The functions of a class that the bus has to show. -/
def OfClass (cs : ConfigSpace) (classCode subclass : ℕ) (d : PciDevice) : Prop :=
  (∃ bus device function, Visible cs bus device function ∧ d = describe cs bus device function) ∧
    d.classCode = classCode ∧ d.subclass = subclass

/-- What `find_by_class` finds in a registry: the first function of the class on the bus, and
nothing only when there is none. -/
theorem findByClass_first {cs : ConfigSpace} {devices : List PciDevice} (h : Registry cs devices)
    (classCode subclass : ℕ) :
    match findByClass devices classCode subclass with
    | some d => OfClass cs classCode subclass d ∧
        ∀ e, OfClass cs classCode subclass e → e = d ∨ d.Before e
    | none => ∀ d, ¬ OfClass cs classCode subclass d := by
  unfold findByClass
  cases hfind : devices.find? fun d => d.classCode = classCode ∧ d.subclass = subclass with
  | none =>
    intro d hd
    have hmem := (h.mem_iff d).2 hd.1
    have := List.find?_eq_none.1 hfind d hmem
    simp [hd.2] at this
  | some d =>
    obtain ⟨hclass, before, after, rfl, hbefore⟩ := List.find?_eq_some_iff_append.1 hfind
    have hmem : d ∈ before ++ d :: after := by simp
    refine ⟨⟨(h.mem_iff d).1 hmem, by simpa using hclass⟩, fun e he => ?_⟩
    have hmem := (h.mem_iff e).2 he.1
    rcases List.mem_append.1 hmem with hmem | hmem
    · have hnot := hbefore e hmem
      simp [he.2] at hnot
    · rcases List.mem_cons.1 hmem with rfl | hmem
      · exact .inl rfl
      · right
        have hordered := (List.pairwise_append.1 h.ordered).2.1
        exact (List.pairwise_cons.1 hordered).1 e hmem

/-- After a scan the registry is exact, and `find_by_class` finds the first function of a class that
the bus has. -/
theorem enumerate_finds (cs : ConfigSpace) :
    Registry cs (enumerate cs) ∧ ∀ classCode subclass,
      match findByClass (enumerate cs) classCode subclass with
      | some d => OfClass cs classCode subclass d ∧
          ∀ e, OfClass cs classCode subclass e → e = d ∨ d.Before e
      | none => ∀ d, ¬ OfClass cs classCode subclass d :=
  ⟨enumerate_registry cs, findByClass_first (enumerate_registry cs)⟩

end Pci

end RossOs
