import RossOs.Lib.Bits
import RossOs.Lib.Bytes
import RossOs.Lib.Log
import RossOs.Lib.Scan

/-!
# The table of interrupt controllers

`parse_madt` finds the local APICs of the machine in the MADT: a header, the address of the local
APIC, and interrupt-controller structures of various lengths one behind the other. The model keeps a
log of the reads, each with its offset from the start of the table.

On a well-formed table the parser returns exactly the enabled local APICs (`parseMadt_exact`). It
takes the fixed part of a local APIC structure without a look at what is left of the table, so it
stays inside the table just when all of these parts do (`parseMadt_inside_iff`).
-/

namespace RossOs

open ByteMem Exec

namespace Acpi

/-- A read of `size` bytes, `offset` bytes from the start of the table. -/
structure Access where
  offset : ℕ
  size : ℕ
deriving DecidableEq, Repr

/-- The bytes read are among the first `n` of the table. -/
def Access.Inside (a : Access) (n : ℕ) : Prop := a.offset + a.size ≤ n

instance (a : Access) (n : ℕ) : Decidable (a.Inside n) := inferInstanceAs (Decidable (_ ≤ _))

/-- Runs over physical memory, with a log of the reads. They return no error. -/
abbrev Reader (α : Type) := Exec Empty (Mem × List Access) α

/-- `ptr.add(off).read()`, for a byte. -/
def readU8 (ptr off : ℕ) : Reader UInt8 := do
  note ⟨off, 1⟩
  let s ← get
  pure (s.1 (ptr + off))

/-- `(ptr.add(off) as *const u32).read_unaligned()`. -/
def readU32 (ptr off : ℕ) : Reader ℕ := do
  note ⟨off, 4⟩
  let s ← get
  pure (leNat (read s.1 (ptr + off) 4))

/-- `size_of::<Madt>()`: a header of 36 bytes, the address of the local APIC and the flags. -/
def madtSize : ℕ := 44

/-- The loop of `parse_madt`. -/
def parseMadtFrom (ptr total off : ℕ) (apicIds : List UInt8) : Reader (List UInt8) :=
  if off + 2 ≤ total then do
    let icType ← readU8 ptr off
    let icLen ← readU8 ptr (off + 1)
    if icLen.toNat < 2 then pure apicIds
    else do
      let ids ←
        if icType = 0 ∧ 8 ≤ icLen.toNat then do
          let apicId ← readU8 ptr (off + 3)
          let flags ← readU32 ptr (off + 4)
          pure (if flags &&& 1 ≠ 0 then apicIds ++ [apicId] else apicIds)
        else pure apicIds
      parseMadtFrom ptr total (off + icLen.toNat) ids
  else pure apicIds
termination_by total - off

/-- `parse_madt`. -/
def parseMadt (ptr : ℕ) : Reader (ℕ × List UInt8) := do
  let lapicBase ← readU32 ptr 36
  let total ← readU32 ptr 4
  let apicIds ← parseMadtFrom ptr total madtSize []
  pure (lapicBase, apicIds)

/-! ## One turn of the loop -/

section
variable (m : Mem) (ptr off : ℕ)

/-- The length byte of the structure at `off`. -/
def lenAt : ℕ := (m (ptr + (off + 1))).toNat

/-- The structure at `off` is taken for a local APIC. -/
def IsLocalApic : Prop := m (ptr + off) = 0 ∧ 8 ≤ lenAt m ptr off

instance : Decidable (IsLocalApic m ptr off) := inferInstanceAs (Decidable (_ ∧ _))

/-- The reads of one turn. -/
def readsAt : List Access :=
  [⟨off, 1⟩, ⟨off + 1, 1⟩] ++ if IsLocalApic m ptr off then [⟨off + 3, 1⟩, ⟨off + 4, 4⟩] else []

/-- The APIC ids that one turn adds. -/
def idsAt : List UInt8 :=
  if IsLocalApic m ptr off ∧ leNat (read m (ptr + (off + 4)) 4) &&& 1 ≠ 0 then
    [m (ptr + (off + 3))]
  else []

end

section
variable {m : Mem} {ptr total off : ℕ} {ids : List UInt8} {log : List Access}

/-- A byte is read and noted. -/
@[simp] theorem readU8_run :
    readU8 ptr off (m, log) = .ok (m (ptr + off)) (m, log ++ [⟨off, 1⟩]) := rfl

/-- Four bytes are read and noted. -/
@[simp] theorem readU32_run :
    readU32 ptr off (m, log) = .ok (leNat (read m (ptr + off) 4)) (m, log ++ [⟨off, 4⟩]) := rfl

/-- Where the table has no room for another structure, the loop is over. -/
theorem parseMadtFrom_stop (h : ¬ off + 2 ≤ total) :
    parseMadtFrom ptr total off ids (m, log) = .ok ids (m, log) := by
  unfold parseMadtFrom
  rw [if_neg h]
  rfl

/-- A structure without a proper length ends the loop. -/
theorem parseMadtFrom_break (h : off + 2 ≤ total) (hlen : lenAt m ptr off < 2) :
    parseMadtFrom ptr total off ids (m, log) =
      .ok ids (m, log ++ [⟨off, 1⟩, ⟨off + 1, 1⟩]) := by
  unfold parseMadtFrom
  rw [if_pos h, bind_of_ok readU8_run, bind_of_ok readU8_run]
  simp only [if_pos (show (m (ptr + (off + 1))).toNat < 2 from hlen), pure_apply,
    List.append_assoc, List.cons_append, List.nil_append]

/-- One turn of the loop, over a structure of a proper length. -/
theorem parseMadtFrom_next (h : off + 2 ≤ total) (hlen : 2 ≤ lenAt m ptr off) :
    parseMadtFrom ptr total off ids (m, log) =
      parseMadtFrom ptr total (off + lenAt m ptr off) (ids ++ idsAt m ptr off)
        (m, log ++ readsAt m ptr off) := by
  rw [parseMadtFrom, if_pos h, bind_of_ok readU8_run, bind_of_ok readU8_run]
  simp only [if_neg (show ¬ (m (ptr + (off + 1))).toNat < 2 from Nat.not_lt.2 hlen)]
  have hif : (m (ptr + off) = 0 ∧ 8 ≤ (m (ptr + (off + 1))).toNat) = IsLocalApic m ptr off := rfl
  simp only [hif]
  by_cases happ : IsLocalApic m ptr off
  · rw [if_pos happ, bind_of_ok readU8_run, bind_of_ok readU32_run, bind_of_ok (pure_apply _ _)]
    simp [idsAt, readsAt, happ, lenAt]
    split <;> simp_all
  · rw [if_neg happ, bind_of_ok (pure_apply _ _)]
    simp [idsAt, readsAt, happ, lenAt]

end

/-! ## Well-formed tables -/

/-- An interrupt-controller structure: a type, a length byte and a body. A local APIC has a body of
six bytes at least. -/
structure IcStructure where
  type : UInt8
  body : List UInt8
  length_lt : 2 + body.length < 256
  localApic : type = 0 → 6 ≤ body.length

namespace IcStructure

/-- The bytes of the structure. Its second byte is its size. -/
def bytes (c : IcStructure) : List UInt8 := c.type :: UInt8.ofNat (2 + c.body.length) :: c.body

/-- The APIC id of a local APIC, behind its processor id. -/
def apicId (c : IcStructure) : UInt8 := c.bytes.getD 3 0

/-- The flags of a local APIC. -/
def flags (c : IcStructure) : ℕ := field c.bytes 4 4

/-- A local APIC with the enabled flag set. -/
def Enabled (c : IcStructure) : Prop := c.type = 0 ∧ c.flags.testBit 0

instance (c : IcStructure) : Decidable c.Enabled := inferInstanceAs (Decidable (_ ∧ _))

/-- A structure is its two bytes and its body. -/
@[simp] theorem length_bytes (c : IcStructure) : c.bytes.length = 2 + c.body.length := by
  simp [bytes]
  omega

end IcStructure

/-- A well-formed table: the fixed part, and structures up to the length that the header states. -/
structure Madt where
  header : List UInt8
  structures : List IcStructure
  header_length : header.length = madtSize
  length_eq : field header 4 4 = madtSize + (structures.flatMap IcStructure.bytes).length

namespace Madt

/-- The bytes of the table. -/
def bytes (t : Madt) : List UInt8 := t.header ++ t.structures.flatMap IcStructure.bytes

/-- The address of the local APIC. -/
def lapicAddr (t : Madt) : ℕ := field t.header 36 4

/-- The ids of the enabled local APICs, in order. -/
def enabledIds (t : Madt) : List UInt8 :=
  (t.structures.filter fun c => c.Enabled).map IcStructure.apicId

end Madt

section
variable {m : Mem} {ptr total off : ℕ} {ids : List UInt8} {log : List Access}

/-- What the memory holds at a structure. -/
theorem lenAt_of_read {c : IcStructure} (h : read m (ptr + off) c.bytes.length = c.bytes) :
    lenAt m ptr off = c.bytes.length := by
  have hbyte : m (ptr + off + 1) = c.bytes.getD 1 0 := by
    rw [← h, getD_read _ _ (by rw [c.length_bytes]; omega)]
  have hlt := c.length_lt
  rw [lenAt, ← Nat.add_assoc, hbyte, c.length_bytes]
  exact UInt8.toNat_ofNat_of_lt' hlt

/-- The id of the structure at the place, if it is an enabled local APIC. -/
theorem idsAt_of_read {c : IcStructure} (h : read m (ptr + off) c.bytes.length = c.bytes) :
    idsAt m ptr off = if c.Enabled then [c.apicId] else [] := by
  have hlen := lenAt_of_read h
  have htype : m (ptr + off) = c.type := by
    have := getD_read m (ptr + off) (show 0 < c.bytes.length by rw [c.length_bytes]; omega) 0
    rw [h] at this
    exact this.symm
  by_cases h0 : c.type = 0
  · have hbody := c.localApic h0
    have hl := c.length_bytes
    have hid : m (ptr + (off + 3)) = c.apicId := by
      rw [IcStructure.apicId, ← h, getD_read _ _ (by omega), Nat.add_assoc]
    have hflags : leNat (read m (ptr + (off + 4)) 4) = c.flags := by
      rw [IcStructure.flags, field, ← h, slice_read m _ (by omega), Nat.add_assoc]
    have hlocal : IsLocalApic m ptr off := ⟨htype.trans h0, by omega⟩
    have hbit : c.flags &&& 1 ≠ 0 ↔ c.flags.testBit 0 = true := by
      have hzero := Bits.and_bit_eq_zero (e := c.flags) (k := 0)
      rw [Nat.pow_zero] at hzero
      rw [← Bool.not_eq_false]
      exact not_congr hzero
    simp only [idsAt, hlocal, hflags, hid, true_and, hbit, IcStructure.Enabled, h0]
  · rw [idsAt, if_neg, if_neg]
    · exact fun he => h0 he.1
    · exact fun hl => h0 (htype ▸ hl.1.1)

/-- The loop over structures that fill the table. -/
theorem parseMadtFrom_exact (cs : List IcStructure) (off : ℕ) (ids : List UInt8)
    (log : List Access) (h : read m (ptr + off) (cs.flatMap IcStructure.bytes).length =
      cs.flatMap IcStructure.bytes)
    (htotal : off + (cs.flatMap IcStructure.bytes).length = total) :
    ∃ log', parseMadtFrom ptr total off ids (m, log) =
      .ok (ids ++ (cs.filter fun c => c.Enabled).map IcStructure.apicId) (m, log') := by
  induction cs generalizing off ids log with
  | nil =>
    refine ⟨log, ?_⟩
    rw [parseMadtFrom_stop (by simp at htotal; omega)]
    simp
  | cons c cs ih =>
    rw [List.flatMap_cons, List.length_append] at htotal h
    rw [read_add] at h
    obtain ⟨hc, hcs⟩ := List.append_inj h (length_read _ _ _)
    have hlen := lenAt_of_read hc
    have hl := c.length_bytes
    obtain ⟨log', hrun⟩ := ih (off + c.bytes.length) (ids ++ idsAt m ptr off)
      (log ++ readsAt m ptr off) (by rwa [← Nat.add_assoc]) (by omega)
    refine ⟨log', ?_⟩
    rw [parseMadtFrom_next (by omega) (by omega), hlen, hrun, idsAt_of_read hc, List.filter_cons]
    split <;> simp_all

/-- On a well-formed table `parse_madt` returns the address of the local APIC and the ids of exactly
the enabled local APICs. -/
theorem parseMadt_exact (t : Madt) (h : read m ptr t.bytes.length = t.bytes) :
    ∃ log', parseMadt ptr (m, log) = .ok (t.lapicAddr, t.enabledIds) (m, log') := by
  have hl := t.header_length
  rw [Madt.bytes, List.length_append, read_add] at h
  obtain ⟨hheader, hrest⟩ := List.append_inj h (length_read _ _ _)
  have hfield : ∀ o, o + 4 ≤ t.header.length → leNat (read m (ptr + o) 4) = field t.header o 4 := by
    intro o ho
    rw [field, ← hheader, slice_read m _ ho]
  have h44 : t.header.length = 44 := hl
  obtain ⟨log', hrun⟩ := parseMadtFrom_exact t.structures madtSize []
    (log ++ [⟨36, 4⟩] ++ [⟨4, 4⟩]) (hl ▸ hrest) t.length_eq.symm
  refine ⟨log', ?_⟩
  rw [parseMadt, bind_of_ok readU32_run, bind_of_ok readU32_run, hfield 36 (by omega),
    hfield 4 (by omega), bind_of_ok hrun]
  rfl

/-- A table with one enabled local APIC and one that is not. -/
def twoCpus : Madt where
  header := [0x41, 0x50, 0x49, 0x43] ++ toLe 4 60 ++ List.replicate 28 0 ++ toLe 4 0xFEE00000 ++
    toLe 4 1
  structures := [
    ⟨0, [1, 7, 1, 0, 0, 0], by decide, fun _ => by decide⟩,
    ⟨0, [2, 9, 0, 0, 0, 0], by decide, fun _ => by decide⟩]
  header_length := by decide
  length_eq := by decide

/-- A memory that holds the table. -/
def twoCpusMem : Mem := write (fun _ => 0) 0x1000 twoCpus.bytes

/-- The enabled one is found. -/
theorem parseMadt_twoCpus : ∃ log', parseMadt 0x1000 (twoCpusMem, []) =
    .ok (twoCpus.lapicAddr, twoCpus.enabledIds) (twoCpusMem, log') :=
  parseMadt_exact twoCpus (read_write_self _ _ _)

example : (twoCpus.lapicAddr, twoCpus.enabledIds) = (0xFEE00000, [7]) := by decide

end

/-! ## Reads inside the table -/

/-- The length that the header states. -/
def tableLength (m : Mem) (ptr : ℕ) : ℕ := leNat (read m (ptr + 4) 4)

/-- The position behind the structure at `off`, where the loop goes on. -/
def nextAt (m : Mem) (ptr total off : ℕ) : Option ℕ :=
  if off + 2 ≤ total ∧ 2 ≤ lenAt m ptr off then some (off + lenAt m ptr off) else none

/-- The loop that starts at `off` comes to no local APIC whose fixed part ends outside the table. -/
def LocalApicsFit (m : Mem) (ptr total : ℕ) : ℕ → Prop :=
  Scan.Throughout (nextAt m ptr total) fun off =>
    off + 2 ≤ total → IsLocalApic m ptr off → off + 8 ≤ total

section
variable {m : Mem} {ptr total off : ℕ} {ids : List UInt8} {log : List Access}

/-- Where the loop stops nothing is asked. -/
theorem localApicsFit_of_stop (h : ¬ (off + 2 ≤ total ∧ 2 ≤ lenAt m ptr off)) :
    LocalApicsFit m ptr total off := by
  have hnext : nextAt m ptr total off = none := if_neg h
  refine (Scan.throughout_of_none hnext).2 fun hroom happ => absurd ⟨hroom, ?_⟩ h
  exact Nat.le_trans (by decide) happ.2

/-- Where it goes on, the structure fits and so do the rest. -/
theorem localApicsFit_next (h : off + 2 ≤ total) (hlen : 2 ≤ lenAt m ptr off) :
    LocalApicsFit m ptr total off ↔ (IsLocalApic m ptr off → off + 8 ≤ total) ∧
      LocalApicsFit m ptr total (off + lenAt m ptr off) := by
  have hnext : nextAt m ptr total off = some (off + lenAt m ptr off) := if_pos ⟨h, hlen⟩
  rw [LocalApicsFit, Scan.throughout_of_some hnext]
  exact and_congr_left' (forall_prop_of_true h)

/-- The reads of one turn are inside the table when the fixed part of a local APIC is. -/
theorem readsAt_inside (h : off + 2 ≤ total) :
    (∀ a ∈ readsAt m ptr off, a.Inside total) ↔ (IsLocalApic m ptr off → off + 8 ≤ total) := by
  by_cases happ : IsLocalApic m ptr off
  · simp [readsAt, happ, Access.Inside]
    omega
  · simp [readsAt, happ, Access.Inside]
    omega

/-- The loop returns, and its reads are inside the table just when the local APICs are. -/
theorem parseMadtFrom_inside (m : Mem) (ptr total off : ℕ) (ids : List UInt8) (log : List Access)
    (n : ℕ) (hn : total - off ≤ n) :
    ∃ ids' log', parseMadtFrom ptr total off ids (m, log) = .ok ids' (m, log ++ log') ∧
      ((∀ a ∈ log', a.Inside total) ↔ LocalApicsFit m ptr total off) := by
  induction n generalizing off ids log with
  | zero =>
    have hstop : ¬ off + 2 ≤ total := by omega
    refine ⟨ids, [], ?_, ?_⟩
    · rw [parseMadtFrom_stop hstop, List.append_nil]
    · exact ⟨fun _ => localApicsFit_of_stop fun h => hstop h.1, fun _ a ha => by cases ha⟩
  | succ n ih =>
    by_cases h : off + 2 ≤ total
    · by_cases hlen : 2 ≤ lenAt m ptr off
      · obtain ⟨ids', log', hrun, hin⟩ := ih (off + lenAt m ptr off)
          (ids ++ idsAt m ptr off) (log ++ readsAt m ptr off) (by omega)
        refine ⟨ids', readsAt m ptr off ++ log', ?_, ?_⟩
        · rw [parseMadtFrom_next h hlen, hrun, List.append_assoc]
        · rw [localApicsFit_next h hlen, ← readsAt_inside h, ← hin]
          exact List.forall_mem_append
      · refine ⟨ids, _, parseMadtFrom_break h (by omega), ?_⟩
        refine ⟨fun _ => localApicsFit_of_stop fun h => hlen h.2, fun _ => ?_⟩
        simp [Access.Inside]
        omega
    · refine ⟨ids, [], ?_, ?_⟩
      · rw [parseMadtFrom_stop h, List.append_nil]
      · exact ⟨fun _ => localApicsFit_of_stop fun hc => h hc.1, fun _ a ha => by cases ha⟩

/-- `parse_madt` returns on every table. It reads inside the table just when each local APIC that
the length bytes lead to has its fixed part there. -/
theorem parseMadt_inside_iff (m : Mem) (ptr : ℕ) (h : madtSize ≤ tableLength m ptr) :
    ∃ r log, parseMadt ptr (m, []) = .ok r (m, log) ∧
      ((∀ a ∈ log, a.Inside (tableLength m ptr)) ↔
        LocalApicsFit m ptr (tableLength m ptr) madtSize) := by
  obtain ⟨ids, log, hrun, hin⟩ := parseMadtFrom_inside m ptr (tableLength m ptr) madtSize []
    [⟨36, 4⟩, ⟨4, 4⟩] _ le_rfl
  refine ⟨(leNat (read m (ptr + 36) 4), ids), [⟨36, 4⟩, ⟨4, 4⟩] ++ log, ?_, ?_⟩
  · rw [parseMadt, bind_of_ok readU32_run, bind_of_ok readU32_run]
    exact bind_of_ok hrun
  · have h44 : 44 ≤ tableLength m ptr := h
    rw [← hin, List.forall_mem_append]
    refine and_iff_right fun a ha => ?_
    simp only [List.mem_cons, List.not_mem_nil, or_false] at ha
    rcases ha with rfl | rfl <;> simp only [Access.Inside] <;> omega

/-- The table with two local APICs is long enough for the fixed part. -/
theorem parseMadt_twoCpus_inside :
    ∃ r log, parseMadt 0x1000 (twoCpusMem, []) = .ok r (twoCpusMem, log) ∧
      ((∀ a ∈ log, a.Inside (tableLength twoCpusMem 0x1000)) ↔
        LocalApicsFit twoCpusMem 0x1000 (tableLength twoCpusMem 0x1000) madtSize) :=
  parseMadt_inside_iff twoCpusMem 0x1000 (by decide)

/-- A table that ends behind the length byte of its only structure, a local APIC of 8 bytes. -/
def cutShort : Mem := write (fun _ => 0) 0x1000
  ([0x41, 0x50, 0x49, 0x43] ++ toLe 4 46 ++ List.replicate 36 0 ++ [0, 8])

/-- There the parser reads the flags, six bytes behind the table. -/
theorem parseMadt_cutShort : ¬ ∀ (m : Mem) (ptr : ℕ), madtSize ≤ tableLength m ptr →
    ∃ r log, parseMadt ptr (m, []) = .ok r (m, log) ∧
      ∀ a ∈ log, a.Inside (tableLength m ptr) := by
  intro h
  obtain ⟨r, log, hrun, hin⟩ := h cutShort 0x1000 (by decide)
  have hturn : parseMadt 0x1000 (cutShort, []) = .ok (0, [])
      (cutShort, [⟨36, 4⟩, ⟨4, 4⟩, ⟨44, 1⟩, ⟨45, 1⟩, ⟨47, 1⟩, ⟨48, 4⟩]) := by
    have htotal : leNat (read cutShort (0x1000 + 4) 4) = 46 := by decide
    have hids : idsAt cutShort 0x1000 madtSize = [] := by decide
    have hreads : readsAt cutShort 0x1000 madtSize = [⟨44, 1⟩, ⟨45, 1⟩, ⟨47, 1⟩, ⟨48, 4⟩] := by
      decide
    rw [parseMadt, bind_of_ok readU32_run, bind_of_ok readU32_run, htotal]
    refine bind_of_ok ((parseMadtFrom_next (by decide) (by decide)).trans ?_)
    rw [parseMadtFrom_stop (by decide), hids, hreads]
    rfl
  rw [hturn] at hrun
  cases hrun
  exact absurd (hin ⟨48, 4⟩ (by decide)) (by decide)

end

end Acpi

end RossOs
