import RossOs.Lib.Bitmap

/-!
# The physical page allocator

The data the loader hands to the kernel (`ross-common/src/lib.rs`) and the page allocator of
`ross-kernel/src/pmm.rs`: a bitmap of 32 KB, one bit for each 4 KB page below 1 GiB, set when
the page is taken, with a counter of free pages and a counter of all pages ever offered. The
mutex around the state is not modelled: each function takes the state and returns the new one.
-/

namespace RossOs

open Bitmap

/-- What a memory region is used for (`ross_common::MemoryKind`). -/
inductive MemoryKind
  | usable
  | used
  | reserved
deriving DecidableEq, Repr

/-- A physical memory region (`ross_common::MemoryRegion`): base and size in bytes. -/
structure MemoryRegion where
  base : ℕ
  size : ℕ
  kind : MemoryKind
deriving DecidableEq, Repr

namespace Pmm

/-- The size of a page, `PAGE_SIZE`. -/
def pageSize : ℕ := 4096

/-- The size of the bitmap, `BITMAP_BYTES`. -/
def bitmapBytes : ℕ := 32 * 1024

/-- The number of pages the bitmap can describe, `MAX_PAGES`: 1 GiB of them. -/
def maxPages : ℕ := bitmapBytes * 8

end Pmm

open Pmm

/-- The allocator's state. The array `bitmap` has `bitmapBytes` bytes; the code reads and writes
it only below that index. -/
structure PmmState where
  bitmap : Bytes
  freeCount : ℕ
  totalCount : ℕ

namespace PmmState

/-- The state before `init`: every page is taken. -/
def new : PmmState where
  bitmap := fun _ => 0xFF
  freeCount := 0
  totalCount := 0

/-- The body of `init`'s inner loop: offer page `i`, unless an earlier region offered it. -/
def offerPage (s : PmmState) (i : ℕ) : PmmState :=
  if getBit s.bitmap i then
    { bitmap := clearBit s.bitmap i
      freeCount := s.freeCount + 1
      totalCount := s.totalCount + 1 }
  else s

/-- The page numbers of a region that `init` walks through: those that start in it and fit the
bitmap. -/
def regionPages (r : MemoryRegion) : List ℕ :=
  let start := r.base / pageSize
  let pages := r.size / pageSize
  List.range' start (min (start + pages) maxPages - start)

/-- The body of `init`'s outer loop. -/
def offerRegion (s : PmmState) (r : MemoryRegion) : PmmState :=
  if r.kind = .usable then (regionPages r).foldl offerPage s else s

/-- `pmm::init`. A null or empty map is the empty list, which leaves the state as it is. -/
def init (regions : List MemoryRegion) (s : PmmState) : PmmState :=
  regions.foldl offerRegion s

/-- The scan of `alloc_page` over the `n` bytes from `byteIdx` on. -/
def allocFrom (s : PmmState) : (n byteIdx : ℕ) → Option (ℕ × PmmState)
  | 0, _ => none
  | n + 1, byteIdx =>
    let byte := s.bitmap byteIdx
    if byte = 0xFF then allocFrom s n (byteIdx + 1)
    else
      match (List.range 8).find? (fun bit => byte &&& mask bit == 0) with
      | some bit =>
        some ((byteIdx * 8 + bit) * pageSize,
          { s with
            bitmap := setBit s.bitmap (byteIdx * 8 + bit)
            -- `saturating_sub`
            freeCount := s.freeCount - 1 })
      | none => allocFrom s n (byteIdx + 1)

/-- `pmm::alloc_page`: the address of the page taken, and the new state. -/
def allocPage (s : PmmState) : Option (ℕ × PmmState) := allocFrom s bitmapBytes 0

/-- `pmm::free_page`. -/
def freePage (addr : ℕ) (s : PmmState) : PmmState :=
  let page := addr / pageSize
  if maxPages ≤ page then s
  else if getBit s.bitmap page then
    { s with
      bitmap := clearBit s.bitmap page
      freeCount := s.freeCount + 1 }
  else s

/-! ## The pages that are free -/

/-- The numbers of the pages that are free. -/
def freePages (s : PmmState) : Finset ℕ := clearBits s.bitmap maxPages

/-- The free pages are the clear bits. -/
@[simp] theorem mem_freePages {s : PmmState} {p : ℕ} :
    p ∈ s.freePages ↔ p < maxPages ∧ getBit s.bitmap p = false := mem_clearBits

/-- At first no page is free. -/
@[simp] theorem freePages_new : new.freePages = ∅ := by
  ext p
  simp only [mem_freePages, new, getBit_eq, testBit_ff (Nat.mod_lt p (by decide : 0 < 8))]
  simp

/-- The scan of `alloc_page` fails when every bit it looks at is set, and otherwise takes a clear
bit of its range, the lowest one. -/
theorem allocFrom_spec (s : PmmState) : ∀ (n b : ℕ),
    (s.allocFrom n b = none ∧ ∀ p, b * 8 ≤ p → p < (b + n) * 8 → getBit s.bitmap p = true) ∨
    ∃ p, b * 8 ≤ p ∧ p < (b + n) * 8 ∧ getBit s.bitmap p = false ∧
      (∀ q, b * 8 ≤ q → q < p → getBit s.bitmap q = true) ∧
      s.allocFrom n b =
        some (p * pageSize, ⟨setBit s.bitmap p, s.freeCount - 1, s.totalCount⟩)
  | 0, b => .inl ⟨rfl, fun p h h' => by omega⟩
  | n + 1, b => by
    -- the bits of the byte at `b`, as bits of the array
    have hbyte : ∀ p, b * 8 ≤ p → p < b * 8 + 8 →
        getBit s.bitmap p = (s.bitmap b).toNat.testBit (p - b * 8) := by
      intro p h h'
      rw [getBit_eq, show p / 8 = b by omega, show p % 8 = p - b * 8 by omega]
    -- a byte without a clear bit leaves the answer to the rest of the scan
    have hrest : (∀ p, b * 8 ≤ p → p < b * 8 + 8 → getBit s.bitmap p = true) →
        s.allocFrom (n + 1) b = s.allocFrom n (b + 1) →
        (s.allocFrom (n + 1) b = none ∧
          ∀ p, b * 8 ≤ p → p < (b + (n + 1)) * 8 → getBit s.bitmap p = true) ∨
        ∃ p, b * 8 ≤ p ∧ p < (b + (n + 1)) * 8 ∧ getBit s.bitmap p = false ∧
          (∀ q, b * 8 ≤ q → q < p → getBit s.bitmap q = true) ∧
          s.allocFrom (n + 1) b =
            some (p * pageSize, ⟨setBit s.bitmap p, s.freeCount - 1, s.totalCount⟩) := by
      intro hset heq
      rw [heq]
      rcases allocFrom_spec s n (b + 1) with ⟨hnone, hall⟩ | ⟨p, h1, h2, h3, h4, h5⟩
      · refine .inl ⟨hnone, fun p h h' => ?_⟩
        rcases Nat.lt_or_ge p (b * 8 + 8) with hp | hp
        · exact hset p h hp
        · exact hall p (by omega) (by omega)
      · refine .inr ⟨p, by omega, by omega, h3, fun q h h' => ?_, h5⟩
        rcases Nat.lt_or_ge q (b * 8 + 8) with hq | hq
        · exact hset q h hq
        · exact h4 q (by omega) h'
    by_cases hff : s.bitmap b = 0xFF
    · refine hrest (fun p h h' => ?_) (by simp [allocFrom, hff])
      rw [hbyte p h h', hff]
      exact testBit_ff (by omega)
    · cases hfind : (List.range 8).find? (fun bit => s.bitmap b &&& mask bit == 0) with
      | none =>
        refine hrest (fun p h h' => ?_) (by simp [allocFrom, hff, hfind])
        have hbit := List.find?_eq_none.1 hfind (p - b * 8) (List.mem_range.2 (by omega))
        rw [hbyte p h h', ← and_mask_ne_zero _ (by omega)]
        simpa using hbit
      | some bit =>
        obtain ⟨hzero, hmem, hbefore⟩ := List.find?_range_eq_some.1 hfind
        have hlt : bit < 8 := List.mem_range.1 hmem
        have hbit : ∀ k < 8, (s.bitmap b &&& mask k == 0) = !(s.bitmap b).toNat.testBit k := by
          intro k hk
          rw [← and_mask_ne_zero _ hk]
          simp [bne]
        refine .inr ⟨b * 8 + bit, by omega, by omega, ?_, fun q h h' => ?_, ?_⟩
        · rw [hbyte _ (by omega) (by omega), Nat.add_sub_cancel_left]
          have := hbit bit hlt
          rw [hzero] at this
          simpa using this.symm
        · have := hbefore (q - b * 8) (by omega)
          rw [hbit _ (by omega)] at this
          rw [hbyte q h (by omega)]
          simpa using this
        · simp [allocFrom, hff, hfind]

/-- `alloc_page` fails when no page is free, and otherwise takes the lowest free page. -/
theorem allocPage_spec (s : PmmState) :
    (s.allocPage = none ∧ s.freePages = ∅) ∨
    ∃ p ∈ s.freePages, (∀ q ∈ s.freePages, p ≤ q) ∧
      s.allocPage = some (p * pageSize, ⟨setBit s.bitmap p, s.freeCount - 1, s.totalCount⟩) := by
  have hmax : (0 + bitmapBytes) * 8 = maxPages := by rw [Nat.zero_add]; rfl
  rcases s.allocFrom_spec bitmapBytes 0 with ⟨hnone, hall⟩ | ⟨p, -, hlt, hclear, hlow, heq⟩
  · refine .inl ⟨hnone, Finset.eq_empty_of_forall_notMem fun p hp => ?_⟩
    obtain ⟨hp1, hp2⟩ := mem_freePages.1 hp
    rw [hall p (by omega) (by rw [hmax]; exact hp1)] at hp2
    cases hp2
  · refine .inr ⟨p, mem_freePages.2 ⟨hmax ▸ hlt, hclear⟩, fun q hq => ?_, heq⟩
    by_contra hqp
    have := hlow q (by omega) (by omega)
    rw [(mem_freePages.1 hq).2] at this
    cases this

end PmmState

end RossOs
