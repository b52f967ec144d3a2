import RossOs.Lib.Bits
import RossOs.Lib.Bytes
import RossOs.Lib.Exec
import RossOs.Pmm.Invariant

/-!
# The page tables

`ross-kernel/src/paging.rs` and `ross-kernel/src/mmap.rs` over physical memory, byte by byte. The
kernel reaches physical memory through its window at `KERNEL_VMA_BASE`: `phys_to_virt` gives the
address in the window, and an access there is an access to the physical byte. The sum in
`phys_to_virt` panics when it leaves 64 bits, that is from 2 GiB of physical memory on.

The page allocator is a parameter, `PageAllocator`: it hands out page-aligned frames below 1 GiB and
hands out none again that is taken, and it fails when it has none left. `PmmState` is the instance
the kernel runs with. `walk` is the processor's own walk of the four levels.
-/

namespace RossOs

open ByteMem

/-- A page allocator: its free frames, and `alloc_page`, which takes one of them. -/
class PageAllocator (σ : Type) where
  allocPage : σ → Option (ℕ × σ)
  /-- The frames the allocator may still hand out. -/
  free : σ → Set ℕ
  mem_free : ∀ {s s' : σ} {f : ℕ}, allocPage s = some (f, s') → f ∈ free s
  free_eq : ∀ {s s' : σ} {f : ℕ}, allocPage s = some (f, s') → free s' = free s \ {f}
  /-- How many frames are left. -/
  avail : σ → ℕ
  avail_none : ∀ {s : σ}, allocPage s = none → avail s = 0
  avail_some : ∀ {s s' : σ} {f : ℕ}, allocPage s = some (f, s') → avail s = avail s' + 1
  aligned : ∀ {s : σ} {f : ℕ}, f ∈ free s → 4096 ∣ f
  below : ∀ {s : σ} {f : ℕ}, f ∈ free s → f < 2 ^ 30

/-- The frames of the clear bits of the bitmap. -/
def PmmState.freeFrames (s : PmmState) : Set ℕ := {a | ∃ p ∈ s.freePages, a = p * Pmm.pageSize}

/-- The frame allocated was free. -/
theorem PmmState.allocPage_mem_freeFrames {s s' : PmmState} {f : ℕ}
    (h : s.allocPage = some (f, s')) : f ∈ s.freeFrames := by
  obtain ⟨p, hp, rfl, -⟩ := PmmState.allocPage_some h
  exact ⟨p, hp, rfl⟩

/-- The frame allocated is free no more; the others stay free. -/
theorem PmmState.allocPage_freeFrames {s s' : PmmState} {f : ℕ} (h : s.allocPage = some (f, s')) :
    s'.freeFrames = s.freeFrames \ {f} := by
  obtain ⟨p, hp, rfl, -, hfree, -⟩ := PmmState.allocPage_some h
  ext a
  simp only [freeFrames, hfree, Set.mem_sdiff, Set.mem_ofPred_eq, Set.mem_singleton_iff,
    Finset.mem_erase]
  constructor
  · rintro ⟨q, ⟨hne, hq⟩, rfl⟩
    exact ⟨⟨q, hq, rfl⟩, fun h => hne (Nat.eq_of_mul_eq_mul_right (by decide) h)⟩
  · rintro ⟨⟨q, hq, rfl⟩, hne⟩
    exact ⟨q, ⟨fun h => hne (by rw [h]), hq⟩, rfl⟩

/-- The allocator fails when no page is free. -/
theorem PmmState.allocPage_none_card {s : PmmState} (h : s.allocPage = none) :
    s.freePages.card = 0 := by
  rw [PmmState.allocPage_eq_none.1 h, Finset.card_empty]

/-- An allocation takes one page. -/
theorem PmmState.allocPage_some_card {s s' : PmmState} {f : ℕ} (h : s.allocPage = some (f, s')) :
    s.freePages.card = s'.freePages.card + 1 := by
  obtain ⟨p, hp, -, -, hfree, -⟩ := PmmState.allocPage_some h
  rw [hfree, Finset.card_erase_add_one hp]

/-- Frames lie at page boundaries. -/
theorem PmmState.freeFrames_aligned {s : PmmState} {f : ℕ} (h : f ∈ s.freeFrames) : 4096 ∣ f := by
  obtain ⟨p, -, rfl⟩ := h
  exact Nat.dvd_mul_left _ _

/-- Frames lie below 1 GiB. -/
theorem PmmState.freeFrames_below {s : PmmState} {f : ℕ} (h : f ∈ s.freeFrames) : f < 2 ^ 30 := by
  obtain ⟨p, hp, rfl⟩ := h
  have := (PmmState.mem_freePages.1 hp).1
  simp only [Pmm.maxPages, Pmm.bitmapBytes, Pmm.pageSize, Nat.reduceMul] at *
  omega

/-- The kernel's allocator: the free frames are those of the clear bits of its bitmap. -/
instance : PageAllocator PmmState where
  allocPage := PmmState.allocPage
  free := PmmState.freeFrames
  mem_free := PmmState.allocPage_mem_freeFrames
  free_eq := PmmState.allocPage_freeFrames
  avail s := s.freePages.card
  avail_none := PmmState.allocPage_none_card
  avail_some := PmmState.allocPage_some_card
  aligned := PmmState.freeFrames_aligned
  below := PmmState.freeFrames_below

/-- The pages available are the free ones. -/
theorem PmmState.avail_eq (s : PmmState) : PageAllocator.avail s = s.freePages.card := rfl

/-- The free frames are those of the free pages. -/
theorem PmmState.mem_free {s : PmmState} {f : ℕ} :
    f ∈ PageAllocator.free s ↔ ∃ p ∈ s.freePages, f = p * Pmm.pageSize := Iff.rfl

/-- The part of the kernel's state the memory functions share: physical memory and the page
allocator. -/
structure Machine (σ : Type) where
  mem : Mem
  pages : σ

namespace Paging

/-! ## Constants -/

/-- `PRESENT`. -/
def present : ℕ := 1
/-- `WRITABLE`. -/
def writable : ℕ := 2
/-- `USER`. -/
def user : ℕ := 4
/-- `HUGE_PAGE`: the entry of a page directory maps 2 MB. -/
def hugePage : ℕ := 0x80

/-- `KERNEL_VMA_BASE`. -/
def kernelVmaBase : ℕ := 0xFFFFFFFF80000000

/-- `!0xFFF` on 64 bits. -/
def notFFF : ℕ := 0xFFFFFFFFFFFFF000

/-- The address bits of a table entry, as the code takes them. -/
def frameOf (e : ℕ) : ℕ := e &&& notFFF

/-- The index into the table of a level: `(vaddr >> shift) & 0x1FF`. -/
def index (shift vaddr : ℕ) : ℕ := vaddr >>> shift &&& 0x1FF

/-! ## Accesses through the kernel's window -/

section
variable {ε σ : Type}

/-- `phys_to_virt`. -/
def physToVirt (phys : ℕ) : Exec ε (Machine σ) ℕ :=
  if phys + kernelVmaBase < 2 ^ 64 then pure (phys + kernelVmaBase) else Exec.panic

/-- `table.entries[i]`, for the address of a table in the window. -/
def getEntry (table i : ℕ) : Exec ε (Machine σ) ℕ :=
  fun s => .ok (word s.mem (table - kernelVmaBase) i) s

/-- `table.entries[i] = v`. -/
def setEntry (table i v : ℕ) : Exec ε (Machine σ) PUnit :=
  modify fun s => { s with mem := setWord s.mem (table - kernelVmaBase) i v }

/-- `entries.fill(0)`, and `write_bytes(ptr, 0, 4096)` on a data page. -/
def zeroPage (ptr : ℕ) : Exec ε (Machine σ) PUnit :=
  modify fun s => { s with mem := clear s.mem (ptr - kernelVmaBase) 4096 }

variable [PageAllocator σ]

/-- `pmm::alloc_page()`. -/
def allocPage : Exec ε (Machine σ) (Option ℕ) := fun s =>
  match PageAllocator.allocPage s.pages with
  | none => .ok none s
  | some (f, pages) => .ok (some f) { s with pages := pages }

/-- `pmm::alloc_page().expect(..)`. -/
def allocPageExpect : Exec ε (Machine σ) ℕ := do
  match ← allocPage with
  | none => Exec.panic
  | some f => pure f

end

/-! ## The kernel's own tables -/

/-- The physical addresses of the static tables `PML4`, `PDPT_LOW`, `PDPT_HIGH` and `PD[0..4]`:
distinct page-aligned frames inside the kernel's window. -/
structure KernelTables where
  pml4 : ℕ
  pdptLow : ℕ
  pdptHigh : ℕ
  pd : ℕ → ℕ
  nodup : [pml4, pdptLow, pdptHigh, pd 0, pd 1, pd 2, pd 3].Nodup
  frame : ∀ f ∈ [pml4, pdptLow, pdptHigh, pd 0, pd 1, pd 2, pd 3], 4096 ∣ f ∧ f < 2 ^ 31

/-- The static tables. -/
def KernelTables.frames (K : KernelTables) : List ℕ :=
  [K.pml4, K.pdptLow, K.pdptHigh, K.pd 0, K.pd 1, K.pd 2, K.pd 3]

/-- The entry of `PDPT_HIGH` that `init` points at `PD[i]`. -/
def highSlot : ℕ → ℕ
  | 0 => 510
  | 1 => 511
  | 2 => 508
  | _ => 509

/-- The body of `init`'s first loop: `PD[i]` in both PDPTs. -/
def linkDirectory (K : KernelTables) (m : Mem) (i : ℕ) : Mem :=
  let m := setWord m K.pdptLow i (K.pd i ||| present ||| writable ||| user)
  setWord m K.pdptHigh (highSlot i) (K.pd i ||| present ||| writable ||| user)

/-- The body of `init`'s second loop: `PD[i]` maps 1 GiB in 2 MB pages. -/
def fillDirectory (K : KernelTables) (m : Mem) (i : ℕ) : Mem :=
  (List.range 512).foldl (fun m entry => setWord m (K.pd i) entry
    (i * 0x40000000 + entry * 0x200000 ||| present ||| writable ||| hugePage ||| user)) m

/-- `paging::init`, on the memory that holds the static tables. -/
def init (K : KernelTables) (m : Mem) : Mem :=
  let m := setWord m K.pml4 0 (K.pdptLow ||| present ||| writable ||| user)
  let m := setWord m K.pml4 511 (K.pdptHigh ||| present ||| writable ||| user)
  let m := (List.range 4).foldl (linkDirectory K) m
  (List.range 4).foldl (fillDirectory K) m

/-! ## Address spaces -/

section
variable {ε σ : Type} [PageAllocator σ]

/-- One turn of `create_user_address_space`'s loop: a page directory that maps 1 GiB of physical
memory to itself in 2 MB pages for the kernel, except for the hole at 4 MB. -/
def identityDirectory (pdpt pdptIdx : ℕ) : Exec ε (Machine σ) PUnit := do
  let pdPhys ← allocPageExpect
  let pd ← physToVirt pdPhys
  zeroPage pd
  (List.range 512).forM fun pdIdx =>
    if pdptIdx = 0 ∧ pdIdx = 2 then pure ⟨⟩
    else setEntry pd pdIdx ((pdptIdx * 512 + pdIdx) * 0x200000 ||| 0x80 ||| 0x2 ||| 0x1)
  setEntry pdpt pdptIdx (pdPhys ||| 0x4 ||| 0x2 ||| 0x1)

/-- `create_user_address_space`. -/
def createUserAddressSpace (K : KernelTables) : Exec ε (Machine σ) ℕ := do
  let pml4Phys ← allocPageExpect
  let pml4 ← physToVirt pml4Phys
  zeroPage pml4
  setEntry pml4 511 (← getEntry (K.pml4 + kernelVmaBase) 511)
  let pdptPhys ← allocPageExpect
  let pdpt ← physToVirt pdptPhys
  zeroPage pdpt
  (List.range 4).forM (identityDirectory pdpt)
  setEntry pml4 0 (pdptPhys ||| 0x4 ||| 0x2 ||| 0x1)
  pure pml4Phys

/-- `lookup_page`. -/
def lookupPage (pml4Phys vaddr : ℕ) : Exec ε (Machine σ) (Option ℕ) := do
  let pml4 ← physToVirt pml4Phys
  let e4 ← getEntry pml4 (index 39 vaddr)
  if e4 = 0 then pure none
  else
    let pdpt ← physToVirt (frameOf e4)
    let e3 ← getEntry pdpt (index 30 vaddr)
    if e3 = 0 then pure none
    else
      let pd ← physToVirt (frameOf e3)
      let e2 ← getEntry pd (index 21 vaddr)
      if e2 = 0 ∨ e2 &&& hugePage ≠ 0 then pure none
      else
        let pt ← physToVirt (frameOf e2)
        let e1 ← getEntry pt (index 12 vaddr)
        if e1 = 0 then pure none else pure (some (frameOf e1))

/-- The step that `map_user_page` takes at each of the three upper levels: allocate and link a
zeroed table when the entry is `0`, then follow the entry. An entry that is not `0` is followed
whatever it is, a 2 MB page too. -/
def getOrCreate (table i : ℕ) : Exec ε (Machine σ) ℕ := do
  if (← getEntry table i) = 0 then
    let phys ← allocPageExpect
    zeroPage (← physToVirt phys)
    setEntry table i (phys ||| present ||| writable ||| user)
  physToVirt (frameOf (← getEntry table i))

/-- `map_user_page`. -/
def mapUserPage (pml4Phys vaddr paddr flags : ℕ) : Exec ε (Machine σ) PUnit := do
  let pml4 ← physToVirt pml4Phys
  let pdpt ← getOrCreate pml4 (index 39 vaddr)
  let pd ← getOrCreate pdpt (index 30 vaddr)
  let pt ← getOrCreate pd (index 21 vaddr)
  setEntry pt (index 12 vaddr) (paddr ||| flags ||| present ||| user)

/-- The loop of `alloc_anon` from page `i` on. The sum `base + i * 4096` panics when it leaves
64 bits. -/
def allocAnonFrom (cr3 base : ℕ) : (pages i : ℕ) → Exec String (Machine σ) PUnit
  | 0, _ => pure ⟨⟩
  | pages + 1, i => do
    if base + i * 4096 < 2 ^ 64 then
      match ← allocPage with
      | none => Exec.fail "mmap: OOM"
      | some phys =>
        zeroPage (← physToVirt phys)
        mapUserPage cr3 (base + i * 4096) phys 0x7
        allocAnonFrom cr3 base pages (i + 1)
    else Exec.panic

/-- `mmap::alloc_anon`. -/
def allocAnon (cr3 base pages : ℕ) : Exec String (Machine σ) PUnit := allocAnonFrom cr3 base pages 0

end

/-! ## The processor's walk -/

/-- The physical address in a table entry: bits 12 to 51. -/
def addrOf (e : ℕ) : ℕ := e % 2 ^ 52 / 4096 * 4096

/-- Where a walk ended: the physical address, the level of the leaf (`0` a 4 KB page, `1` a 2 MB
page, `2` a 1 GB page), whether every entry on the way had the user bit, and whether every one had
the writable bit. -/
structure Leaf where
  phys : ℕ
  level : ℕ
  user : Bool
  writable : Bool
deriving DecidableEq, Repr

/-- The walk from the table of a level on: `none` when an entry is not present. Bit 7 ends it in a
PDPT with a 1 GB page and in a PD with a 2 MB page. -/
def walkAt (m : Mem) (va : ℕ) : (level table : ℕ) → (user writable : Bool) → Option Leaf
  | 0, table, user, writable =>
    let e := word m table (index 12 va)
    if e.testBit 0 then
      some ⟨addrOf e + va % 2 ^ 12, 0, user && e.testBit 2, writable && e.testBit 1⟩
    else none
  | level + 1, table, user, writable =>
    let e := word m table (index (21 + 9 * level) va)
    if !e.testBit 0 then none
    else if e.testBit 7 && level < 2 then
      some ⟨addrOf e / 2 ^ (21 + 9 * level) * 2 ^ (21 + 9 * level) + va % 2 ^ (21 + 9 * level),
        level + 1, user && e.testBit 2, writable && e.testBit 1⟩
    else walkAt m va level (addrOf e) (user && e.testBit 2) (writable && e.testBit 1)

/-- The walk of the four levels for a virtual address. -/
def walk (m : Mem) (cr3 va : ℕ) : Option Leaf := walkAt m va 3 (addrOf cr3) true true

/-- The tables the walk reads, from the table of a level on. -/
def tablesAt (m : Mem) (va : ℕ) : (level table : ℕ) → List ℕ
  | 0, table => [table]
  | level + 1, table =>
    let e := word m table (index (21 + 9 * level) va)
    if !e.testBit 0 || e.testBit 7 && level < 2 then [table]
    else table :: tablesAt m va level (addrOf e)

/-- The tables the walk for a virtual address reads: the PML4, and the PDPT, PD and PT it reaches.
-/
def tables (m : Mem) (cr3 va : ℕ) : List ℕ := tablesAt m va 3 (addrOf cr3)

end Paging

end RossOs
