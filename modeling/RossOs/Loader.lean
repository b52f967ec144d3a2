import RossOs.Pmm.Invariant

/-!
# From the loader to the page allocator

The loader (`rb-loader/src/main.rs`, `rb-loader/src/handoff.rs`) copies the firmware's memory
map, then asks the firmware for the pages of the kernel image and of the ramdisk, and jumps to
the kernel, which gives the copied map to `pmm::init`. The firmware is a parameter, `Uefi`: its
state, its memory map in a state, and `allocate_pages`, of which only the documented behaviour is
assumed, that the pages it returns are `CONVENTIONAL` in its map at that moment.

The copy is taken before the two allocations, so it still lists their pages as free:
`handsOut_free_iff` says exactly when no page of the image or the ramdisk is handed out again, and
`handsOut_image` that a firmware whose map does not change in between always loses the image.
-/

namespace RossOs

open Pmm

namespace Loader

/-- The memory types of a firmware memory map that the loader tells apart. -/
inductive MemoryType
  | conventional
  | loaderCode
  | loaderData
  | other (code : ℕ)
deriving DecidableEq, Repr

/-- An entry of the firmware's memory map: `pageCount` pages of 4 KB from `physStart` on. -/
structure MemoryDescriptor where
  ty : MemoryType
  physStart : ℕ
  pageCount : ℕ
deriving DecidableEq, Repr

/-- Where `allocate_pages` may place its pages. -/
inductive AllocateType
  | anyPages
  | address (addr : ℕ)

/-- A range of whole pages in physical memory. -/
structure Span where
  base : ℕ
  pages : ℕ
deriving DecidableEq, Repr

/-- The byte at `a` is in the span. -/
def Span.Has (sp : Span) (a : ℕ) : Prop := sp.base ≤ a ∧ a < sp.base + sp.pages * pageSize

/-- Every byte of the span is in a conventional region of the map. -/
def Span.Conventional (sp : Span) (map : List MemoryDescriptor) : Prop :=
  ∀ a, sp.Has a → ∃ d ∈ map, d.ty = .conventional ∧ d.physStart ≤ a ∧
    a < d.physStart + d.pageCount * pageSize

/-- The firmware: its memory map in each of its states, and `allocate_pages`, which returns
conventional pages of the map of that moment. -/
structure Uefi (φ : Type) where
  memoryMap : φ → List MemoryDescriptor
  allocatePages : φ → AllocateType → MemoryType → ℕ → Option (ℕ × φ)
  conventional : ∀ {s s' : φ} {t : AllocateType} {ty : MemoryType} {n a : ℕ},
    allocatePages s t ty n = some (a, s') → Span.Conventional ⟨a, n⟩ (memoryMap s)

/-- The number of regions the loader has room for, `MAX_REGIONS`. -/
def maxRegions : ℕ := 128

/-- The kind the kernel is told for a firmware memory type. -/
def kindOf : MemoryType → MemoryKind
  | .conventional => .usable
  | .loaderCode | .loaderData => .used
  | .other _ => .reserved

/-- The region the kernel is told for an entry of the firmware's map. -/
def regionOf (d : MemoryDescriptor) : MemoryRegion where
  base := d.physStart
  size := d.pageCount * pageSize
  kind := kindOf d.ty

/-- The copy of the firmware's map: its first `maxRegions` entries. -/
def captureMap (map : List MemoryDescriptor) : List MemoryRegion :=
  (map.take maxRegions).map regionOf

/-- The number of pages for a file. -/
def pagesFor (size : ℕ) : ℕ := (size + 4095) / 4096

section
variable {φ : Type} (u : Uefi φ)

/-- `load_kernel_file`: the pages at 2 MiB, or anywhere when these cannot be had. `none` is the
panic of the second `unwrap`. -/
def loadKernelFile (size : ℕ) (s : φ) : Option (Span × φ) :=
  match u.allocatePages s (.address 0x200000) .loaderCode (pagesFor size) with
  | some (addr, s') => some (⟨addr, pagesFor size⟩, s')
  | none =>
    match u.allocatePages s .anyPages .loaderCode (pagesFor size) with
    | some (addr, s') => some (⟨addr, pagesFor size⟩, s')
    | none => none

/-- `load_ramdisk_file`. `size` is `none` when there is no regular file `initrd.tar`; then, and
when there is no memory for it, the kernel gets a null pointer and no page is taken. -/
def loadRamdiskFile (size : Option ℕ) (s : φ) : Option Span × φ :=
  match size with
  | none => (none, s)
  | some size =>
    match u.allocatePages s .anyPages .loaderData (pagesFor size) with
    | some (addr, s') => (some ⟨addr, pagesFor size⟩, s')
    | none => (none, s)

/-- What the kernel starts with: the copied map, and the pages taken for the image and for the
ramdisk. -/
structure Handoff where
  memoryMap : List MemoryRegion
  image : Span
  ramdisk : Option Span

/-- `main` of the loader, as far as memory goes: copy the map, load the kernel, load the ramdisk.
`fw₁` and `fw₂` are what the other firmware calls between these steps (the graphics protocol, the
file system) do to the firmware's state. -/
def main (kernelSize : ℕ) (ramdiskSize : Option ℕ) (fw₁ fw₂ : φ → φ) (s : φ) :
    Option Handoff :=
  let regions := captureMap (u.memoryMap s)
  match loadKernelFile u kernelSize (fw₁ s) with
  | none => none
  | some (image, s₁) =>
    some ⟨regions, image, (loadRamdiskFile u ramdiskSize (fw₂ s₁)).1⟩

end

/-- The pages that must stay the kernel's: those of the image and of the ramdisk. -/
def Handoff.spans (h : Handoff) : List Span := h.image :: h.ramdisk.toList

/-- The kernel's allocator after `pmm::init` on the copied map. -/
def Handoff.pmm (h : Handoff) : PmmState := PmmState.init h.memoryMap PmmState.new

/-! ## Repeated allocation -/

/-- The addresses that `n` calls of `alloc_page` return. -/
def allocPages : ℕ → PmmState → List ℕ
  | 0, _ => []
  | n + 1, s =>
    match s.allocPage with
    | none => allocPages n s
    | some (a, s') => a :: allocPages n s'

/-- Every page that calls of `alloc_page` return was free before the first of them. -/
theorem mem_freePages_of_mem_allocPages {a : ℕ} : ∀ {n : ℕ} {s : PmmState},
    a ∈ allocPages n s → ∃ p ∈ s.freePages, a = p * pageSize
  | 0, _, h => nomatch h
  | n + 1, s, h => by
    rw [allocPages] at h
    split at h
    · exact mem_freePages_of_mem_allocPages h
    · rename_i b s' hb
      obtain ⟨p, hp, rfl, -, hfree, -⟩ := PmmState.allocPage_some hb
      rcases List.mem_cons.1 h with rfl | h
      · exact ⟨p, hp, rfl⟩
      · obtain ⟨q, hq, rfl⟩ := mem_freePages_of_mem_allocPages h
        rw [hfree] at hq
        exact ⟨q, Finset.mem_of_mem_erase hq, rfl⟩

/-- Every free page is returned by one of sufficiently many calls of `alloc_page`. -/
theorem exists_mem_allocPages {s : PmmState} {p : ℕ} (hp : p ∈ s.freePages) :
    ∃ n, p * pageSize ∈ allocPages n s := by
  -- each call takes one page off the free ones, so their number bounds the calls needed
  induction hk : s.freePages.card generalizing s with
  | zero => exact absurd hp (by rw [Finset.card_eq_zero.1 hk]; exact Finset.notMem_empty p)
  | succ k ih =>
    rcases s.allocPage_spec with ⟨-, hempty⟩ | ⟨q, hq, -, hsome⟩
    · exact absurd hp (by rw [hempty]; exact Finset.notMem_empty p)
    · by_cases hpq : p = q
      · exact ⟨1, by simp [allocPages, hsome, hpq]⟩
      · obtain ⟨_, -, he, -, hfree, -⟩ := PmmState.allocPage_some hsome
        obtain rfl := Nat.eq_of_mul_eq_mul_right (by decide) he
        have hcard := Finset.card_erase_of_mem hq
        rw [← hfree, hk, Nat.add_sub_cancel] at hcard
        obtain ⟨n, hn⟩ := ih (by rw [hfree]; exact Finset.mem_erase.2 ⟨hpq, hp⟩) hcard
        exact ⟨n + 1, by simp [allocPages, hsome, hn]⟩

/-! ## What the kernel hands out -/

/-- No sequence of `alloc_page` calls returns a frame that meets the image or the ramdisk. -/
def Handoff.Safe (h : Handoff) : Prop :=
  ∀ n, ∀ a ∈ allocPages n h.pmm, ∀ sp ∈ h.spans, ∀ x, a ≤ x → x < a + pageSize → ¬ sp.Has x

/-- The frames that calls of `alloc_page` return are the pages free at the start. -/
theorem safe_iff_freePages {h : Handoff} :
    h.Safe ↔ ∀ p ∈ h.pmm.freePages, ∀ sp ∈ h.spans, ∀ x, p * pageSize ≤ x →
      x < p * pageSize + pageSize → ¬ sp.Has x := by
  constructor
  · intro hsafe p hp
    obtain ⟨n, hn⟩ := exists_mem_allocPages hp
    exact hsafe n _ hn
  · intro hall n a ha
    obtain ⟨p, hp, rfl⟩ := mem_freePages_of_mem_allocPages ha
    exact hall p hp

/-- The page numbers of the captured map that `init` offers, read off the firmware's entries. -/
theorem mem_usablePages_captureMap {map : List MemoryDescriptor} {p : ℕ} :
    p ∈ PmmState.usablePages (captureMap map) ↔ p < maxPages ∧
      ∃ d ∈ map.take maxRegions, d.ty = .conventional ∧ d.physStart / pageSize ≤ p ∧
        p < d.physStart / pageSize + d.pageCount := by
  have hkind : ∀ t : MemoryType, kindOf t = .usable ↔ t = .conventional := by
    intro t
    cases t <;> simp [kindOf]
  have hsize : ∀ d : MemoryDescriptor, (regionOf d).size / pageSize = d.pageCount := fun d =>
    Nat.mul_div_cancel _ (by decide)
  rw [PmmState.mem_usablePages]
  refine and_congr_right fun _ => ⟨?_, ?_⟩
  · rintro ⟨r, hr, hk, h1, h2⟩
    obtain ⟨d, hd, rfl⟩ := List.mem_map.1 hr
    rw [hsize] at h2
    exact ⟨d, hd, (hkind d.ty).1 hk, h1, h2⟩
  · rintro ⟨d, hd, hk, h1, h2⟩
    exact ⟨regionOf d, List.mem_map_of_mem hd, (hkind d.ty).2 hk, h1, by rw [hsize]; exact h2⟩

section
variable {φ : Type} {u : Uefi φ} {kernelSize : ℕ} {ramdiskSize : Option ℕ} {fw₁ fw₂ : φ → φ}
  {s : φ} {h : Handoff}

/-- The map the kernel gets is the copy of the firmware's map before the allocations. -/
theorem main_memoryMap (hm : main u kernelSize ramdiskSize fw₁ fw₂ s = some h) :
    h.memoryMap = captureMap (u.memoryMap s) := by
  simp only [main] at hm
  split at hm
  · cases hm
  · cases hm; rfl

/-- The pages the kernel's allocator starts with, read off the copied map. -/
theorem main_freePages (hm : main u kernelSize ramdiskSize fw₁ fw₂ s = some h) {p : ℕ} :
    p ∈ h.pmm.freePages ↔ p < maxPages ∧ ∃ d ∈ (u.memoryMap s).take maxRegions,
      d.ty = .conventional ∧ d.physStart / pageSize ≤ p ∧
        p < d.physStart / pageSize + d.pageCount := by
  rw [Handoff.pmm, (PmmState.init_new _).1, main_memoryMap hm, mem_usablePages_captureMap]

/-- The image's pages are conventional in the firmware's map when they are allocated. -/
theorem main_image_conventional (hm : main u kernelSize ramdiskSize fw₁ fw₂ s = some h) :
    h.image.Conventional (u.memoryMap (fw₁ s)) := by
  simp only [main] at hm
  split at hm
  · cases hm
  · rename_i hl
    cases hm
    unfold loadKernelFile at hl
    split at hl
    · rename_i ha; cases hl; exact u.conventional ha
    · split at hl
      · rename_i ha; cases hl; exact u.conventional ha
      · cases hl

/-- **When the image and the ramdisk are safe.** After a boot, no sequence of `alloc_page` calls
returns a frame that meets the image or the ramdisk, if and only if no frame below 1 GiB in one of
the first 128 conventional entries of the map copied *before* the allocations meets them. -/
theorem handsOut_free_iff (hm : main u kernelSize ramdiskSize fw₁ fw₂ s = some h) :
    h.Safe ↔ ∀ d ∈ (u.memoryMap s).take maxRegions, d.ty = .conventional → ∀ p < maxPages,
      d.physStart / pageSize ≤ p → p < d.physStart / pageSize + d.pageCount →
      ∀ sp ∈ h.spans, ∀ x, p * pageSize ≤ x → x < p * pageSize + pageSize → ¬ sp.Has x := by
  rw [safe_iff_freePages]
  constructor
  · intro hall d hd hk p hp h1 h2
    exact hall p ((main_freePages hm).2 ⟨hp, d, hd, hk, h1, h2⟩)
  · intro hall p hp
    obtain ⟨hlt, d, hd, hk, h1, h2⟩ := (main_freePages hm).1 hp
    exact hall d hd hk p hlt h1 h2

/-- A firmware whose map did not change between the copy and the allocation, and has no more
entries than the loader copies, always loses the image: its pages below 1 GiB are handed out. -/
theorem handsOut_image (hm : main u kernelSize ramdiskSize fw₁ fw₂ s = some h)
    (hsame : u.memoryMap (fw₁ s) = u.memoryMap s) (hlen : (u.memoryMap s).length ≤ maxRegions)
    (halign : ∀ d ∈ u.memoryMap s, pageSize ∣ d.physStart)
    (hpages : 0 < h.image.pages) (hlow : h.image.base < 2 ^ 30) : ¬ h.Safe := by
  intro hsafe
  have hbase : h.image.Has h.image.base := ⟨Nat.le_refl _, by simp only [pageSize]; omega⟩
  obtain ⟨d, hd, hk, h1, h2⟩ := main_image_conventional hm _ hbase
  rw [hsame] at hd
  obtain ⟨q, hq⟩ := halign d hd
  have hfree : h.image.base / pageSize ∈ h.pmm.freePages := by
    refine (main_freePages hm).2 ⟨?_, d, by rwa [List.take_of_length_le hlen], hk,
      Nat.div_le_div_right h1, ?_⟩
    · simp only [pageSize, maxPages, bitmapBytes] at *; omega
    · rw [hq, Nat.mul_div_cancel_left _ (by decide : 0 < pageSize)]
      simp only [pageSize] at *; omega
  refine safe_iff_freePages.1 hsafe _ hfree h.image (by simp [Handoff.spans]) h.image.base
    (Nat.div_mul_le_self _ _) ?_ hbase
  simp only [pageSize]; omega

end

/-! ## A boot that hands out the image -/

/-- 8 MiB of conventional memory at 2 MiB. -/
def flatMemory : MemoryDescriptor := ⟨.conventional, 0x200000, 2048⟩

/-- A firmware with that memory, which grants a first request from its start and no other. The
state is the map: the pages granted become `LOADER_CODE`, the rest stay conventional. -/
def flatFirmware : Uefi (List MemoryDescriptor) where
  memoryMap map := map
  allocatePages map _ ty n :=
    if map = [flatMemory] ∧ n ≤ 2048 then
      some (0x200000, [⟨ty, 0x200000, n⟩, ⟨.conventional, 0x200000 + n * 4096, 2048 - n⟩])
    else none
  conventional := by
    intro map map' t ty n a h
    split at h
    · rename_i hn
      cases h
      rintro x ⟨h1, h2⟩
      refine ⟨flatMemory, by rw [hn.1]; simp, rfl, h1, ?_⟩
      simp only [pageSize, flatMemory, Nat.reduceMul] at h2 ⊢
      omega
    · cases h

/-- A kernel of one page, loaded at 2 MiB by that firmware, is handed out by its own allocator. -/
theorem handsOut_flatFirmware :
    ∃ h, main flatFirmware 4096 none id id [flatMemory] = some h ∧ h.image = ⟨0x200000, 1⟩ ∧
      ¬ h.Safe := by
  have hm : main flatFirmware 4096 none id id [flatMemory] =
      some ⟨captureMap [flatMemory], ⟨0x200000, 1⟩, none⟩ := rfl
  refine ⟨_, hm, rfl, handsOut_image hm rfl (by decide) ?_ (by decide) (by decide)⟩
  intro d hd
  rw [List.mem_singleton.1 hd]
  decide

/-- A boot that is safe: the firmware releases the memory of the image between the copy of the map,
which lists it as boot services data, and the allocation. -/
theorem handsOut_free_iff_released :
    ∃ h, main flatFirmware 4096 none (fun _ => [flatMemory]) id [⟨.other 4, 0x200000, 2048⟩] =
      some h ∧ h.image = ⟨0x200000, 1⟩ ∧ h.Safe := by
  have hm : main flatFirmware 4096 none (fun _ => [flatMemory]) id
      [⟨.other 4, 0x200000, 2048⟩] =
      some ⟨captureMap [⟨.other 4, 0x200000, 2048⟩], ⟨0x200000, 1⟩, none⟩ := rfl
  refine ⟨_, hm, rfl, (handsOut_free_iff hm).2 ?_⟩
  intro d hd hk
  rw [List.mem_singleton.1 (List.mem_of_mem_take hd)] at hk
  cases hk

end Loader

end RossOs
