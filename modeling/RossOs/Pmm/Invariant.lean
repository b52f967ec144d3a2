import RossOs.Pmm.Model

/-!
# The invariant of the page allocator

What `pmm::init`, `alloc_page` and `free_page` keep true together: the counter is the number of
clear bits, the clear bits are usable pages of the map given to `init`, and a page that is
handed out is neither clear nor handed out twice. `Run` is a history of calls in which only
pages that are out are given back, `Inv` the invariant, and `Run.inv` that it holds along every
history.
-/

namespace RossOs

open Bitmap Pmm

namespace PmmState

/-! ## What `init` offers -/

/-- The pages of the usable regions of a map that the bitmap can describe. -/
def usablePages (regions : List MemoryRegion) : Finset ℕ :=
  (Finset.range maxPages).filter fun p =>
    ∃ r ∈ regions, r.kind = .usable ∧ r.base / pageSize ≤ p ∧
      p < r.base / pageSize + r.size / pageSize

/-- The usable pages are the whole pages of usable regions below 1 GiB. -/
theorem mem_usablePages {regions : List MemoryRegion} {p : ℕ} :
    p ∈ usablePages regions ↔ p < maxPages ∧ ∃ r ∈ regions, r.kind = .usable ∧
      r.base / pageSize ≤ p ∧ p < r.base / pageSize + r.size / pageSize := by
  simp [usablePages]

/-- The pages of a region below 1 GiB. -/
theorem mem_regionPages {r : MemoryRegion} {p : ℕ} :
    p ∈ regionPages r ↔ p < maxPages ∧ r.base / pageSize ≤ p ∧
      p < r.base / pageSize + r.size / pageSize := by
  simp only [regionPages, List.mem_range'_1]
  omega

/-- The usable pages of a map are those of its first region and of the rest. -/
theorem usablePages_cons (r : MemoryRegion) (regions : List MemoryRegion) :
    usablePages (r :: regions) = usablePages regions ∪ usablePages [r] := by
  ext p
  simp only [Finset.mem_union, mem_usablePages]
  constructor
  · rintro ⟨hp, r', hr', h⟩
    rcases List.mem_cons.1 hr' with rfl | hr'
    · exact .inr ⟨hp, r', by simp, h⟩
    · exact .inl ⟨hp, r', hr', h⟩
  · rintro (⟨hp, r', hr', h⟩ | ⟨hp, r', hr', h⟩)
    · exact ⟨hp, r', List.mem_cons_of_mem _ hr', h⟩
    · exact ⟨hp, r', List.mem_cons.2 (.inl (List.mem_singleton.1 hr')), h⟩

/-- The pages `init` walks through for a usable region are its usable pages. -/
theorem regionPages_toFinset {r : MemoryRegion} (hk : r.kind = .usable) :
    (regionPages r).toFinset = usablePages [r] := by
  ext p
  rw [List.mem_toFinset, mem_regionPages, mem_usablePages]
  constructor
  · rintro ⟨hp, h1, h2⟩
    exact ⟨hp, r, by simp, hk, h1, h2⟩
  · rintro ⟨hp, r', hr', -, h1, h2⟩
    rw [List.mem_singleton] at hr'
    subst hr'
    exact ⟨hp, h1, h2⟩

/-- The two counters of `init`: both count the pages offered so far. -/
def Counted (s : PmmState) : Prop :=
  s.freeCount = s.freePages.card ∧ s.totalCount = s.freePages.card

/-- Offering a page makes it free, and the counters follow: a page offered twice is counted
once. -/
theorem offerPage_spec {s : PmmState} {p : ℕ} (hp : p < maxPages) (hc : Counted s) :
    (s.offerPage p).freePages = insert p s.freePages ∧ Counted (s.offerPage p) := by
  unfold offerPage
  split
  · rename_i hbit
    have hfree : clearBits (clearBit s.bitmap p) maxPages = insert p s.freePages :=
      clearBits_clearBit _ hp
    have hnot : p ∉ s.freePages := fun h => by
      rw [(mem_freePages.1 h).2] at hbit
      cases hbit
    have hcard : (clearBits (clearBit s.bitmap p) maxPages).card = s.freePages.card + 1 := by
      rw [hfree, Finset.card_insert_of_notMem hnot]
    exact ⟨hfree, (congrArg (· + 1) hc.1).trans hcard.symm,
      (congrArg (· + 1) hc.2).trans hcard.symm⟩
  · rename_i hbit
    have hmem : p ∈ s.freePages := mem_freePages.2 ⟨hp, by simpa using hbit⟩
    exact ⟨(Finset.insert_eq_of_mem hmem).symm, hc⟩

/-- Offering a list of pages makes them all free. -/
theorem foldl_offerPage_spec {ps : List ℕ} (hps : ∀ p ∈ ps, p < maxPages) :
    ∀ {s : PmmState}, Counted s →
      (ps.foldl offerPage s).freePages = ps.toFinset ∪ s.freePages ∧
        Counted (ps.foldl offerPage s) := by
  induction ps with
  | nil => intro s hc; exact ⟨by simp, hc⟩
  | cons p ps ih =>
    intro s hc
    obtain ⟨hfree, hc'⟩ := offerPage_spec (hps p (by simp)) hc
    obtain ⟨h1, h2⟩ := ih (fun q hq => hps q (List.mem_cons_of_mem _ hq)) hc'
    refine ⟨?_, h2⟩
    rw [List.foldl_cons, h1, hfree, List.toFinset_cons, Finset.union_insert,
      Finset.insert_union]

/-- `init` makes exactly the usable pages of the map free, and counts each once. -/
theorem init_spec (regions : List MemoryRegion) : ∀ {s : PmmState}, Counted s →
    (init regions s).freePages = usablePages regions ∪ s.freePages ∧
      Counted (init regions s) := by
  induction regions with
  | nil => intro s hc; exact ⟨by simp [init, usablePages], hc⟩
  | cons r regions ih =>
    intro s hc
    have hstep : (s.offerRegion r).freePages = usablePages [r] ∪ s.freePages ∧
        Counted (s.offerRegion r) := by
      unfold offerRegion
      split
      · rename_i hk
        obtain ⟨h1, h2⟩ := foldl_offerPage_spec (fun p hp => (mem_regionPages.1 hp).1) hc
        exact ⟨by rw [h1, regionPages_toFinset hk], h2⟩
      · rename_i hk
        refine ⟨?_, hc⟩
        have : usablePages [r] = ∅ := by
          ext p
          simp [mem_usablePages, hk]
        rw [this, Finset.empty_union]
    obtain ⟨h1, h2⟩ := ih hstep.2
    refine ⟨?_, h2⟩
    rw [init, List.foldl_cons]
    rw [init] at h1
    rw [h1, hstep.1]
    rw [← Finset.union_assoc, ← usablePages_cons r regions]

/-- `init` on a fresh state: the free pages are the usable pages of the map. -/
theorem init_new (regions : List MemoryRegion) :
    (init regions new).freePages = usablePages regions ∧ Counted (init regions new) := by
  have hc : Counted new := by rw [Counted, freePages_new]; exact ⟨rfl, rfl⟩
  obtain ⟨h1, h2⟩ := init_spec regions hc
  exact ⟨by simpa using h1, h2⟩

/-! ## Histories -/

/-- The histories of the allocator: `init` on a map, then `alloc_page` calls and `free_page`
calls on addresses that are out. `live` is the set of addresses that are out. -/
inductive Run (regions : List MemoryRegion) : PmmState → Finset ℕ → Prop
  | init : Run regions (init regions new) ∅
  | alloc {s s' : PmmState} {live : Finset ℕ} {a : ℕ} :
      Run regions s live → s.allocPage = some (a, s') → Run regions s' (insert a live)
  | free {s : PmmState} {live : Finset ℕ} {a : ℕ} :
      Run regions s live → a ∈ live → Run regions (s.freePage a) (live.erase a)

/-- The invariant of a history over the map `regions`, with the addresses `live` out. -/
structure Inv (regions : List MemoryRegion) (s : PmmState) (live : Finset ℕ) : Prop where
  counted : s.freeCount = s.freePages.card
  total : s.totalCount = (usablePages regions).card
  usable : s.freePages ⊆ usablePages regions
  out : ∀ a ∈ live, ∃ p ∈ usablePages regions, a = p * pageSize ∧ p ∉ s.freePages

variable {regions : List MemoryRegion} {s s' : PmmState} {live : Finset ℕ} {a : ℕ}

/-- What a successful `alloc_page` does to the invariant's view of the state. -/
theorem allocPage_some (h : s.allocPage = some (a, s')) :
    ∃ p ∈ s.freePages, a = p * pageSize ∧ (∀ q ∈ s.freePages, p ≤ q) ∧
      s'.freePages = s.freePages.erase p ∧ s'.freeCount = s.freeCount - 1 ∧
      s'.totalCount = s.totalCount := by
  rcases s.allocPage_spec with ⟨hnone, -⟩ | ⟨p, hp, hmin, hsome⟩
  · rw [hnone] at h; cases h
  · rw [hsome] at h
    cases h
    exact ⟨p, hp, rfl, hmin, clearBits_setBit _ _ _, rfl, rfl⟩

/-- `alloc_page` fails exactly when no page is free. -/
theorem allocPage_eq_none : s.allocPage = none ↔ s.freePages = ∅ := by
  rcases s.allocPage_spec with ⟨hnone, hempty⟩ | ⟨p, hp, -, hsome⟩
  · simp [hnone, hempty]
  · rw [hsome]
    simp [Finset.ne_empty_of_mem hp]

/-- The invariant holds once the regions are in. -/
theorem Inv.init : Inv regions (init regions new) ∅ := by
  obtain ⟨hfree, hc1, hc2⟩ := init_new regions
  refine ⟨hc1, ?_, ?_, by simp⟩
  · rw [hc2, hfree]
  · rw [hfree]

/-- An allocation keeps the invariant. -/
theorem Inv.alloc (hinv : Inv regions s live) (h : s.allocPage = some (a, s')) :
    Inv regions s' (insert a live) := by
  obtain ⟨p, hp, rfl, -, hfree, hcnt, htot⟩ := allocPage_some h
  refine ⟨?_, ?_, ?_, ?_⟩
  · rw [hcnt, hfree, Finset.card_erase_of_mem hp, hinv.counted]
  · rw [htot, hinv.total]
  · rw [hfree]
    exact (Finset.erase_subset _ _).trans hinv.usable
  · intro b hb
    rcases Finset.mem_insert.1 hb with rfl | hb
    · exact ⟨p, hinv.usable hp, rfl, by simp [hfree]⟩
    · obtain ⟨q, hq, rfl, hnot⟩ := hinv.out b hb
      exact ⟨q, hq, rfl, by rw [hfree]; exact fun h => hnot (Finset.mem_of_mem_erase h)⟩

/-- Giving back a page that is out makes it free and counts it. -/
theorem Inv.freePage_eq (hinv : Inv regions s live) (ha : a ∈ live) :
    ∃ p ∈ usablePages regions, a = p * pageSize ∧ p ∉ s.freePages ∧
      (s.freePage a).freePages = insert p s.freePages ∧
      (s.freePage a).freeCount = s.freeCount + 1 ∧ (s.freePage a).totalCount = s.totalCount := by
  obtain ⟨p, hp, rfl, hnot⟩ := hinv.out a ha
  have hlt : p < maxPages := (mem_usablePages.1 hp).1
  have hdiv : p * pageSize / pageSize = p := Nat.mul_div_cancel _ (by decide)
  have hbit : getBit s.bitmap p = true := by
    by_contra h
    exact hnot (mem_freePages.2 ⟨hlt, by simpa using h⟩)
  have hs : s.freePage (p * pageSize) =
      { s with bitmap := clearBit s.bitmap p, freeCount := s.freeCount + 1 } := by
    simp only [freePage, hdiv, if_neg (Nat.not_le.2 hlt), hbit, if_true]
  refine ⟨p, hp, rfl, hnot, ?_, by rw [hs], by rw [hs]⟩
  rw [hs]
  exact clearBits_clearBit _ hlt

/-- Freeing a live page keeps the invariant. -/
theorem Inv.free (hinv : Inv regions s live) (ha : a ∈ live) :
    Inv regions (s.freePage a) (live.erase a) := by
  obtain ⟨p, hp, rfl, hnot, hfree, hcnt, htot⟩ := hinv.freePage_eq ha
  refine ⟨?_, ?_, ?_, ?_⟩
  · rw [hcnt, hfree, Finset.card_insert_of_notMem hnot, hinv.counted]
  · rw [htot, hinv.total]
  · rw [hfree]
    exact Finset.insert_subset hp hinv.usable
  · intro b hb
    obtain ⟨hne, hb⟩ := Finset.mem_erase.1 hb
    obtain ⟨q, hq, rfl, hqnot⟩ := hinv.out b hb
    refine ⟨q, hq, rfl, ?_⟩
    rw [hfree, Finset.mem_insert]
    rintro (rfl | h)
    · exact hne rfl
    · exact hqnot h

/-- The invariant holds along every history. -/
theorem Run.inv (h : Run regions s live) : Inv regions s live := by
  induction h with
  | init => exact .init
  | alloc _ ha ih => exact ih.alloc ha
  | free _ ha ih => exact ih.free ha

/-- A usable page of a page-aligned map lies wholly in one of its usable regions, below 1 GiB. -/
theorem usablePages_in_region {p : ℕ}
    (halign : ∀ r ∈ regions, pageSize ∣ r.base ∧ pageSize ∣ r.size)
    (hp : p ∈ usablePages regions) :
    ∃ r ∈ regions, r.kind = .usable ∧ r.base ≤ p * pageSize ∧
      p * pageSize + pageSize ≤ r.base + r.size ∧ p * pageSize + pageSize ≤ 2 ^ 30 := by
  obtain ⟨hlt, r, hr, hk, h1, h2⟩ := mem_usablePages.1 hp
  obtain ⟨⟨b, hb⟩, ⟨n, hn⟩⟩ := halign r hr
  have hpos : 0 < pageSize := by decide
  rw [hb, Nat.mul_div_cancel_left _ hpos] at h1 h2
  rw [hn, Nat.mul_div_cancel_left _ hpos] at h2
  simp only [pageSize, maxPages, bitmapBytes] at *
  exact ⟨r, hr, hk, by omega, by omega, by omega⟩

/-- **The page allocator's invariant.** Along every history over a page-aligned map: the free
count is the number of clear bits and at most the total count; `alloc_page` fails exactly when
it is `0`; and a page it returns was not out, lies wholly in a usable region below 1 GiB, and
takes exactly one off the free count. -/
theorem run_counts_and_alloc
    (halign : ∀ r ∈ regions, pageSize ∣ r.base ∧ pageSize ∣ r.size)
    (h : Run regions s live) :
    s.freeCount = (clearBits s.bitmap maxPages).card ∧ s.freeCount ≤ s.totalCount ∧
    (s.allocPage = none ↔ s.freeCount = 0) ∧
    ∀ a s', s.allocPage = some (a, s') →
      s'.freeCount + 1 = s.freeCount ∧ a ∉ live ∧
      ∃ r ∈ regions, r.kind = .usable ∧ r.base ≤ a ∧ a + pageSize ≤ r.base + r.size ∧
        a + pageSize ≤ 2 ^ 30 := by
  have hinv := h.inv
  refine ⟨hinv.counted, ?_, ?_, fun a s' ha => ?_⟩
  · rw [hinv.counted, hinv.total]
    exact Finset.card_le_card hinv.usable
  · rw [allocPage_eq_none, hinv.counted, Finset.card_eq_zero]
  · obtain ⟨p, hp, rfl, -, -, hcnt, -⟩ := allocPage_some ha
    have hpos : 0 < s.freeCount := by
      rw [hinv.counted]
      exact Finset.card_pos.2 ⟨p, hp⟩
    refine ⟨by omega, fun hlive => ?_, usablePages_in_region halign (hinv.usable hp)⟩
    obtain ⟨q, -, hq, hnot⟩ := hinv.out _ hlive
    have : p = q := Nat.eq_of_mul_eq_mul_right (by decide) hq
    exact hnot (this ▸ hp)

/-- Two usable pages, and a reserved one between them. -/
def twoPages : List MemoryRegion :=
  [⟨0x200000, 0x1000, .usable⟩, ⟨0x201000, 0x1000, .reserved⟩, ⟨0x202000, 0x1000, .usable⟩]

/-- Both pages are handed out, and the first one comes back: it is the next one again. -/
theorem run_counts_and_alloc_two_pages :
    ∃ s a s', Run twoPages s {0x202000} ∧ s.freeCount = 1 ∧ s.allocPage = some (a, s') ∧
      a ≠ 0x202000 ∧ s'.freeCount = 0 := by
  have hinit : Run twoPages _ _ := Run.init
  have hfirst : Run twoPages ⟨_, 1, 2⟩ {0x200000} := hinit.alloc rfl
  have hboth : Run twoPages ⟨_, 0, 2⟩ {0x202000, 0x200000} := hfirst.alloc rfl
  have hmem : 0x200000 ∈ ({0x202000, 0x200000} : Finset ℕ) := by simp
  have hback : Run twoPages _ {0x202000} := hboth.free (a := 0x200000) hmem
  have halign : ∀ r ∈ twoPages, pageSize ∣ r.base ∧ pageSize ∣ r.size := by decide
  obtain ⟨-, -, hnone, hnext⟩ := run_counts_and_alloc halign hback
  obtain ⟨⟨a, s'⟩, ha⟩ := Option.ne_none_iff_exists'.1 fun h => Nat.one_ne_zero (hnone.1 h)
  obtain ⟨hcount, hout, -⟩ := hnext a s' ha
  exact ⟨_, a, s', hback, rfl, ha, by simpa using hout, Nat.succ.inj hcount⟩

end PmmState

end RossOs
