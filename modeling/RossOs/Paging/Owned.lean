import Mathlib.Data.Set.BooleanAlgebra
import Mathlib.Order.CompletePartialOrder
import RossOs.Paging.Create
import RossOs.Paging.Walk

/-!
# Address spaces that own their pages

The callers of `map_user_page` map frames they just took from the allocator. `Owned` is the
invariant this keeps: every page of the space has a frame of its own, which is no table and is not
free. `Evolves` is what any such sequence of steps does to one address space while it leaves the
rest of memory alone, and `Owned.mapFresh` is the step itself. `Space.byteAt` is the space as the
task sees it, byte by byte.
-/

namespace RossOs

open ByteMem

namespace Paging

/-- The frames of a space's pages. -/
def Space.targets (A : Space) : Set ℕ := {f | ∃ p, A.leaf p ≠ 0 ∧ frameOf (A.leaf p) = f}

/-- All frames of a space: tables and pages. -/
def Space.owned (A : Space) : Set ℕ := A.frames ∪ A.targets

/-- The byte at offset `o` of the page at `p`; a page that is not mapped reads as zero. -/
def Space.byteAt (A : Space) (m : Mem) (p : List ℕ) (o : ℕ) : UInt8 :=
  if A.leaf p = 0 then 0 else m (frameOf (A.leaf p) + o)

variable {ε σ : Type} [PageAllocator σ] {e511 : ℕ}

/-- A space in memory whose pages have frames of their own. -/
structure Owned (e511 : ℕ) (s : Machine σ) (A : Space) : Prop extends Holds e511 s A where
  page : ∀ {p : List ℕ}, A.leaf p ≠ 0 → ∃ f x, A.leaf p = f + x ∧ x < 4096 ∧
    x.testBit 0 = true ∧ 4096 ∣ f ∧ f < 2 ^ 30 ∧ f ∉ PageAllocator.free s.pages ∧ f ∉ A.frames
  pageInj : ∀ {p q : List ℕ}, A.leaf p ≠ 0 → A.leaf q ≠ 0 →
    frameOf (A.leaf p) = frameOf (A.leaf q) → p = q

/-- From `(s, A)` to `(s', A')` an address space took frames from the allocator, `n` at most, and
wrote only into its own frames and these. -/
structure Evolves (e511 n : ℕ) (s : Machine σ) (A : Space) (s' : Machine σ) (A' : Space) :
    Prop where
  owned : Owned e511 s' A'
  root : A'.table [] = A.table []
  grow : A'.owned ⊆ A.owned ∪ (PageAllocator.free s.pages \ PageAllocator.free s'.pages)
  free : PageAllocator.free s'.pages ⊆ PageAllocator.free s.pages
  avail : PageAllocator.avail s.pages ≤ PageAllocator.avail s'.pages + n
  mem : SameOutside (A.owned ∪ (PageAllocator.free s.pages \ PageAllocator.free s'.pages))
    s.mem s'.mem

section
variable {s s₁ s' : Machine σ} {A A₁ A' : Space} {n k : ℕ}

/-! ## Pages -/

/-- The entry of a page leads to its frame. -/
theorem Owned.frameOf_leaf (h : Owned e511 s A) {p : List ℕ} (hp : A.leaf p ≠ 0) :
    ∃ f x, A.leaf p = f + x ∧ frameOf (A.leaf p) = f ∧ x < 4096 ∧ x.testBit 0 = true ∧ 4096 ∣ f ∧
      f < 2 ^ 30 ∧ f ∉ PageAllocator.free s.pages ∧ f ∉ A.frames := by
  obtain ⟨f, x, he, hx, h0, hf, hf', hfree, hframes⟩ := h.page hp
  exact ⟨f, x, he, by rw [he, frameOf_add hf (by omega) hx], hx, h0, hf, hf', hfree, hframes⟩

/-- A page that the space maps is a frame below 1 GiB, in use and no table. -/
theorem Owned.target (h : Owned e511 s A) {f : ℕ} (hf : f ∈ A.targets) :
    4096 ∣ f ∧ f < 2 ^ 30 ∧ f ∉ PageAllocator.free s.pages ∧ f ∉ A.frames := by
  obtain ⟨p, hp, rfl⟩ := hf
  obtain ⟨f, x, -, hframe, -, -, hf, hf', hfree, hframes⟩ := h.frameOf_leaf hp
  rw [hframe]
  exact ⟨hf, hf', hfree, hframes⟩

/-- The walk of an address in a page ends in the page's frame. -/
theorem Owned.walk_page (h : Owned e511 s A) {cr3 va : ℕ} (hroot : A.table [] = some cr3)
    (hv : ¬ Reserved va) (hleaf : A.leaf (pagePath va) ≠ 0) :
    ∃ leaf, walk s.mem cr3 va = some leaf ∧ leaf.level = 0 ∧
      leaf.phys = frameOf (A.leaf (pagePath va)) + va % 4096 := by
  obtain ⟨f, x, he, hframe, hx, h0, hf, hf', -, -⟩ := h.frameOf_leaf hleaf
  have haddr : addrOf (f + x) = f := addrOf_add hf (by omega) hx
  have hbit : (f + x).testBit 0 = true := (testBit_add hf hx (by decide)).trans h0
  rw [h.walk_eq hroot hv, hframe, he, leafWalk, if_pos hbit]
  refine ⟨_, rfl, rfl, ?_⟩
  show addrOf (f + x) + va % 2 ^ 12 = f + va % 4096
  rw [haddr, show 2 ^ 12 = 4096 from rfl]

/-- A frame of the space is below 1 GiB and in use. -/
theorem Owned.mem_owned (h : Owned e511 s A) {f : ℕ} (hf : f ∈ A.owned) :
    4096 ∣ f ∧ f < 2 ^ 30 ∧ f ∉ PageAllocator.free s.pages := by
  rcases hf with hf | hf
  · obtain ⟨p, hp⟩ := hf
    exact ⟨(h.frame hp).1, (h.frame hp).2, h.taken ⟨p, hp⟩⟩
  · obtain ⟨h1, h2, h3, -⟩ := h.target hf
    exact ⟨h1, h2, h3⟩

/-- The frames of a new address space are its tables. -/
theorem freshSpace_owned_subset {f4 f3 : ℕ} {pds : List ℕ} {F : Set ℕ}
    (h : ∀ f ∈ f4 :: f3 :: pds, f ∈ F) : (freshSpace f4 f3 pds).owned ⊆ F := by
  rintro f (hf | ⟨p, hp, -⟩)
  · exact h f (mem_freshSpace_frames hf)
  · exact absurd (show (freshSpace f4 f3 pds).leaf p = 0 from rfl) hp

/-- A fresh space has no page. -/
theorem Holds.owned_of_leaf (h : Holds e511 s A) (hleaf : ∀ p, A.leaf p = 0) : Owned e511 s A :=
  ⟨h, fun hp => absurd (hleaf _) hp, fun hp => absurd (hleaf _) hp⟩

/-! ## Steps apart from the space -/

/-- A space is unaffected by changes outside its tables while frames are only taken. -/
theorem Holds.of_sameOutside (h : Holds e511 s A) {F : Set ℕ} (hm : SameOutside F s.mem s'.mem)
    (hF : ∀ f ∈ F, 4096 ∣ f ∧ f ∉ A.frames)
    (hfree : PageAllocator.free s'.pages ⊆ PageAllocator.free s.pages) : Holds e511 s' A := by
  refine ⟨⟨fun {p f i} hp hi => ?_, h.inj, h.depth, h.frame, h.hung, h.parent, h.ident, h.orphan⟩,
    fun hf hn => h.taken hf (hfree hn)⟩
  rw [hm.word_eq (fun g hg => (hF g hg).1) (h.frame hp).1 (fun hg => (hF f hg).2 ⟨p, hp⟩) hi,
    h.words hp hi]

/-- Writes outside the tables leave the space. -/
theorem Owned.of_sameOutside (h : Owned e511 s A) {F : Set ℕ} (hm : SameOutside F s.mem s'.mem)
    (hF : ∀ f ∈ F, 4096 ∣ f ∧ f ∉ A.frames)
    (hfree : PageAllocator.free s'.pages ⊆ PageAllocator.free s.pages) : Owned e511 s' A := by
  refine ⟨h.toHolds.of_sameOutside hm hF hfree, fun hp => ?_, h.pageInj⟩
  obtain ⟨f, x, he, hx, h0, hf, hf', hn, hframes⟩ := h.page hp
  exact ⟨f, x, he, hx, h0, hf, hf', fun hfree' => hn (hfree hfree'), hframes⟩

/-- What one space does leaves a space with other frames as it is. -/
theorem Evolves.other (h : Evolves e511 n s A s' A') {e : ℕ} {B : Space} (hB : Owned e s B)
    (hA : Owned e511 s A) (hdisj : Disjoint A.owned B.owned) :
    Owned e s' B ∧ Disjoint A'.owned B.owned := by
  have hnot : ∀ f ∈ A.owned ∪ (PageAllocator.free s.pages \ PageAllocator.free s'.pages),
      f ∉ B.owned := by
    rintro f (hf | hf) hfB
    · exact Set.disjoint_left.1 hdisj hf hfB
    · exact (hB.mem_owned hfB).2.2 hf.1
  refine ⟨hB.of_sameOutside h.mem (fun f hf => ⟨?_, fun hfB => hnot f hf (.inl hfB)⟩) h.free,
    Set.disjoint_left.2 fun f hf => hnot f (h.grow hf)⟩
  rcases hf with hf | hf
  · exact (hA.mem_owned hf).1
  · exact PageAllocator.aligned hf.1

/-! ## Composing steps -/

/-- A space that did not change evolves into itself. -/
theorem Evolves.refl (h : Owned e511 s A) : Evolves e511 0 s A s A :=
  ⟨h, rfl, Set.subset_union_left, subset_rfl, le_rfl, .refl⟩

/-- A space that evolves and evolves again takes the frames of both. -/
theorem Evolves.trans (h : Evolves e511 n s A s₁ A₁) (h' : Evolves e511 k s₁ A₁ s' A') :
    Evolves e511 (n + k) s A s' A' := by
  have h1 : A.owned ∪ (PageAllocator.free s.pages \ PageAllocator.free s₁.pages) ⊆
      A.owned ∪ (PageAllocator.free s.pages \ PageAllocator.free s'.pages) :=
    Set.union_subset_union_right _ (Set.sdiff_subset_sdiff_right h'.free)
  have h2 : A₁.owned ∪ (PageAllocator.free s₁.pages \ PageAllocator.free s'.pages) ⊆
      A.owned ∪ (PageAllocator.free s.pages \ PageAllocator.free s'.pages) :=
    Set.union_subset (h.grow.trans h1)
      ((Set.sdiff_subset_sdiff_left h.free).trans Set.subset_union_right)
  refine ⟨h'.owned, h'.root.trans h.root, h'.grow.trans h2, h'.free.trans h.free, ?_,
    (h.mem.mono h1).trans (h'.mem.mono h2)⟩
  have := h.avail
  have := h'.avail
  omega

/-- The bound on the frames taken may be raised. -/
theorem Evolves.weaken (h : Evolves e511 n s A s' A') (hnk : n ≤ k) : Evolves e511 k s A s' A' :=
  ⟨h.owned, h.root, h.grow, h.free, h.avail.trans (Nat.add_le_add_left hnk _), h.mem⟩

/-- What an address space of fresh frames does stays among fresh frames. -/
theorem OnlyFresh.evolves (hfresh : OnlyFresh s s₁)
    (hown : A.owned ⊆ PageAllocator.free s.pages \ PageAllocator.free s₁.pages)
    (h : Evolves e511 n s₁ A s' A') : OnlyFresh s s' ∧
      A'.owned ⊆ PageAllocator.free s.pages \ PageAllocator.free s'.pages := by
  have hsub : A.owned ∪ (PageAllocator.free s₁.pages \ PageAllocator.free s'.pages) ⊆
      PageAllocator.free s.pages \ PageAllocator.free s'.pages :=
    Set.union_subset (hown.trans (Set.sdiff_subset_sdiff_right h.free))
      (Set.sdiff_subset_sdiff_left hfresh.free)
  exact ⟨⟨h.free.trans hfresh.free, (hfresh.mem.mono (Set.sdiff_subset_sdiff_right h.free)).trans
    (h.mem.mono hsub)⟩, h.grow.trans hsub⟩

/-- Writing into a page of the space. -/
theorem Owned.write_target (h : Owned e511 s A) {f : ℕ} {m : Mem} (hf : f ∈ A.targets)
    (hm : SameOutside {f} s.mem m) : Evolves e511 0 s A { s with mem := m } A := by
  obtain ⟨hf4, -, -, hframes⟩ := h.target hf
  refine ⟨h.of_sameOutside hm (fun g hg => ?_) subset_rfl, rfl, Set.subset_union_left, subset_rfl,
    le_rfl, hm.mono ?_⟩
  · rw [Set.mem_singleton_iff.1 hg]
    exact ⟨hf4, hframes⟩
  · exact Set.singleton_subset_iff.2 (.inl (.inr hf))

/-- What the task sees of it: the bytes of that page alone. -/
theorem Owned.byteAt_write (h : Owned e511 s A) {q : List ℕ} {m : Mem} (hq : A.leaf q ≠ 0)
    (hm : SameOutside {frameOf (A.leaf q)} s.mem m) {o : ℕ} (ho : o < 4096) (p : List ℕ) :
    A.byteAt m p o = if p = q then m (frameOf (A.leaf q) + o) else A.byteAt s.mem p o := by
  rcases eq_or_ne p q with rfl | hpq
  · rw [if_pos rfl, Space.byteAt, if_neg hq]
  · rw [if_neg hpq, Space.byteAt, Space.byteAt]
    split
    case isTrue => rfl
    case isFalse hp =>
      have hq4 := (h.target ⟨q, hq, rfl⟩).1
      exact hm.apply_eq (fun g hg => Set.mem_singleton_iff.1 hg ▸ hq4) (h.target ⟨p, hp, rfl⟩).1
        (fun he => hpq (h.pageInj hp hq he)) ho

/-! ## Mapping a fresh frame -/

/-- The entry `map_user_page` stores for a page. -/
theorem pageEntry_eq {f flags : ℕ} (hf : 4096 ∣ f) (hfl : flags < 4096) :
    f ||| flags ||| present ||| user = f + (flags ||| present ||| user) := by
  have hx : flags ||| present ||| user < 2 ^ 12 :=
    Nat.or_lt_two_pow (n := 12) (Nat.or_lt_two_pow hfl (by decide)) (by decide)
  rw [Nat.or_assoc, Nat.or_assoc, ← Nat.or_assoc flags]
  exact Bits.or_eq_add (k := 12) hf hx

/-- The flags of an entry have 12 bits. -/
theorem pageEntry_lt {flags : ℕ} (hfl : flags < 4096) : flags ||| present ||| user < 4096 :=
  Nat.or_lt_two_pow (n := 12) (Nat.or_lt_two_pow hfl (by decide)) (by decide)

/-- The entry of a page is not empty. -/
theorem pageEntry_ne_zero (f flags : ℕ) : f + (flags ||| present ||| user) ≠ 0 := by
  intro he
  have h0 : (flags ||| present ||| user).testBit 0 = true := by
    rw [Nat.testBit_or, Nat.testBit_or]
    simp [present]
  rw [show flags ||| present ||| user = 0 by omega, Nat.zero_testBit] at h0
  cases h0

/-- The entry of a page is present. -/
theorem pageEntry_present (flags : ℕ) : (flags ||| present ||| user).testBit 0 = true := by
  rw [Nat.testBit_or, Nat.testBit_or]
  simp [present]

/-- The tables after they grew, around a frame `f` taken before: none is `f` or a page, and all are
owned. -/
theorem Owned.frames_of_grow (h : Owned e511 s A) {f : ℕ} {pages : σ} {m : Mem}
    (ha : PageAllocator.allocPage s.pages = some (f, pages)) (hg : Grow e511 n ⟨m, pages⟩ A s' A') :
    (∀ g ∈ A'.frames, g ∉ A.targets ∧ g ≠ f) ∧
    ∀ g ∈ A'.frames, g ∈ A.owned ∪ (PageAllocator.free s.pages \ PageAllocator.free s'.pages) := by
  have hfree := PageAllocator.mem_free ha
  -- a table of the new tree is an old one or was taken after `f`
  have hnew : ∀ g ∈ A'.frames, g ∈ A.frames ∨ g ∈ PageAllocator.free s.pages \ {f} := by
    intro g hg'
    rw [← PageAllocator.free_eq ha]
    exact hg.new hg'
  refine ⟨fun g hg' => ?_, fun g hg' => ?_⟩
  · rcases hnew g hg' with hold | hfresh
    · exact ⟨fun ht => (h.target ht).2.2.2 hold, fun he => h.taken hold (he ▸ hfree)⟩
    · exact ⟨fun ht => (h.target ht).2.2.1 hfresh.1, hfresh.2⟩
  · rcases hnew g hg' with hold | hfresh
    · exact .inl (.inl hold)
    · exact .inr ⟨hfresh.1, hg.holds.taken hg'⟩

/-- What is free after the tables grew around a frame `f` taken before. -/
theorem Grow.free_subset {f : ℕ} {pages : σ} {m : Mem}
    (ha : PageAllocator.allocPage s.pages = some (f, pages)) (hg : Grow e511 n ⟨m, pages⟩ A s' A') :
    PageAllocator.free s'.pages ⊆ PageAllocator.free s.pages \ {f} := by
  rw [← PageAllocator.free_eq ha]
  exact hg.free

/-- A page has an entry it had before, or the new one. -/
theorem leaf_of_grow {f x : ℕ} {q : List ℕ}
    (hleaf : ∀ p, A'.leaf p ≠ 0 → A'.leaf p = A.leaf p ∨ p = q ∧ A'.leaf p = f + x) {p : List ℕ}
    (hp : A'.leaf p ≠ 0) : A'.leaf p = A.leaf p ∧ A.leaf p ≠ 0 ∨ A'.leaf p = f + x := by
  rcases hleaf p hp with he | ⟨-, he⟩
  · exact .inl ⟨he, he ▸ hp⟩
  · exact .inr he

/-- The space with the larger tables still owns its pages. -/
theorem Owned.owned_of_grow (h : Owned e511 s A) {f x : ℕ} {pages : σ} {m : Mem} {q : List ℕ}
    (ha : PageAllocator.allocPage s.pages = some (f, pages)) (hg : Grow e511 n ⟨m, pages⟩ A s' A')
    (hx : x < 4096) (h0 : x.testBit 0 = true)
    (hleaf : ∀ p, A'.leaf p ≠ 0 → A'.leaf p = A.leaf p ∨ p = q ∧ A'.leaf p = f + x) :
    Owned e511 s' A' := by
  have hfree := PageAllocator.mem_free ha
  have hf := PageAllocator.aligned hfree
  have hf' := PageAllocator.below hfree
  have hframe : frameOf (f + x) = f := frameOf_add hf (by omega) hx
  have hsub := hg.free_subset ha
  obtain ⟨hapart, -⟩ := h.frames_of_grow ha hg
  refine ⟨hg.holds, fun {p} hp => ?page, fun {p p'} hp hp' he => ?pageInj⟩
  case page =>
    rcases leaf_of_grow hleaf hp with ⟨he, hp'⟩ | he
    · obtain ⟨g, y, hy, hglt, hg0, hg4, hg', hgfree, -⟩ := h.page hp'
      have hgt : g ∈ A.targets := ⟨p, hp', by rw [hy, frameOf_add hg4 (by omega) hglt]⟩
      exact ⟨g, y, he.trans hy, hglt, hg0, hg4, hg', fun hn => hgfree (hsub hn).1,
        fun hgA' => (hapart g hgA').1 hgt⟩
    · exact ⟨f, x, he, hx, h0, hf, hf', fun hn => (hsub hn).2 rfl,
        fun hfA' => (hapart f hfA').2 rfl⟩
  case pageInj =>
    rcases hleaf p hp with hpe | ⟨hpq, hpe⟩ <;> rcases hleaf p' hp' with hpe' | ⟨hpq', hpe'⟩
    · rw [hpe, hpe'] at he
      exact h.pageInj (hpe ▸ hp) (hpe' ▸ hp') he
    · rw [hpe', hframe, hpe] at he
      exact absurd hfree (h.target ⟨p, hpe ▸ hp, he⟩).2.2.1
    · rw [hpe, hframe, hpe'] at he
      exact absurd hfree (h.target ⟨p', hpe' ▸ hp', he.symm⟩).2.2.1
    · rw [hpq, hpq']

/-- There is a root table. -/
theorem Owned.exists_root (h : Owned e511 s A) : ∃ g, A.table [] = some g := by
  obtain ⟨g, hg4⟩ := h.ident (j := 0) (by decide)
  obtain ⟨g', hg'⟩ := h.parent (p := [0]) hg4
  exact h.parent (p := []) hg'

/-- The tables grow around a frame `f` just taken, which becomes the page at `q` if any. -/
theorem Owned.evolves_of_grow (h : Owned e511 s A) {f x : ℕ} {pages : σ} {m : Mem} {q : List ℕ}
    (ha : PageAllocator.allocPage s.pages = some (f, pages)) (hm : SameOutside {f} s.mem m)
    (hg : Grow e511 n ⟨m, pages⟩ A s' A') (hx : x < 4096) (h0 : x.testBit 0 = true)
    (hleaf : ∀ p, A'.leaf p ≠ 0 → A'.leaf p = A.leaf p ∨ p = q ∧ A'.leaf p = f + x) :
    Evolves e511 (n + 1) s A s' A' ∧ ∀ g ∈ A'.frames, g ∉ A.targets ∧ g ≠ f := by
  have hfree := PageAllocator.mem_free ha
  have hf := PageAllocator.aligned hfree
  have hf' := PageAllocator.below hfree
  have hsub := hg.free_subset ha
  have hframe : frameOf (f + x) = f := frameOf_add hf (by omega) hx
  have hftaken : f ∈ PageAllocator.free s.pages \ PageAllocator.free s'.pages :=
    ⟨hfree, fun hn => (hsub hn).2 rfl⟩
  obtain ⟨hapart, howned⟩ := h.frames_of_grow ha hg
  refine ⟨⟨h.owned_of_grow ha hg hx h0 hleaf, ?root, ?grow, hsub.trans Set.sdiff_subset, ?avail,
    ?mem⟩, hapart⟩
  case root =>
    obtain ⟨g, hroot⟩ := h.exists_root
    rw [hroot, hg.mono hroot]
  case grow =>
    rintro g (hg' | ⟨p, hp, rfl⟩)
    · exact howned g hg'
    · rcases leaf_of_grow hleaf hp with ⟨he, hp'⟩ | he
      · exact .inl (.inr ⟨p, hp', by rw [he]⟩)
      · rw [he, hframe]
        exact .inr hftaken
  case avail =>
    have h1 := PageAllocator.avail_some ha
    have h2 : PageAllocator.avail pages ≤ PageAllocator.avail s'.pages + n := hg.avail
    omega
  case mem =>
    have hm' : SameOutside A'.frames m s'.mem := hg.mem
    refine (hm.mono ?_).trans (hm'.mono howned)
    exact Set.singleton_subset_iff.2 (.inr hftaken)

/-- `map_user_page` with a frame just taken, at an address that is not reserved: the page gets that
frame, every other page keeps its own, and besides the frame only tables are written. -/
theorem Owned.mapFresh (h : Owned e511 s A) {cr3 v f flags : ℕ} {pages : σ} {m : Mem}
    (hroot : A.table [] = some cr3) (hv : ¬ Reserved v)
    (ha : PageAllocator.allocPage s.pages = some (f, pages)) (hm : SameOutside {f} s.mem m)
    (hfl : flags < 4096) :
    Exec.Sat ((mapUserPage cr3 v f flags : Exec ε (Machine σ) PUnit) ⟨m, pages⟩)
      (fun _ s' => ∃ A', Evolves e511 4 s A s' A' ∧
        A'.leaf = Function.update A.leaf (pagePath v) (f + (flags ||| present ||| user)) ∧
        (∀ g ∈ A'.frames, g ∉ A.targets ∧ g ≠ f) ∧ SameOutside A'.frames m s'.mem)
      (fun e s' => e = .panic ∧ PageAllocator.avail s'.pages = 0 ∧
        ∃ A', Evolves e511 3 s A s' A' ∧ A'.leaf = A.leaf) := by
  have hfree := PageAllocator.mem_free ha
  have hf := PageAllocator.aligned hfree
  have hf' := PageAllocator.below hfree
  have hfA : f ∉ A.frames := fun hmem => h.taken hmem hfree
  have hholds : Holds e511 ⟨m, pages⟩ A := by
    refine h.toHolds.of_sameOutside hm (fun g hg => ?_) ?_
    · rw [Set.mem_singleton_iff.1 hg]
      exact ⟨hf, hfA⟩
    · show PageAllocator.free pages ⊆ PageAllocator.free s.pages
      rw [PageAllocator.free_eq ha]
      exact Set.sdiff_subset
  have hspec := mapUserPage_spec (ε := ε) hholds hroot hv (show f < 2 ^ 64 by omega)
    (show flags < 2 ^ 64 by omega)
  rw [pageEntry_eq hf hfl] at hspec
  refine hspec.mono ?_ ?_
  · rintro _ s' ⟨B, hg, hleaf⟩
    have hleaf' : (B.setLeaf (pagePath v) (f + (flags ||| present ||| user))).leaf =
        Function.update A.leaf (pagePath v) (f + (flags ||| present ||| user)) := by
      rw [← hleaf]
      rfl
    obtain ⟨hev, hapart⟩ := h.evolves_of_grow (q := pagePath v) ha hm hg (pageEntry_lt hfl)
      (pageEntry_present flags) (fun p hp => by
        rw [hleaf']
        rcases eq_or_ne p (pagePath v) with rfl | hne
        · exact .inr ⟨rfl, Function.update_self _ _ _⟩
        · exact .inl (Function.update_of_ne hne _ _))
    exact ⟨_, hev, hleaf', hapart, hg.mem⟩
  · rintro _ s' ⟨rfl, hnone, B, hg, hleaf⟩
    obtain ⟨hev, -⟩ := h.evolves_of_grow (x := 1) (q := []) ha hm hg (by decide) (by decide)
      fun p _ => .inl (by rw [hleaf])
    exact ⟨rfl, hnone, B, hev, hleaf⟩

/-- What the task sees of such a step: the page has the bytes of its new frame, and every other
page those it had. -/
theorem Owned.byteAt_mapFresh (h : Owned e511 s A) {e f : ℕ} {pages : σ} {m : Mem} {q : List ℕ}
    (ha : PageAllocator.allocPage s.pages = some (f, pages)) (hm : SameOutside {f} s.mem m)
    (hA' : Owned e511 s' A') (hleaf : A'.leaf = Function.update A.leaf q e) (he : e ≠ 0)
    (hframe : frameOf e = f) (hapart : ∀ g ∈ A'.frames, g ∉ A.targets ∧ g ≠ f)
    (hsame : SameOutside A'.frames m s'.mem) {o : ℕ} (ho : o < 4096) (p : List ℕ) :
    A'.byteAt s'.mem p o = if p = q then m (f + o) else A.byteAt s.mem p o := by
  have hfree := PageAllocator.mem_free ha
  have hf := PageAllocator.aligned hfree
  have htables : ∀ g ∈ A'.frames, 4096 ∣ g := fun g ⟨r, hr⟩ => (hA'.frame hr).1
  rw [Space.byteAt, hleaf]
  split
  case isTrue hzero =>
    have hpq : p ≠ q := by
      rintro rfl
      rw [Function.update_self] at hzero
      exact he hzero
    rw [Function.update_of_ne hpq] at hzero
    rw [if_neg hpq, Space.byteAt, if_pos hzero]
  case isFalse hne =>
    rcases eq_or_ne p q with rfl | hpq
    · rw [Function.update_self, hframe, if_pos rfl]
      exact hsame.apply_eq htables hf (fun hg => (hapart f hg).2 rfl) ho
    · rw [Function.update_of_ne hpq] at hne
      obtain ⟨hg4, -, hgfree, -⟩ := h.target ⟨p, hne, rfl⟩
      have hgf : frameOf (A.leaf p) ≠ f := fun heq => hgfree (heq ▸ hfree)
      rw [Function.update_of_ne hpq, if_neg hpq, Space.byteAt, if_neg hne,
        hsame.apply_eq htables hg4 (fun hg => (hapart _ hg).1 ⟨p, hne, rfl⟩) ho]
      exact hm.apply_eq (fun g hg => Set.mem_singleton_iff.1 hg ▸ hf) hg4 hgf ho

end

end Paging

end RossOs
