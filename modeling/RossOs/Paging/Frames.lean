import RossOs.Paging.Isolation
import RossOs.Paging.Owned

/-!
# The frames that walks lead to

Which tables a walk reads and where it can end, for every virtual address: the tables are those of
the address space and the kernel's static ones (`Holds.tables_subset`), and a 4 KB page at the end
of a walk is a page of the space (`Owned.walk_leaf`). In the kernel's half all pages are 2 MB pages.
-/

namespace RossOs

open ByteMem

namespace Paging

/-! ## Tables closed under walks -/

/-- The tables `T`, by level, are closed under following entries: an entry is not present, is the
entry of a large page, or leads to a table of the level below. -/
def ClosedTables (m : Mem) (T : ℕ → ℕ → Prop) : Prop :=
  ∀ level table i : ℕ, level < 3 → i < 512 → T (level + 1) table →
    (word m table i).testBit 0 = false ∨ (word m table i).testBit 7 = true ∧ level < 2 ∨
      T level (addrOf (word m table i))

section
variable {m : Mem} {T : ℕ → ℕ → Prop} {va : ℕ}

/-- A walk that starts in such tables reads no other. -/
theorem ClosedTables.tablesAt (h : ClosedTables m T) {level table : ℕ} (hlevel : level ≤ 3)
    (ht : T level table) : ∀ f ∈ Paging.tablesAt m va level table, ∃ l, T l f := by
  induction level generalizing table with
  | zero =>
    intro f hf
    obtain rfl := List.mem_singleton.1 hf
    exact ⟨0, ht⟩
  | succ level ih =>
    intro f hf
    rw [Paging.tablesAt] at hf
    split at hf
    case isTrue =>
      obtain rfl := List.mem_singleton.1 hf
      exact ⟨level + 1, ht⟩
    case isFalse hgo =>
      rcases List.mem_cons.1 hf with rfl | hf
      · exact ⟨level + 1, ht⟩
      · refine ih (by omega) ?_ f hf
        rcases h level table _ (by omega) (index_lt (21 + 9 * level) va) ht with
          h0 | ⟨h7, hlt⟩ | hnext
        · rw [h0] at hgo
          exact absurd rfl hgo
        · rw [h7, decide_eq_true hlt] at hgo
          simp at hgo
        · exact hnext

/-- A walk in tables without page tables does not end in a 4 KB page. -/
theorem ClosedTables.level_ne_zero (h : ClosedTables m T) (h0 : ∀ f, ¬ T 0 f) {level table : ℕ}
    {u w : Bool} {leaf : Leaf} (hlevel : level ≤ 3) (ht : T level table)
    (hwalk : walkAt m va level table u w = some leaf) : leaf.level ≠ 0 := by
  induction level generalizing table u w with
  | zero => exact absurd ht (h0 table)
  | succ level ih =>
    rw [walkAt] at hwalk
    split at hwalk
    case isTrue => cases hwalk
    case isFalse hpresent =>
      split at hwalk
      case isTrue =>
        cases hwalk
        exact Nat.succ_ne_zero level
      case isFalse hgo =>
        refine ih (by omega) ?_ hwalk
        rcases h level table _ (by omega) (index_lt (21 + 9 * level) va) ht with
          hzero | ⟨h7, hlt⟩ | hnext
        · rw [hzero] at hpresent
          exact absurd rfl hpresent
        · rw [h7, decide_eq_true hlt] at hgo
          exact absurd rfl hgo
        · exact hnext

end

/-! ## The tables of an address space -/

/-- The static tables below the kernel's entry, by level. -/
def KernelTables.At (K : KernelTables) (level f : ℕ) : Prop :=
  level = 2 ∧ f = K.pdptHigh ∨ level = 1 ∧ ∃ i < 4, f = K.pd i

/-- The tables of an address space, by level. -/
def Space.At (A : Space) (level f : ℕ) : Prop := ∃ p, A.table p = some f ∧ p.length + level = 3

section
variable {σ : Type} [PageAllocator σ] {K : KernelTables} {m : Mem} {s : Machine σ} {A : Space}
  {cr3 va : ℕ}

/-- A table on a level is a table of the kernel. -/
theorem KernelTables.At.mem {level f : ℕ} (h : K.At level f) : f ∈ K.frames := by
  rcases h with ⟨-, rfl⟩ | ⟨-, i, hi, rfl⟩
  · simp [KernelTables.frames]
  · exact K.pd_mem hi

/-- The kernel's half has no page tables. -/
theorem KernelWords.closed (hK : KernelWords K m) : ClosedTables m K.At := by
  rintro level table i hlevel hi (⟨hl, rfl⟩ | ⟨hl, j, hj, rfl⟩)
  · obtain rfl : level = 1 := by omega
    by_cases hslot : ∃ j < 4, i = highSlot j
    · obtain ⟨j, hj, rfl⟩ := hslot
      have hpd := K.frame (K.pd j) (K.pd_mem hj)
      rw [hK.high j hj, addrOf_add hpd.1 (by omega) (by decide)]
      exact .inr (.inr (.inr ⟨rfl, j, hj, rfl⟩))
    · rw [hK.rest i hi fun j hj he => hslot ⟨j, hj, he⟩]
      exact .inl (by decide)
  · obtain rfl : level = 0 := by omega
    rw [hK.pd j hj i hi,
      testBit_add (x := 0x87) (b := 7) ⟨(j * 512 + i) * 512, by omega⟩ (by decide) (by decide)]
    exact .inr (.inl ⟨by decide, by decide⟩)

/-- The tables of an address space together with the static ones. -/
theorem Holds.closed (h : Holds (K.pdptHigh + 7) s A) (hK : KernelWords K s.mem) :
    ClosedTables s.mem fun level f => A.At level f ∨ K.At level f := by
  rintro level table i hlevel hi (⟨p, hp, hlen⟩ | hat)
  · have hw : word s.mem table i = A.entry (K.pdptHigh + 7) p i := h.words hp hi
    rw [Space.entry, if_neg (by omega)] at hw
    cases hc : A.table (p ++ [i]) with
    | some g =>
      rw [hc] at hw
      have hg := h.frame hc
      rw [hw, addrOf_add hg.1 (by omega) (by decide)]
      refine .inr (.inr (.inl ⟨p ++ [i], hc, ?_⟩))
      rw [List.length_append, List.length_singleton]
      omega
    | none =>
      rw [hc] at hw
      simp only at hw
      rw [hw]
      -- what is fixed: the kernel's entry, the identity pages, and zeros
      obtain _ | ⟨a, _ | ⟨b, _ | ⟨c, p⟩⟩⟩ := p
      · obtain rfl : level = 2 := by simpa using hlen
        have hhigh := K.frame K.pdptHigh (by simp)
        rw [fixed]
        split
        · rw [addrOf_add hhigh.1 (by omega) (by decide)]
          exact .inr (.inr (.inr (.inl ⟨rfl, rfl⟩)))
        · exact .inl (by decide)
      · exact .inl (Nat.zero_testBit 0)
      · rw [fixed]
        split
        · rw [testBit_add (x := 0x83) (b := 7) ⟨(b * 512 + i) * 512, by omega⟩ (by decide)
            (by decide)]
          exact .inr (.inl ⟨by decide, by simp at hlen; omega⟩)
        · exact .inl (by decide)
      · simp at hlen
        omega
  · exact (hK.closed level table i hlevel hi hat).imp_right (Or.imp_right .inr)

/-- Every table that a walk reads is one of the space's or a static one. -/
theorem Holds.tables_subset (h : Holds (K.pdptHigh + 7) s A) (hK : KernelWords K s.mem)
    (hroot : A.table [] = some cr3) : ∀ f ∈ tables s.mem cr3 va, f ∈ A.frames ∨ f ∈ K.frames := by
  intro f hf
  have hcr3 := h.frame hroot
  rw [tables, show addrOf cr3 = cr3 from addrOf_add (x := 0) hcr3.1 (by omega) (by decide)] at hf
  obtain ⟨l, ⟨p, hp, -⟩ | hat⟩ := (h.closed hK).tablesAt le_rfl (.inl ⟨[], hroot, rfl⟩) f hf
  · exact .inl ⟨p, hp⟩
  · exact .inr hat.mem

/-- A walk that ends in a 4 KB page ends in a page of the space. -/
theorem Owned.walk_leaf (h : Owned (K.pdptHigh + 7) s A) (hK : KernelWords K s.mem)
    (hroot : A.table [] = some cr3) {leaf : Leaf} (hwalk : walk s.mem cr3 va = some leaf)
    (hlevel : leaf.level = 0) :
    A.leaf (pagePath va) ≠ 0 ∧ leaf.phys / 4096 * 4096 = frameOf (A.leaf (pagePath va)) := by
  by_cases hres : Reserved va
  · exfalso
    rcases hres with hhalf | hident
    · have hcr3 := h.frame hroot
      have hhigh := K.frame K.pdptHigh (by simp)
      have h511 : word s.mem cr3 (index (21 + 9 * 2) va) = K.pdptHigh + 7 := by
        rw [show index (21 + 9 * 2) va = 511 from hhalf]
        exact h.word_kernel hroot (by omega)
      rw [walk, show addrOf cr3 = cr3 from addrOf_add (x := 0) hcr3.1 (by omega) (by decide),
        walkAt_table 2 h511 hhigh.1 (by omega)] at hwalk
      refine hK.closed.level_ne_zero (fun f hat => ?_) (by decide) (.inl ⟨rfl, rfl⟩) hwalk hlevel
      rcases hat with ⟨hl, -⟩ | ⟨hl, -⟩ <;> cases hl
    · rw [h.walk_ident hroot hident] at hwalk
      cases hwalk
      cases hlevel
  · have hleaf : A.leaf (pagePath va) ≠ 0 := by
      intro hzero
      rw [h.walk_eq hroot hres, hzero] at hwalk
      cases hwalk
    obtain ⟨leaf', hwalk', -, hphys⟩ := h.walk_page hroot hres hleaf
    rw [hwalk] at hwalk'
    cases hwalk'
    obtain ⟨q, hq⟩ := (h.target ⟨_, hleaf, rfl⟩).1
    exact ⟨hleaf, by omega⟩

end

end Paging

end RossOs
