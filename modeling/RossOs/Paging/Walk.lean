import RossOs.Paging.Space

/-!
# Translation in an address space

What the processor's walk and the kernel's own `lookup_page` see of a `Space`: at an address that
is not reserved both read the entry of its page (`Holds.walk_eq`, `Holds.lookupPage_run`), and in
the identity-mapped part of the first 4 GiB the walk ends in a 2 MB page for the kernel alone.
-/

namespace RossOs

open ByteMem

namespace Paging

/-! ## Entries, as the processor reads them -/

/-- The address in an entry is that of its frame. -/
theorem addrOf_add {f x : ℕ} (hf : 4096 ∣ f) (hf' : f < 2 ^ 52) (hx : x < 4096) :
    addrOf (f + x) = f := by
  obtain ⟨q, rfl⟩ := hf
  rw [addrOf]
  omega

/-- The flag bits of an entry. -/
theorem testBit_add {f x b : ℕ} (hf : 4096 ∣ f) (hx : x < 4096) (hb : b < 12) :
    (f + x).testBit b = x.testBit b := by
  obtain ⟨q, rfl⟩ := hf
  have h := Nat.testBit_two_pow_mul_add q (i := 12) hx b
  rw [if_pos hb] at h
  exact h

/-- The walk through the entry of a table. -/
theorem walkAt_table {m : Mem} {va table f : ℕ} {u w : Bool} (level : ℕ)
    (he : word m table (index (21 + 9 * level) va) = f + 7) (hf : 4096 ∣ f) (hf' : f < 2 ^ 52) :
    walkAt m va (level + 1) table u w = walkAt m va level f u w := by
  have h0 : (7).testBit 0 = true := by decide
  have h1 : (7).testBit 1 = true := by decide
  have h2 : (7).testBit 2 = true := by decide
  have h7 : (7).testBit 7 = false := by decide
  rw [walkAt, he, testBit_add hf (by decide) (by decide), testBit_add hf (by decide) (by decide),
    testBit_add hf (by decide) (by decide), testBit_add hf (by decide) (by decide),
    addrOf_add hf hf' (by decide), h0, h1, h2, h7]
  simp

/-- The walk stops at an entry that is zero. -/
theorem walkAt_zero {m : Mem} {va table : ℕ} {u w : Bool} (level : ℕ)
    (he : word m table (index (21 + 9 * level) va) = 0) :
    walkAt m va (level + 1) table u w = none := by
  rw [walkAt, he]
  simp

/-- The walk through the entry of a 2 MB page. -/
theorem walkAt_huge {m : Mem} {va table q x : ℕ} {u w : Bool}
    (he : word m table (index 21 va) = q * 2 ^ 21 + x) (hq : q < 2 ^ 31) (hx : x < 4096)
    (h0 : x.testBit 0 = true) (h7 : x.testBit 7 = true) :
    walkAt m va 1 table u w =
      some ⟨q * 2 ^ 21 + va % 2 ^ 21, 1, u && x.testBit 2, w && x.testBit 1⟩ := by
  have hf : 4096 ∣ q * 2 ^ 21 := ⟨q * 2 ^ 9, by omega⟩
  have he' : word m table (index (21 + 9 * 0) va) = q * 2 ^ 21 + x := he
  have hdiv : q * 2 ^ 21 / 2 ^ (21 + 9 * 0) * 2 ^ (21 + 9 * 0) = q * 2 ^ 21 := by
    rw [Nat.mul_zero, Nat.add_zero, Nat.mul_div_cancel _ (by decide)]
  rw [walkAt, he', testBit_add hf hx (by decide), testBit_add hf hx (by decide),
    testBit_add hf hx (by decide), testBit_add hf hx (by decide), addrOf_add hf (by omega) hx, h0,
    h7, hdiv]
  simp

/-- The entry of a table is not a huge page. -/
theorem tableEntry_and_hugePage {g : ℕ} (hg : 4096 ∣ g) : (g + 7) &&& hugePage = 0 := by
  show (g + 7) &&& 2 ^ 7 = 0
  rw [Bits.and_bit_eq_zero, testBit_add hg (by decide) (by decide)]
  decide

/-! ## Virtual addresses -/

/-- The indices of an address are the digits of its page number. -/
theorem index_of_page (v : ℕ) : index 12 v = v / 4096 % 512 ∧ index 21 v = v / 4096 / 512 % 512 ∧
    index 30 v = v / 4096 / 512 / 512 % 512 ∧ index 39 v = v / 4096 / 512 / 512 / 512 % 512 := by
  simp only [index_eq, Nat.div_div_eq_div_mul]
  exact ⟨rfl, rfl, rfl, rfl⟩

/-- Below 2^48, addresses with the same indices are in the same page. -/
theorem pagePath_eq_iff {v w : ℕ} (hv : v < 2 ^ 48) (hw : w < 2 ^ 48) :
    pagePath v = pagePath w ↔ v / 4096 = w / 4096 := by
  obtain ⟨v1, v2, v3, v4⟩ := index_of_page v
  obtain ⟨w1, w2, w3, w4⟩ := index_of_page w
  simp only [pagePath, List.cons.injEq, and_true, v1, v2, v3, v4, w1, w2, w3, w4]
  generalize hq : v / 4096 = q
  generalize hr : w / 4096 = r
  have hqlt : q < 2 ^ 36 := by omega
  have hrlt : r < 2 ^ 36 := by omega
  omega

/-- An address is in its page. -/
theorem pagePath_div {v : ℕ} (h : v < 2 ^ 48) : pagePath v = pagePath (v / 4096 * 4096) :=
  (pagePath_eq_iff h (by omega)).2 (by omega)

/-- The 2 MB at 4 MB are not reserved. -/
theorem not_reserved_hole {v : ℕ} (h1 : 0x400000 ≤ v) (h2 : v < 0x600000) : ¬ Reserved v := by
  simp only [Reserved, index_eq]
  omega

/-- The addresses from 4 GiB up to the kernel's entry are not reserved. -/
theorem not_reserved_high {v : ℕ} (h1 : 2 ^ 32 ≤ v) (h2 : v < 2 ^ 48 - 2 ^ 39) : ¬ Reserved v := by
  simp only [Reserved, index_eq]
  omega

/-! ## Addresses of a space -/

section
variable {ε σ : Type} [PageAllocator σ] {e511 : ℕ} {s : Machine σ} {A : Space} {cr3 : ℕ}

/-- The walk at an entry of a page table. -/
def leafWalk (e va : ℕ) : Option Leaf :=
  if e.testBit 0 then some ⟨addrOf e + va % 2 ^ 12, 0, e.testBit 2, e.testBit 1⟩ else none

/-- An entry above the page tables, where nothing is fixed: the entry of a table, or zero. -/
theorem Holds.entry_cases (h : Holds e511 s A) {p : List ℕ} {t i : ℕ} (hp : A.table p = some t)
    (hlen : p.length < 3) (hi : i < 512) (hfix : fixed e511 p i = 0) :
    word s.mem t i = 0 ∧ A.table (p ++ [i]) = none ∨
    ∃ g, A.table (p ++ [i]) = some g ∧ word s.mem t i = g + 7 ∧ 4096 ∣ g ∧ g < 2 ^ 30 := by
  have hw : word s.mem t i = A.entry e511 p i := h.words hp hi
  rw [Space.entry, if_neg (by omega)] at hw
  cases hc : A.table (p ++ [i]) with
  | none =>
    rw [hc] at hw
    exact .inl ⟨hw.trans hfix, rfl⟩
  | some g =>
    rw [hc] at hw
    exact .inr ⟨g, rfl, hw, h.frame hc⟩

/-- Nothing hangs below a table that is not there. -/
theorem Holds.table_none (h : Holds e511 s A) {p : List ℕ} {i : ℕ} (hp : A.table p = none) :
    A.table (p ++ [i]) = none := by
  cases hc : A.table (p ++ [i]) with
  | none => rfl
  | some g =>
    obtain ⟨g', hg'⟩ := h.parent hc
    rw [hp] at hg'
    cases hg'

/-- A page below a table that is not there has no entry. -/
theorem Holds.leaf_eq_zero (h : Holds e511 s A) {p : List ℕ} (hp : A.table p = none) (q : List ℕ)
    (i : ℕ) : A.leaf (p ++ q ++ [i]) = 0 := by
  refine h.orphan ?_
  induction q using List.reverseRecOn with
  | nil => rwa [List.append_nil]
  | append_singleton q j ih =>
    rw [← List.append_assoc]
    exact h.table_none ih

/-- The walk at an address that is not reserved ends at the entry of its page. -/
theorem Holds.walk_eq (h : Holds e511 s A) (hroot : A.table [] = some cr3) {v : ℕ}
    (hv : ¬ Reserved v) : walk s.mem cr3 v = leafWalk (A.leaf (pagePath v)) v := by
  have hcr3 := h.frame hroot
  rw [walk, show addrOf cr3 = cr3 from addrOf_add (x := 0) hcr3.1 (by omega) (by decide)]
  rcases h.entry_cases hroot (by simp) (index_lt 39 v) (fixed_pml4 hv) with
    ⟨h4, ht4⟩ | ⟨f3, ht4, h4, hf3, hf3'⟩
  · have hleaf : A.leaf (pagePath v) = 0 := h.leaf_eq_zero ht4 [index 30 v, index 21 v] _
    rw [walkAt_zero 2 h4, hleaf]
    rfl
  rw [walkAt_table 2 h4 hf3 (by omega)]
  rcases h.entry_cases ht4 (by simp) (index_lt 30 v) rfl with
    ⟨h3, ht3⟩ | ⟨f2, ht3, h3, hf2, hf2'⟩
  · have hleaf : A.leaf (pagePath v) = 0 := h.leaf_eq_zero ht3 [index 21 v] _
    rw [walkAt_zero 1 h3, hleaf]
    rfl
  rw [walkAt_table 1 h3 hf2 (by omega)]
  rcases h.entry_cases ht3 (by simp) (index_lt 21 v) (fixed_pd hv) with
    ⟨h2, ht2⟩ | ⟨f1, ht2, h2, hf1, hf1'⟩
  · have hleaf : A.leaf (pagePath v) = 0 := h.leaf_eq_zero ht2 [] _
    rw [walkAt_zero 0 h2, hleaf]
    rfl
  rw [walkAt_table 0 h2 hf1 (by omega), walkAt, h.words ht2 (index_lt 12 v)]
  rfl

/-- The word in memory for the entry of a table that is there. -/
theorem Holds.word_table (h : Holds e511 s A) {p : List ℕ} {t i g : ℕ} (hp : A.table p = some t)
    (hlen : p.length < 3) (hi : i < 512) (hg : A.table (p ++ [i]) = some g) :
    word s.mem t i = g + 7 := by
  rw [h.words hp hi, Space.entry, if_neg (by omega), hg]

/-- The word for the kernel's entry. -/
theorem Holds.word_kernel (h : Holds e511 s A) (hroot : A.table [] = some cr3)
    (he : e511 ≠ 0) : word s.mem cr3 511 = e511 := by
  rw [h.words hroot (by decide), Space.entry, if_neg (by decide)]
  cases hc : A.table ([] ++ [511]) with
  | none => rfl
  | some g => exact absurd (h.hung hc) he

/-- In the first 4 GiB outside the hole, the walk ends in a 2 MB page at the address itself, which
user code cannot use. -/
theorem Holds.walk_ident (h : Holds e511 s A) (hroot : A.table [] = some cr3) {v : ℕ}
    (hv : index 39 v = 0 ∧ index 30 v < 4 ∧ ¬ (index 30 v = 0 ∧ index 21 v = 2)) :
    walk s.mem cr3 v =
      some ⟨(index 30 v * 512 + index 21 v) * 2 ^ 21 + v % 2 ^ 21, 1, false, true⟩ := by
  obtain ⟨h39, h30, hhole⟩ := hv
  have hcr3 := h.frame hroot
  obtain ⟨f2, ht2⟩ := h.ident h30
  obtain ⟨f3, ht3⟩ := h.parent (p := [0]) ht2
  have hf3 := h.frame ht3
  have hf2 := h.frame ht2
  have hidx := index_lt 21 v
  have h4 : word s.mem cr3 (index 39 v) = f3 + 7 := by
    rw [h39]
    exact h.word_table hroot (by simp) (by decide) ht3
  have h3 : word s.mem f3 (index 30 v) = f2 + 7 :=
    h.word_table ht3 (by simp) (by omega) ht2
  have hnone : A.table ([0, index 30 v] ++ [index 21 v]) = none := by
    cases hc : A.table ([0, index 30 v] ++ [index 21 v]) with
    | none => rfl
    | some g =>
      have hfix := h.hung hc
      rw [fixed, if_pos ⟨rfl, h30, hhole⟩] at hfix
      omega
  have h2 : word s.mem f2 (index 21 v) = (index 30 v * 512 + index 21 v) * 2 ^ 21 + 0x83 := by
    rw [h.words ht2 hidx, Space.entry, if_neg (by simp), hnone]
    show fixed e511 [0, index 30 v] (index 21 v) = _
    rw [fixed, if_pos ⟨rfl, h30, hhole⟩]
    rfl
  rw [walk, show addrOf cr3 = cr3 from addrOf_add (x := 0) hcr3.1 (by omega) (by decide),
    walkAt_table 2 h4 hf3.1 (by omega), walkAt_table 1 h3 hf2.1 (by omega),
    walkAt_huge h2 (by omega) (by decide) (by decide) (by decide)]
  rfl

/-- `lookup_page` at an address that is not reserved reads the entry of its page. -/
theorem Holds.lookupPage_run (h : Holds e511 s A) (hroot : A.table [] = some cr3) {v : ℕ}
    (hv : ¬ Reserved v) :
    (lookupPage cr3 v : Exec ε (Machine σ) (Option ℕ)) s =
      .ok (if A.leaf (pagePath v) = 0 then none else some (frameOf (A.leaf (pagePath v)))) s := by
  have hcr3 := h.frame hroot
  unfold lookupPage
  rw [Exec.bind_of_ok (physToVirt_run (by omega)), Exec.bind_of_ok (getEntry_run _ cr3 _)]
  rcases h.entry_cases hroot (by simp) (index_lt 39 v) (fixed_pml4 hv) with
    ⟨h4, ht4⟩ | ⟨f3, ht4, h4, hf3, hf3'⟩
  · have hleaf : A.leaf (pagePath v) = 0 := h.leaf_eq_zero ht4 [index 30 v, index 21 v] _
    rw [if_pos h4, if_pos hleaf]
    rfl
  rw [h4, if_neg (by omega), frameOf_add hf3 (by omega) (by omega),
    Exec.bind_of_ok (physToVirt_run (by omega)), Exec.bind_of_ok (getEntry_run _ f3 _)]
  rcases h.entry_cases ht4 (by simp) (index_lt 30 v) rfl with
    ⟨h3, ht3⟩ | ⟨f2, ht3, h3, hf2, hf2'⟩
  · have hleaf : A.leaf (pagePath v) = 0 := h.leaf_eq_zero ht3 [index 21 v] _
    rw [if_pos h3, if_pos hleaf]
    rfl
  rw [h3, if_neg (by omega), frameOf_add hf2 (by omega) (by omega),
    Exec.bind_of_ok (physToVirt_run (by omega)), Exec.bind_of_ok (getEntry_run _ f2 _)]
  rcases h.entry_cases ht3 (by simp) (index_lt 21 v) (fixed_pd hv) with
    ⟨h2, ht2⟩ | ⟨f1, ht2, h2, hf1, hf1'⟩
  · have hleaf : A.leaf (pagePath v) = 0 := h.leaf_eq_zero ht2 [] _
    rw [if_pos (.inl h2), if_pos hleaf]
    rfl
  have hne : ¬ (f1 + 7 = 0 ∨ f1 + 7 &&& hugePage ≠ 0) := by
    rw [tableEntry_and_hugePage hf1]
    omega
  rw [h2, if_neg hne, frameOf_add hf1 (by omega) (by omega),
    Exec.bind_of_ok (physToVirt_run (by omega)), Exec.bind_of_ok (getEntry_run _ f1 _),
    show word s.mem f1 (index 12 v) = A.leaf (pagePath v) from h.words ht2 (index_lt 12 v)]
  split <;> rfl

end

end Paging

end RossOs
