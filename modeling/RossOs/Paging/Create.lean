import RossOs.Paging.Space

/-!
# A fresh address space

`create_user_address_space` builds its tables entry by entry: a PML4 that shares the kernel's entry
511, one PDPT, and four page directories that map the first 4 GiB to themselves except for the hole
at 4 MB. `Building` describes the memory after each turn of its loop, and
`createUserAddressSpace_spec` the result, a `Space` that maps no page.
-/

namespace RossOs

open ByteMem

namespace Paging

variable {ε σ : Type} [PageAllocator σ]

/-! ## Changes confined to frames taken from the allocator -/

/-- From `s` to `s'` frames were only taken from the allocator, and every byte that changed is in
one of them. -/
structure OnlyFresh (s s' : Machine σ) : Prop where
  free : PageAllocator.free s'.pages ⊆ PageAllocator.free s.pages
  mem : SameOutside (PageAllocator.free s.pages \ PageAllocator.free s'.pages) s.mem s'.mem

/-- A machine that did not change has written nothing. -/
theorem OnlyFresh.refl (s : Machine σ) : OnlyFresh s s := ⟨subset_rfl, .refl⟩

/-- Two steps that write to frames which were free do so together. -/
theorem OnlyFresh.trans {s s₁ s₂ : Machine σ} (h : OnlyFresh s s₁) (h' : OnlyFresh s₁ s₂) :
    OnlyFresh s s₂ :=
  ⟨h'.free.trans h.free,
    (h.mem.mono (Set.sdiff_subset_sdiff_right h'.free)).trans
      (h'.mem.mono (Set.sdiff_subset_sdiff_left h.free))⟩

/-- Changes in frames that are taken already, on top of fresh ones. -/
theorem OnlyFresh.then_same {s s₁ : Machine σ} {F : Set ℕ} {m : Mem} (h : OnlyFresh s s₁)
    (hF : F ⊆ PageAllocator.free s.pages \ PageAllocator.free s₁.pages)
    (hm : SameOutside F s₁.mem m) : OnlyFresh s { s₁ with mem := m } :=
  ⟨h.free, h.mem.trans (hm.mono hF)⟩

/-- Zeroing a frame that the allocator just handed out. -/
theorem onlyFresh_alloc {s : Machine σ} {f : ℕ} {pages : σ}
    (ha : PageAllocator.allocPage s.pages = some (f, pages)) :
    OnlyFresh s ⟨clear s.mem f 4096, pages⟩ := by
  have hfree := PageAllocator.free_eq ha
  refine ⟨by rw [hfree]; exact Set.sdiff_subset, sameOutside_clear.mono ?_⟩
  rw [Set.singleton_subset_iff, hfree]
  exact ⟨PageAllocator.mem_free ha, fun h => h.2 rfl⟩

/-- The sequence that starts each table: take a frame, or panic, and zero it. -/
theorem allocZeroed_run {α : Type} (k : ℕ → ℕ → Exec ε (Machine σ) α) (s : Machine σ) :
    (do
      let f ← allocPageExpect
      let t ← physToVirt f
      zeroPage t
      k f t : Exec ε (Machine σ) α) s = .error .panic s ∧ PageAllocator.avail s.pages = 0 ∨
    ∃ f pages, PageAllocator.allocPage s.pages = some (f, pages) ∧
      (do
        let f ← allocPageExpect
        let t ← physToVirt f
        zeroPage t
        k f t : Exec ε (Machine σ) α) s = k f (f + kernelVmaBase) ⟨clear s.mem f 4096, pages⟩ := by
  rcases allocPageExpect_run (ε := ε) s with ⟨hnone, hrun⟩ | ⟨f, pages, hsome, hrun⟩
  · exact .inl ⟨Exec.bind_of_error hrun, PageAllocator.avail_none hnone⟩
  · have := PageAllocator.below (PageAllocator.mem_free hsome)
    refine .inr ⟨f, pages, hsome, ?_⟩
    rw [Exec.bind_of_ok hrun, Exec.bind_of_ok (physToVirt_run (by omega)),
      Exec.bind_of_ok (zeroPage_run _ f)]

/-! ## The turns of the loop -/

/-- The entry that a turn of the loop stores for a 2 MB page. -/
theorem identityEntry_eq (j k : ℕ) :
    (j * 512 + k) * 0x200000 ||| 0x80 ||| 0x2 ||| 0x1 = (j * 512 + k) * 0x200000 + 0x83 := by
  rw [Nat.or_assoc, Nat.or_assoc]
  exact Bits.or_eq_add (k := 21) (Nat.dvd_mul_left _ _) (by decide)

/-- The address space that has the PML4 `f4`, the PDPT `f3` and the page directories `pds`, and no
page. -/
def freshSpace (f4 f3 : ℕ) (pds : List ℕ) : Space where
  table
    | [] => some f4
    | [0] => some f3
    | [0, j] => pds[j]?
    | _ => none
  leaf _ := 0

/-- The memory while `create_user_address_space` runs: the PML4 `f4` with the kernel's entry, the
PDPT `f3` that links the page directories `pds`, all of them frames taken since `s₀`. -/
structure Building (s₀ : Machine σ) (e511 f4 f3 : ℕ) (pds : List ℕ) (s : Machine σ) : Prop where
  fresh : OnlyFresh s₀ s
  taken : ∀ f ∈ f4 :: f3 :: pds,
    f ∈ PageAllocator.free s₀.pages \ PageAllocator.free s.pages
  nodup : (f4 :: f3 :: pds).Nodup
  avail : PageAllocator.avail s₀.pages = PageAllocator.avail s.pages + (2 + pds.length)
  pml4 : ∀ i < 512, word s.mem f4 i = fixed e511 [] i
  pdpt : ∀ i < 512, word s.mem f3 i = ((pds[i]?).map (· + 7)).getD 0
  pd : ∀ {j f : ℕ}, pds[j]? = some f → ∀ k < 512, word s.mem f k = fixed e511 [0, j] k

section
variable {s₀ s : Machine σ} {e511 f4 f3 : ℕ} {pds : List ℕ}

/-- The tables of the space lie at page boundaries. -/
theorem Building.aligned (h : Building s₀ e511 f4 f3 pds s) {f : ℕ} (hf : f ∈ f4 :: f3 :: pds) :
    4096 ∣ f := PageAllocator.aligned (h.taken f hf).1

omit [PageAllocator σ] in
/-- The 512 stores of a turn: the entries below `k` are in place. -/
theorem identityEntries_spec (e511 : ℕ) {f j : ℕ} (hj : j < 4) {s₁ : Machine σ}
    (hzero : ∀ i < 512, word s₁.mem f i = 0) :
    Exec.Sat (((List.range 512).forM fun k =>
        if j = 0 ∧ k = 2 then pure ⟨⟩
        else setEntry (f + kernelVmaBase) k
          ((j * 512 + k) * 0x200000 ||| 0x80 ||| 0x2 ||| 0x1) : Exec ε (Machine σ) PUnit) s₁)
      (fun _ s' => s'.pages = s₁.pages ∧ SameOutside {f} s₁.mem s'.mem ∧
        ∀ i < 512, word s'.mem f i = fixed e511 [0, j] i)
      (fun _ _ => False) := by
  have hloop := Exec.Sat.forM_range (ε := ε) (σ := Machine σ) (s := s₁) (E := fun _ _ => False)
    (f := fun k =>
      if j = 0 ∧ k = 2 then pure ⟨⟩
      else setEntry (f + kernelVmaBase) k ((j * 512 + k) * 0x200000 ||| 0x80 ||| 0x2 ||| 0x1))
    (I := fun k s' => s'.pages = s₁.pages ∧ SameOutside {f} s₁.mem s'.mem ∧
      ∀ i < 512, word s'.mem f i = if i < k then fixed e511 [0, j] i else 0)
    (n := 512) ?step ⟨rfl, .refl, fun i hi => (hzero i hi).trans (if_neg (by omega)).symm⟩
  case step =>
    rintro k hk s' ⟨hpages, hsame, hwords⟩
    split
    case isTrue hhole =>
      -- the hole keeps its zero
      refine Exec.sat_ok.2 ⟨hpages, hsame, fun i hi => ?_⟩
      rw [hwords i hi]
      rcases Nat.lt_trichotomy i k with hik | rfl | hik
      · rw [if_pos hik, if_pos (by omega)]
      · rw [if_neg (Nat.lt_irrefl i), if_pos (by omega), fixed,
          if_neg fun hne => hne.2.2 hhole]
      · rw [if_neg (by omega), if_neg (by omega)]
    case isFalse hhole =>
      rw [setEntry_run, identityEntry_eq]
      refine Exec.sat_ok.2 ⟨hpages, hsame.trans (sameOutside_setWord hk), fun i hi => ?_⟩
      rcases eq_or_ne i k with rfl | hik
      · rw [word_setWord_self _ _ _ (by omega), if_pos (by omega), fixed,
          if_pos ⟨rfl, hj, hhole⟩]
      · rw [word_setWord_of_ne _ _ _ hik.symm, hwords i hi]
        rcases Nat.lt_or_ge i k with h1 | h1
        · rw [if_pos h1, if_pos (by omega)]
        · rw [if_neg (by omega), if_neg (by omega)]
  refine hloop.mono ?_ fun _ _ he => he
  rintro _ s' ⟨hpages, hsame, hwords⟩
  refine ⟨hpages, hsame, fun i hi => ?_⟩
  rw [hwords i hi, if_pos hi]

/-- The frames of the space with one more, when it was the one taken last. -/
theorem Building.taken_append (h : Building s₀ e511 f4 f3 pds s) {f : ℕ} {pages : σ}
    (ha : PageAllocator.allocPage s.pages = some (f, pages)) :
    ∀ g ∈ f4 :: f3 :: (pds ++ [f]),
      g ∈ PageAllocator.free s₀.pages \ PageAllocator.free pages := by
  intro g hg
  rw [PageAllocator.free_eq ha]
  rw [← List.cons_append, ← List.cons_append] at hg
  rcases List.mem_append.1 hg with hg | hg
  · obtain ⟨hfree, hnot⟩ := h.taken g hg
    exact ⟨hfree, fun hn => hnot hn.1⟩
  · rw [List.mem_singleton.1 hg]
    exact ⟨h.fresh.free (PageAllocator.mem_free ha), fun hn => hn.2 rfl⟩

omit [PageAllocator σ] in
/-- The words of the tables after one more page directory was linked. -/
theorem words_link {m m' : Mem} {f : ℕ} (hlen : pds.length < 4) (hf : 4096 ∣ f) (hf' : f < 2 ^ 30)
    (haligned : ∀ g ∈ f4 :: f3 :: pds, 4096 ∣ g) (hnodup : (f4 :: f3 :: pds).Nodup)
    (hnew : ∀ g ∈ f4 :: f3 :: pds, g ≠ f)
    (hold : ∀ {g i : ℕ}, g ∈ f4 :: f3 :: pds → i < 512 → word m' g i = word m g i)
    (hwords : ∀ i < 512, word m' f i = fixed e511 [0, pds.length] i)
    (hpml4 : ∀ i < 512, word m f4 i = fixed e511 [] i)
    (hpdpt : ∀ i < 512, word m f3 i = ((pds[i]?).map (· + 7)).getD 0)
    (hpd : ∀ {j g : ℕ}, pds[j]? = some g → ∀ k < 512, word m g k = fixed e511 [0, j] k) :
    (∀ i < 512, word (setWord m' f3 pds.length (f + 7)) f4 i = fixed e511 [] i) ∧
    (∀ i < 512, word (setWord m' f3 pds.length (f + 7)) f3 i =
      (((pds ++ [f])[i]?).map (· + 7)).getD 0) ∧
    ∀ {j g : ℕ}, (pds ++ [f])[j]? = some g → ∀ k < 512,
      word (setWord m' f3 pds.length (f + 7)) g k = fixed e511 [0, j] k := by
  have hf3 : f3 ∈ f4 :: f3 :: pds := by simp
  have hlast : ∀ {g i : ℕ}, 4096 ∣ g → g ≠ f3 → i < 512 →
      word (setWord m' f3 pds.length (f + 7)) g i = word m' g i := fun hg hne hi =>
    (sameOutside_setWord (by omega)).word_eq (by rintro _ rfl; exact haligned _ hf3) hg hne hi
  refine ⟨fun i hi => ?pml4, fun i hi => ?pdpt, fun {j g} hg k hk => ?pd⟩
  case pml4 =>
    have hne : f4 ≠ f3 := fun he => (List.nodup_cons.1 hnodup).1 (by simp [he])
    rw [hlast (haligned _ (by simp)) hne hi, hold (by simp) hi, hpml4 i hi]
  case pdpt =>
    rcases eq_or_ne i pds.length with rfl | hne
    · rw [word_setWord_self _ _ _ (by omega)]
      simp
    · rw [word_setWord_of_ne _ _ _ hne.symm, hold hf3 hi, hpdpt i hi]
      rcases Nat.lt_or_ge i pds.length with h1 | h1
      · rw [List.getElem?_append_left h1]
      · rw [List.getElem?_eq_none h1, List.getElem?_eq_none (by simp; omega)]
  case pd =>
    rcases Nat.lt_or_ge j pds.length with h1 | h1
    · rw [List.getElem?_append_left h1] at hg
      have hmem : g ∈ pds := List.mem_of_getElem? hg
      have hne : g ≠ f3 := fun he =>
        (List.nodup_cons.1 (List.nodup_cons.1 hnodup).2).1 (he ▸ hmem)
      rw [hlast (haligned _ (by simp [hmem])) hne hk, hold (by simp [hmem]) hk, hpd hg k hk]
    · rw [List.getElem?_append_right h1, List.getElem?_singleton] at hg
      split at hg
      case isTrue hj =>
        cases hg
        obtain rfl : j = pds.length := by omega
        rw [hlast hf (fun he => hnew f3 hf3 he.symm) hk, hwords k hk]
      case isFalse hj => cases hg

/-- One turn of the loop links one more page directory. -/
theorem identityDirectory_spec (h : Building s₀ e511 f4 f3 pds s) (hlen : pds.length < 4) :
    Exec.Sat ((identityDirectory (f3 + kernelVmaBase) pds.length : Exec ε (Machine σ) PUnit) s)
      (fun _ s' => ∃ f, Building s₀ e511 f4 f3 (pds ++ [f]) s')
      (fun e s' => e = .panic ∧ OnlyFresh s₀ s' ∧ PageAllocator.avail s₀.pages < 6) := by
  unfold identityDirectory
  rcases allocZeroed_run (ε := ε) (fun pdPhys pd => do
      (List.range 512).forM fun pdIdx =>
        if pds.length = 0 ∧ pdIdx = 2 then pure ⟨⟩
        else setEntry pd pdIdx ((pds.length * 512 + pdIdx) * 0x200000 ||| 0x80 ||| 0x2 ||| 0x1)
      setEntry (f3 + kernelVmaBase) pds.length (pdPhys ||| 0x4 ||| 0x2 ||| 0x1)) s with
    ⟨hrun, hnone⟩ | ⟨f, pages, ha, hrun⟩
  · have := h.avail
    rw [hrun]
    exact Exec.sat_error.2 ⟨rfl, h.fresh, by omega⟩
  rw [hrun]
  have hfree := PageAllocator.mem_free ha
  have hf := PageAllocator.aligned hfree
  have hf' := PageAllocator.below hfree
  have htaken := h.taken_append ha
  have hnew : ∀ g ∈ f4 :: f3 :: pds, g ≠ f := fun g hg he => (h.taken g hg).2 (he ▸ hfree)
  have hzero : ∀ i < 512, word (Machine.mk (clear s.mem f 4096) pages).mem f i = 0 :=
    fun i hi => word_clear _ _ (by omega)
  have hentries := identityEntries_spec (ε := ε) e511 hlen hzero
  refine Exec.Sat.bind (hentries.mono ?_ fun _ _ he => he.elim)
  rintro _ s' ⟨hp', hsame, hwords⟩
  simp only at hp'
  rw [← hp'] at htaken
  rw [setEntry_run, tableEntry_eq' hf]
  -- the words of the old tables, in the memory after the last store
  have hold : ∀ {g i : ℕ}, g ∈ f4 :: f3 :: pds → i < 512 → word s'.mem g i = word s.mem g i := by
    intro g i hg hi
    rw [hsame.word_eq (by rintro _ rfl; exact hf) (h.aligned hg) (hnew g hg) hi]
    exact sameOutside_clear.word_eq (by rintro _ rfl; exact hf) (h.aligned hg) (hnew g hg) hi
  obtain ⟨hpml4, hpdpt, hpd⟩ := words_link hlen hf hf' (fun g hg => h.aligned hg) h.nodup hnew hold
    hwords h.pml4 h.pdpt h.pd
  refine Exec.sat_ok.2 ⟨f, ?fresh, htaken, ?nodup, ?avail, hpml4, hpdpt, hpd⟩
  case fresh =>
    have hs' : OnlyFresh s₀ s' := by
      have := (h.fresh.trans (onlyFresh_alloc ha)).then_same (F := {f}) ?_ hsame
      · rwa [← hp'] at this
      · rw [Set.singleton_subset_iff, ← hp']
        exact htaken f (by simp)
    exact hs'.then_same (Set.singleton_subset_iff.2 (htaken f3 (by simp)))
      (sameOutside_setWord (by omega))
  case nodup =>
    rw [← List.cons_append, ← List.cons_append, List.nodup_append]
    exact ⟨h.nodup, List.nodup_singleton f, fun g hg g' hg' => by
      rw [List.mem_singleton.1 hg']; exact hnew g hg⟩
  case avail =>
    have h1 := h.avail
    have h2 := PageAllocator.avail_some ha
    simp only [hp', List.length_append, List.length_singleton]
    omega

/-! ## The result -/

/-- The tables of a fresh space: the root, one below it and the directories. -/
theorem freshSpace_table_cases {p : List ℕ} {f : ℕ} (h : (freshSpace f4 f3 pds).table p = some f) :
    (p = [] ∧ f = f4) ∨ (p = [0] ∧ f = f3) ∨ ∃ j, p = [0, j] ∧ pds[j]? = some f := by
  match p, h with
  | [], h => exact .inl ⟨rfl, (Option.some.inj h).symm⟩
  | [0], h => exact .inr (.inl ⟨rfl, (Option.some.inj h).symm⟩)
  | [0, j], h => exact .inr (.inr ⟨j, rfl, h⟩)

/-- A fresh space has the tables that were built for it. -/
theorem mem_freshSpace_frames {f : ℕ} (h : f ∈ (freshSpace f4 f3 pds).frames) :
    f ∈ f4 :: f3 :: pds := by
  obtain ⟨p, hp⟩ := h
  rcases freshSpace_table_cases hp with ⟨-, rfl⟩ | ⟨-, rfl⟩ | ⟨j, -, hj⟩
  · simp
  · simp
  · simp [List.mem_of_getElem? hj]

/-- The tables of a fresh space are in different frames. -/
theorem freshSpace_inj (hnodup : (f4 :: f3 :: pds).Nodup) {p q : List ℕ} {f : ℕ}
    (hp : (freshSpace f4 f3 pds).table p = some f) (hq : (freshSpace f4 f3 pds).table q = some f) :
    p = q := by
  obtain ⟨hf4, hrest⟩ := List.nodup_cons.1 hnodup
  obtain ⟨hf3, hpds⟩ := List.nodup_cons.1 hrest
  rcases freshSpace_table_cases hp with ⟨rfl, rfl⟩ | ⟨rfl, rfl⟩ | ⟨j, rfl, hj⟩
  · rcases freshSpace_table_cases hq with ⟨rfl, -⟩ | ⟨rfl, rfl⟩ | ⟨k, rfl, hk⟩
    · rfl
    · simp at hf4
    · exact absurd (List.mem_cons_of_mem _ (List.mem_of_getElem? hk)) hf4
  · rcases freshSpace_table_cases hq with ⟨rfl, rfl⟩ | ⟨rfl, -⟩ | ⟨k, rfl, hk⟩
    · simp at hf4
    · rfl
    · exact absurd (List.mem_of_getElem? hk) hf3
  · rcases freshSpace_table_cases hq with ⟨rfl, rfl⟩ | ⟨rfl, rfl⟩ | ⟨k, rfl, hk⟩
    · exact absurd (List.mem_cons_of_mem _ (List.mem_of_getElem? hj)) hf4
    · exact absurd (List.mem_of_getElem? hj) hf3
    · rw [(List.getElem?_inj (List.getElem?_eq_some_iff.1 hj).1 hpds).1 (hj.trans hk.symm)]

/-- The last store, the PML4's entry for the first 512 GiB, completes the space. -/
theorem Building.complete (h : Building s₀ e511 f4 f3 pds s) (hlen : pds.length = 4) :
    Holds e511 { s with mem := setWord s.mem f4 0 (f3 + 7) } (freshSpace f4 f3 pds) := by
  obtain ⟨hf4, hrest⟩ := List.nodup_cons.1 h.nodup
  obtain ⟨hf3, -⟩ := List.nodup_cons.1 hrest
  have hpds : ∀ {j f : ℕ}, pds[j]? = some f → f ∈ f4 :: f3 :: pds := fun hj => by
    simp [List.mem_of_getElem? hj]
  have hlast : ∀ {g i : ℕ}, g ∈ f3 :: pds → i < 512 →
      word (setWord s.mem f4 0 (f3 + 7)) g i = word s.mem g i := fun hg hi =>
    (sameOutside_setWord (by omega)).word_eq (by rintro _ rfl; exact h.aligned (by simp))
      (h.aligned (List.mem_cons_of_mem _ hg)) (fun he => hf4 (he ▸ hg)) hi
  have hlt : f3 < 2 ^ 30 := PageAllocator.below (h.taken f3 (by simp)).1
  refine ⟨⟨?words, freshSpace_inj h.nodup, ?depth, ?frame, ?hung, ?parent, ?ident, fun _ => rfl⟩,
    ?taken⟩
  case words =>
    intro p f i hp hi
    rcases freshSpace_table_cases hp with ⟨rfl, rfl⟩ | ⟨rfl, rfl⟩ | ⟨j, rfl, hj⟩
    · rcases eq_or_ne i 0 with rfl | hne
      · exact word_setWord_self _ _ _ (by omega)
      · rw [word_setWord_of_ne _ _ _ hne.symm, h.pml4 i hi]
        obtain ⟨i, rfl⟩ := Nat.exists_eq_succ_of_ne_zero hne
        rfl
    · rw [hlast (by simp) hi, h.pdpt i hi]
      have htable : (freshSpace f4 f pds).table ([0] ++ [i]) = pds[i]? := rfl
      rw [Space.entry, if_neg (by simp), htable]
      cases pds[i]? <;> rfl
    · rw [hlast (by simp [List.mem_of_getElem? hj]) hi, h.pd hj i hi]
      rfl
  case depth =>
    intro p f hp
    rcases freshSpace_table_cases hp with ⟨rfl, -⟩ | ⟨rfl, -⟩ | ⟨j, rfl, -⟩ <;> simp
  case frame =>
    intro p f hp
    have hmem := mem_freshSpace_frames ⟨p, hp⟩
    exact ⟨h.aligned hmem, PageAllocator.below (h.taken f hmem).1⟩
  case hung =>
    intro p i f hp
    rcases freshSpace_table_cases hp with ⟨he, -⟩ | ⟨he, -⟩ | ⟨j, he, -⟩
    · simp at he
    · obtain ⟨rfl, hi⟩ := List.append_inj' (show p ++ [i] = [] ++ [0] from he) rfl
      cases hi
      rfl
    · obtain ⟨rfl, -⟩ := List.append_inj' (show p ++ [i] = [0] ++ [j] from he) rfl
      rfl
  case parent =>
    intro p i f hp
    rcases freshSpace_table_cases hp with ⟨he, -⟩ | ⟨he, -⟩ | ⟨j, he, -⟩
    · simp at he
    · obtain ⟨rfl, -⟩ := List.append_inj' (show p ++ [i] = [] ++ [0] from he) rfl
      exact ⟨f4, rfl⟩
    · obtain ⟨rfl, -⟩ := List.append_inj' (show p ++ [i] = [0] ++ [j] from he) rfl
      exact ⟨f3, rfl⟩
  case ident =>
    intro j hj
    exact ⟨_, List.getElem?_eq_getElem (by omega)⟩
  case taken =>
    intro f hf
    exact (h.taken f (mem_freshSpace_frames hf)).2

/-- The PML4 with its shared entry and an empty PDPT: the state before the loop. -/
theorem building_nil {pages₁ pages₂ : σ} (K : KernelTables)
    (ha : PageAllocator.allocPage s.pages = some (f4, pages₁))
    (hb : PageAllocator.allocPage pages₁ = some (f3, pages₂)) :
    Building s (word (clear s.mem f4 4096) K.pml4 511) f4 f3 []
      ⟨clear (setWord (clear s.mem f4 4096) f4 511 (word (clear s.mem f4 4096) K.pml4 511)) f3 4096,
        pages₂⟩ := by
  have h4 := PageAllocator.mem_free ha
  have hfree : PageAllocator.free pages₁ = PageAllocator.free s.pages \ {f4} :=
    PageAllocator.free_eq ha
  have hfree' : PageAllocator.free pages₂ = PageAllocator.free pages₁ \ {f3} :=
    PageAllocator.free_eq hb
  have h3 := PageAllocator.mem_free hb
  rw [hfree] at h3
  have hne : f4 ≠ f3 := fun he => h3.2 he.symm
  have hword : ∀ i < 512, word (clear (setWord (clear s.mem f4 4096) f4 511
      (word (clear s.mem f4 4096) K.pml4 511)) f3 4096) f4 i =
        word (setWord (clear s.mem f4 4096) f4 511 (word (clear s.mem f4 4096) K.pml4 511)) f4 i :=
    fun i hi => sameOutside_clear.word_eq (by rintro _ rfl; exact PageAllocator.aligned h3.1)
      (PageAllocator.aligned h4) hne hi
  refine ⟨?fresh, ?taken, ?nodup, ?avail, ?pml4, ?pdpt, ?pd⟩
  case fresh =>
    have h1 := (onlyFresh_alloc ha).then_same (F := {f4})
      (Set.singleton_subset_iff.2 ⟨h4, by rw [hfree]; exact fun hn => hn.2 rfl⟩)
      (sameOutside_setWord (i := 511) (v := word (clear s.mem f4 4096) K.pml4 511) (by omega))
    exact h1.trans (onlyFresh_alloc hb)
  case taken =>
    intro f hf
    rw [List.mem_pair] at hf
    rw [hfree', hfree]
    rcases hf with rfl | rfl
    · exact ⟨h4, fun hn => hn.1.2 rfl⟩
    · exact ⟨h3.1, fun hn => hn.2 rfl⟩
  case nodup => simpa using hne
  case avail =>
    have h1 := PageAllocator.avail_some ha
    have h2 := PageAllocator.avail_some hb
    simp only [List.length_nil]
    omega
  case pml4 =>
    intro i hi
    rw [hword i hi, fixed]
    rcases eq_or_ne i 511 with rfl | hi'
    · rw [word_setWord_self _ _ _ (word_lt _ _ _), if_pos rfl]
    · rw [word_setWord_of_ne _ _ _ hi'.symm, word_clear _ _ (by omega), if_neg hi']
  case pdpt =>
    intro i hi
    exact word_clear _ _ (by omega)
  case pd =>
    intro j f hf
    simp at hf

/-- The tables that `create_user_address_space` builds: a PML4, a PDPT and four page directories. -/
theorem createUserAddressSpace_built (K : KernelTables) (s : Machine σ) :
    Exec.Sat ((createUserAddressSpace K : Exec ε (Machine σ) ℕ) s)
      (fun cr3 s' => OnlyFresh s s' ∧
        PageAllocator.avail s.pages = PageAllocator.avail s'.pages + 6 ∧ ∃ f3 pds,
        pds.length = 4 ∧
        Holds (word (clear s.mem cr3 4096) K.pml4 511) s' (freshSpace cr3 f3 pds) ∧
        ∀ f ∈ cr3 :: f3 :: pds, f ∈ PageAllocator.free s.pages \ PageAllocator.free s'.pages)
      (fun e s' => e = .panic ∧ OnlyFresh s s' ∧ PageAllocator.avail s.pages < 6) := by
  unfold createUserAddressSpace
  rcases allocZeroed_run (ε := ε) (fun pml4Phys pml4 => do
      setEntry pml4 511 (← getEntry (K.pml4 + kernelVmaBase) 511)
      let pdptPhys ← allocPageExpect
      let pdpt ← physToVirt pdptPhys
      zeroPage pdpt
      (List.range 4).forM (identityDirectory pdpt)
      setEntry pml4 0 (pdptPhys ||| 0x4 ||| 0x2 ||| 0x1)
      pure pml4Phys) s with ⟨hrun, hnone⟩ | ⟨f4, pages₁, ha, hrun⟩
  · rw [hrun]
    exact Exec.sat_error.2 ⟨rfl, .refl s, by omega⟩
  rw [hrun, Exec.bind_of_ok (getEntry_run _ K.pml4 511), Exec.bind_of_ok (setEntry_run _ f4 511 _)]
  rcases allocZeroed_run (ε := ε) (fun pdptPhys pdpt => do
      (List.range 4).forM (identityDirectory pdpt)
      setEntry (f4 + kernelVmaBase) 0 (pdptPhys ||| 0x4 ||| 0x2 ||| 0x1)
      pure f4)
    ⟨setWord (clear s.mem f4 4096) f4 511 (word (clear s.mem f4 4096) K.pml4 511), pages₁⟩
    with ⟨hrun, hnone⟩ | ⟨f3, pages₂, hb, hrun⟩
  · rw [hrun]
    have hone := PageAllocator.avail_some ha
    have hzero : PageAllocator.avail pages₁ = 0 := hnone
    refine Exec.sat_error.2 ⟨rfl, (onlyFresh_alloc ha).then_same (F := {f4}) ?_
      (sameOutside_setWord (by omega)), by omega⟩
    rw [Set.singleton_subset_iff, PageAllocator.free_eq ha]
    exact ⟨PageAllocator.mem_free ha, fun hn => hn.2 rfl⟩
  rw [hrun]
  have hloop := Exec.Sat.forM_range (ε := ε) (f := identityDirectory (f3 + kernelVmaBase)) (n := 4)
    (I := fun j s' => ∃ pds, pds.length = j ∧
      Building s (word (clear s.mem f4 4096) K.pml4 511) f4 f3 pds s')
    (E := fun e s' => e = .panic ∧ OnlyFresh s s' ∧ PageAllocator.avail s.pages < 6) ?_
    ⟨[], rfl, building_nil K ha hb⟩
  case refine_1 =>
    rintro j hj s' ⟨pds, rfl, hbuild⟩
    refine (identityDirectory_spec hbuild hj).mono (fun _ s'' ⟨f, hf⟩ => ?_) fun _ _ he => he
    exact ⟨pds ++ [f], by simp, hf⟩
  refine Exec.Sat.bind (hloop.mono ?_ fun _ _ he => he)
  rintro _ s' ⟨pds, hlen, hbuild⟩
  have hf3 := PageAllocator.aligned (hbuild.taken f3 (by simp)).1
  rw [tableEntry_eq' hf3, Exec.bind_of_ok (setEntry_run _ f4 0 _)]
  refine Exec.sat_ok.2 ⟨?_, by have := hbuild.avail; rwa [hlen] at this, f3, pds,
    hlen, hbuild.complete hlen, hbuild.taken⟩
  exact hbuild.fresh.then_same (Set.singleton_subset_iff.2 (hbuild.taken f4 (by simp)))
    (sameOutside_setWord (by omega))

/-- `create_user_address_space` returns the PML4 of a space that maps no page and whose tables are
frames just taken; it panics when there is no frame for a table. Every byte it changes is in such a
frame. -/
theorem createUserAddressSpace_spec (K : KernelTables) (s : Machine σ) :
    Exec.Sat ((createUserAddressSpace K : Exec ε (Machine σ) ℕ) s)
      (fun cr3 s' => OnlyFresh s s' ∧
        PageAllocator.avail s.pages = PageAllocator.avail s'.pages + 6 ∧ ∃ f3 pds,
        Holds (word (clear s.mem cr3 4096) K.pml4 511) s' (freshSpace cr3 f3 pds) ∧
        ∀ f ∈ cr3 :: f3 :: pds, f ∈ PageAllocator.free s.pages \ PageAllocator.free s'.pages)
      (fun e s' => e = .panic ∧ OnlyFresh s s' ∧ PageAllocator.avail s.pages < 6) := by
  refine (createUserAddressSpace_built K s).mono ?_ fun _ _ he => he
  rintro cr3 s' ⟨hfresh, havail, f3, pds, -, hholds, htaken⟩
  exact ⟨hfresh, havail, f3, pds, hholds, htaken⟩

end

end Paging

end RossOs
