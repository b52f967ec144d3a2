import RossOs.Paging.Create
import RossOs.Paging.Walk

/-!
# Runs of `map_user_page`

An address space is made by `create_user_address_space` and extended by calls of `map_user_page`.
While every address stays clear of the reserved ones, a run of such calls writes only into frames
it took from the allocator, and no entry it follows is a 2 MB page (`buildSpace_writesOnlyTables`).
At a reserved address the second half fails at once: `map_user_page` follows whatever entry it
finds, and in the first 4 GiB it finds the 2 MB identity pages.
-/

namespace RossOs

open ByteMem

namespace Paging

variable {ε σ : Type} [PageAllocator σ]

/-- The arguments of a call of `map_user_page`, apart from the address space. -/
structure MapCall where
  vaddr : UInt64
  paddr : UInt64
  flags : UInt64
deriving DecidableEq, Repr

/-- A sequence of `map_user_page` calls on one address space. -/
def mapUserPages (cr3 : ℕ) (calls : List MapCall) : Exec ε (Machine σ) PUnit :=
  calls.forM fun c => mapUserPage cr3 c.vaddr.toNat c.paddr.toNat c.flags.toNat

/-- A list of calls is its first call, then the others. -/
theorem mapUserPages_cons (cr3 : ℕ) (c : MapCall) (calls : List MapCall) :
    (mapUserPages cr3 (c :: calls) : Exec ε (Machine σ) PUnit) =
      mapUserPage cr3 c.vaddr.toNat c.paddr.toNat c.flags.toNat >>=
        fun _ => mapUserPages cr3 calls := by
  rw [mapUserPages, Exec.forM_cons, mapUserPages]

/-- The life of an address space: its creation, and calls of `map_user_page`. -/
def buildSpace (K : KernelTables) (calls : List MapCall) : Exec ε (Machine σ) ℕ := do
  let cr3 ← createUserAddressSpace K
  mapUserPages cr3 calls
  pure cr3

/-- `map_user_page` at `v` would take a huge page for a table: the entries above are there, and the
one it follows has the bit. -/
def FollowsHuge (m : Mem) (cr3 v : ℕ) : Prop :=
  let e4 := word m cr3 (index 39 v)
  let e3 := word m (frameOf e4) (index 30 v)
  let e2 := word m (frameOf e3) (index 21 v)
  e4 ≠ 0 ∧ e3 ≠ 0 ∧ (e3 &&& hugePage ≠ 0 ∨ e2 &&& hugePage ≠ 0)

/-! ## One call -/

variable {e511 : ℕ} {s₀ s s' : Machine σ} {A A' : Space} {cr3 : ℕ}

/-- Clear of the reserved addresses, the entries on the way to a page lead to tables. -/
theorem Holds.not_followsHuge (h : Holds e511 s A) (hroot : A.table [] = some cr3) {v : ℕ}
    (hv : ¬ Reserved v) : ¬ FollowsHuge s.mem cr3 v := by
  rintro ⟨h4, h3, hhuge⟩
  rcases h.entry_cases hroot (by simp) (index_lt 39 v) (fixed_pml4 hv) with
    ⟨h0, -⟩ | ⟨g4, ht4, hw4, hg4, hlt4⟩
  · exact h4 h0
  rw [hw4, frameOf_add hg4 (by omega) (by omega)] at h3 hhuge
  rcases h.entry_cases ht4 (by simp) (index_lt 30 v) rfl with ⟨h0, -⟩ | ⟨g3, ht3, hw3, hg3, hlt3⟩
  · exact h3 h0
  rw [hw3, tableEntry_and_hugePage hg3, frameOf_add hg3 (by omega) (by omega)] at hhuge
  rcases hhuge with hhuge | hhuge
  · exact hhuge rfl
  rcases h.entry_cases ht3 (by simp) (index_lt 21 v) (fixed_pd hv) with
    ⟨h0, -⟩ | ⟨g2, -, hw2, hg2, -⟩
  · exact hhuge (by rw [h0, Nat.zero_and])
  · exact hhuge (by rw [hw2, tableEntry_and_hugePage hg2])

/-! ## Runs -/

/-- An address space whose tables were all taken since `s₀`, and nothing else was written. -/
structure BuiltSince (s₀ : Machine σ) (e511 cr3 : ℕ) (s : Machine σ) : Prop where
  fresh : OnlyFresh s₀ s
  space : ∃ A, Holds e511 s A ∧ A.table [] = some cr3 ∧
    A.frames ⊆ PageAllocator.free s₀.pages \ PageAllocator.free s.pages

/-- Growing the tables keeps the changes inside frames taken since `s₀`. -/
theorem Grow.builtSince {n : ℕ} (hg : Grow e511 n s A s' A') (hroot : A.table [] = some cr3)
    (hfresh : OnlyFresh s₀ s)
    (hframes : A.frames ⊆ PageAllocator.free s₀.pages \ PageAllocator.free s.pages) :
    BuiltSince s₀ e511 cr3 s' := by
  have hframes' : A'.frames ⊆ PageAllocator.free s₀.pages \ PageAllocator.free s'.pages := by
    intro f hf
    refine ⟨?_, hg.holds.taken hf⟩
    rcases hg.new hf with hold | hnew
    · exact (hframes hold).1
    · exact hfresh.free hnew
  refine ⟨⟨hg.free.trans hfresh.free, ?_⟩, A', hg.holds, hg.mono hroot, hframes'⟩
  exact (hfresh.mem.mono (Set.sdiff_subset_sdiff_right hg.free)).trans (hg.mem.mono hframes')

/-- One call keeps a space built since `s₀`, also when it stops. It takes three frames at most, and
stops only when fewer are left. -/
theorem BuiltSince.mapUserPage (h : BuiltSince s₀ e511 cr3 s) {c : MapCall}
    (hc : ¬ Reserved c.vaddr.toNat) :
    Exec.Sat ((mapUserPage cr3 c.vaddr.toNat c.paddr.toNat c.flags.toNat :
        Exec ε (Machine σ) PUnit) s)
      (fun _ s' => BuiltSince s₀ e511 cr3 s' ∧
        PageAllocator.avail s.pages ≤ PageAllocator.avail s'.pages + 3)
      (fun _ s' => BuiltSince s₀ e511 cr3 s' ∧ PageAllocator.avail s.pages < 3) := by
  obtain ⟨hfresh, A, hA, hroot, hframes⟩ := h
  refine (mapUserPage_spec hA hroot hc c.paddr.toNat_lt c.flags.toNat_lt).mono ?_ ?_
  · rintro _ s' ⟨A', hg, -⟩
    exact ⟨hg.builtSince hroot hfresh hframes, hg.avail⟩
  · rintro _ s' ⟨-, hnone, A', hg, -⟩
    have := hg.avail
    exact ⟨hg.builtSince hroot hfresh hframes, by omega⟩

/-- Calls of `map_user_page` write to fresh frames only. -/
theorem BuiltSince.mapUserPages {calls : List MapCall}
    (hcalls : ∀ c ∈ calls, ¬ Reserved c.vaddr.toNat) (h : BuiltSince s₀ e511 cr3 s) :
    Exec.Sat ((mapUserPages cr3 calls : Exec ε (Machine σ) PUnit) s)
      (fun _ s' => BuiltSince s₀ e511 cr3 s') (fun _ s' => BuiltSince s₀ e511 cr3 s') :=
  Exec.Sat.forM calls (fun _ hc _ hs => (hs.mapUserPage (hcalls _ hc)).mono
    (fun _ _ h => h.1) fun _ _ h => h.1) s h

/-- With three frames for each call, the calls all return. -/
theorem BuiltSince.mapUserPages_ok {calls : List MapCall}
    (hcalls : ∀ c ∈ calls, ¬ Reserved c.vaddr.toNat) (h : BuiltSince s₀ e511 cr3 s)
    (havail : 3 * calls.length ≤ PageAllocator.avail s.pages) :
    ∃ s', (Paging.mapUserPages cr3 calls : Exec ε (Machine σ) PUnit) s = .ok ⟨⟩ s' := by
  induction calls generalizing s with
  | nil => exact ⟨s, rfl⟩
  | cons c calls ih =>
    have hspec := h.mapUserPage (ε := ε) (hcalls c (by simp))
    rw [List.length_cons] at havail
    cases hrun : (Paging.mapUserPage cr3 c.vaddr.toNat c.paddr.toNat c.flags.toNat :
        Exec ε (Machine σ) PUnit) s with
    | error e s₁ =>
      have := (hspec.of_error hrun).2
      omega
    | ok u s₁ =>
      obtain ⟨hs₁, hleft⟩ := hspec.of_ok hrun
      obtain ⟨s', hs'⟩ := ih (fun c' hc' => hcalls c' (by simp [hc'])) hs₁ (by omega)
      rw [mapUserPages_cons, Exec.bind_of_ok hrun]
      exact ⟨s', hs'⟩

/-- `create_user_address_space` builds a space of six frames taken since, or finds too few. -/
theorem createUserAddressSpace_builtSince (K : KernelTables) (s : Machine σ) :
    Exec.Sat ((createUserAddressSpace K : Exec ε (Machine σ) ℕ) s)
      (fun cr3 s' => cr3 ∈ PageAllocator.free s.pages ∧
        BuiltSince s (word (clear s.mem cr3 4096) K.pml4 511) cr3 s' ∧
        PageAllocator.avail s.pages = PageAllocator.avail s'.pages + 6)
      (fun _ s' => OnlyFresh s s' ∧ PageAllocator.avail s.pages < 6) := by
  refine (createUserAddressSpace_spec K s).mono ?_ fun _ s' h => h.2
  rintro cr3 s' ⟨hfresh, havail, f3, pds, hholds, htaken⟩
  refine ⟨(htaken cr3 (by simp)).1, ?_, havail⟩
  exact ⟨hfresh, _, hholds, rfl,
    fun f hf => htaken f (mem_freshSpace_frames hf)⟩

/-- A run with enough frames returns the new address space. -/
theorem buildSpace_ok (K : KernelTables) {calls : List MapCall} {s : Machine σ}
    (hcalls : ∀ c ∈ calls, ¬ Reserved c.vaddr.toNat)
    (havail : 6 + 3 * calls.length ≤ PageAllocator.avail s.pages) :
    ∃ cr3 s', (buildSpace K calls : Exec ε (Machine σ) ℕ) s = .ok cr3 s' := by
  have hspec := createUserAddressSpace_builtSince (ε := ε) K s
  cases hrun : (createUserAddressSpace K : Exec ε (Machine σ) ℕ) s with
  | error e s₁ =>
    have := (hspec.of_error hrun).2
    omega
  | ok cr3 s₁ =>
    obtain ⟨-, hs₁, hleft⟩ := hspec.of_ok hrun
    obtain ⟨s', hs'⟩ := hs₁.mapUserPages_ok (ε := ε) hcalls (by omega)
    rw [buildSpace, Exec.bind_of_ok hrun, Exec.bind_of_ok hs']
    exact ⟨cr3, s', rfl⟩

/-- What a run of creation and calls may do to memory: every byte it changes, up to where it ends,
is in a frame taken from the allocator on the way (the tables of the space), and before no call
does the way to its page lead through a huge page. -/
def WritesOnlyTables (K : KernelTables) (calls : List MapCall) (s : Machine σ) : Prop :=
  OnlyFresh s (Exec.Outcome.state ((buildSpace K calls : Exec Empty (Machine σ) ℕ) s)) ∧
  ∀ (pre : List MapCall) (c : MapCall), pre ++ [c] <+: calls → ∀ (cr3 : ℕ) (s₁ s₂ : Machine σ),
    (createUserAddressSpace K : Exec Empty (Machine σ) ℕ) s = .ok cr3 s₁ →
    (mapUserPages cr3 pre : Exec Empty (Machine σ) PUnit) s₁ = .ok ⟨⟩ s₂ →
    ¬ FollowsHuge s₂.mem cr3 c.vaddr.toNat

/-- **Only page tables are written.** A run whose addresses are all clear of the reserved ones
writes only into frames it took, and follows no huge page. -/
theorem buildSpace_writesOnlyTables (K : KernelTables) (calls : List MapCall) (s : Machine σ)
    (hcalls : ∀ c ∈ calls, ¬ Reserved c.vaddr.toNat) : WritesOnlyTables K calls s := by
  refine ⟨Exec.Sat.state (P := OnlyFresh s) ?_, ?_⟩
  · refine Exec.Sat.bind ((createUserAddressSpace_builtSince K s).mono ?_ fun _ _ h => h.1)
    rintro cr3 s₁ ⟨-, hs₁, -⟩
    refine Exec.Sat.bind ((hs₁.mapUserPages hcalls).mono ?_ fun _ _ h => h.fresh)
    exact fun _ s₂ hs₂ => Exec.sat_ok.2 hs₂.fresh
  · intro pre c hpre cr3 s₁ s₂ hcreate hrun
    obtain ⟨-, hs₁, -⟩ := (createUserAddressSpace_builtSince K s).of_ok hcreate
    have hmem : ∀ c' ∈ pre ++ [c], c' ∈ calls := fun c' hc' => hpre.subset hc'
    have hs₂ := (hs₁.mapUserPages fun c' hc' => hcalls c' (hmem c' (by simp [hc']))).of_ok hrun
    obtain ⟨A, hA, hroot, -⟩ := hs₂.space
    exact hA.not_followsHuge hroot (hcalls c (hmem c (by simp)))

/-! ## A machine after boot -/

/-- The static tables at 3 MB. -/
def bootTables : KernelTables where
  pml4 := 0x300000
  pdptLow := 0x301000
  pdptHigh := 0x302000
  pd i := 0x303000 + i * 0x1000
  nodup := by decide
  frame := by decide

/-- The allocator with 1 MB at 16 MB. -/
@[irreducible] def bootPages : PmmState :=
  PmmState.init [⟨0x1000000, 0x100000, .usable⟩] PmmState.new

/-- Memory after `paging::init`. -/
def bootMachine : Machine PmmState where
  mem := init bootTables fun _ => 0
  pages := bootPages

/-- The pages free at boot are those of the one region. -/
theorem freePages_bootPages :
    bootPages.freePages = PmmState.usablePages [⟨0x1000000, 0x100000, .usable⟩] := by
  have h := PmmState.init_new [⟨0x1000000, 0x100000, .usable⟩]
  unfold bootPages
  exact h.1

/-- At boot 256 pages are free. -/
theorem avail_bootPages : PageAllocator.avail bootPages = 256 := by
  rw [PmmState.avail_eq, freePages_bootPages, ← PmmState.regionPages_toFinset rfl,
    PmmState.regionPages, List.toFinset_card_of_nodup List.nodup_range', List.length_range']
  simp only [Pmm.pageSize, Pmm.maxPages, Pmm.bitmapBytes, Nat.reduceMul, Nat.reduceDiv,
    Nat.reduceAdd, Nat.reduceSub, Nat.reduceLeDiff, min_eq_left]

/-- The allocator after boot holds no static table. -/
theorem bootTables_not_free : ∀ f ∈ bootTables.frames, f ∉ PageAllocator.free bootPages := by
  intro f hf hfree
  obtain ⟨p, hp, rfl⟩ := PmmState.mem_free.1 hfree
  rw [freePages_bootPages, PmmState.mem_usablePages] at hp
  obtain ⟨-, r, hr, -, hlow, -⟩ := hp
  rw [List.mem_singleton.1 hr] at hlow
  simp only [bootTables, KernelTables.frames, List.mem_cons, List.not_mem_nil, or_false] at hf
  simp only [Pmm.pageSize] at hf hlow
  omega

/-- A run that meets the condition: a page at 4 MB and one at 4 GiB. -/
theorem buildSpace_writesOnlyTables_boot :
    WritesOnlyTables bootTables [⟨0x400000, 0x1080000, 7⟩, ⟨0x100000000, 0x1081000, 7⟩]
      bootMachine :=
  buildSpace_writesOnlyTables _ _ _ (by decide)

/-- The page at 6 MB, the first address a segment may have above the hole: its entry in the page
directory is a 2 MB page, and `map_user_page` takes it for a page table. -/
theorem not_writesOnlyTables_above_hole :
    ¬ WritesOnlyTables bootTables [⟨0x600000, 0x1080000, 7⟩] bootMachine := by
  rintro ⟨-, hnot⟩
  have hnone : ∀ c ∈ ([] : List MapCall), ¬ Reserved c.vaddr.toNat := by simp
  obtain ⟨cr3', s', hbuild⟩ := buildSpace_ok (ε := Empty) (s := bootMachine) bootTables hnone
    (by rw [show bootMachine.pages = bootPages from rfl, avail_bootPages]; decide)
  obtain ⟨cr3, s, hrun, -⟩ := Exec.bind_eq_ok.1 hbuild
  refine hnot [] _ (List.prefix_rfl) cr3 s s hrun rfl ?_
  obtain ⟨-, -, f3, pds, hholds, -⟩ := (createUserAddressSpace_spec _ _).of_ok hrun
  -- the entries of the fresh space on the way: its PDPT, its first page directory, a 2 MB page
  have hidx : pagePath 0x600000 = [0, 0, 3, 0] := by decide
  simp only [pagePath, List.cons.injEq] at hidx
  obtain ⟨hi4, hi3, hi2, -⟩ := hidx
  obtain ⟨pd, hpd⟩ := hholds.ident (j := 0) (by decide)
  have hf3 := hholds.frame (p := [0]) rfl
  have hpd' := hholds.frame hpd
  have h4 : word s.mem cr3 0 = f3 + 7 := hholds.words (p := []) rfl (by decide)
  have h3 : word s.mem f3 0 = pd + 7 := by
    rw [hholds.words (p := [0]) rfl (by decide), Space.entry, if_neg (by decide),
      List.singleton_append, hpd]
  have h2 : word s.mem pd 3 = 0x600083 := hholds.words hpd (by decide)
  show FollowsHuge s.mem cr3 0x600000
  rw [FollowsHuge, hi4, hi3, hi2, h4, frameOf_add hf3.1 (by omega) (by omega), h3,
    frameOf_add hpd'.1 (by omega) (by omega), h2]
  exact ⟨by omega, by omega, .inr (by decide)⟩

end Paging

end RossOs
