import RossOs.Lib.Run
import RossOs.Paging.Isolation
import RossOs.Paging.Owned

/-!
# The window on all allocatable memory

`phys_to_virt` gives the address of a physical byte in the kernel's window. The walk of that address
leads back to the byte, in the tables of `paging::init` and in every address space, whatever is made
and mapped in the meantime: any order of creations, mappings and allocations keeps the static
tables, the PML4 entry that every space shares with them, and the tables of the spaces apart.
-/

namespace RossOs

open ByteMem

namespace Paging

/-- What changes page tables, or takes a frame for something else. -/
inductive WindowOp where
  /-- `create_user_address_space`. -/
  | create
  /-- `map_user_page` in the `i`-th address space. -/
  | map (i : ℕ) (c : MapCall)
  /-- `pmm::alloc_page` by other code. -/
  | alloc

/-- The machine, and the PML4s of the address spaces made so far. -/
structure Windows (σ : Type) where
  machine : Machine σ
  spaces : List ℕ

/-- The addresses at which pages are mapped: the hole at 4 MB, and from 4 GB to the end of the
lower half. -/
def WindowOp.Allowed : WindowOp → Prop
  | .map _ c => 0x400000 ≤ c.vaddr.toNat ∧ c.vaddr.toNat < 0x600000 ∨
      2 ^ 32 ≤ c.vaddr.toNat ∧ c.vaddr.toNat < 2 ^ 47
  | _ => True

instance : DecidablePred WindowOp.Allowed
  | .create => inferInstanceAs (Decidable True)
  | .alloc => inferInstanceAs (Decidable True)
  | .map _ c => inferInstanceAs (Decidable (0x400000 ≤ c.vaddr.toNat ∧ c.vaddr.toNat < 0x600000 ∨
      2 ^ 32 ≤ c.vaddr.toNat ∧ c.vaddr.toNat < 2 ^ 47))

variable {σ : Type} [PageAllocator σ]

/-- One operation. When it runs out of frames, what it did until then stays. -/
def windowStep (K : KernelTables) (w : Windows σ) : WindowOp → Windows σ
  | .create =>
    match (createUserAddressSpace K : Exec Empty (Machine σ) ℕ) w.machine with
    | .ok cr3 s => ⟨s, cr3 :: w.spaces⟩
    | .error _ s => { w with machine := s }
  | .map i c =>
    match w.spaces[i]? with
    | none => w
    | some cr3 =>
      { w with machine := Exec.Outcome.state ((mapUserPage cr3 c.vaddr.toNat c.paddr.toNat
          c.flags.toNat : Exec Empty (Machine σ) PUnit) w.machine) }
  | .alloc =>
    { w with machine :=
        Exec.Outcome.state ((allocPage : Exec Empty (Machine σ) (Option ℕ)) w.machine) }

/-- The static tables are as `init` left them, and every address space has tables of its own. `S`
gives the address space of a PML4. -/
structure WindowInv (K : KernelTables) (w : Windows σ) (S : ℕ → Space) : Prop where
  words : KernelWords K w.machine.mem
  live : ∀ f ∈ K.frames, f ∉ PageAllocator.free w.machine.pages
  holds : ∀ cr3 ∈ w.spaces, Holds (K.pdptHigh + 7) w.machine (S cr3)
  root : ∀ cr3 ∈ w.spaces, (S cr3).table [] = some cr3
  static : ∀ cr3 ∈ w.spaces, ∀ f ∈ K.frames, f ∉ (S cr3).frames
  apart : ∀ a ∈ w.spaces, ∀ b ∈ w.spaces, a ≠ b → Disjoint (S a).frames (S b).frames

section
variable {K : KernelTables} {w : Windows σ} {S : ℕ → Space}

/-- Steps that only write to frames taken since keep the invariant. -/
theorem WindowInv.onlyFresh (h : WindowInv K w S) {s : Machine σ} (hfresh : OnlyFresh w.machine s) :
    WindowInv K { w with machine := s } S where
  words := hfresh.kernelWords h.words h.live
  live f hf hfree := h.live f hf (hfresh.free hfree)
  holds cr3 hcr3 := (h.holds cr3 hcr3).of_sameOutside hfresh.mem (fun _ hf =>
    ⟨PageAllocator.aligned hf.1, fun hmem => (h.holds cr3 hcr3).taken hmem hf.1⟩) hfresh.free
  root := h.root
  static := h.static
  apart := h.apart

/-- A new address space, in frames that were free. -/
theorem WindowInv.create (h : WindowInv K w S) {s : Machine σ} {A : Space} {cr3 : ℕ}
    (hfresh : OnlyFresh w.machine s) (hA : Holds (K.pdptHigh + 7) s A)
    (hroot : A.table [] = some cr3)
    (hframes : A.frames ⊆ PageAllocator.free w.machine.pages \ PageAllocator.free s.pages) :
    WindowInv K ⟨s, cr3 :: w.spaces⟩ (Function.update S cr3 A) := by
  have hold := h.onlyFresh hfresh
  have hdisj : ∀ b ∈ w.spaces, Disjoint A.frames (S b).frames := fun b hb =>
    Set.disjoint_left.2 fun f hf hfb => (h.holds b hb).taken hfb (hframes hf).1
  have hne : ∀ b ∈ w.spaces, b ≠ cr3 := by
    intro b hb he
    exact Set.disjoint_left.1 (hdisj b hb) ⟨[], hroot⟩ ⟨[], he ▸ h.root b hb⟩
  have hkeep : ∀ b ∈ w.spaces, Function.update S cr3 A b = S b := fun b hb =>
    Function.update_of_ne (hne b hb) _ _
  have hself : Function.update S cr3 A cr3 = A := Function.update_self _ _ _
  refine ⟨hold.words, hold.live, ?_, ?_, ?_, ?_⟩
  · refine List.forall_mem_cons.2 ⟨?_, fun b hb => ?_⟩
    · rwa [hself]
    · rw [hkeep b hb]
      exact hold.holds b hb
  · refine List.forall_mem_cons.2 ⟨?_, fun b hb => ?_⟩
    · rwa [hself]
    · rw [hkeep b hb]
      exact h.root b hb
  · refine List.forall_mem_cons.2 ⟨fun f hf hmem => ?_, fun b hb => ?_⟩
    · rw [hself] at hmem
      exact h.live f hf (hframes hmem).1
    · rw [hkeep b hb]
      exact h.static b hb
  · refine List.forall_mem_cons.2 ⟨List.forall_mem_cons.2 ⟨fun hn => absurd rfl hn,
      fun b hb _ => ?_⟩, fun a ha => List.forall_mem_cons.2 ⟨fun _ => ?_, fun b hb hab => ?_⟩⟩
    · rw [hself, hkeep b hb]
      exact hdisj b hb
    · rw [hself, hkeep a ha]
      exact (hdisj a ha).symm
    · rw [hkeep a ha, hkeep b hb]
      exact h.apart a ha b hb hab

/-- An address space that grows leaves the others and the static tables alone. -/
theorem WindowInv.grow (h : WindowInv K w S) {s : Machine σ} {A : Space} {cr3 n : ℕ}
    (hcr3 : cr3 ∈ w.spaces) (hg : Grow (K.pdptHigh + 7) n w.machine (S cr3) s A) :
    WindowInv K { w with machine := s } (Function.update S cr3 A) := by
  have haligned : ∀ f ∈ A.frames, 4096 ∣ f := by
    rintro f ⟨p, hp⟩
    exact (hg.holds.frame hp).1
  have hstatic : ∀ f ∈ K.frames, f ∉ A.frames := by
    intro f hf hmem
    rcases hg.new hmem with hold | hfree
    · exact h.static cr3 hcr3 f hf hold
    · exact h.live f hf hfree
  have hdisj : ∀ b ∈ w.spaces, b ≠ cr3 → Disjoint A.frames (S b).frames := by
    intro b hb hne
    refine Set.disjoint_left.2 fun f hf hfb => ?_
    rcases hg.new hf with hold | hfree
    · exact Set.disjoint_left.1 (h.apart cr3 hcr3 b hb hne.symm) hold hfb
    · exact (h.holds b hb).taken hfb hfree
  -- one space is replaced, the others stay
  have hforall : ∀ {P : ℕ → Space → Prop}, P cr3 A → (∀ b ∈ w.spaces, b ≠ cr3 → P b (S b)) →
      ∀ b ∈ w.spaces, P b (Function.update S cr3 A b) := by
    intro P hself hother b hb
    by_cases he : b = cr3
    · subst he
      rwa [Function.update_self]
    · rw [Function.update_of_ne he]
      exact hother b hb he
  refine ⟨h.words.of_sameOutside hg.mem fun f hf => ⟨haligned f hf, fun hK => hstatic f hK hf⟩,
    fun f hf hfree => h.live f hf (hg.free hfree), ?_, ?_, ?_, ?_⟩
  · refine hforall (P := fun _ B => Holds (K.pdptHigh + 7) s B) hg.holds fun b hb hne => ?_
    exact (h.holds b hb).of_sameOutside hg.mem (fun f hf =>
      ⟨haligned f hf, fun hfb => Set.disjoint_left.1 (hdisj b hb hne) hf hfb⟩) hg.free
  · exact hforall (P := fun b B => B.table [] = some b) (hg.mono (h.root cr3 hcr3))
      fun b hb _ => h.root b hb
  · exact hforall (P := fun _ B => ∀ f ∈ K.frames, f ∉ B.frames) hstatic
      fun b hb _ => h.static b hb
  · refine hforall (P := fun a B => ∀ b ∈ w.spaces, a ≠ b →
      Disjoint B.frames (Function.update S cr3 A b).frames) ?_ fun a ha hne => ?_
    · refine hforall (P := fun b B => cr3 ≠ b → Disjoint A.frames B.frames)
        (fun hn => absurd rfl hn) fun b hb hne _ => hdisj b hb hne
    · refine hforall (P := fun b B => a ≠ b → Disjoint (S a).frames B.frames)
        (fun _ => (hdisj a ha hne).symm) fun b hb _ hab => h.apart a ha b hb hab

/-- An allowed call maps no reserved address. -/
theorem WindowOp.Allowed.not_reserved {i : ℕ} {c : MapCall} (h : (WindowOp.map i c).Allowed) :
    ¬ Reserved c.vaddr.toNat := by
  rcases h with ⟨h1, h2⟩ | ⟨h1, h2⟩
  · exact not_reserved_hole h1 h2
  · exact not_reserved_high h1 (h2.trans (by decide))

/-- One operation keeps the invariant. -/
theorem WindowInv.step (h : WindowInv K w S) {op : WindowOp} (hop : op.Allowed) :
    ∃ S', WindowInv K (windowStep K w op) S' := by
  cases op with
  | create =>
    have hspec := createUserAddressSpace_builtSince (ε := Empty) K w.machine
    rw [windowStep]
    cases hrun : (createUserAddressSpace K : Exec Empty (Machine σ) ℕ) w.machine with
    | ok cr3 s =>
      obtain ⟨hfree, hbuilt, -⟩ := hspec.of_ok hrun
      rw [h.words.shared h.live hfree] at hbuilt
      obtain ⟨A, hA, hroot, hframes⟩ := hbuilt.space
      exact ⟨_, h.create hbuilt.fresh hA hroot hframes⟩
    | error e s => exact ⟨S, h.onlyFresh (hspec.of_error hrun).1⟩
  | map i c =>
    rw [windowStep]
    cases hi : w.spaces[i]? with
    | none => exact ⟨S, h⟩
    | some cr3 =>
      have hcr3 := List.mem_of_getElem? hi
      have hspec := mapUserPage_spec (ε := Empty) (h.holds cr3 hcr3) (h.root cr3 hcr3)
        hop.not_reserved c.paddr.toNat_lt c.flags.toNat_lt
      refine (hspec.mono (fun _ s hs => ?_) fun e s hs => ?_).state
        (P := fun s => ∃ S', WindowInv K { w with machine := s } S')
      · obtain ⟨A, hg, -⟩ := hs
        exact ⟨_, h.grow hcr3 hg⟩
      · obtain ⟨-, -, A, hg, -⟩ := hs
        exact ⟨_, h.grow hcr3 hg⟩
  | alloc =>
    refine ⟨S, h.onlyFresh ?_⟩
    cases ha : PageAllocator.allocPage w.machine.pages with
    | none =>
      rw [allocPage_none ha]
      exact .refl _
    | some r =>
      obtain ⟨f, pages⟩ := r
      rw [allocPage_some ha]
      exact ⟨(PageAllocator.free_eq ha).le.trans Set.sdiff_subset, .refl⟩

/-- In the window an address leads to the byte it stands for. -/
theorem WindowInv.walk (h : WindowInv K w S) {a cr3 : ℕ} (hcr3 : cr3 ∈ K.pml4 :: w.spaces)
    (ha : a < 2 ^ 31) :
    walk w.machine.mem cr3 (kernelVmaBase + a) = some ⟨a, 1, true, true⟩ := by
  rcases List.mem_cons.1 hcr3 with rfl | hmem
  · have hframe := K.frame K.pml4 (by simp)
    exact walk_kernelWindow h.words hframe.1 (by omega) h.words.pml4 ha
  · have hframe := (h.holds cr3 hmem).frame (h.root cr3 hmem)
    exact walk_kernelWindow h.words hframe.1 (by omega)
      ((h.holds cr3 hmem).word_kernel (h.root cr3 hmem) (by omega)) ha

end

/-- The state after `paging::init`, before any address space is made. -/
def windowsAtInit (K : KernelTables) (m : Mem) (pages : σ) : Windows σ := ⟨⟨init K m, pages⟩, []⟩

/-- The invariant holds while there is no space but the kernel's. -/
theorem KernelWords.windowInv {K : KernelTables} {m : Mem} {pages : σ} (hwords : KernelWords K m)
    (hlive : ∀ f ∈ K.frames, f ∉ PageAllocator.free pages) :
    WindowInv K ⟨⟨m, pages⟩, []⟩ fun _ => ⟨fun _ => none, fun _ => 0⟩ where
  words := hwords
  live := hlive
  holds _ h := absurd h List.not_mem_nil
  root _ h := absurd h List.not_mem_nil
  static _ h := absurd h List.not_mem_nil
  apart _ h := absurd h List.not_mem_nil

/-- **`phys_to_virt` is a right inverse of translation.** For every byte of a frame that the
allocator can return the address in the window does not leave 64 bits, and in the tables of
`paging::init` and of every address space it leads to that byte, after any order of creations,
mappings and allocations. -/
theorem physToVirt_translate (K : KernelTables) {m : Mem} {pages : σ}
    (hbss : ∀ j < 512, word m K.pdptHigh j = 0)
    (hlive : ∀ f ∈ K.frames, f ∉ PageAllocator.free pages)
    {ops : List WindowOp} (hops : ∀ op ∈ ops, op.Allowed)
    {p p' : σ} {f a : ℕ} (halloc : PageAllocator.allocPage p = some (f, p')) (ha : InFrame f a) :
    a + kernelVmaBase < 2 ^ 64 ∧
    (physToVirt a : Exec Empty (Machine σ) ℕ) (ops.foldl (windowStep K)
      (windowsAtInit K m pages)).machine = .ok (a + kernelVmaBase)
        (ops.foldl (windowStep K) (windowsAtInit K m pages)).machine ∧
    ∀ cr3 ∈ K.pml4 :: (ops.foldl (windowStep K) (windowsAtInit K m pages)).spaces,
      ∃ leaf, walk (ops.foldl (windowStep K) (windowsAtInit K m pages)).machine.mem cr3
        (a + kernelVmaBase) = some leaf ∧ leaf.phys = a := by
  have hbelow := PageAllocator.below (PageAllocator.mem_free halloc)
  have hlt : a < 2 ^ 31 := by
    have := ha.2
    omega
  have hinit := (init_kernelWords K hbss).windowInv hlive
  rw [windowsAtInit]
  have hguarded : Run.Guarded (windowStep K) (fun _ op => op.Allowed)
      (⟨⟨init K m, pages⟩, []⟩ : Windows σ) ops := Run.guarded_of_forall hops
  obtain ⟨S, hinv⟩ := Run.invariant (I := fun w => ∃ S, WindowInv K w S)
    (fun w op h hop => h.elim fun _ h => h.step hop) ⟨_, hinit⟩ hguarded
  refine ⟨by rw [kernelVmaBase]; omega, physToVirt_run hlt, fun cr3 hcr3 => ?_⟩
  rw [Nat.add_comm]
  exact ⟨_, hinv.walk hcr3 hlt, rfl⟩

/-- Two address spaces on the machine after boot, with pages mapped in both in turn. -/
def bootWindowOps : List WindowOp :=
  [.create, .map 0 bootCall, .create, .alloc, .map 1 ⟨0x100000000, 0x1081000, 7⟩, .map 0 bootCall]

/-- A run after boot: the frame just allocated is seen in every space. -/
theorem physToVirt_translate_boot : ∃ f pages,
    PageAllocator.allocPage bootPages = some (f, pages) ∧ InFrame f (f + 5) ∧
    ∀ cr3 ∈ bootTables.pml4 :: (bootWindowOps.foldl (windowStep bootTables)
        (windowsAtInit bootTables (fun _ => 0) bootPages)).spaces,
      ∃ leaf, walk (bootWindowOps.foldl (windowStep bootTables)
        (windowsAtInit bootTables (fun _ => 0) bootPages)).machine.mem cr3
          (f + 5 + kernelVmaBase) = some leaf ∧ leaf.phys = f + 5 := by
  have hbss : ∀ j < 512, word (fun _ => 0) bootTables.pdptHigh j = 0 := by
    intro j _
    rw [word, show read (fun _ => 0) (bootTables.pdptHigh + 8 * j) 8 = List.replicate 8 0 from rfl,
      leNat_replicate_zero]
  have hops : ∀ op ∈ bootWindowOps, op.Allowed := by decide
  have hin : ∀ f, InFrame f (f + 5) := fun f => ⟨by omega, by omega⟩
  cases halloc : PageAllocator.allocPage bootPages with
  | none =>
    have havail := PageAllocator.avail_none halloc
    rw [avail_bootPages] at havail
    cases havail
  | some r =>
    obtain ⟨f, pages⟩ := r
    exact ⟨f, pages, rfl, hin f,
      (physToVirt_translate bootTables hbss bootTables_not_free hops halloc (hin f)).2.2⟩

end Paging

end RossOs
