import RossOs.Paging.Run

/-!
# The kernel's half of an address space

`paging::init` maps the first 4 GiB of physical memory into the top of the address space with the
user bit at every level, and `create_user_address_space` shares that part with every task. So the
processor's walk of any address of the kernel's window ends in a page that user code can read and
write: `walk_kernelWindow`, and with it no address space is isolated from the kernel
(`not_isolated`).
-/

namespace RossOs

open ByteMem

namespace Paging

/-! ## The static tables -/

/-- The entries of the static tables that the kernel's half of an address space leads through. -/
structure KernelWords (K : KernelTables) (m : Mem) : Prop where
  pml4 : word m K.pml4 511 = K.pdptHigh + 7
  high : ∀ i < 4, word m K.pdptHigh (highSlot i) = K.pd i + 7
  rest : ∀ j < 512, (∀ i < 4, j ≠ highSlot i) → word m K.pdptHigh j = 0
  pd : ∀ i < 4, ∀ k < 512, word m (K.pd i) k = (i * 512 + k) * 0x200000 + 0x87

/-- The kernel's tables lie at page boundaries. -/
theorem KernelTables.aligned (K : KernelTables) {f : ℕ} (hf : f ∈ K.frames) : 4096 ∣ f :=
  (K.frame f hf).1

/-- The directories come behind the three upper tables. -/
theorem KernelTables.getElem?_frames (K : KernelTables) {i : ℕ} (hi : i < 4) :
    K.frames[3 + i]? = some (K.pd i) := by
  match i, hi with
  | 0, _ | 1, _ | 2, _ | 3, _ => rfl

/-- A directory is a table of the kernel. -/
theorem KernelTables.pd_mem (K : KernelTables) {i : ℕ} (hi : i < 4) : K.pd i ∈ K.frames :=
  List.mem_of_getElem? (K.getElem?_frames hi)

/-- Two positions of the list of static tables that hold one frame are one position. -/
theorem KernelTables.pos_inj (K : KernelTables) {a b f : ℕ} (ha : K.frames[a]? = some f)
    (hb : K.frames[b]? = some f) : a = b :=
  (List.getElem?_inj (List.getElem?_eq_some_iff.1 ha).1 K.nodup).1 (ha.trans hb.symm)

/-- The directories differ. -/
theorem KernelTables.pd_inj (K : KernelTables) {i j : ℕ} (hi : i < 4) (hj : j < 4)
    (h : K.pd i = K.pd j) : i = j := by
  have := K.pos_inj (K.getElem?_frames hi) (h ▸ K.getElem?_frames hj)
  omega

/-- A directory is none of the upper tables. -/
theorem KernelTables.pd_ne (K : KernelTables) {a i f : ℕ} (hi : i < 4) (ha : K.frames[a]? = some f)
    (hlt : a < 3) : f ≠ K.pd i := by
  rintro rfl
  have := K.pos_inj ha (K.getElem?_frames hi)
  omega

/-- The slot of a directory in the high half. -/
theorem highSlot_lt (i : ℕ) : highSlot i < 512 := by
  match i with
  | 0 | 1 | 2 => decide
  | i + 3 => exact (by decide : 509 < 512)

/-- The four slots differ. -/
theorem highSlot_inj : ∀ i < 4, ∀ j < 4, highSlot i = highSlot j → i = j := by decide

/-- The entry `init` stores for a 2 MB page. -/
theorem kernelEntry_eq (i k : ℕ) :
    i * 0x40000000 + k * 0x200000 ||| present ||| writable ||| hugePage ||| user =
      (i * 512 + k) * 0x200000 + 0x87 := by
  rw [Nat.or_assoc, Nat.or_assoc, Nat.or_assoc,
    show i * 0x40000000 + k * 0x200000 = (i * 512 + k) * 0x200000 by omega]
  exact Bits.or_eq_add (k := 21) (Nat.dvd_mul_left _ _) (by decide)

/-- The loop of `init` that links the page directories: only the two PDPTs change, and the slots of
the upper one are in place as far as it went. -/
theorem foldl_linkDirectory (K : KernelTables) (m : Mem) {n : ℕ} (hn : n ≤ 4) :
    SameOutside {K.pdptLow, K.pdptHigh} m ((List.range n).foldl (linkDirectory K) m) ∧
      ∀ j < 512, word ((List.range n).foldl (linkDirectory K) m) K.pdptHigh j =
        ((List.range n).find? (highSlot · = j)).elim (word m K.pdptHigh j) (K.pd · + 7) := by
  induction n with
  | zero => exact ⟨.refl, fun _ _ => rfl⟩
  | succ n ih =>
    obtain ⟨hsame, hslots⟩ := ih (by omega)
    have hpd := K.aligned (K.pd_mem (show n < 4 by omega))
    have hpd' : K.pd n < 2 ^ 31 := (K.frame _ (K.pd_mem (show n < 4 by omega))).2
    have hlow : 4096 ∣ K.pdptLow := K.aligned (by simp [KernelTables.frames])
    have hhigh : 4096 ∣ K.pdptHigh := K.aligned (by simp [KernelTables.frames])
    have hne : K.pdptHigh ≠ K.pdptLow := fun he => by
      have := K.pos_inj (a := 2) (b := 1) rfl (congrArg some he.symm)
      omega
    rw [List.range_succ, List.foldl_append, List.foldl_cons, List.foldl_nil, linkDirectory,
      tableEntry_eq hpd]
    refine ⟨?_, fun j hj => ?_⟩
    · refine hsame.trans (((sameOutside_setWord (by omega)).mono ?_).trans
        ((sameOutside_setWord (highSlot_lt n)).mono ?_)) <;> simp
    · rw [List.find?_append]
      rcases eq_or_ne (highSlot n) j with rfl | hnj
      · have hnone : (List.range n).find? (highSlot · = highSlot n) = none := by
          refine List.find?_eq_none.2 fun i hi he => ?_
          have hi := List.mem_range.1 hi
          have := highSlot_inj i (by omega) n (by omega) (of_decide_eq_true he)
          omega
        rw [word_setWord_self _ _ _ (by omega), hnone]
        simp
      · rw [word_setWord_of_ne _ _ _ hnj, word_setWord_frame hlow hhigh hne (by omega) hj,
          hslots j hj]
        simp [hnj]

/-- Filling one page directory writes its 512 entries and nothing else. -/
theorem fillDirectory_spec (K : KernelTables) (m : Mem) {i : ℕ} (hi : i < 4) :
    SameOutside {K.pd i} m (fillDirectory K m i) ∧
      ∀ k < 512, word (fillDirectory K m i) (K.pd i) k = (i * 512 + k) * 0x200000 + 0x87 := by
  simp only [fillDirectory, kernelEntry_eq]
  refine ⟨?_, fun k hk => ?_⟩
  · have hfill : ∀ (l : List ℕ) (m : Mem), (∀ k ∈ l, k < 512) → SameOutside {K.pd i} m
        (l.foldl (fun m k => setWord m (K.pd i) k ((i * 512 + k) * 0x200000 + 0x87)) m) := by
      intro l
      induction l with
      | nil => exact fun _ _ => .refl
      | cons k l ih =>
        exact fun m hl => (sameOutside_setWord (hl k (by simp))).trans
          (ih _ fun k' hk' => hl k' (by simp [hk']))
    exact hfill _ m fun k hk => List.mem_range.1 hk
  · rw [word_foldl_setWord _ _ _ (fun k hk => by omega), if_pos hk]

/-- The loop of `init` that fills the page directories. -/
theorem foldl_fillDirectory (K : KernelTables) (m : Mem) {n : ℕ} (hn : n ≤ 4) :
    SameOutside {f | ∃ i < n, f = K.pd i} m ((List.range n).foldl (fillDirectory K) m) ∧
      ∀ i < n, ∀ k < 512, word ((List.range n).foldl (fillDirectory K) m) (K.pd i) k =
        (i * 512 + k) * 0x200000 + 0x87 := by
  induction n with
  | zero => exact ⟨.refl, fun i hi => absurd hi (Nat.not_lt_zero i)⟩
  | succ n ih =>
    obtain ⟨hsame, hwords⟩ := ih (by omega)
    obtain ⟨hsame', hwords'⟩ := fillDirectory_spec K ((List.range n).foldl (fillDirectory K) m)
      (show n < 4 by omega)
    rw [List.range_succ, List.foldl_append, List.foldl_cons, List.foldl_nil]
    refine ⟨(hsame.mono ?_).trans (hsame'.mono ?_), fun i hi k hk => ?_⟩
    · exact fun f ⟨i, hi, hf⟩ => ⟨i, by omega, hf⟩
    · exact fun f hf => ⟨n, by omega, hf⟩
    · rcases eq_or_ne i n with rfl | hin
      · exact hwords' k hk
      · rw [hsame'.word_eq (by rintro _ rfl; exact K.aligned (K.pd_mem (by omega)))
          (K.aligned (K.pd_mem (by omega))) (fun he => hin (K.pd_inj (by omega) (by omega) he)) hk,
          hwords i (by omega) k hk]

/-- `paging::init` puts these entries in place, on a PDPT that starts out zero. -/
theorem init_kernelWords (K : KernelTables) {m : Mem} (hzero : ∀ j < 512, word m K.pdptHigh j = 0) :
    KernelWords K (init K m) := by
  have hhigh : 4096 ∣ K.pdptHigh := K.aligned (by simp [KernelTables.frames])
  have hhigh' : K.pdptHigh < 2 ^ 31 := (K.frame _ (by simp)).2
  have hpml4 : 4096 ∣ K.pml4 := K.aligned (by simp [KernelTables.frames])
  have hlow : 4096 ∣ K.pdptLow := K.aligned (by simp [KernelTables.frames])
  unfold init
  obtain ⟨hs1, hw1⟩ := foldl_linkDirectory K (setWord (setWord m K.pml4 0
    (K.pdptLow ||| present ||| writable ||| user)) K.pml4 511
    (K.pdptHigh ||| present ||| writable ||| user)) (n := 4) le_rfl
  obtain ⟨hs2, hw2⟩ := foldl_fillDirectory K ((List.range 4).foldl (linkDirectory K)
    (setWord (setWord m K.pml4 0 (K.pdptLow ||| present ||| writable ||| user)) K.pml4 511
    (K.pdptHigh ||| present ||| writable ||| user))) (n := 4) le_rfl
  -- neither the PML4 nor the PDPT is one of the directories filled last
  have hkeep : ∀ {a f j : ℕ}, K.frames[a]? = some f → a < 3 → 4096 ∣ f → j < 512 →
      word ((List.range 4).foldl (fillDirectory K) ((List.range 4).foldl (linkDirectory K)
        (setWord (setWord m K.pml4 0 (K.pdptLow ||| present ||| writable ||| user)) K.pml4 511
        (K.pdptHigh ||| present ||| writable ||| user)))) f j =
      word ((List.range 4).foldl (linkDirectory K) (setWord (setWord m K.pml4 0
        (K.pdptLow ||| present ||| writable ||| user)) K.pml4 511
        (K.pdptHigh ||| present ||| writable ||| user))) f j := by
    intro a f j ha hlt hf hj
    refine hs2.word_eq ?_ hf ?_ hj
    · rintro _ ⟨i, hi, rfl⟩
      exact K.aligned (K.pd_mem hi)
    · rintro ⟨i, hi, he⟩
      exact K.pd_ne hi ha hlt he
  have hne : ∀ {a f : ℕ}, K.frames[a]? = some f → 0 < a → f ≠ K.pml4 := by
    rintro a f ha hpos rfl
    have := K.pos_inj (b := 0) ha rfl
    omega
  refine ⟨?_, fun i hi => ?_, fun j hj hnot => ?_, hw2⟩
  · rw [hkeep (a := 0) rfl (by decide) hpml4 (by decide), hs1.word_eq ?_ hpml4 ?_ (by decide),
      tableEntry_eq hhigh, word_setWord_self _ _ _ (by omega)]
    · rintro f (rfl | rfl)
      · exact hlow
      · exact hhigh
    · rintro (he | he)
      · exact hne (a := 1) rfl (by decide) he.symm
      · exact hne (a := 2) rfl (by decide) he.symm
  · rw [hkeep (a := 2) rfl (by decide) hhigh (highSlot_lt i), hw1 _ (highSlot_lt i)]
    obtain rfl | rfl | rfl | rfl : i = 0 ∨ i = 1 ∨ i = 2 ∨ i = 3 := by omega
    all_goals rfl
  · have hnone : (List.range 4).find? (highSlot · = j) = none :=
      List.find?_eq_none.2 fun i hi he => hnot i (List.mem_range.1 hi) (of_decide_eq_true he).symm
    rw [hkeep (a := 2) rfl (by decide) hhigh hj, hw1 j hj, hnone, Option.elim_none,
      word_setWord_frame hpml4 hhigh (hne (a := 2) rfl (by decide)) (by decide) hj,
      word_setWord_frame hpml4 hhigh (hne (a := 2) rfl (by decide)) (by decide) hj, hzero j hj]

/-! ## The walk through the kernel's window -/

section
variable {K : KernelTables} {m : Mem} {cr3 : ℕ}

/-- Below the kernel's entry, the walk of an address in the top 2 GiB of the window ends in a 2 MB
page that user code can read and write: at the physical address `a`, for the address that the
kernel itself uses for `a`. -/
theorem walk_kernelWindow (hK : KernelWords K m) (hcr3 : 4096 ∣ cr3) (hcr3' : cr3 < 2 ^ 52)
    (h511 : word m cr3 511 = K.pdptHigh + 7) {a : ℕ} (ha : a < 2 ^ 31) :
    walk m cr3 (kernelVmaBase + a) = some ⟨a, 1, true, true⟩ := by
  have hi4 : index (21 + 9 * 2) (kernelVmaBase + a) = 511 := by
    rw [index_eq, kernelVmaBase]
    omega
  have hi3 : index (21 + 9 * 1) (kernelVmaBase + a) = highSlot (a / 2 ^ 30) := by
    have : a / 2 ^ 30 = 0 ∨ a / 2 ^ 30 = 1 := by omega
    rw [index_eq, kernelVmaBase]
    rcases this with h | h <;> rw [h] <;> simp only [highSlot] <;> omega
  have hi2 : index 21 (kernelVmaBase + a) = a / 2 ^ 21 % 512 := by
    rw [index_eq, kernelVmaBase]
    omega
  have hlt : a / 2 ^ 30 < 4 := by omega
  have hhigh := K.frame K.pdptHigh (by simp)
  have hpd := K.frame (K.pd (a / 2 ^ 30)) (K.pd_mem hlt)
  have he2 : word m (K.pd (a / 2 ^ 30)) (index 21 (kernelVmaBase + a)) =
      a / 2 ^ 21 * 2 ^ 21 + 0x87 := by
    rw [hi2, hK.pd _ hlt _ (by omega)]
    omega
  rw [walk, show addrOf cr3 = cr3 from addrOf_add (x := 0) hcr3 hcr3' (by decide),
    walkAt_table 2 (by rw [hi4, h511]) hhigh.1 (by omega),
    walkAt_table 1 (by rw [hi3, hK.high _ hlt]) hpd.1 (by omega),
    walkAt_huge he2 (by omega) (by decide) (by decide) (by decide)]
  have hphys : a / 2 ^ 21 * 2 ^ 21 + (kernelVmaBase + a) % 2 ^ 21 = a := by
    rw [kernelVmaBase]
    omega
  rw [hphys]
  rfl

/-! ## Isolation -/

/-- A 48-bit canonical virtual address. -/
def Canonical (va : ℕ) : Prop := va < 2 ^ 47 ∨ 2 ^ 64 - 2 ^ 47 ≤ va ∧ va < 2 ^ 64

/-- What isolates user code from the kernel: every canonical address that user code can use leads
to one of the frames `passed`, and none of them is in the kernel's half. -/
def Isolated (m : Mem) (cr3 : ℕ) (passed : Set ℕ) : Prop :=
  (∀ va leaf, Canonical va → walk m cr3 va = some leaf → leaf.user = true →
    leaf.phys / 4096 * 4096 ∈ passed) ∧
  ∀ va leaf, Canonical va → 2 ^ 47 ≤ va → walk m cr3 va = some leaf → leaf.user = false

variable {σ : Type} [PageAllocator σ]

omit [PageAllocator σ] in
/-- The static tables keep their entries while only other frames are written. -/
theorem KernelWords.of_sameOutside {m' : Mem} {F : Set ℕ} (hK : KernelWords K m)
    (h : SameOutside F m m') (hF : ∀ f ∈ F, 4096 ∣ f ∧ f ∉ K.frames) : KernelWords K m' := by
  have hword : ∀ {f j : ℕ}, f ∈ K.frames → j < 512 → word m' f j = word m f j := fun hf hj =>
    h.word_eq (fun g hg => (hF g hg).1) (K.aligned hf) (fun hg => (hF _ hg).2 hf) hj
  refine ⟨?_, fun i hi => ?_, fun j hj hnot => ?_, fun i hi k hk => ?_⟩
  · rw [hword (by simp [KernelTables.frames]) (by decide), hK.pml4]
  · rw [hword (by simp [KernelTables.frames]) (highSlot_lt i), hK.high i hi]
  · rw [hword (by simp [KernelTables.frames]) hj, hK.rest j hj hnot]
  · rw [hword (K.pd_mem hi) hk, hK.pd i hi k hk]

/-- Writes to fresh frames leave the kernel's tables. -/
theorem OnlyFresh.kernelWords {s s' : Machine σ} (h : OnlyFresh s s') (hK : KernelWords K s.mem)
    (hfree : ∀ f ∈ K.frames, f ∉ PageAllocator.free s.pages) : KernelWords K s'.mem :=
  hK.of_sameOutside h.mem fun _ hf =>
    ⟨PageAllocator.aligned hf.1, fun hmem => hfree _ hmem hf.1⟩

/-- The entry that a new address space at `cr3` copies from the kernel's PML4. -/
theorem KernelWords.shared {s : Machine σ} (hK : KernelWords K s.mem)
    (hfree : ∀ f ∈ K.frames, f ∉ PageAllocator.free s.pages)
    (hcr3 : cr3 ∈ PageAllocator.free s.pages) :
    word (clear s.mem cr3 4096) K.pml4 511 = K.pdptHigh + 7 := by
  have hne : K.pml4 ≠ cr3 := fun he => hfree K.pml4 (by simp [KernelTables.frames]) (he ▸ hcr3)
  rw [sameOutside_clear.word_eq (by rintro _ rfl; exact PageAllocator.aligned hcr3)
    (K.aligned (by simp [KernelTables.frames])) hne (by decide), hK.pml4]

/-- The entry 511 of an address space is the kernel's. -/
theorem BuiltSince.kernelEntry {s₀ s : Machine σ} {e511 : ℕ} (h : BuiltSince s₀ e511 cr3 s)
    (he : e511 ≠ 0) : 4096 ∣ cr3 ∧ cr3 < 2 ^ 30 ∧ word s.mem cr3 511 = e511 := by
  obtain ⟨-, A, hA, hroot, -⟩ := h
  exact ⟨(hA.frame hroot).1, (hA.frame hroot).2, hA.word_kernel hroot he⟩

/-- An address space made after `paging::init` and extended at any addresses that are not reserved
leaves user code the kernel's window onto the first 2 GiB of physical memory. -/
theorem buildSpace_walk_kernelWindow {s s' : Machine σ} {calls : List MapCall}
    (hK : KernelWords K s.mem) (hfree : ∀ f ∈ K.frames, f ∉ PageAllocator.free s.pages)
    (hcalls : ∀ c ∈ calls, ¬ Reserved c.vaddr.toNat)
    (hrun : (buildSpace K calls : Exec Empty (Machine σ) ℕ) s = .ok cr3 s') {a : ℕ}
    (ha : a < 2 ^ 31) : walk s'.mem cr3 (kernelVmaBase + a) = some ⟨a, 1, true, true⟩ := by
  obtain ⟨cr3', s₁, hcreate, hrest⟩ := Exec.bind_eq_ok.1 hrun
  obtain ⟨⟨⟩, s₂, hmaps, hpure⟩ := Exec.bind_eq_ok.1 hrest
  cases hpure
  obtain ⟨hcr3, hs₁, -⟩ := (createUserAddressSpace_builtSince K s).of_ok hcreate
  have hs₂ := (hs₁.mapUserPages hcalls).of_ok hmaps
  rw [hK.shared hfree hcr3] at hs₂
  obtain ⟨haligned, hlt, h511⟩ := hs₂.kernelEntry (by omega)
  exact walk_kernelWindow (hs₂.fresh.kernelWords hK hfree) haligned (by omega) h511 ha

/-- **No isolation.** Whatever is mapped at addresses that are not reserved, user code can use the
kernel's half of the address space. -/
theorem not_isolated {s s' : Machine σ} {calls : List MapCall} (hK : KernelWords K s.mem)
    (hfree : ∀ f ∈ K.frames, f ∉ PageAllocator.free s.pages)
    (hcalls : ∀ c ∈ calls, ¬ Reserved c.vaddr.toNat)
    (hrun : (buildSpace K calls : Exec Empty (Machine σ) ℕ) s = .ok cr3 s') :
    ¬ Isolated s'.mem cr3 {f | ∃ c ∈ calls, f = c.paddr.toNat / 4096 * 4096} := by
  rintro ⟨-, hkernel⟩
  have hwalk := buildSpace_walk_kernelWindow hK hfree hcalls hrun (show 0 < 2 ^ 31 by decide)
  have := hkernel _ _ (.inr (by decide)) (by decide) hwalk
  cases this

end

/-! ## The machine after boot -/

/-- The tables that the kernel boots with. -/
theorem kernelWords_boot : KernelWords bootTables bootMachine.mem := by
  have hzero : ∀ j < 512, word (fun _ => 0) bootTables.pdptHigh j = 0 := fun j _ => by
    rw [word, show read (fun _ => 0) (bootTables.pdptHigh + 8 * j) 8 = List.replicate 8 0 from rfl,
      leNat_replicate_zero]
  have h := init_kernelWords bootTables hzero
  simpa only [bootMachine] using h

/-- One page at 4 MB, with a frame of the allocator's range. -/
def bootCall : MapCall := ⟨0x400000, 0x1080000, 7⟩

/-- After boot a space is built. -/
theorem buildSpace_boot : ∃ cr3 s,
    (buildSpace bootTables [bootCall] : Exec Empty (Machine PmmState) ℕ) bootMachine =
      .ok cr3 s :=
  buildSpace_ok bootTables (by decide)
    (by rw [show bootMachine.pages = bootPages from rfl, avail_bootPages]; decide)

/-- The theorem on the machine after boot. -/
theorem not_isolated_boot : ∃ cr3 s,
    (buildSpace bootTables [bootCall] : Exec Empty (Machine PmmState) ℕ) bootMachine =
      .ok cr3 s ∧
    ¬ Isolated s.mem cr3 {f | ∃ c ∈ [bootCall], f = c.paddr.toNat / 4096 * 4096} := by
  obtain ⟨cr3, s, hrun⟩ := buildSpace_boot
  exact ⟨cr3, s, hrun, not_isolated kernelWords_boot bootTables_not_free (by decide) hrun⟩

/-- Both halves of isolation fail there at the address the kernel uses for physical address 0: user
code may write to it, its frame was never mapped, and it is in the kernel's half. -/
theorem boot_kernel_address_open : ∃ cr3 s,
    (buildSpace bootTables [bootCall] : Exec Empty (Machine PmmState) ℕ) bootMachine =
      .ok cr3 s ∧
    Canonical 0xFFFFFFFF80000000 ∧ walk s.mem cr3 0xFFFFFFFF80000000 = some ⟨0, 1, true, true⟩ ∧
    ¬ (∀ va leaf, Canonical va → walk s.mem cr3 va = some leaf → leaf.user = true →
      leaf.phys / 4096 * 4096 ∈ {f | ∃ c ∈ [bootCall], f = c.paddr.toNat / 4096 * 4096}) := by
  obtain ⟨cr3, s, hrun⟩ := buildSpace_boot
  have hwalk := buildSpace_walk_kernelWindow kernelWords_boot bootTables_not_free (by decide) hrun
    (show 0 < 2 ^ 31 by decide)
  have hcanonical : Canonical 0xFFFFFFFF80000000 := .inr (by decide)
  refine ⟨cr3, s, hrun, hcanonical, hwalk, fun hall => ?_⟩
  obtain ⟨c, hc, hframe⟩ := hall _ _ hcanonical hwalk rfl
  rw [List.mem_singleton.1 hc] at hframe
  revert hframe
  decide

end Paging

end RossOs
