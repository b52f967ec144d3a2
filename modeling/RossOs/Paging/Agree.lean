import Mathlib.Data.List.Find
import RossOs.Paging.Frames
import RossOs.Paging.Window

/-!
# What `lookup_page` finds

An address space is a map from pages to addresses: `lookup_page` returns what the last
`map_user_page` for the page stored, and the calls leave the translations of the kernel's half and
of the identity pages alone (`mapUserPages_agree`).
-/

namespace RossOs

open ByteMem

namespace Paging

/-- The virtual addresses of user pages: the hole at 4 MB, and 4 GiB up to the end of the lower
half. -/
def UserAddr (v : ℕ) : Prop := 0x400000 ≤ v ∧ v < 0x600000 ∨ 2 ^ 32 ≤ v ∧ v < 2 ^ 47

instance : DecidablePred UserAddr := fun v =>
  inferInstanceAs (Decidable (0x400000 ≤ v ∧ v < 0x600000 ∨ 2 ^ 32 ≤ v ∧ v < 2 ^ 47))

/-- A call for a user page, with a page-aligned physical address of 52 bits and flags in the low 12
bits. -/
structure MapCall.Mappable (c : MapCall) : Prop where
  user : UserAddr c.vaddr.toNat
  aligned : 4096 ∣ c.paddr.toNat
  paddr : c.paddr.toNat < 2 ^ 52
  flags : c.flags.toNat < 0x1000

/-- The entry that the call stores. -/
def MapCall.entry (c : MapCall) : ℕ := c.paddr.toNat ||| c.flags.toNat ||| present ||| user

/-- The physical address of the last call for the page of `w`. -/
def lastMapped (calls : List MapCall) (w : ℕ) : Option ℕ :=
  (calls.reverse.find? fun c => c.vaddr.toNat / 4096 = w / 4096).map (·.paddr.toNat)

section
variable {σ : Type} [PageAllocator σ]

/-- The address space after the calls: `lookup_page` finds the last call for a page, and the
identity pages outside the hole and the kernel's half are translated as before. -/
structure Agrees (cr3 : ℕ) (calls : List MapCall) (s₁ s₂ : Machine σ) : Prop where
  lookup : ∀ w, UserAddr w →
    (lookupPage cr3 w : Exec Empty (Machine σ) (Option ℕ)) s₂ = .ok (lastMapped calls w) s₂
  identity : ∀ va < 2 ^ 32, ¬ (0x400000 ≤ va ∧ va < 0x600000) →
    walk s₂.mem cr3 va = walk s₁.mem cr3 va
  kernel : ∀ va, 2 ^ 64 - 2 ^ 47 ≤ va → va < 2 ^ 64 → walk s₂.mem cr3 va = walk s₁.mem cr3 va

end

/-! ## Addresses -/

section
variable {v w : ℕ} {c : MapCall}

/-- A user address is not a reserved one. -/
theorem UserAddr.not_reserved (h : UserAddr v) : ¬ Reserved v := by
  rcases h with ⟨h1, h2⟩ | ⟨h1, h2⟩
  · exact not_reserved_hole h1 h2
  · exact not_reserved_high h1 (h2.trans (by decide))

/-- A user address has 47 bits. -/
theorem UserAddr.lt (h : UserAddr v) : v < 2 ^ 47 := by
  rcases h with ⟨-, h2⟩ | ⟨-, h2⟩ <;> omega

/-- The entry of a mappable call leads to its page. -/
theorem MapCall.Mappable.frameOf_entry (h : c.Mappable) : frameOf c.entry = c.paddr.toNat := by
  rw [MapCall.entry, pageEntry_eq h.aligned h.flags]
  exact frameOf_add h.aligned h.paddr (pageEntry_lt h.flags)

/-- The entry of a mappable call is not empty. -/
theorem MapCall.Mappable.entry_ne_zero (h : c.Mappable) : c.entry ≠ 0 := by
  rw [MapCall.entry, pageEntry_eq h.aligned h.flags]
  exact pageEntry_ne_zero _ _

/-- The first 4 GiB outside the hole are the addresses of the identity pages. -/
theorem ident_of_lt (h : v < 2 ^ 32) (hhole : ¬ (0x400000 ≤ v ∧ v < 0x600000)) :
    index 39 v = 0 ∧ index 30 v < 4 ∧ ¬ (index 30 v = 0 ∧ index 21 v = 2) := by
  simp only [index_eq]
  omega

end

/-! ## Translations that do not change -/

/-- A walk through closed tables depends on their words only. -/
theorem ClosedTables.walkAt_congr {m m' : Mem} {T : ℕ → ℕ → Prop} {va : ℕ} (h : ClosedTables m T)
    (hsame : ∀ level table i : ℕ, T level table → i < 512 → word m' table i = word m table i)
    {level table : ℕ} (hlevel : level ≤ 3) (ht : T level table) (u w : Bool) :
    walkAt m' va level table u w = walkAt m va level table u w := by
  induction level generalizing table u w with
  | zero => rw [walkAt, walkAt, hsame 0 table _ ht (index_lt 12 va)]
  | succ level ih =>
    have hidx := index_lt (21 + 9 * level) va
    rw [walkAt, walkAt, hsame _ table _ ht hidx]
    rcases h level table _ (by omega) hidx ht with h0 | ⟨h7, hlt⟩ | hnext
    · simp [h0]
    · simp [h7, hlt]
    · rw [ih (by omega) hnext]

/-- The static tables fix the kernel's half. -/
theorem KernelWords.walk_eq {K : KernelTables} {m m' : Mem} {cr3 va : ℕ} (hK : KernelWords K m)
    (hK' : KernelWords K m') (hcr3 : 4096 ∣ cr3) (hcr3' : cr3 < 2 ^ 52)
    (h511 : word m cr3 511 = K.pdptHigh + 7) (h511' : word m' cr3 511 = K.pdptHigh + 7)
    (hva : index 39 va = 511) : walk m' cr3 va = walk m cr3 va := by
  have hsame : ∀ level table i : ℕ, K.At level table → i < 512 →
      word m' table i = word m table i := by
    rintro level table i (⟨-, rfl⟩ | ⟨-, j, hj, rfl⟩) hi
    · by_cases hslot : ∃ j < 4, i = highSlot j
      · obtain ⟨j, hj, rfl⟩ := hslot
        rw [hK.high j hj, hK'.high j hj]
      · have hout : ∀ j < 4, i ≠ highSlot j := fun j hj he => hslot ⟨j, hj, he⟩
        rw [hK.rest i hi hout, hK'.rest i hi hout]
    · rw [hK.pd j hj i hi, hK'.pd j hj i hi]
  have hhigh := K.frame K.pdptHigh (by simp)
  have h4 : word m cr3 (index 39 va) = K.pdptHigh + 7 :=
    (congrArg (word m cr3) hva).trans h511
  have h4' : word m' cr3 (index 39 va) = K.pdptHigh + 7 :=
    (congrArg (word m' cr3) hva).trans h511'
  have haddr : addrOf cr3 = cr3 := addrOf_add (x := 0) hcr3 (by omega) (by decide)
  rw [walk, walk, haddr, walkAt_table 2 h4 hhigh.1 (by omega),
    walkAt_table 2 h4' hhigh.1 (by omega)]
  exact hK.closed.walkAt_congr hsame (by decide) (.inl ⟨rfl, rfl⟩) true true

section
variable {σ : Type} [PageAllocator σ] {K : KernelTables} {cr3 va : ℕ} {done calls : List MapCall}
  {s s₁ s₂ : Machine σ} {S S₁ S₂ : ℕ → Space}

/-- The entries of the pages are those of the last calls for them. -/
def Mirrors (calls : List MapCall) (A : Space) : Prop :=
  ∀ q, A.leaf q =
    ((calls.reverse.find? fun c => pagePath c.vaddr.toNat = q).map MapCall.entry).getD 0

/-- With the entry of one more call, the space mirrors one more call. -/
theorem Mirrors.concat {A A' : Space} {c : MapCall} (h : Mirrors done A)
    (hleaf : A'.leaf = A.leaf) :
    Mirrors (done ++ [c]) (A'.setLeaf (pagePath c.vaddr.toNat) c.entry) := by
  intro q
  rw [List.reverse_append, List.reverse_singleton, List.singleton_append, List.find?_cons]
  by_cases hq : q = pagePath c.vaddr.toNat
  · subst hq
    simp
  · rw [Space.setLeaf_leaf_of_ne hq, hleaf, h q]
    simp [Ne.symm hq]

/-- A run of calls keeps the invariant of the static tables, and the entries follow the calls. -/
theorem WindowInv.mapUserPages (h : WindowInv K ⟨s, [cr3]⟩ S) (hleaf : Mirrors done (S cr3))
    (hcalls : ∀ c ∈ calls, c.Mappable) :
    Exec.Sat ((Paging.mapUserPages cr3 calls : Exec Empty (Machine σ) PUnit) s)
      (fun _ s' => ∃ S', WindowInv K ⟨s', [cr3]⟩ S' ∧ Mirrors (done ++ calls) (S' cr3))
      (fun _ _ => True) := by
  induction calls generalizing done s S with
  | nil =>
    refine Exec.sat_ok.2 ⟨S, h, ?_⟩
    rwa [List.append_nil]
  | cons c calls ih =>
    obtain ⟨hc, hcalls⟩ := List.forall_mem_cons.1 hcalls
    have hmem : cr3 ∈ [cr3] := List.mem_singleton.2 rfl
    rw [mapUserPages_cons]
    have hspec := mapUserPage_spec (ε := Empty) (h.holds cr3 hmem) (h.root cr3 hmem)
      hc.user.not_reserved c.paddr.toNat_lt c.flags.toNat_lt
    refine Exec.Sat.bind (hspec.mono ?_ fun _ _ _ => trivial)
    rintro - s' ⟨A, hg, hA⟩
    have hdone := hleaf.concat (c := c) hA
    have hnext := ih (h.grow hmem hg) (by rw [Function.update_self]; exact hdone) hcalls
    rwa [List.append_assoc, List.singleton_append] at hnext

/-- The last call for a page, by its path and by its number. -/
theorem Mirrors.lookup {A : Space} {w : ℕ} (h : Mirrors calls A) (hcalls : ∀ c ∈ calls, c.Mappable)
    (hw : UserAddr w) :
    (if A.leaf (pagePath w) = 0 then none else some (frameOf (A.leaf (pagePath w)))) =
      lastMapped calls w := by
  have hfind : (calls.reverse.find? fun c => pagePath c.vaddr.toNat = pagePath w) =
      calls.reverse.find? fun c => c.vaddr.toNat / 4096 = w / 4096 := by
    refine List.find?_congr fun c hc => ?_
    have hlt := (hcalls c (List.mem_reverse.1 hc)).user.lt
    have hw' := hw.lt
    rw [decide_eq_decide]
    exact pagePath_eq_iff (by omega) (by omega)
  rw [lastMapped, h, hfind]
  cases hlast : calls.reverse.find? fun c => c.vaddr.toNat / 4096 = w / 4096 with
  | none => rfl
  | some c =>
    have hc := hcalls c (List.mem_reverse.1 (List.mem_of_find?_eq_some hlast))
    show (if c.entry = 0 then none else some (frameOf c.entry)) = some c.paddr.toNat
    rw [if_neg hc.entry_ne_zero, hc.frameOf_entry]

/-- The calls have no page in the upper half. -/
theorem Mirrors.upper {A : Space} (h : Mirrors calls A) (hcalls : ∀ c ∈ calls, c.Mappable)
    (hva : 256 ≤ index 39 va) : A.leaf (pagePath va) = 0 := by
  have hnone : (calls.reverse.find? fun c => pagePath c.vaddr.toNat = pagePath va) = none := by
    refine List.find?_eq_none.2 fun c hc he => ?_
    have hlt := (hcalls c (List.mem_reverse.1 hc)).user.lt
    have h39 : index 39 c.vaddr.toNat = index 39 va := (List.cons.inj (of_decide_eq_true he)).1
    rw [index_eq] at h39
    omega
  rw [h, hnone]
  rfl

/-- Translations that two states of an address space share. -/
theorem WindowInv.walk_eq (h₁ : WindowInv K ⟨s₁, [cr3]⟩ S₁) (h₂ : WindowInv K ⟨s₂, [cr3]⟩ S₂)
    (hleaf₁ : Mirrors [] (S₁ cr3)) (hleaf₂ : Mirrors calls (S₂ cr3))
    (hcalls : ∀ c ∈ calls, c.Mappable) (hva : 256 ≤ index 39 va) :
    Paging.walk s₂.mem cr3 va = Paging.walk s₁.mem cr3 va := by
  have hmem : cr3 ∈ [cr3] := List.mem_singleton.2 rfl
  have hA₁ := h₁.holds cr3 hmem
  have hA₂ := h₂.holds cr3 hmem
  have hroot₁ := h₁.root cr3 hmem
  have hroot₂ := h₂.root cr3 hmem
  by_cases h511 : index 39 va = 511
  · have hframe := hA₁.frame hroot₁
    exact h₁.words.walk_eq h₂.words hframe.1 (by omega) (hA₁.word_kernel hroot₁ (by omega))
      (hA₂.word_kernel hroot₂ (by omega)) h511
  · have hva' : ¬ Reserved va := by
      rintro (h | ⟨h, -⟩)
      · exact h511 h
      · omega
    rw [hA₁.walk_eq hroot₁ hva', hA₂.walk_eq hroot₂ hva', hleaf₁.upper (by simp) hva,
      hleaf₂.upper hcalls hva]

/-- **`map_user_page` and `lookup_page` agree.** After any sequence of calls on a new address space,
`lookup_page` returns the address of the last call for the page, and the calls have not touched the
translations of the kernel. -/
theorem mapUserPages_agree (hK : KernelWords K s.mem)
    (hlive : ∀ f ∈ K.frames, f ∉ PageAllocator.free s.pages) (hcalls : ∀ c ∈ calls, c.Mappable)
    (hcreate : (createUserAddressSpace K : Exec Empty (Machine σ) ℕ) s = .ok cr3 s₁)
    (hmap : (mapUserPages cr3 calls : Exec Empty (Machine σ) PUnit) s₁ = .ok ⟨⟩ s₂) :
    Agrees cr3 calls s₁ s₂ := by
  have hmem : cr3 ∈ [cr3] := List.mem_singleton.2 rfl
  obtain ⟨hfresh, -, f3, pds, hA, hframes⟩ :=
    (createUserAddressSpace_spec (ε := Empty) K s).of_ok hcreate
  have hcr3 := hframes cr3 (List.mem_cons_self ..)
  rw [hK.shared hlive hcr3.1] at hA
  have h₁ := (hK.windowInv hlive).create hfresh hA rfl fun f hf =>
    hframes f (mem_freshSpace_frames hf)
  have hleaf₁ (S : ℕ → Space) :
      Mirrors [] (Function.update S cr3 (freshSpace cr3 f3 pds) cr3) := by
    rw [Function.update_self]
    exact fun _ => rfl
  obtain ⟨S₂, h₂, hleaf₂⟩ := (h₁.mapUserPages (hleaf₁ _) hcalls).of_ok hmap
  rw [List.nil_append] at hleaf₂
  have hA₂ := h₂.holds cr3 hmem
  refine ⟨fun w hw => ?_, fun va hva hhole => ?_, fun va hlow hhigh => ?_⟩
  · rw [hA₂.lookupPage_run (h₂.root cr3 hmem) hw.not_reserved, hleaf₂.lookup hcalls hw]
  · have hident := ident_of_lt hva hhole
    rw [hA.walk_ident rfl hident, hA₂.walk_ident (h₂.root cr3 hmem) hident]
  · refine h₁.walk_eq h₂ (hleaf₁ _) hleaf₂ hcalls ?_
    rw [index_eq]
    omega

end

/-- A page that is mapped twice, and another one, on the machine after boot. -/
theorem mapUserPages_agree_boot : ∃ cr3 s₁ s₂,
    (createUserAddressSpace bootTables : Exec Empty (Machine PmmState) ℕ) bootMachine =
      .ok cr3 s₁ ∧
    Agrees cr3 [bootCall, ⟨0x100000000, 0x1081000, 7⟩, ⟨0x400000, 0x1082000, 1⟩] s₁ s₂ := by
  have hreserved : ∀ c ∈ [bootCall, ⟨0x100000000, 0x1081000, 7⟩, ⟨0x400000, 0x1082000, 1⟩],
      ¬ Reserved c.vaddr.toNat := by decide
  have hcalls : ∀ c ∈ [bootCall, ⟨0x100000000, 0x1081000, 7⟩, ⟨0x400000, 0x1082000, 1⟩],
      c.Mappable := by
    simp only [List.forall_mem_cons, List.not_mem_nil, false_implies, implies_true, and_true]
    refine ⟨⟨?_, ?_, ?_, ?_⟩, ⟨?_, ?_, ?_, ?_⟩, ⟨?_, ?_, ?_, ?_⟩⟩ <;> decide
  obtain ⟨cr3, s₂, hrun⟩ := buildSpace_ok bootTables (s := bootMachine) hreserved
    (by rw [show bootMachine.pages = bootPages from rfl, avail_bootPages]; decide)
  obtain ⟨cr3, s₁, hcreate, hrun⟩ := Exec.bind_eq_ok.1 hrun
  obtain ⟨⟨⟩, s₂, hmap, -⟩ := Exec.bind_eq_ok.1 hrun
  exact ⟨cr3, s₁, s₂, hcreate,
    mapUserPages_agree kernelWords_boot bootTables_not_free hcalls hcreate hmap⟩

end Paging

end RossOs
