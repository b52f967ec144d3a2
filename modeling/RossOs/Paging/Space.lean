import RossOs.Paging.Model

/-!
# Address spaces as trees of tables

What an address space is for: a partial map from pages to entries of page tables, stored in a tree
of tables. `Space` is that tree, each table named by the path of indices that leads to it from the
root (`[]` the PML4, `[i]` a PDPT, `[i, j]` a PD, `[i, j, k]` a PT), and `Rep` says that a memory
holds it. `getOrCreate_spec` and `mapUserPage_spec` are the two operations on it: the tree grows by
frames the allocator just handed out, one leaf entry changes, and no other byte of memory does.

A position that holds something else than a table from the start (the kernel's half, and the 2 MB
identity pages of the first 4 GiB) is a `fixed` entry; `Reserved` are the addresses that lead
through one, and everything here is about the other addresses.
-/

namespace RossOs

open ByteMem

namespace Paging

/-! ## Entries -/

/-- The frame of an entry is the entry without its low bits. -/
theorem frameOf_eq {e : ℕ} (he : e < 2 ^ 64) : frameOf e = e / 4096 * 4096 :=
  Bits.and_high_mask (k := 12) (w := 64) (by decide) he

/-- An entry built from a frame and flags leads back to the frame. -/
theorem frameOf_add {f x : ℕ} (hf : 4096 ∣ f) (hf' : f < 2 ^ 52) (hx : x < 4096) :
    frameOf (f + x) = f := by
  obtain ⟨q, rfl⟩ := hf
  rw [frameOf_eq (by omega)]
  omega

/-- The entry `map_user_page` stores for a new table. -/
theorem tableEntry_eq {f : ℕ} (hf : 4096 ∣ f) : f ||| present ||| writable ||| user = f + 7 := by
  rw [Nat.or_assoc, Nat.or_assoc]
  exact Bits.or_eq_add (k := 12) hf (by decide)

/-- The entry `create_user_address_space` stores for a new table. -/
theorem tableEntry_eq' {f : ℕ} (hf : 4096 ∣ f) : f ||| 0x4 ||| 0x2 ||| 0x1 = f + 7 := by
  rw [Nat.or_assoc, Nat.or_assoc]
  exact Bits.or_eq_add (k := 12) hf (by decide)

/-- An index is below 512. -/
theorem index_lt (shift v : ℕ) : index shift v < 512 := by
  have h : index shift v = v >>> shift % 2 ^ 9 := Bits.and_low_mask _ 9
  rw [h]
  exact Nat.mod_lt _ (by decide)

/-- An index is nine bits of the address. -/
theorem index_eq (shift v : ℕ) : index shift v = v / 2 ^ shift % 512 := by
  have h : index shift v = v >>> shift % 2 ^ 9 := Bits.and_low_mask _ 9
  rw [h, Nat.shiftRight_eq_div_pow]
  rfl

/-! ## Frames of memory -/

/-- The byte at `a` is in the frame `f`. -/
def InFrame (f a : ℕ) : Prop := f ≤ a ∧ a < f + 4096

/-- Distinct frames have no byte in common. -/
theorem InFrame.unique {f g a : ℕ} (hf : 4096 ∣ f) (hg : 4096 ∣ g) (h : InFrame f a)
    (h' : InFrame g a) : f = g := by
  obtain ⟨q, rfl⟩ := hf
  obtain ⟨r, rfl⟩ := hg
  obtain ⟨h1, h2⟩ := h
  obtain ⟨h3, h4⟩ := h'
  omega

/-- `m'` differs from `m` only in frames of `F`. -/
def SameOutside (F : Set ℕ) (m m' : Mem) : Prop := ∀ a, (∀ f ∈ F, ¬ InFrame f a) → m' a = m a

/-- Memory is the same as itself outside any frames. -/
theorem SameOutside.refl {F : Set ℕ} {m : Mem} : SameOutside F m m := fun _ _ => rfl

/-- The frames that may have changed may be more. -/
theorem SameOutside.mono {F G : Set ℕ} {m m' : Mem} (h : SameOutside F m m') (hFG : F ⊆ G) :
    SameOutside G m m' := fun a ha => h a fun f hf => ha f (hFG hf)

/-- Two changes inside the frames are one. -/
theorem SameOutside.trans {F : Set ℕ} {m m' m'' : Mem} (h : SameOutside F m m')
    (h' : SameOutside F m' m'') : SameOutside F m m'' := fun a ha => (h' a ha).trans (h a ha)

/-- The words of a frame survive changes in other frames. -/
theorem SameOutside.word_eq {F : Set ℕ} {m m' : Mem} (h : SameOutside F m m') {g i : ℕ}
    (hF : ∀ f ∈ F, 4096 ∣ f) (hg : 4096 ∣ g) (hgF : g ∉ F) (hi : i < 512) :
    word m' g i = word m g i := by
  refine word_congr fun k hk => h _ fun f hf hin => hgF ?_
  have hin' : InFrame g (g + 8 * i + k) := ⟨by omega, by omega⟩
  rw [hin'.unique hg (hF f hf) hin]
  exact hf

/-- The bytes of a frame survive changes in other frames. -/
theorem SameOutside.apply_eq {F : Set ℕ} {m m' : Mem} (h : SameOutside F m m') {g o : ℕ}
    (hF : ∀ f ∈ F, 4096 ∣ f) (hg : 4096 ∣ g) (hgF : g ∉ F) (ho : o < 4096) :
    m' (g + o) = m (g + o) := by
  refine h _ fun f hf hin => hgF ?_
  have hin' : InFrame g (g + o) := ⟨by omega, by omega⟩
  rw [hin'.unique hg (hF f hf) hin]
  exact hf

/-- A write of an entry changes its table only. -/
theorem sameOutside_setWord {m : Mem} {f i v : ℕ} (hi : i < 512) :
    SameOutside {f} m (setWord m f i v) := fun a ha => by
  have := ha f rfl
  refine setWord_apply_of_outside ?_
  unfold InFrame at this
  omega

/-- Storing an entry of one table changes no entry of another. -/
theorem word_setWord_frame {m : Mem} {f g i j v : ℕ} (hf : 4096 ∣ f) (hg : 4096 ∣ g) (h : g ≠ f)
    (hi : i < 512) (hj : j < 512) : word (setWord m f i v) g j = word m g j :=
  (sameOutside_setWord hi).word_eq (fun _ hx => Set.mem_singleton_iff.1 hx ▸ hf) hg h hj

/-- Zeroing a frame changes it only. -/
theorem sameOutside_clear {m : Mem} {f : ℕ} : SameOutside {f} m (clear m f 4096) := fun a ha => by
  have := ha f rfl
  refine clear_apply_of_outside ?_
  unfold InFrame at this
  omega

/-! ## Running the small steps -/

section
variable {ε σ : Type}

/-- Below 2 GiB the window's address is a sum without overflow. -/
theorem physToVirt_run {s : Machine σ} {f : ℕ} (hf : f < 2 ^ 31) :
    (physToVirt f : Exec ε (Machine σ) ℕ) s = .ok (f + kernelVmaBase) s := by
  have : f + kernelVmaBase < 2 ^ 64 := by simp only [kernelVmaBase]; omega
  rw [physToVirt, if_pos this]
  rfl

/-- `get_entry` reads the word of the table. -/
@[simp] theorem getEntry_run (s : Machine σ) (f i : ℕ) :
    (getEntry (f + kernelVmaBase) i : Exec ε (Machine σ) ℕ) s = .ok (word s.mem f i) s := by
  rw [getEntry, Nat.add_sub_cancel]

/-- `set_entry` writes the word of the table. -/
@[simp] theorem setEntry_run (s : Machine σ) (f i v : ℕ) :
    (setEntry (f + kernelVmaBase) i v : Exec ε (Machine σ) PUnit) s =
      .ok ⟨⟩ { s with mem := setWord s.mem f i v } := by
  rw [setEntry, Nat.add_sub_cancel]
  rfl

/-- `zero_page` zeroes the frame. -/
@[simp] theorem zeroPage_run (s : Machine σ) (f : ℕ) :
    (zeroPage (f + kernelVmaBase) : Exec ε (Machine σ) PUnit) s =
      .ok ⟨⟩ { s with mem := clear s.mem f 4096 } := by
  rw [zeroPage, Nat.add_sub_cancel]
  rfl

end

/-! ## The tree -/

/-- An address space: the frame of the table at each path, and the entry of a page table at each
path of four indices. -/
structure Space where
  table : List ℕ → Option ℕ
  leaf : List ℕ → ℕ

/-- What a fresh address space holds in place of a table: the kernel's entry `e511` at the top, and
the 2 MB identity pages of the first 4 GiB, except for the hole at 4 MB. -/
def fixed (e511 : ℕ) : List ℕ → ℕ → ℕ
  | [], i => if i = 511 then e511 else 0
  | [i, j], k =>
    if i = 0 ∧ j < 4 ∧ ¬ (j = 0 ∧ k = 2) then (j * 512 + k) * 0x200000 + 0x83 else 0
  | _, _ => 0

/-- The entry `i` of the table at `p`. -/
def Space.entry (e511 : ℕ) (A : Space) (p : List ℕ) (i : ℕ) : ℕ :=
  if p.length = 3 then A.leaf (p ++ [i])
  else match A.table (p ++ [i]) with
    | some g => g + 7
    | none => fixed e511 p i

/-- The memory `m` holds the tables of the space. -/
structure Rep (e511 : ℕ) (m : Mem) (A : Space) : Prop where
  words : ∀ {p : List ℕ} {f i : ℕ}, A.table p = some f → i < 512 →
    word m f i = A.entry e511 p i
  inj : ∀ {p q : List ℕ} {f : ℕ}, A.table p = some f → A.table q = some f → p = q
  depth : ∀ {p : List ℕ} {f : ℕ}, A.table p = some f → p.length ≤ 3
  frame : ∀ {p : List ℕ} {f : ℕ}, A.table p = some f → 4096 ∣ f ∧ f < 2 ^ 30
  /-- A table hangs only where nothing is fixed. -/
  hung : ∀ {p : List ℕ} {i f : ℕ}, A.table (p ++ [i]) = some f → fixed e511 p i = 0
  /-- A table hangs below a table. -/
  parent : ∀ {p : List ℕ} {i f : ℕ}, A.table (p ++ [i]) = some f → ∃ g, A.table p = some g
  /-- The directories of the identity pages are there. -/
  ident : ∀ {j : ℕ}, j < 4 → ∃ g, A.table [0, j] = some g
  /-- A page table that is not there has no entries. -/
  orphan : ∀ {p : List ℕ} {i : ℕ}, A.table p = none → A.leaf (p ++ [i]) = 0

/-- The frames of a space's tables. -/
def Space.frames (A : Space) : Set ℕ := {f | ∃ p, A.table p = some f}

/-- The space with the frame `f` as the table at `q`. -/
def Space.hang (A : Space) (q : List ℕ) (f : ℕ) : Space where
  table := Function.update A.table q (some f)
  leaf := A.leaf

/-- A new table maps no page. -/
@[simp] theorem Space.hang_leaf (A : Space) (q : List ℕ) (f : ℕ) : (A.hang q f).leaf = A.leaf := rfl

/-- The new table hangs where it was hung. -/
@[simp] theorem Space.hang_table_self (A : Space) (q : List ℕ) (f : ℕ) :
    (A.hang q f).table q = some f := Function.update_self _ _ _

/-- Hanging a table into the space leaves the other tables. -/
theorem Space.hang_table_of_ne {A : Space} {p q : List ℕ} {f : ℕ} (h : p ≠ q) :
    (A.hang q f).table p = A.table p := Function.update_of_ne h _ _

/-- The tables after a frame is hung: the new one, and those from before. -/
theorem Space.hang_table_cases {A : Space} {p q : List ℕ} {f g : ℕ}
    (h : (A.hang q f).table p = some g) : (p = q ∧ g = f) ∨ (p ≠ q ∧ A.table p = some g) := by
  rcases eq_or_ne p q with rfl | hne
  · rw [hang_table_self, Option.some.injEq] at h
    exact .inl ⟨rfl, h.symm⟩
  · rw [hang_table_of_ne hne] at h
    exact .inr ⟨hne, h⟩

/-- The frames of the space are the new one and the old ones. -/
theorem Space.mem_frames_hang {A : Space} {q : List ℕ} {f g : ℕ} (h : g ∈ (A.hang q f).frames) :
    g = f ∨ g ∈ A.frames := by
  obtain ⟨p, hp⟩ := h
  rcases hang_table_cases hp with ⟨-, hg⟩ | ⟨-, hg⟩
  · exact .inl hg
  · exact .inr ⟨p, hg⟩

/-- The space with `e` as the entry of its page tables at `q`. -/
def Space.setLeaf (A : Space) (q : List ℕ) (e : ℕ) : Space where
  table := A.table
  leaf := Function.update A.leaf q e

/-- A page mapped adds no table. -/
@[simp] theorem Space.setLeaf_table (A : Space) (q : List ℕ) (e : ℕ) :
    (A.setLeaf q e).table = A.table := rfl

/-- The page just mapped is there. -/
@[simp] theorem Space.setLeaf_leaf_self (A : Space) (q : List ℕ) (e : ℕ) :
    (A.setLeaf q e).leaf q = e := Function.update_self _ _ _

/-- Setting one page leaves the other pages. -/
theorem Space.setLeaf_leaf_of_ne {A : Space} {p q : List ℕ} {e : ℕ} (h : p ≠ q) :
    (A.setLeaf q e).leaf p = A.leaf p := Function.update_of_ne h _ _

variable {σ : Type} [PageAllocator σ] {e511 : ℕ}

/-- The space is in memory, and the allocator holds none of its tables. -/
structure Holds (e511 : ℕ) (s : Machine σ) (A : Space) : Prop extends Rep e511 s.mem A where
  taken : ∀ {f : ℕ}, f ∈ A.frames → f ∉ PageAllocator.free s.pages

/-- The tables grow from `A` to `A'` while the machine goes from `s` to `s'`: no table moves, new
tables come from the allocator, `n` at most, and only tables are written. -/
structure Grow (e511 n : ℕ) (s : Machine σ) (A : Space) (s' : Machine σ) (A' : Space) : Prop where
  holds : Holds e511 s' A'
  mono : ∀ {p : List ℕ} {f : ℕ}, A.table p = some f → A'.table p = some f
  new : ∀ {f : ℕ}, f ∈ A'.frames → f ∈ A.frames ∨ f ∈ PageAllocator.free s.pages
  free : PageAllocator.free s'.pages ⊆ PageAllocator.free s.pages
  avail : PageAllocator.avail s.pages ≤ PageAllocator.avail s'.pages + n
  mem : SameOutside A'.frames s.mem s'.mem

/-- A space that did not change grows into itself. -/
theorem Grow.refl {s : Machine σ} {A : Space} (h : Holds e511 s A) : Grow e511 0 s A s A :=
  ⟨h, id, .inl, subset_rfl, le_rfl, .refl⟩

/-- The frames of the space stay with it. -/
theorem Grow.frames {n : ℕ} {s s' : Machine σ} {A A' : Space} (h : Grow e511 n s A s' A') :
    A.frames ⊆ A'.frames := fun _ ⟨p, hp⟩ => ⟨p, h.mono hp⟩

/-- A space that grows and grows again takes the frames of both. -/
theorem Grow.trans {n k : ℕ} {s s₁ s₂ : Machine σ} {A A₁ A₂ : Space} (h : Grow e511 n s A s₁ A₁)
    (h' : Grow e511 k s₁ A₁ s₂ A₂) : Grow e511 (n + k) s A s₂ A₂ where
  holds := h'.holds
  mono hp := h'.mono (h.mono hp)
  new hf := by
    rcases h'.new hf with hf | hf
    · exact h.new hf
    · exact .inr (h.free hf)
  free := h'.free.trans h.free
  avail := by have := h.avail; have := h'.avail; omega
  mem := (h.mem.mono h'.frames).trans h'.mem

/-- The bound on the frames taken may be raised. -/
theorem Grow.weaken {n k : ℕ} {s s' : Machine σ} {A A' : Space} (h : Grow e511 n s A s' A')
    (hnk : n ≤ k) : Grow e511 k s A s' A' :=
  ⟨h.holds, h.mono, h.new, h.free, h.avail.trans (Nat.add_le_add_left hnk _), h.mem⟩

/-! ## Growing the tree -/

section
variable {ε : Type}

/-- `alloc_page` gives nothing where the allocator has no page. -/
theorem allocPage_none {s : Machine σ} (h : PageAllocator.allocPage s.pages = none) :
    (allocPage : Exec ε (Machine σ) (Option ℕ)) s = .ok none s := by
  simp [allocPage, h]

/-- `alloc_page` gives the page of the allocator. -/
theorem allocPage_some {s : Machine σ} {f : ℕ} {pages : σ}
    (h : PageAllocator.allocPage s.pages = some (f, pages)) :
    (allocPage : Exec ε (Machine σ) (Option ℕ)) s = .ok (some f) { s with pages := pages } := by
  simp [allocPage, h]

/-- `alloc_page().expect` panics when there is no frame, and otherwise takes a free one. -/
theorem allocPageExpect_run (s : Machine σ) :
    (PageAllocator.allocPage s.pages = none ∧
      (allocPageExpect : Exec ε (Machine σ) ℕ) s = .error .panic s) ∨
    ∃ f pages, PageAllocator.allocPage s.pages = some (f, pages) ∧
      (allocPageExpect : Exec ε (Machine σ) ℕ) s = .ok f { s with pages := pages } := by
  cases h : PageAllocator.allocPage s.pages with
  | none =>
    refine .inl ⟨rfl, ?_⟩
    rw [allocPageExpect, Exec.bind_of_ok (allocPage_none h)]
    rfl
  | some r =>
    obtain ⟨f, pages⟩ := r
    refine .inr ⟨f, pages, rfl, ?_⟩
    rw [allocPageExpect, Exec.bind_of_ok (allocPage_some h)]
    rfl

section
variable {A : Space} {p : List ℕ} {t i f : ℕ} {m m' : Mem}

/-- The words after a zeroed frame is linked from the table `t`: zero in the frame, one changed in
`t`, the rest as before. -/
theorem Rep.word_hang (h : Rep e511 m A) (hp : A.table p = some t) (hi : i < 512)
    (hf : 4096 ∣ f) (hf' : f < 2 ^ 30) (hfA : f ∉ A.frames) :
    (∀ j < 512, word (setWord (clear m f 4096) t i (f + 7)) f j = 0) ∧
    word (setWord (clear m f 4096) t i (f + 7)) t i = f + 7 ∧
    ∀ {q : List ℕ} {g j : ℕ}, A.table q = some g → j < 512 → ¬ (g = t ∧ j = i) →
      word (setWord (clear m f 4096) t i (f + 7)) g j = word m g j := by
  have hne : t ≠ f := fun he => hfA (he ▸ ⟨p, hp⟩)
  have ht' : ∀ g ∈ ({t} : Set ℕ), 4096 ∣ g := by
    intro g hg
    rw [Set.mem_singleton_iff.1 hg]
    exact (h.frame hp).1
  refine ⟨fun j hj => ?_, word_setWord_self _ _ _ (by omega), ?_⟩
  · rw [(sameOutside_setWord hi).word_eq ht' hf (fun he => hne he.symm) hj]
    exact word_clear _ _ (by omega)
  · intro q g j hq hj hgj
    have hgf : g ≠ f := fun he => hfA (he ▸ ⟨q, hq⟩)
    have hzw : word (clear m f 4096) g j = word m g j :=
      sameOutside_clear.word_eq (by rintro _ rfl; exact hf) (h.frame hq).1 hgf hj
    rcases eq_or_ne g t with rfl | hgt
    · rw [word_setWord_of_ne _ _ _ (fun hij => hgj ⟨rfl, hij.symm⟩), hzw]
    · rw [(sameOutside_setWord hi).word_eq ht' (h.frame hq).1 hgt hj, hzw]

/-- Below a table that is not there nothing is fixed: the identity directories are there. -/
theorem Rep.fixed_below (h : Rep e511 m A) (hnone : A.table (p ++ [i]) = none) (j : ℕ)
    (hl : p.length < 2) : fixed e511 (p ++ [i]) j = 0 := by
  match p, hl with
  | [], _ => rfl
  | [k], _ =>
    refine if_neg fun ⟨hk, hi4, _⟩ => ?_
    obtain ⟨g, hg⟩ := h.ident hi4
    rw [hk, List.singleton_append, hg] at hnone
    cases hnone

/-- The words of the tables with one more below the table at `p`. -/
theorem Rep.words_of_hang (h : Rep e511 m A) (hp : A.table p = some t) (hlen : p.length < 3)
    (hnone : A.table (p ++ [i]) = none) (hzero : ∀ j < 512, word m' f j = 0)
    (hself : word m' t i = f + 7)
    (hold : ∀ {q : List ℕ} {g j : ℕ}, A.table q = some g → j < 512 → ¬ (g = t ∧ j = i) →
      word m' g j = word m g j) {q : List ℕ} {g j : ℕ}
    (hq : (A.hang (p ++ [i]) f).table q = some g) (hj : j < 512) :
    word m' g j = (A.hang (p ++ [i]) f).entry e511 q j := by
  rcases Space.hang_table_cases hq with ⟨rfl, rfl⟩ | ⟨-, hq'⟩
  · -- the new table is empty
    rw [hzero j hj, Space.entry, Space.hang_leaf]
    split
    case isTrue hl => exact (h.orphan hnone).symm
    case isFalse hl =>
      have hnone' : A.table (p ++ [i] ++ [j]) = none := by
        cases hc : A.table (p ++ [i] ++ [j]) with
        | none => rfl
        | some g' =>
          obtain ⟨g'', hg''⟩ := h.parent hc
          rw [hnone] at hg''
          cases hg''
      rw [Space.hang_table_of_ne (by simp), hnone']
      rw [List.length_append, List.length_singleton] at hl
      exact (h.fixed_below hnone j (by omega)).symm
  · rcases eq_or_ne (q ++ [j]) (p ++ [i]) with he | he
    · obtain ⟨hqp, hji⟩ := List.append_inj' he rfl
      rw [hqp, hp, Option.some.injEq] at hq'
      rw [hqp, List.singleton_inj.1 hji, ← hq', hself, Space.entry, if_neg (by omega),
        Space.hang_table_self]
    · have hgj : ¬ (g = t ∧ j = i) := by
        rintro ⟨rfl, rfl⟩
        exact he (by rw [h.inj hq' hp])
      rw [hold hq' hj hgj, h.words hq' hj]
      simp only [Space.entry, Space.hang_leaf, Space.hang_table_of_ne he]

/-- The tables with one more below the table at `p`, in a memory with its words. -/
theorem Rep.hang (h : Rep e511 m A) (hp : A.table p = some t) (hlen : p.length < 3)
    (hfix : fixed e511 p i = 0) (hnone : A.table (p ++ [i]) = none) (hf : 4096 ∣ f)
    (hf' : f < 2 ^ 30) (hfA : f ∉ A.frames) (hzero : ∀ j < 512, word m' f j = 0)
    (hself : word m' t i = f + 7)
    (hold : ∀ {q : List ℕ} {g j : ℕ}, A.table q = some g → j < 512 → ¬ (g = t ∧ j = i) →
      word m' g j = word m g j) : Rep e511 m' (A.hang (p ++ [i]) f) := by
  refine ⟨h.words_of_hang hp hlen hnone hzero hself hold, ?inj, ?depth, ?frame, ?hung, ?parent,
    ?ident, ?orphan⟩
  case inj =>
    intro q r g hq hr
    rcases Space.hang_table_cases hq with ⟨hqp, hgf⟩ | ⟨-, hq'⟩
    · rcases Space.hang_table_cases hr with ⟨hrp, -⟩ | ⟨-, hr'⟩
      · rw [hqp, hrp]
      · exact absurd ⟨r, hgf ▸ hr'⟩ hfA
    · rcases Space.hang_table_cases hr with ⟨-, hgf⟩ | ⟨-, hr'⟩
      · exact absurd ⟨q, hgf ▸ hq'⟩ hfA
      · exact h.inj hq' hr'
  case depth =>
    intro q g hq
    rcases Space.hang_table_cases hq with ⟨rfl, -⟩ | ⟨-, hq⟩
    · rw [List.length_append, List.length_singleton]
      omega
    · exact h.depth hq
  case frame =>
    intro q g hq
    rcases Space.hang_table_cases hq with ⟨-, rfl⟩ | ⟨-, hq⟩
    · exact ⟨hf, hf'⟩
    · exact h.frame hq
  case hung =>
    intro q j g hq
    rcases Space.hang_table_cases hq with ⟨hqp, -⟩ | ⟨-, hq⟩
    · obtain ⟨rfl, hji⟩ := List.append_inj' hqp rfl
      cases hji
      exact hfix
    · exact h.hung hq
  case parent =>
    intro q j g hq
    rcases Space.hang_table_cases hq with ⟨hqp, -⟩ | ⟨-, hq⟩
    · obtain ⟨rfl, -⟩ := List.append_inj' hqp rfl
      rw [Space.hang_table_of_ne (by simp)]
      exact ⟨t, hp⟩
    · obtain ⟨g', hg'⟩ := h.parent hq
      have hqp' : q ≠ p ++ [i] := by
        rintro rfl
        rw [hnone] at hg'
        cases hg'
      rw [Space.hang_table_of_ne hqp']
      exact ⟨g', hg'⟩
  case ident =>
    intro j hj
    rcases eq_or_ne [0, j] (p ++ [i]) with hjp | hjp
    · exact ⟨f, by rw [hjp, Space.hang_table_self]⟩
    · rw [Space.hang_table_of_ne hjp]
      exact h.ident hj
  case orphan =>
    intro q j hq
    rcases eq_or_ne q (p ++ [i]) with rfl | hqp
    · rw [Space.hang_table_self] at hq
      cases hq
    · rw [Space.hang_table_of_ne hqp] at hq
      exact h.orphan hq

end

/-- Hanging a zeroed frame that the allocator just handed out below the table at `p`. -/
theorem Holds.hang {s : Machine σ} {A : Space} {p : List ℕ} {t i f : ℕ} {pages : σ}
    (h : Holds e511 s A) (hp : A.table p = some t) (hlen : p.length < 3) (hi : i < 512)
    (hfix : fixed e511 p i = 0) (hnone : A.table (p ++ [i]) = none)
    (ha : PageAllocator.allocPage s.pages = some (f, pages)) :
    Grow e511 1 s A ⟨setWord (clear s.mem f 4096) t i (f + 7), pages⟩ (A.hang (p ++ [i]) f) := by
  have hfree := PageAllocator.mem_free ha
  have hf := PageAllocator.aligned hfree
  have hf' := PageAllocator.below hfree
  have hfA : f ∉ A.frames := fun hmem => h.taken hmem hfree
  obtain ⟨hzero, hself, hold⟩ := h.word_hang hp hi hf hf' hfA
  refine ⟨⟨h.toRep.hang hp hlen hfix hnone hf hf' hfA hzero hself hold,
    ?taken⟩, ?mono, ?new, ?free, (PageAllocator.avail_some ha).le, ?mem⟩
  case taken =>
    intro g hg hgfree
    rw [PageAllocator.free_eq ha] at hgfree
    rcases Space.mem_frames_hang hg with rfl | hg
    · exact hgfree.2 rfl
    · exact h.taken hg hgfree.1
  case mono =>
    intro q g hq
    have hqp : q ≠ p ++ [i] := by
      rintro rfl
      rw [hnone] at hq
      cases hq
    rwa [Space.hang_table_of_ne hqp]
  case new =>
    intro g hg
    rcases Space.mem_frames_hang hg with rfl | hg
    · exact .inr hfree
    · exact .inl hg
  case free =>
    rw [PageAllocator.free_eq ha]
    exact Set.sdiff_subset
  case mem =>
    have hff : f ∈ (A.hang (p ++ [i]) f).frames := ⟨p ++ [i], Space.hang_table_self _ _ _⟩
    have htf : t ∈ (A.hang (p ++ [i]) f).frames :=
      ⟨p, by rw [Space.hang_table_of_ne (by simp)]; exact hp⟩
    exact (sameOutside_clear.mono (Set.singleton_subset_iff.2 hff)).trans
      ((sameOutside_setWord hi).mono (Set.singleton_subset_iff.2 htf))

/-- One level of `map_user_page`, at a position where nothing is fixed: it returns the table there,
which it hangs first when it is missing. It panics only when there is no frame for it. -/
theorem getOrCreate_spec {s : Machine σ} {A : Space} {p : List ℕ} {t i : ℕ}
    (h : Holds e511 s A) (hp : A.table p = some t) (hlen : p.length < 3) (hi : i < 512)
    (hfix : fixed e511 p i = 0) :
    Exec.Sat ((getOrCreate (t + kernelVmaBase) i : Exec ε (Machine σ) ℕ) s)
      (fun r s' => ∃ A' g, r = g + kernelVmaBase ∧ A'.table (p ++ [i]) = some g ∧
        Grow e511 1 s A s' A' ∧ A'.leaf = A.leaf)
      (fun e s' => e = .panic ∧ s' = s ∧ PageAllocator.avail s'.pages = 0) := by
  have hw : word s.mem t i = A.entry e511 p i := h.words hp hi
  rw [Space.entry, if_neg (by omega)] at hw
  have hget := getEntry_run (ε := ε) s t i
  unfold getOrCreate
  rw [Exec.bind_of_ok hget]
  cases hc : A.table (p ++ [i]) with
  | some g =>
    rw [hc] at hw
    have hg := h.frame hc
    have hwg : word s.mem t i = g + 7 := hw
    rw [if_neg (by omega)]
    beta_reduce
    rw [Exec.bind_of_ok hget, hwg, frameOf_add hg.1 (by omega) (by omega),
      physToVirt_run (by omega)]
    exact Exec.sat_ok.2 ⟨A, g, rfl, hc, (Grow.refl h).weaken (by decide), rfl⟩
  | none =>
    rw [hc] at hw
    have hw0 : word s.mem t i = 0 := hw.trans hfix
    rw [if_pos hw0]
    rcases allocPageExpect_run (ε := ε) s with ⟨hnone, hrun⟩ | ⟨f, pages, hsome, hrun⟩
    · rw [Exec.bind_of_error hrun]
      exact Exec.sat_error.2 ⟨rfl, rfl, PageAllocator.avail_none hnone⟩
    · have hfree := PageAllocator.mem_free hsome
      have hf := PageAllocator.aligned hfree
      have hf' := PageAllocator.below hfree
      rw [Exec.bind_of_ok hrun, Exec.bind_of_ok (physToVirt_run (by omega)),
        Exec.bind_of_ok (zeroPage_run _ f), tableEntry_eq hf,
        Exec.bind_of_ok (setEntry_run _ t i _)]
      beta_reduce
      rw [Exec.bind_of_ok (getEntry_run _ t i), word_setWord_self _ _ _ (by omega),
        frameOf_add hf (by omega) (by omega), physToVirt_run (by omega)]
      exact Exec.sat_ok.2
        ⟨_, f, rfl, Space.hang_table_self _ _ _, h.hang hp hlen hi hfix hc hsome, rfl⟩

/-- Storing an entry of the page table at `p`. -/
theorem Holds.setLeaf {s : Machine σ} {A : Space} {p : List ℕ} {t i v : ℕ}
    (h : Holds e511 s A) (hp : A.table p = some t) (hlen : p.length = 3) (hi : i < 512)
    (hv : v < 2 ^ 64) :
    Grow e511 0 s A { s with mem := setWord s.mem t i v } (A.setLeaf (p ++ [i]) v) := by
  have ht : ∀ g ∈ ({t} : Set ℕ), 4096 ∣ g := by
    intro g hg
    rw [Set.mem_singleton_iff.1 hg]
    exact (h.frame hp).1
  refine ⟨⟨⟨?words, h.inj, h.depth, h.frame, h.hung, h.parent, h.ident, ?orphan⟩, h.taken⟩, id,
    .inl, subset_rfl, le_rfl, (sameOutside_setWord hi).mono (Set.singleton_subset_iff.2 ⟨p, hp⟩)⟩
  case words =>
    intro q g j hq hj
    rcases eq_or_ne (q ++ [j]) (p ++ [i]) with he | he
    · obtain ⟨rfl, hji⟩ := List.append_inj' he rfl
      obtain rfl : g = t := Option.some.inj (hq.symm.trans hp)
      rw [List.singleton_inj.1 hji, word_setWord_self _ _ _ hv, Space.entry, if_pos hlen,
        Space.setLeaf_leaf_self]
    · have hentry : (A.setLeaf (p ++ [i]) v).entry e511 q j = A.entry e511 q j := by
        simp only [Space.entry, Space.setLeaf_leaf_of_ne he, Space.setLeaf_table]
      rw [hentry, ← h.words hq hj]
      rcases eq_or_ne g t with rfl | hgt
      · rw [word_setWord_of_ne]
        rintro rfl
        exact he (by rw [h.inj hq hp])
      · exact (sameOutside_setWord hi).word_eq ht (h.frame hq).1 hgt hj
  case orphan =>
    intro q j hq
    rw [Space.setLeaf_leaf_of_ne]
    · exact h.orphan hq
    · intro he
      obtain ⟨rfl, -⟩ := List.append_inj' he rfl
      rw [Space.setLeaf_table, hp] at hq
      cases hq

/-- The indices of the four levels for a virtual address. -/
def pagePath (v : ℕ) : List ℕ := [index 39 v, index 30 v, index 21 v, index 12 v]

/-- The virtual addresses a fresh address space keeps for the kernel: its half, and the first 4 GiB
except for the 2 MB at 4 MB. -/
def Reserved (v : ℕ) : Prop :=
  index 39 v = 511 ∨ index 39 v = 0 ∧ index 30 v < 4 ∧ ¬ (index 30 v = 0 ∧ index 21 v = 2)

instance (v : ℕ) : Decidable (Reserved v) := instDecidableOr

/-- Nothing is fixed on the way to a page whose address is not reserved. -/
theorem fixed_pml4 {v : ℕ} (hv : ¬ Reserved v) : fixed e511 [] (index 39 v) = 0 := by
  rw [fixed, if_neg fun he => hv (.inl he)]

/-- Outside the reserved addresses no directory entry is fixed. -/
theorem fixed_pd {v : ℕ} (hv : ¬ Reserved v) :
    fixed e511 [index 39 v, index 30 v] (index 21 v) = 0 := by
  rw [fixed, if_neg fun he => hv (.inr he)]

/-- `map_user_page` at an address that is not reserved: the tables on the way grow as needed, and
the entry of the page is stored. It panics when there is no frame for a table. -/
theorem mapUserPage_spec {s : Machine σ} {A : Space} {cr3 v paddr flags : ℕ} (h : Holds e511 s A)
    (hroot : A.table [] = some cr3) (hv : ¬ Reserved v) (hp : paddr < 2 ^ 64)
    (hf : flags < 2 ^ 64) :
    Exec.Sat ((mapUserPage cr3 v paddr flags : Exec ε (Machine σ) PUnit) s)
      (fun _ s' => ∃ A' : Space, Grow e511 3 s A s'
        (A'.setLeaf (pagePath v) (paddr ||| flags ||| present ||| user)) ∧ A'.leaf = A.leaf)
      (fun e s' => e = .panic ∧ PageAllocator.avail s'.pages = 0 ∧
        ∃ A', Grow e511 2 s A s' A' ∧ A'.leaf = A.leaf) := by
  have hcr3 := h.frame hroot
  have hentry : paddr ||| flags ||| present ||| user < 2 ^ 64 :=
    Nat.or_lt_two_pow (n := 64) (Nat.or_lt_two_pow (Nat.or_lt_two_pow hp hf) (by decide))
      (by decide)
  unfold mapUserPage
  rw [Exec.bind_of_ok (physToVirt_run (by omega))]
  have h4 := getOrCreate_spec (ε := ε) h hroot (by decide) (index_lt 39 v) (fixed_pml4 hv)
  refine Exec.Sat.bind (h4.mono ?_ ?_)
  case refine_2 =>
    rintro _ _ ⟨rfl, rfl, hnone⟩
    exact ⟨rfl, hnone, A, (Grow.refl h).weaken (by decide), rfl⟩
  rintro _ s₁ ⟨A₁, t₁, rfl, ht₁, hg₁, hl₁⟩
  rw [List.nil_append] at ht₁
  have h3 := getOrCreate_spec (ε := ε) hg₁.holds ht₁ (by simp) (index_lt 30 v) rfl
  refine Exec.Sat.bind (h3.mono ?_ ?_)
  case refine_2 =>
    rintro _ _ ⟨rfl, rfl, hnone⟩
    exact ⟨rfl, hnone, A₁, hg₁.weaken (by decide), hl₁⟩
  rintro _ s₂ ⟨A₂, t₂, rfl, ht₂, hg₂, hl₂⟩
  rw [List.singleton_append] at ht₂
  have h2 := getOrCreate_spec (ε := ε) hg₂.holds ht₂ (by simp) (index_lt 21 v) (fixed_pd hv)
  refine Exec.Sat.bind (h2.mono ?_ ?_)
  case refine_2 =>
    rintro _ _ ⟨rfl, rfl, hnone⟩
    exact ⟨rfl, hnone, A₂, hg₁.trans hg₂, hl₂.trans hl₁⟩
  rintro _ s₃ ⟨A₃, t₃, rfl, ht₃, hg₃, hl₃⟩
  rw [setEntry_run]
  have hset := hg₃.holds.setLeaf ht₃ rfl (index_lt 12 v) hentry
  exact Exec.sat_ok.2 ⟨A₃, (hg₁.trans (hg₂.trans hg₃)).trans hset, hl₃.trans (hl₂.trans hl₁)⟩

end

end Paging

end RossOs
