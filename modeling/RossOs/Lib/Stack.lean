import RossOs.Lib.Bytes

/-!
# Stacks of words in a byte memory

A stack of 64-bit words that grows towards lower addresses. `load` and `store` are the word at an
address, `pushAll` pushes a list of words below an address, and `words_pushAll` finds them there
again, the one pushed last at the lowest address. `Intact` says that two memories agree on a range.
-/

namespace ByteMem

variable {m m' : Mem} {a b : ℕ}

/-- The word at `a`. -/
def load (m : Mem) (a : ℕ) : UInt64 := UInt64.ofNat (leNat (read m a 8))

/-- The memory with a word at `a`. -/
def store (m : Mem) (a : ℕ) (v : UInt64) : Mem := write m a (toLe 8 v.toNat)

/-- The word just stored loads back. -/
@[simp] theorem load_store_self (m : Mem) (a : ℕ) (v : UInt64) : load (store m a v) a = v := by
  have hread := read_write_self m a (toLe 8 v.toNat)
  rw [length_toLe] at hread
  rw [load, store, hread, leNat_toLe_of_lt (UInt64.toNat_lt v), UInt64.ofNat_toNat]

/-- A store changes its own eight bytes only. -/
theorem store_apply_of_outside {v : UInt64} {x : ℕ} (h : x < a ∨ a + 8 ≤ x) :
    store m a v x = m x := by
  refine write_apply_of_outside ?_
  rw [length_toLe]
  exact h

/-- A load depends on its own eight bytes only. -/
theorem load_congr (h : ∀ i < 8, m (a + i) = m' (a + i)) : load m a = load m' a := by
  rw [load, load, read_congr h]

/-- A load beside the bytes stored sees the old word. -/
theorem load_store_of_disjoint {v : UInt64} (h : b + 8 ≤ a ∨ a + 8 ≤ b) :
    load (store m a v) b = load m b :=
  load_congr fun i hi => store_apply_of_outside (by omega)

/-! ## Ranges -/

/-- The memories agree from `a` up to `b`. -/
def Intact (m m' : Mem) (a b : ℕ) : Prop := ∀ x, a ≤ x → x < b → m' x = m x

/-- Memory is intact with respect to itself. -/
theorem Intact.refl (m : Mem) (a b : ℕ) : Intact m m a b := fun _ _ _ => rfl

/-- What two changes leave intact, they leave intact together. -/
theorem Intact.trans {m'' : Mem} (h : Intact m m' a b) (h' : Intact m' m'' a b) :
    Intact m m'' a b := fun x ha hb => (h' x ha hb).trans (h x ha hb)

/-- A range is intact when a wider one is. -/
theorem Intact.mono {a' b' : ℕ} (h : Intact m m' a b) (ha : a ≤ a') (hb : b' ≤ b) :
    Intact m m' a' b' := fun x hx hx' => h x (by omega) (by omega)

/-- A word inside an intact range loads the same. -/
theorem Intact.load {x : ℕ} (h : Intact m m' a b) (ha : a ≤ x) (hb : x + 8 ≤ b) :
    load m' x = load m x :=
  load_congr fun i hi => h (x + i) (by omega) (by omega)

/-! ## Pushing a list -/

/-- The memory after the words were pushed one after the other below `sp`. -/
def pushAll (m : Mem) (sp : ℕ) : List UInt64 → Mem
  | [] => m
  | v :: vs => pushAll (store m (sp - 8) v) (sp - 8) vs

/-- Pushing leaves what is not below the stack pointer, and what is below the last word. -/
theorem pushAll_apply_of_outside {vs : List UInt64} {sp x : ℕ} (hsp : 8 * vs.length ≤ sp)
    (h : sp ≤ x ∨ x < sp - 8 * vs.length) : pushAll m sp vs x = m x := by
  induction vs generalizing m sp with
  | nil => rfl
  | cons v vs ih =>
    simp only [List.length_cons] at hsp h
    rw [pushAll, ih (by omega) (by omega), store_apply_of_outside (by omega)]

/-- The `i`-th word that was pushed. -/
theorem load_pushAll {vs : List UInt64} {sp i : ℕ} (hsp : 8 * vs.length ≤ sp) (hi : i < vs.length) :
    load (pushAll m sp vs) (sp - 8 * (i + 1)) = vs[i] := by
  induction vs generalizing m sp i with
  | nil => simp at hi
  | cons v vs ih =>
    simp only [List.length_cons] at hsp hi
    rw [pushAll]
    cases i with
    | zero =>
      have hkeep : load (pushAll (store m (sp - 8) v) (sp - 8) vs) (sp - 8) =
          load (store m (sp - 8) v) (sp - 8) :=
        load_congr fun j hj => pushAll_apply_of_outside (by omega) (by omega)
      simpa using hkeep
    | succ i =>
      have hnext : load (pushAll (store m (sp - 8) v) (sp - 8) vs) (sp - 8 - 8 * (i + 1)) = vs[i] :=
        ih (by omega) (by omega)
      rw [show sp - 8 * (i + 1 + 1) = sp - 8 - 8 * (i + 1) by omega, hnext]
      rfl

/-- Pushing two lists of words, one after the other. -/
theorem pushAll_append (m : Mem) (sp : ℕ) (vs ws : List UInt64) :
    pushAll m sp (vs ++ ws) = pushAll (pushAll m sp vs) (sp - 8 * vs.length) ws := by
  induction vs generalizing m sp with
  | nil => rfl
  | cons v vs ih =>
    rw [List.cons_append, pushAll, pushAll, ih, List.length_cons, Nat.sub_sub]
    congr 2
    omega

end ByteMem
