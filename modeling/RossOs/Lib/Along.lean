import Mathlib.Order.Defs.Unbundled
import RossOs.Lib.Log

/-!
# Runs that only move one way

`Along R x` says that wherever the run `x` ends, with a value or with a fault, its state is related
by `R` to the one it started in. For a preorder the rules below put such runs together.
-/

namespace Exec

variable {ε ε' σ τ α β : Type} {R : σ → σ → Prop}

/-- The run ends in a state related to the one it starts in. -/
def Along (R : σ → σ → Prop) (x : Exec ε σ α) : Prop := ∀ s, R s (Outcome.state (x s))

namespace Along

variable {x : Exec ε σ α}

/-- A call that returns leads along the relation. -/
theorem of_ok (h : Along R x) {s s' : σ} {a : α} (hx : x s = .ok a s') : R s s' := by
  have hs := h s
  rwa [hx] at hs

/-- A call that fails leads along the relation. -/
theorem of_error (h : Along R x) {s s' : σ} {e : Fault ε} (hx : x s = .error e s') : R s s' := by
  have hs := h s
  rwa [hx] at hs

/-- Whatever the outcome, the state after the call is related to the one before. -/
theorem sat (h : Along R x) (s : σ) : Sat (x s) (fun _ s' => R s s') fun _ s' => R s s' :=
  ⟨h.of_ok, h.of_error⟩

/-- A relation that holds after every outcome of every call is one the program goes along. -/
theorem of_sat (h : ∀ s, Sat (x s) (fun _ s' => R s s') fun _ s' => R s s') : Along R x :=
  fun s => (h s).state

/-- A program that goes along a relation goes along every weaker one. -/
theorem mono {R' : σ → σ → Prop} (h : Along R x) (hR : ∀ s s', R s s' → R' s s') : Along R' x :=
  fun s => hR _ _ (h s)

variable [IsPreorder σ R]

/-- A value returned at once changes nothing, so it goes along every reflexive relation. -/
theorem pure (a : α) : Along R (Pure.pure a : Exec ε σ α) := fun s => refl_of R s

/-- An error thrown at once changes nothing, so it goes along every reflexive relation. -/
theorem throw (e : Fault ε) : Along R (MonadExcept.throw e : Exec ε σ α) := fun s => refl_of R s

/-- Along two programs in sequence, by transitivity. -/
theorem bind {f : α → Exec ε σ β} (h : Along R x) (hf : ∀ a, Along R (f a)) :
    Along R (x >>= f) := by
  refine of_sat fun s => Sat.bind ((h.sat s).mono (fun a s₁ hs₁ => ?_) fun _ _ he => he)
  exact ((hf a).sat s₁).mono (fun _ _ h' => trans_of R hs₁ h') fun _ _ h' => trans_of R hs₁ h'

omit [IsPreorder σ R] in
/-- Along a branch, when it is along both sides. -/
theorem ite {p : Prop} [Decidable p] {y : Exec ε σ α} (hx : p → Along R x) (hy : ¬ p → Along R y) :
    Along R (if p then x else y) := by
  split
  case isTrue hp => exact hx hp
  case isFalse hp => exact hy hp

/-- Along a loop whose body is along the relation for every element. -/
theorem forM {f : β → Exec ε σ PUnit} (l : List β) (h : ∀ b, Along R (f b)) :
    Along R (l.forM f) := by
  induction l with
  | nil => exact fun s => refl_of R s
  | cons b l ih => exact (h b).bind fun _ => ih

omit [IsPreorder σ R] in
/-- The rule of runs on a part of the state. -/
theorem zoom {get : τ → σ} {set : σ → τ → τ} (hget : ∀ s t, get (set s t) = s) (h : Along R x) :
    Along (fun t t' => R (get t) (get t')) (Exec.zoom get set x) := by
  intro t
  have hs := h (get t)
  cases hx : x (get t) with
  | ok a s' =>
    rw [hx] at hs
    rw [zoom_of_ok hx]
    exact (hget s' t).symm ▸ hs
  | error e s' =>
    rw [hx] at hs
    rw [zoom_of_error hx]
    exact (hget s' t).symm ▸ hs

end Along

/-! ## Runs with a condition on the value -/

/-- The run ends in a state related to the one it starts in, and its value, if there is one, meets
the condition. -/
def AlongTo (R : σ → σ → Prop) (P : α → Prop) (x : Exec ε σ α) : Prop :=
  ∀ s, Sat (x s) (fun a s' => R s s' ∧ P a) fun _ s' => R s s'

/-- A run that keeps the relation does so with any value. -/
theorem Along.to {x : Exec ε σ α} (h : Along R x) : AlongTo R (fun _ => True) x :=
  fun s => (h.sat s).mono (fun _ _ hs => ⟨hs, trivial⟩) fun _ _ hs => hs

namespace AlongTo

variable {x : Exec ε σ α} {P Q : α → Prop}

/-- The postcondition of a program that goes along a relation may be weakened. -/
theorem mono (h : AlongTo R P x) (hPQ : ∀ a, P a → Q a) : AlongTo R Q x :=
  fun s => (h s).mono (fun a _ hs => ⟨hs.1, hPQ a hs.2⟩) fun _ _ he => he

variable [IsPreorder σ R]

/-- A value with the postcondition, returned at once. -/
theorem pure {a : α} (h : P a) : AlongTo R P (Pure.pure a : Exec ε σ α) :=
  fun s => sat_ok.2 ⟨refl_of R s, h⟩

/-- A thrown error meets every postcondition on results. -/
theorem throw (e : Fault ε) : AlongTo R P (MonadExcept.throw e : Exec ε σ α) :=
  fun s => sat_error.2 (refl_of R s)

/-- A run that only looks at the state. -/
theorem of_readOnly (h : ReadOnly x) : AlongTo R (fun _ => True) x := by
  refine fun s => (h.sat s).mono (fun _ s' hs => ⟨?_, trivial⟩) fun _ s' hs => ?_
  · rw [hs]
    exact refl_of R s
  · rw [hs]
    exact refl_of R s

/-- In sequence: the second program may use the postcondition of the first. -/
theorem bind {Q : β → Prop} {f : α → Exec ε σ β} (h : AlongTo R P x)
    (hf : ∀ a, P a → AlongTo R Q (f a)) : AlongTo R Q (x >>= f) := by
  refine fun s => Sat.bind ((h s).mono (fun a s₁ hs₁ => ?_) fun _ _ he => he)
  exact ((hf a hs₁.2) s₁).mono (fun _ _ h' => ⟨trans_of R hs₁.1 h'.1, h'.2⟩)
    fun _ _ h' => trans_of R hs₁.1 h'

/-- A run with a condition on its value, before one that is Along under it. -/
theorem bind_along {f : α → Exec ε σ β} (h : AlongTo R P x) (hf : ∀ a, P a → Along R (f a)) :
    Along R (x >>= f) := by
  refine .of_sat fun s => Sat.bind ((h s).mono (fun a s₁ hs₁ => ?_) fun _ _ he => he)
  exact ((hf a hs₁.2).sat s₁).mono (fun _ _ h' => trans_of R hs₁.1 h')
    fun _ _ h' => trans_of R hs₁.1 h'

omit [IsPreorder σ R] in
/-- Along a branch, each side under its own condition. -/
theorem ite {p : Prop} [Decidable p] {y : Exec ε σ α} (hx : p → AlongTo R P x)
    (hy : ¬ p → AlongTo R P y) : AlongTo R P (if p then x else y) :=
  fun s => Sat.ite (fun hp => hx hp s) fun hp => hy hp s

omit [IsPreorder σ R] in
/-- Renaming the errors changes neither the result nor the state. -/
theorem mapErr {f : ε → ε'} (h : AlongTo R P x) : AlongTo R P (Exec.mapErr f x) := by
  intro s
  have hs := h s
  cases hx : x s with
  | ok a s' =>
    rw [mapErr_of_ok hx]
    exact sat_ok.2 (hs.of_ok hx)
  | error e s' =>
    rw [mapErr_of_error hx]
    exact sat_error.2 (hs.of_error hx)

/-- Along a loop whose body is along the relation for the elements of the list. -/
theorem forM {f : β → Exec ε σ PUnit} (l : List β) (h : ∀ b ∈ l, AlongTo R (fun _ => True) (f b)) :
    AlongTo R (fun _ => True) (l.forM f) := by
  induction l with
  | nil => exact fun s => sat_ok.2 ⟨refl_of R s, trivial⟩
  | cons b l ih =>
    refine (h b List.mem_cons_self).bind fun _ _ => ?_
    exact ih fun b' hb' => h b' (List.mem_cons_of_mem b hb')

omit [IsPreorder σ R] in
/-- The rule of errors as values. -/
theorem attempt (h : AlongTo R P x) :
    AlongTo R (fun r => ∀ a, r = .ok a → P a) (Exec.attempt x : Exec ε' σ (Except ε α)) := by
  intro s
  have hs := h s
  unfold Exec.attempt
  cases hx : x s with
  | ok a s' =>
    obtain ⟨hR, ha⟩ := hs.of_ok hx
    refine sat_ok.2 ⟨hR, fun b hb => ?_⟩
    cases hb
    exact ha
  | error e s' =>
    have hR := hs.of_error hx
    cases e with
    | err e => exact sat_ok.2 ⟨hR, nofun⟩
    | panic | outOfBounds | fuel => exact sat_error.2 hR

/-- Along a fold whose step keeps the postcondition of its accumulator. -/
theorem foldlM {f : α → β → Exec ε σ α} (h : ∀ a b, P a → AlongTo R P (f a b)) (l : List β) {a : α}
    (ha : P a) : AlongTo R P (l.foldlM f a) := by
  induction l generalizing a with
  | nil => exact .pure ha
  | cons b l ih =>
    rw [List.foldlM_cons]
    exact (h a b ha).bind fun _ ha' => ih ha'

end AlongTo

/-- What a run with a log does to the state, the run without the log does too. -/
theorem Logs.along {ω : Type} {x : Exec ε σ α} {y : Exec ε (σ × List ω) α} (h : Logs y x)
    (hy : Along (fun t u => R t.1 u.1) y) : Along R x := by
  intro s
  have hs := h (s, [])
  have hr := hy (s, [])
  rw [← hs]
  cases hrun : y (s, []) with
  | ok a t => rwa [hrun] at hr
  | error e t => rwa [hrun] at hr

end Exec
