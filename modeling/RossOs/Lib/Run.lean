import Mathlib.Data.List.Basic

/-!
# Runs of a step function

A system that takes a step for each action of a list. `Guarded` says that every action meets a
condition in the state where it is taken, and `invariant` is the rule for such runs: what an action
keeps that meets the condition, the run keeps.
-/

namespace Run

variable {σ α : Type} (step : σ → α → σ) (ok : σ → α → Prop)

/-- Every action of the run from `s` meets the condition where it is taken. -/
def Guarded : σ → List α → Prop
  | _, [] => True
  | s, a :: l => ok s a ∧ Guarded (step s a) l

instance Guarded.decidable [∀ s a, Decidable (ok s a)] :
    ∀ (s : σ) (l : List α), Decidable (Guarded step ok s l)
  | _, [] => inferInstanceAs (Decidable True)
  | s, a :: l =>
    have := Guarded.decidable (step s a) l
    inferInstanceAs (Decidable (ok s a ∧ Guarded step ok (step s a) l))

variable {step ok} {s : σ} {l : List α}

/-- A condition on the actions alone. -/
theorem guarded_of_forall {ok : α → Prop} (h : ∀ a ∈ l, ok a) : Guarded step (fun _ => ok) s l := by
  induction l generalizing s with
  | nil => trivial
  | cons a l ih => exact ⟨h a List.mem_cons_self, ih fun b hb => h b (List.mem_cons_of_mem _ hb)⟩

/-- The rule of invariants. -/
theorem invariant {I : σ → Prop} (hstep : ∀ s a, I s → ok s a → I (step s a)) (hs : I s)
    (h : Guarded step ok s l) : I (l.foldl step s) := by
  induction l generalizing s with
  | nil => exact hs
  | cons a l ih => exact ih (hstep s a hs h.1) h.2

/-- Two conditions that agree in the states that the first keeps are met by the same runs. -/
theorem guarded_congr {ok' : σ → α → Prop} {I : σ → Prop} (hiff : ∀ s a, I s → (ok s a ↔ ok' s a))
    (hstep : ∀ s a, I s → ok s a → I (step s a)) (hs : I s) :
    Guarded step ok s l ↔ Guarded step ok' s l := by
  induction l generalizing s with
  | nil => exact Iff.rfl
  | cons a l ih =>
    rw [Guarded, Guarded, ← hiff s a hs]
    exact and_congr_right fun ha => ih (hstep s a hs ha)

end Run
