import Mathlib.Data.Option.Basic
import Mathlib.Data.List.Basic

/-!
# Two runs side by side

Rules for two runs that may stop, in `Option`: from related states they stop both, or end in
related states (`Option.Rel`). The last rule is about one loop: what a turn establishes and every
turn keeps, holds behind the loop.
-/

namespace Pair

variable {α β γ δ ε : Type} {R : α → β → Prop} {Q : γ → δ → Prop} {o : Option α} {o' : Option β}

/-- The rule of sequencing. -/
theorem bind {f : α → Option γ} {g : β → Option δ} (h : Option.Rel R o o')
    (hf : ∀ a b, R a b → Option.Rel Q (f a) (g b)) : Option.Rel Q (o.bind f) (o'.bind g) := by
  cases h with
  | some hab => exact hf _ _ hab
  | none => exact .none

/-- The rule of loops. -/
theorem foldlM {f : α → ε → Option α} {g : β → ε → Option β} {a : α} {b : β} (h : R a b)
    (hf : ∀ a b e, R a b → Option.Rel R (f a e) (g b e)) (l : List ε) :
    Option.Rel R (l.foldlM f a) (l.foldlM g b) := by
  induction l generalizing a b with
  | nil => exact .some h
  | cons e l ih =>
    rw [List.foldlM_cons, List.foldlM_cons]
    exact bind (hf a b e h) fun a' b' h' => ih h'

/-- What one turn of a loop establishes, and every turn keeps. -/
theorem foldl_of_mem {f : α → ε → α} {I P : α → Prop} {l : List ε} {a : α} {e : ε} (ha : I a)
    (he : e ∈ l) (hI : ∀ a e, I a → I (f a e)) (hset : ∀ a, I a → P (f a e))
    (hkeep : ∀ a e, I a → P a → P (f a e)) : P (l.foldl f a) := by
  induction l generalizing a with
  | nil => cases he
  | cons e' l ih =>
    rw [List.foldl_cons]
    rcases List.mem_cons.1 he with rfl | he
    · have hrest : I (l.foldl f (f a e)) ∧ P (l.foldl f (f a e)) :=
        List.foldlRecOn l f (motive := fun a => I a ∧ P a) ⟨hI a e ha, hset a ha⟩
          fun a h e _ => ⟨hI a e h.1, hkeep a e h.1 h.2⟩
      exact hrest.2
    · exact ih (hI a e' ha) he

end Pair
