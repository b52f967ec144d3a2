import Mathlib.Logic.Relation

/-!
# Scanners

A scanner goes from a position to the next one, which it computes from the data there, until there
is none. `Throughout` says that a condition holds at every position the scanner comes to; a proof
about the scanner's loop takes it apart with one rule for each way a turn can end.
-/

namespace Scan

variable {α : Type} (next : α → Option α)

/-- The scanner that starts at `a` comes to `b`. -/
def Visits : α → α → Prop := Relation.ReflTransGen fun a b => next a = some b

/-- The condition holds wherever the scanner that starts at `a` comes. -/
def Throughout (P : α → Prop) (a : α) : Prop := ∀ b, Visits next a b → P b

variable {next} {P : α → Prop} {a b : α}

/-- At the last element the property is asked of that element alone. -/
theorem throughout_of_none (h : next a = none) : Throughout next P a ↔ P a := by
  refine ⟨fun hall => hall a .refl, fun ha b hb => ?_⟩
  rcases Relation.ReflTransGen.cases_head_iff.1 hb with rfl | ⟨c, hc, -⟩
  · exact ha
  · cases h.symm.trans hc

/-- Elsewhere it is asked of the element and from the next one on. -/
theorem throughout_of_some (h : next a = some b) :
    Throughout next P a ↔ P a ∧ Throughout next P b := by
  constructor
  · intro hall
    exact ⟨hall a .refl, fun c hc => hall c (.head h hc)⟩
  · intro hab c hc
    rcases Relation.ReflTransGen.cases_head_iff.1 hc with rfl | ⟨d, hd, hdc⟩
    · exact hab.1
    · cases h.symm.trans hd
      exact hab.2 c hdc

end Scan
