import RossOs.Lib.Exec
import RossOs.Lib.Run

/-!
# Serving requests

A server is a run for each request; `run` serves a list of them and keeps the answers. Two servers
over different states that answer each request alike from related states, and are related
afterwards, give the same answers to every list (`run_matches`). The last request may leave the
states related in a weaker sense (`run_matches_last`).
-/

namespace Serve

open Exec

variable {ε σ τ α β : Type}

/-- The answer of a run, with the state it left. -/
def answer : Outcome ε σ β → Except (Fault ε) β × σ
  | .ok b s => (.ok b, s)
  | .error e s => (.error e, s)

/-- The answers to a list of requests, and the state after them. -/
def run (x : α → Exec ε σ β) : σ → List α → List (Except (Fault ε) β) × σ
  | s, [] => ([], s)
  | s, a :: l =>
    let first := answer (x a s)
    let rest := run x first.2 l
    (first.1 :: rest.1, rest.2)

/-- Two outcomes have the same answer and leave related states. -/
def Matches (R : σ → τ → Prop) : Outcome ε σ β → Outcome ε τ β → Prop
  | .ok b s, .ok b' t => b = b' ∧ R s t
  | .error e s, .error e' t => e = e' ∧ R s t
  | _, _ => False

variable {R R' : σ → τ → Prop} {x : α → Exec ε σ β} {y : α → Exec ε τ β} {s : σ} {t : τ}

/-- Two outcomes match when their answers are equal and their states related. -/
theorem matches_iff {p : Outcome ε σ β} {q : Outcome ε τ β} :
    Matches R p q ↔ (answer p).1 = (answer q).1 ∧ R (answer p).2 (answer q).2 := by
  cases p <;> cases q <;> simp [Matches, answer]

/-- The relation between the states may be weakened. -/
theorem Matches.mono {p : Outcome ε σ β} {q : Outcome ε τ β} (h : Matches R p q)
    (hR : ∀ s t, R s t → R' s t) : Matches R' p q := by
  obtain ⟨hanswer, hrel⟩ := matches_iff.1 h
  exact matches_iff.2 ⟨hanswer, hR _ _ hrel⟩

/-- The state of an answer is that of the outcome. -/
theorem answer_state (p : Outcome ε σ β) : (answer p).2 = p.state := by
  cases p <;> rfl

/-- A run over two lists is a run over the first, then over the second. -/
theorem run_append (x : α → Exec ε σ β) (s : σ) (l l' : List α) :
    run x s (l ++ l') =
      ((run x s l).1 ++ (run x (run x s l).2 l').1, (run x (run x s l).2 l').2) := by
  induction l generalizing s with
  | nil => rfl
  | cons a l ih => simp [run, ih]

/-- The rule of simulation: requests that are answered alike, one by one, are answered alike in a
row. -/
theorem run_matches (ok : τ → α → Prop)
    (h : ∀ a s t, R s t → ok t a → Matches R (x a s) (y a t)) {l : List α} (hR : R s t)
    (hok : Run.Guarded (fun t a => (answer (y a t)).2) ok t l) :
    (run x s l).1 = (run y t l).1 ∧ R (run x s l).2 (run y t l).2 := by
  induction l generalizing s t with
  | nil => exact ⟨rfl, hR⟩
  | cons a l ih =>
    obtain ⟨hanswer, hnext⟩ := matches_iff.1 (h a s t hR hok.1)
    obtain ⟨hrest, hlast⟩ := ih hnext hok.2
    refine ⟨?_, hlast⟩
    simp only [run, hanswer, hrest]

/-- The same with one more request at the end. -/
theorem run_matches_last (ok : τ → α → Prop)
    (h : ∀ a s t, R s t → ok t a → Matches R (x a s) (y a t)) {l : List α} (hR : R s t)
    (hok : Run.Guarded (fun t a => (answer (y a t)).2) ok t l) {last : α}
    (hlast : ∀ s t, R s t → Matches R' (x last s) (y last t)) :
    (run x s (l ++ [last])).1 = (run y t (l ++ [last])).1 ∧
      R' (run x s (l ++ [last])).2 (run y t (l ++ [last])).2 := by
  obtain ⟨hanswers, hrel⟩ := run_matches ok h hR hok
  obtain ⟨hanswer, hend⟩ := matches_iff.1 (hlast _ _ hrel)
  rw [run_append, run_append]
  exact ⟨by simp only [run, hanswers, hanswer], hend⟩

end Serve
