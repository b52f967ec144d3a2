import RossOs.Lib.Exec

/-!
# Runs with a log

A log beside the state of a run. `Logs y x` says that `y` is the run `x` with notes in a log:
without the log the outcome is the same. `Notes P Q r` is a postcondition for such a run: every note
meets `P`, and a result meets `Q`.
-/

namespace Exec

variable {ε ε' ω σ τ α β : Type}

/-- The outcome without the log. -/
def Outcome.forget : Outcome ε (σ × List ω) α → Outcome ε σ α
  | .ok a s => .ok a s.1
  | .error e s => .error e s.1

/-- Put a note into the log. -/
def note (w : ω) : Exec ε (σ × List ω) PUnit := modify fun s => (s.1, s.2 ++ [w])

/-- A note appends to the log and leaves the state. -/
theorem note_run (w : ω) (s : σ × List ω) :
    (note w : Exec ε (σ × List ω) PUnit) s = .ok ⟨⟩ (s.1, s.2 ++ [w]) := rfl

/-- A run that puts no note into the log. -/
def quiet (x : Exec ε σ α) : Exec ε (σ × List ω) α := zoom Prod.fst (fun s t => (s, t.2)) x

/-- The run on a part of a larger state, with its log. -/
def zoomLog (get : τ → σ) (set : σ → τ → τ) (y : Exec ε (σ × List ω) α) :
    Exec ε (τ × List ω) α :=
  zoom (fun t => (get t.1, t.2)) (fun s t => (set s.1 t.1, s.2)) y

/-- The run `y` is `x` with a log. -/
def Logs (y : Exec ε (σ × List ω) α) (x : Exec ε σ α) : Prop :=
  ∀ s, Outcome.forget (y s) = x s.1

/-! ## Runs that agree but for the log -/

/-- A quiet call that returns leaves the log. -/
theorem quiet_of_ok {x : Exec ε σ α} {s : σ × List ω} {a : α} {s' : σ} (h : x s.1 = .ok a s') :
    quiet x s = .ok a (s', s.2) :=
  zoom_of_ok h

/-- A quiet call that fails leaves the log. -/
theorem quiet_of_error {x : Exec ε σ α} {s : σ × List ω} {e : Fault ε} {s' : σ}
    (h : x s.1 = .error e s') : quiet x s = .error e (s', s.2) :=
  zoom_of_error h

section
variable {get : τ → σ} {set : σ → τ → τ} {y : Exec ε (σ × List ω) α} {t : τ × List ω}
  {s : σ × List ω}

/-- A logged call on a part of the state that returns: its log is the whole's. -/
theorem zoomLog_of_ok {a : α} (h : y (get t.1, t.2) = .ok a s) :
    zoomLog get set y t = .ok a (set s.1 t.1, s.2) := by
  simp only [zoomLog, zoom, h]

/-- A logged call on a part of the state that fails: its log is the whole's. -/
theorem zoomLog_of_error {e : Fault ε} (h : y (get t.1, t.2) = .error e s) :
    zoomLog get set y t = .error e (set s.1 t.1, s.2) := by
  simp only [zoomLog, zoom, h]

end

section
variable {s : σ × List ω} {Q : α → σ × List ω → Prop} {E : Fault ε → σ × List ω → Prop}

/-- The rule of runs without notes. -/
theorem quiet_sat {x : Exec ε σ α}
    (h : Sat (x s.1) (fun a s' => Q a (s', s.2)) fun e s' => E e (s', s.2)) :
    Sat (quiet x s) Q E := by
  cases hx : x s.1 with
  | ok a s' =>
    rw [quiet_of_ok hx]
    exact sat_ok.2 (h.of_ok hx)
  | error e s' =>
    rw [quiet_of_error hx]
    exact sat_error.2 (h.of_error hx)

/-- The rule of notes. -/
theorem note_sat {w : ω} {y : Exec ε (σ × List ω) α} (h : Sat (y (s.1, s.2 ++ [w])) Q E) :
    Sat ((note w >>= fun _ => y) s) Q E := h

end

namespace Logs

variable {x : Exec ε σ α} {y : Exec ε (σ × List ω) α}

/-- `pure` is its own logged copy. -/
theorem pure (a : α) : Logs (Pure.pure a : Exec ε (σ × List ω) α) (Pure.pure a) := fun _ => rfl

/-- `throw` is its own logged copy. -/
theorem throw (e : Fault ε) : Logs (MonadExcept.throw e : Exec ε (σ × List ω) α)
    (MonadExcept.throw e) := fun _ => rfl

/-- A quiet copy logs nothing and does the same. -/
theorem quiet (x : Exec ε σ α) : Logs (Exec.quiet x : Exec ε (σ × List ω) α) x := by
  intro s
  cases h : x s.1 with
  | ok a s' => rw [quiet_of_ok h]; rfl
  | error e s' => rw [quiet_of_error h]; rfl

/-- Copies in sequence are a copy of the sequence. -/
theorem bind {f : α → Exec ε σ β} {g : α → Exec ε (σ × List ω) β} (h : Logs y x)
    (hf : ∀ a, Logs (g a) (f a)) : Logs (y >>= g) (x >>= f) := by
  intro s
  have hs := h s
  cases hy : y s with
  | ok a s' =>
    rw [hy] at hs
    rw [bind_of_ok hy, bind_of_ok hs.symm]
    exact hf a s'
  | error e s' =>
    rw [hy] at hs
    rw [bind_of_error hy, bind_of_error hs.symm]
    rfl

/-- A note before a copy leaves it a copy. -/
theorem noted (w : ω) (h : Logs y x) : Logs (note w >>= fun _ => y) x := fun s =>
  h (s.1, s.2 ++ [w])

/-- Copies of both sides make a copy of the branch. -/
theorem ite {p : Prop} [Decidable p] {x' : Exec ε σ α} {y' : Exec ε (σ × List ω) α} (h : Logs y x)
    (h' : Logs y' x') : Logs (if p then y else y') (if p then x else x') := by
  split
  · exact h
  · exact h'

/-- Copies of the turns make a copy of the loop. -/
theorem forM {f : β → Exec ε σ PUnit} {g : β → Exec ε (σ × List ω) PUnit} (l : List β)
    (h : ∀ b, Logs (g b) (f b)) : Logs (l.forM g) (l.forM f) := by
  induction l with
  | nil => exact fun _ => rfl
  | cons b l ih => exact bind (h b) fun _ => ih

/-- A copy of a caught call. -/
theorem attempt (h : Logs y x) : Logs (Exec.attempt y : Exec ε' (σ × List ω) (Except ε α))
    (Exec.attempt x) := by
  intro s
  have hs := h s
  cases hy : y s with
  | ok a s' =>
    rw [hy] at hs
    simp only [Exec.attempt, hy, ← hs, Outcome.forget]
  | error e s' =>
    rw [hy] at hs
    cases e <;> simp only [Exec.attempt, hy, ← hs, Outcome.forget]

/-- A copy under renamed errors. -/
theorem mapErr (f : ε → ε') (h : Logs y x) : Logs (Exec.mapErr f y) (Exec.mapErr f x) := by
  intro s
  have hs := h s
  cases hy : y s with
  | ok a s' =>
    rw [hy] at hs
    rw [mapErr_of_ok hy, mapErr_of_ok hs.symm]
    rfl
  | error e s' =>
    rw [hy] at hs
    rw [mapErr_of_error hy, mapErr_of_error hs.symm]
    rfl

/-- A copy of a call on a part of the state. -/
theorem zoom {get : τ → σ} {set : σ → τ → τ} (h : Logs y x) :
    Logs (zoomLog get set y) (Exec.zoom get set x) := by
  intro t
  have hs : _ = x (get t.1) := h (get t.1, t.2)
  cases hy : y (get t.1, t.2) with
  | ok a s' =>
    rw [hy] at hs
    rw [zoomLog_of_ok hy, zoom_of_ok hs.symm]
    rfl
  | error e s' =>
    rw [hy] at hs
    rw [zoomLog_of_error hy, zoom_of_error hs.symm]
    rfl

/-- A postcondition of the run holds of the run with a log. -/
theorem sat {Q : α → σ → Prop} {E : Fault ε → σ → Prop} (h : Logs y x) {s : σ × List ω}
    (hx : Sat (x s.1) Q E) : Sat (y s) (fun a s' => Q a s'.1) fun e s' => E e s'.1 := by
  have hs := h s
  refine ⟨fun hy => ?_, fun hy => ?_⟩
  · rw [hy] at hs
    exact hx.of_ok hs.symm
  · rw [hy] at hs
    exact hx.of_error hs.symm

end Logs

/-! ## What the log holds -/

/-- All notes meet `P`, and a result meets `Q`. -/
def Notes (P : ω → Prop) (Q : α → σ → Prop) (r : Outcome ε (σ × List ω) α) : Prop :=
  Sat r (fun a s => Q a s.1 ∧ ∀ w ∈ s.2, P w) fun _ s => ∀ w ∈ s.2, P w

namespace Notes

variable {P : ω → Prop} {Q Q' : α → σ → Prop} {x : Exec ε σ α} {y : Exec ε (σ × List ω) α}
  {s : σ × List ω}

/-- The postcondition on the result may be weakened. -/
theorem mono {r : Outcome ε (σ × List ω) α} (h : Notes P Q r) (hQ : ∀ a s, Q a s → Q' a s) :
    Notes P Q' r :=
  Sat.mono h (fun _ _ hq => ⟨hQ _ _ hq.1, hq.2⟩) fun _ _ he => he

/-- `pure` adds nothing to the log. -/
theorem pure {a : α} (hs : ∀ w ∈ s.2, P w) (hQ : Q a s.1) :
    Notes P Q ((Pure.pure a : Exec ε (σ × List ω) α) s) := sat_ok.2 ⟨hQ, hs⟩

/-- `throw` adds nothing to the log. -/
theorem throw (e : Fault ε) (hs : ∀ w ∈ s.2, P w) :
    Notes P Q ((MonadExcept.throw e : Exec ε (σ × List ω) α) s) := sat_error.2 hs

/-- A quiet call adds nothing to the log. -/
theorem quiet {E : Fault ε → σ → Prop} (hs : ∀ w ∈ s.2, P w) (h : Sat (x s.1) Q E) :
    Notes P Q (Exec.quiet x s) := by
  cases hx : x s.1 with
  | ok a s' =>
    rw [quiet_of_ok hx]
    exact sat_ok.2 ⟨h.of_ok hx, hs⟩
  | error e s' =>
    rw [quiet_of_error hx]
    exact sat_error.2 hs

/-- Reading the state adds nothing to the log. -/
theorem get (s : σ × List ω) (hs : ∀ w ∈ s.2, P w) : Notes P (fun a s' => a = s.1 ∧ s' = s.1)
    ((Exec.quiet MonadState.get : Exec ε (σ × List ω) σ) s) := sat_ok.2 ⟨⟨rfl, rfl⟩, hs⟩

/-- Mapping the state adds nothing to the log. -/
theorem modify (f : σ → σ) (hs : ∀ w ∈ s.2, P w) : Notes P (fun _ s' => s' = f s.1)
    ((Exec.quiet (modifyGet fun t => (⟨⟩, f t)) : Exec ε (σ × List ω) PUnit) s) :=
  sat_ok.2 ⟨rfl, hs⟩

/-- In sequence: every note of both programs has the property. -/
theorem bind {Q : β → σ → Prop} {g : α → Exec ε (σ × List ω) β} (h : Notes P Q' (y s))
    (hg : ∀ a s', (∀ w ∈ s'.2, P w) → Q' a s'.1 → Notes P Q (g a s')) : Notes P Q ((y >>= g) s) :=
  Sat.bind (Sat.mono h (fun _ _ hq => hg _ _ hq.2 hq.1) fun _ _ he => he)

/-- A note with the property before a program whose notes have it. -/
theorem noted {w : ω} (hw : P w) (hs : ∀ w ∈ s.2, P w)
    (h : ∀ l, (∀ w ∈ l, P w) → Notes P Q (y (s.1, l))) : Notes P Q ((note w >>= fun _ => y) s) := by
  refine h _ fun v hv => ?_
  rcases List.mem_append.1 hv with hv | hv
  · exact hs v hv
  · exact List.mem_singleton.1 hv ▸ hw

/-- The notes of a branch are those of the side taken. -/
theorem ite {p : Prop} [Decidable p] {y' : Exec ε (σ × List ω) α} (h : p → Notes P Q (y s))
    (h' : ¬ p → Notes P Q (y' s)) : Notes P Q ((if p then y else y') s) :=
  Sat.ite h h'

/-- A loop whose turns keep `I`. -/
theorem forM {g : β → Exec ε (σ × List ω) PUnit} {I : σ → Prop} (l : List β)
    (h : ∀ b ∈ l, ∀ s, (∀ w ∈ s.2, P w) → I s.1 → Notes P (fun _ s' => I s') (g b s))
    (hs : ∀ w ∈ s.2, P w) (hI : I s.1) : Notes P (fun _ s' => I s') (l.forM g s) := by
  refine Sat.forM (I := fun s : σ × List ω => I s.1 ∧ ∀ w ∈ s.2, P w) l ?_ s ⟨hI, hs⟩
  intro b hb s hs
  exact h b hb s hs.2 hs.1

/-- Renaming errors adds nothing to the log. -/
theorem mapErr {f : ε → ε'} (h : Notes P Q (y s)) : Notes P Q (Exec.mapErr f y s) := by
  cases hy : y s with
  | ok a s' =>
    rw [mapErr_of_ok hy]
    exact sat_ok.2 (h.of_ok hy)
  | error e s' =>
    rw [mapErr_of_error hy]
    exact sat_error.2 (h.of_error hy)

/-- The notes of a call on a part of the state. -/
theorem zoom {get : τ → σ} {set : σ → τ → τ} {R : α → τ → Prop} {t : τ × List ω}
    (h : Notes P Q (y (get t.1, t.2))) (hR : ∀ a s', Q a s' → R a (set s' t.1)) :
    Notes P R (zoomLog get set y t) := by
  cases hy : y (get t.1, t.2) with
  | ok a s' =>
    rw [zoomLog_of_ok hy]
    exact sat_ok.2 ⟨hR _ _ (h.of_ok hy).1, (h.of_ok hy).2⟩
  | error e s' =>
    rw [zoomLog_of_error hy]
    exact sat_error.2 (h.of_error hy)

/-- A postcondition of the run without the log, and the notes of the run with it. -/
theorem of_sat {E : Fault ε → σ → Prop} (hlog : Logs y x) (h : Notes P Q' (y s))
    (hx : Sat (x s.1) Q E) : Notes P Q (y s) :=
  ⟨fun hy => ⟨(hlog.sat hx).of_ok hy, (h.of_ok hy).2⟩, fun hy => h.of_error hy⟩

/-- The notes where the run ended. -/
theorem state {r : Outcome ε (σ × List ω) α} (h : Notes P Q r) :
    ∀ w ∈ (Outcome.state r).2, P w := by
  cases r with
  | ok a s' => exact (h.of_ok rfl).2
  | error e s' => exact h.of_error rfl

end Notes

end Exec
