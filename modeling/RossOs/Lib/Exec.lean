import Mathlib.Data.List.Basic

/-!
# Runs of imperative code

A run of imperative code takes a state to a result and a state, or stops with a fault in the state
it had reached: an error the code returns, a panic, an access outside a buffer, or the fuel of a
loop that has no bound of its own. `Exec` is that monad (core's `EStateM`, so a fault keeps the
changes made before it), `Sat` a postcondition for both kinds of outcome, and the rules below take
a run apart at its binds. `ReadOnly` runs leave the state alone.
-/

/-- How a run stops without a value. -/
inductive Fault (ε : Type) where
  /-- The code returned the error `e`. -/
  | err (e : ε)
  /-- The code panicked: an arithmetic overflow, a failed `expect`, an index out of range. -/
  | panic
  /-- The code read or wrote outside a buffer, which the language leaves undefined. -/
  | outOfBounds
  /-- A loop without a bound of its own used up its fuel. -/
  | fuel
deriving DecidableEq, Repr

/-- Change the error a fault carries. -/
def Fault.map {ε ε' : Type} (f : ε → ε') : Fault ε → Fault ε'
  | .err e => .err (f e)
  | .panic => .panic
  | .outOfBounds => .outOfBounds
  | .fuel => .fuel

/-- The fault is an error that the code returned. -/
def Fault.IsErr {ε : Type} (e : Fault ε) : Prop := ∃ m, e = .err m

/-- An error that is mapped is still an error, not a panic. -/
theorem Fault.IsErr.map {ε ε' : Type} {e : Fault ε} (h : e.IsErr) (f : ε → ε') :
    (e.map f).IsErr := by
  obtain ⟨m, rfl⟩ := h
  exact ⟨f m, rfl⟩

/-- Runs over states `σ` that return errors `ε`. -/
abbrev Exec (ε σ α : Type) := EStateM (Fault ε) σ α

namespace Exec

variable {ε ε' σ τ α β : Type}

/-- The outcome of a run. -/
abbrev Outcome (ε σ α : Type) := EStateM.Result (Fault ε) σ α

/-- The state in which a run ended, with a value or with a fault. -/
def Outcome.state : Outcome ε σ α → σ
  | .ok _ s => s
  | .error _ s => s

/-- Stop with an error. -/
def fail (e : ε) : Exec ε σ α := throw (.err e)

/-- Stop with a panic. -/
def panic : Exec ε σ α := throw .panic

/-- The run with its errors changed, as `map_err` does. -/
def mapErr (f : ε → ε') (x : Exec ε σ α) : Exec ε' σ α := EStateM.adaptExcept (Fault.map f) x

/-- The run with the error it returns, if any, as a value; other faults still stop it. -/
def attempt (x : Exec ε σ α) : Exec ε' σ (Except ε α) := fun s =>
  match x s with
  | .ok a s => .ok (.ok a) s
  | .error (.err e) s => .ok (.error e) s
  | .error .panic s => .error .panic s
  | .error .outOfBounds s => .error .outOfBounds s
  | .error .fuel s => .error .fuel s

/-- The run on a part of a larger state. -/
def zoom (get : τ → σ) (set : σ → τ → τ) (x : Exec ε σ α) : Exec ε τ α := fun t =>
  match x (get t) with
  | .ok a s => .ok a (set s t)
  | .error e s => .error e (set s t)

/-! ## What a run does in a state -/

/-- `pure` returns its value and leaves the state. -/
@[simp] theorem pure_apply (a : α) (s : σ) : (pure a : Exec ε σ α) s = .ok a s := rfl

/-- `fail` gives its error and leaves the state. -/
@[simp] theorem fail_apply (e : ε) (s : σ) : (fail e : Exec ε σ α) s = .error (.err e) s := rfl

/-- `get` returns the state. -/
@[simp] theorem get_apply (s : σ) : (get : Exec ε σ σ) s = .ok s s := rfl

/-- `modify` maps the state. -/
@[simp] theorem modify_apply (f : σ → σ) (s : σ) :
    (modify f : Exec ε σ PUnit) s = .ok ⟨⟩ (f s) := rfl

/-- A `pure` returns exactly its value, in the state it started from. -/
theorem pure_eq_ok {a b : α} {s s' : σ} :
    (pure a : Exec ε σ α) s = .ok b s' ↔ a = b ∧ s = s' := by
  rw [pure_apply]
  exact ⟨fun h => by injection h with h1 h2; exact ⟨h1, h2⟩, fun h => by rw [h.1, h.2]⟩

/-- A sequence, evaluated: the second program runs where the first one returns. -/
theorem bind_apply (x : Exec ε σ α) (f : α → Exec ε σ β) (s : σ) :
    (x >>= f) s = match x s with
      | .ok a s' => f a s'
      | .error e s' => .error e s' := by
  show EStateM.bind x f s = _
  unfold EStateM.bind
  cases x s <;> rfl

/-- The first step of a sequence returned a value: the rest runs from there. -/
theorem bind_of_ok {x : Exec ε σ α} {f : α → Exec ε σ β} {s s' : σ} {a : α}
    (h : x s = .ok a s') : (x >>= f) s = f a s' := by
  rw [bind_apply, h]

/-- The first step of a sequence stopped: the sequence stops. -/
theorem bind_of_error {x : Exec ε σ α} {f : α → Exec ε σ β} {s s' : σ} {e : Fault ε}
    (h : x s = .error e s') : (x >>= f) s = .error e s' := by
  rw [bind_apply, h]

/-- A sequence that returned a value is two steps that did. -/
theorem bind_eq_ok {x : Exec ε σ α} {f : α → Exec ε σ β} {s s' : σ} {b : β} :
    (x >>= f) s = .ok b s' ↔ ∃ a s₁, x s = .ok a s₁ ∧ f a s₁ = .ok b s' := by
  rw [bind_apply]
  constructor
  · intro h
    cases hx : x s with
    | ok a s₁ => rw [hx] at h; exact ⟨a, s₁, rfl, h⟩
    | error e s₁ => rw [hx] at h; cases h
  · rintro ⟨a, s₁, hx, hf⟩
    rw [hx]; exact hf

/-- One turn of a loop, then the rest. -/
theorem forM_cons (f : β → Exec ε σ PUnit) (b : β) (l : List β) :
    (b :: l).forM f = f b >>= fun _ => l.forM f := rfl

/-- A loop whose turns all return, each changing the state by `g`, folds `g` over the list. -/
theorem forM_run {f : β → Exec ε σ PUnit} {g : σ → β → σ} {P : σ → Prop} {l : List β} {s : σ}
    (h : ∀ b ∈ l, ∀ s, P s → f b s = .ok ⟨⟩ (g s b) ∧ P (g s b)) (hs : P s) :
    l.forM f s = .ok ⟨⟩ (l.foldl g s) := by
  induction l generalizing s with
  | nil => rfl
  | cons b l ih =>
    obtain ⟨hrun, hnext⟩ := h b List.mem_cons_self s hs
    rw [forM_cons, bind_of_ok hrun]
    exact ih (fun b' hb' => h b' (List.mem_cons_of_mem b hb')) hnext

/-- `mapErr` leaves what is returned. -/
theorem mapErr_of_ok {f : ε → ε'} {x : Exec ε σ α} {s s' : σ} {a : α} (h : x s = .ok a s') :
    mapErr f x s = .ok a s' := by
  simp only [mapErr, EStateM.adaptExcept, h]

/-- `mapErr` maps the fault and leaves the state. -/
theorem mapErr_of_error {f : ε → ε'} {x : Exec ε σ α} {s s' : σ} {e : Fault ε}
    (h : x s = .error e s') : mapErr f x s = .error (e.map f) s' := by
  simp only [mapErr, EStateM.adaptExcept, h]

/-- A call returns under `mapErr` exactly as it does without it. -/
theorem mapErr_eq_ok {f : ε → ε'} {x : Exec ε σ α} {s s' : σ} {a : α} :
    mapErr f x s = .ok a s' ↔ x s = .ok a s' := by
  simp only [mapErr, EStateM.adaptExcept]
  cases x s <;> simp

/-- A program on a part of the state that returns changes that part. -/
theorem zoom_of_ok {get : τ → σ} {set : σ → τ → τ} {x : Exec ε σ α} {t : τ} {s : σ} {a : α}
    (h : x (get t) = .ok a s) : zoom get set x t = .ok a (set s t) := by
  simp only [zoom, h]

/-- A program on a part of the state that fails changes that part. -/
theorem zoom_of_error {get : τ → σ} {set : σ → τ → τ} {x : Exec ε σ α} {t : τ} {s : σ}
    {e : Fault ε} (h : x (get t) = .error e s) : zoom get set x t = .error e (set s t) := by
  simp only [zoom, h]

/-! ## Postconditions -/

/-- The outcome satisfies `Q` when it is a value, and `E` when it is a fault. -/
structure Sat (r : Outcome ε σ α) (Q : α → σ → Prop) (E : Fault ε → σ → Prop) : Prop where
  of_ok : ∀ {a : α} {s : σ}, r = .ok a s → Q a s
  of_error : ∀ {e : Fault ε} {s : σ}, r = .error e s → E e s

variable {Q Q' : α → σ → Prop} {E E' : Fault ε → σ → Prop} {s : σ}

/-- A postcondition of an outcome that returned is about its value and state. -/
@[simp] theorem sat_ok {a : α} : Sat (.ok a s) Q E ↔ Q a s := by
  refine ⟨fun h => h.of_ok rfl, fun h => ⟨fun hr => ?_, fun hr => ?_⟩⟩
  · cases hr; exact h
  · cases hr

/-- A postcondition of an outcome that failed is about its fault and state. -/
@[simp] theorem sat_error {e : Fault ε} : Sat (.error e s) Q E ↔ E e s := by
  refine ⟨fun h => h.of_error rfl, fun h => ⟨fun hr => ?_, fun hr => ?_⟩⟩
  · cases hr
  · cases hr; exact h

/-- Both postconditions may be weakened. -/
theorem Sat.mono {r : Outcome ε σ α} (h : Sat r Q E) (hQ : ∀ a s, Q a s → Q' a s)
    (hE : ∀ e s, E e s → E' e s) : Sat r Q' E' :=
  ⟨fun hr => hQ _ _ (h.of_ok hr), fun hr => hE _ _ (h.of_error hr)⟩

/-- Every outcome meets the trivial postconditions. -/
theorem Sat.trivial (r : Outcome ε σ α) : Sat r (fun _ _ => True) fun _ _ => True :=
  ⟨fun _ => True.intro, fun _ => True.intro⟩

/-- The rule of sequencing: the second step is judged in each state the first can leave. -/
theorem Sat.bind {x : Exec ε σ α} {f : α → Exec ε σ β} {Q : β → σ → Prop}
    (h : Sat (x s) (fun a s' => Sat (f a s') Q E) E) : Sat ((x >>= f) s) Q E := by
  cases hx : x s with
  | ok a s' => rw [bind_of_ok hx]; exact h.of_ok hx
  | error e s' => rw [bind_of_error hx]; exact sat_error.2 (h.of_error hx)

/-- The rule of branches. -/
theorem Sat.ite {p : Prop} [Decidable p] {x y : Exec ε σ α} (hx : p → Sat (x s) Q E)
    (hy : ¬ p → Sat (y s) Q E) : Sat ((if p then x else y) s) Q E := by
  split
  case isTrue h => exact hx h
  case isFalse h => exact hy h

/-- The rule of loops over a list: what every turn keeps, the loop keeps. -/
theorem Sat.forM {β : Type} {f : β → Exec ε σ PUnit} {I : σ → Prop} (l : List β)
    (h : ∀ b ∈ l, ∀ s, I s → Sat (f b s) (fun _ s' => I s') E) :
    ∀ s, I s → Sat (l.forM f s) (fun _ s' => I s') E := by
  induction l with
  | nil => exact fun s hs => sat_ok.2 hs
  | cons b l ih =>
    intro s hs
    rw [forM_cons]
    refine Sat.bind ((h b List.mem_cons_self s hs).mono (fun _ s' hs' => ?_) fun _ _ he => he)
    exact ih (fun b' hb' => h b' (List.mem_cons_of_mem b hb')) s' hs'

/-- The rule of counted loops: turn `i` takes the invariant from `i` to `i + 1`. -/
theorem Sat.forM_range {f : ℕ → Exec ε σ PUnit} {I : ℕ → σ → Prop} {n : ℕ}
    (h : ∀ i < n, ∀ s, I i s → Sat (f i s) (fun _ s' => I (i + 1) s') E) (hs : I 0 s) :
    Sat ((List.range n).forM f s) (fun _ s' => I n s') E := by
  have key : ∀ k i s, i + k = n → I i s →
      Sat ((List.range' i k).forM f s) (fun _ s' => I n s') E := by
    intro k
    induction k with
    | zero =>
      rintro i s rfl hi
      exact sat_ok.2 hi
    | succ k ih =>
      intro i s hik hi
      rw [List.range'_succ, forM_cons]
      refine Sat.bind ((h i (by omega) s hi).mono (fun _ s' hs' => ?_) fun _ _ he => he)
      exact ih (i + 1) s' (by omega) hs'
  rw [List.range_eq_range']
  exact key n 0 s (by omega) hs

/-- The rule of errors as values. -/
theorem Sat.attempt {x : Exec ε σ α} {Q : Except ε α → σ → Prop} {P : σ → Prop}
    (h : Sat (x s) (fun a s' => Q (.ok a) s')
      (fun e s' => (∀ e', e = .err e' → Q (.error e') s') ∧ (¬ e.IsErr → P s'))) :
    Sat ((attempt x : Exec ε' σ (Except ε α)) s) Q (fun _ s' => P s') := by
  unfold Exec.attempt
  cases hx : x s with
  | ok a s' => exact sat_ok.2 (h.of_ok hx)
  | error e s' =>
    obtain ⟨hQ, hP⟩ := h.of_error hx
    cases e with
    | err e' => exact sat_ok.2 (hQ e' rfl)
    | panic | outOfBounds | fuel =>
      refine sat_error.2 (hP fun he => ?_)
      obtain ⟨m, hm⟩ := he
      cases hm

/-- A condition on the state alone, met by both kinds of outcome, holds where the run ended. -/
theorem Sat.state {P : σ → Prop} {r : Outcome ε σ α} (h : Sat r (fun _ s => P s) fun _ s => P s) :
    P r.state := by
  cases r with
  | ok a s => exact h.of_ok rfl
  | error e s => exact h.of_error rfl

/-! ## Runs that return, and runs that stop -/

/-- The run returned: a value or an error. -/
def Returns (r : Outcome ε σ α) : Prop := Sat r (fun _ _ => True) fun e _ => e.IsErr

/-- The run stopped: it did not use up the fuel of a loop. -/
def Halts (r : Outcome ε σ α) : Prop := Sat r (fun _ _ => True) fun e _ => e ≠ .fuel

/-- A value returned is a return. -/
theorem returns_ok (a : α) (s : σ) : Returns (.ok a s : Outcome ε σ α) := sat_ok.2 trivial

/-- An error value returned is a return. -/
theorem returns_err (e : ε) (s : σ) : Returns (.error (.err e) s : Outcome ε σ α) :=
  sat_error.2 ⟨e, rfl⟩

/-- A panic halts. -/
theorem halts_panic (s : σ) : Halts (.error .panic s : Outcome ε σ α) :=
  sat_error.2 fun h => by cases h

/-- A call that returns halts. -/
theorem Returns.halts {r : Outcome ε σ α} (h : Returns r) : Halts r :=
  h.mono (fun _ _ _ => trivial) fun e _ he hfuel => by
    obtain ⟨m, hm⟩ := he
    rw [hfuel] at hm
    cases hm

/-- A call that halts does not run out of fuel. -/
theorem Halts.ne_fuel {r : Outcome ε σ α} (h : Halts r) (s : σ) : r ≠ .error .fuel s :=
  fun hr => h.of_error hr rfl

/-- A sequence returns when its first program does and the second does after it. -/
theorem Returns.bind {x : Exec ε σ α} {f : α → Exec ε σ β} (hx : Returns (x s))
    (hf : ∀ a s', x s = .ok a s' → Returns (f a s')) : Returns ((x >>= f) s) :=
  Sat.bind ⟨fun hr => hf _ _ hr, hx.of_error⟩

/-- A sequence halts when its first program does and the second does after it. -/
theorem Halts.bind {x : Exec ε σ α} {f : α → Exec ε σ β} (hx : Halts (x s))
    (hf : ∀ a s', Halts (f a s')) : Halts ((x >>= f) s) :=
  Sat.bind ⟨fun _ => hf _ _, hx.of_error⟩

/-- Renaming the errors of a call that returns leaves it returning. -/
theorem Returns.mapErr {f : ε → ε'} {x : Exec ε σ α} (h : Returns (x s)) :
    Returns (mapErr f x s) := by
  cases hx : x s with
  | ok a s' => rw [mapErr_of_ok hx]; exact returns_ok a s'
  | error e s' =>
    rw [mapErr_of_error hx]
    exact sat_error.2 ((h.of_error hx).map f)

/-- Renaming the errors of a call that halts leaves it halting. -/
theorem Halts.mapErr {f : ε → ε'} {x : Exec ε σ α} (h : Halts (x s)) : Halts (mapErr f x s) := by
  cases hx : x s with
  | ok a s' => rw [mapErr_of_ok hx]; exact sat_ok.2 trivial
  | error e s' =>
    rw [mapErr_of_error hx, Halts, sat_error]
    have he := h.of_error hx
    cases e with
    | fuel => exact absurd rfl he
    | err _ | panic | outOfBounds => exact fun h => by cases h

/-- A call that halts on a part of the state halts on the whole. -/
theorem Halts.zoom {get : τ → σ} {set : σ → τ → τ} {x : Exec ε σ α} {t : τ}
    (h : Halts (x (get t))) :
    Halts (zoom get set x t) := by
  cases hx : x (get t) with
  | ok a s' => rw [zoom_of_ok hx]; exact sat_ok.2 trivial
  | error e s' => rw [zoom_of_error hx]; exact sat_error.2 (h.of_error hx)

/-! ## Runs that change nothing -/

/-- The run leaves the state as it is, however it ends. -/
def ReadOnly (x : Exec ε σ α) : Prop := ∀ s, Outcome.state (x s) = s

namespace ReadOnly

/-- Returning a value reads only. -/
theorem pure (a : α) : ReadOnly (Pure.pure a : Exec ε σ α) := fun _ => rfl

/-- Throwing a fault reads only. -/
theorem throw (e : Fault ε) : ReadOnly (MonadExcept.throw e : Exec ε σ α) := fun _ => rfl

/-- Reading the state reads only. -/
theorem get : ReadOnly (MonadState.get : Exec ε σ σ) := fun _ => rfl

/-- A sequence of programs that read only reads only. -/
theorem bind {x : Exec ε σ α} {f : α → Exec ε σ β} (hx : ReadOnly x) (hf : ∀ a, ReadOnly (f a)) :
    ReadOnly (x >>= f) := by
  intro s
  have hs := hx s
  cases h : x s with
  | ok a s' =>
    obtain rfl : s' = s := by rwa [h] at hs
    rw [bind_of_ok h]
    exact hf a s'
  | error e s' =>
    obtain rfl : s' = s := by rwa [h] at hs
    rw [bind_of_error h]
    rfl

/-- A branch between programs that read only reads only. -/
theorem ite {p : Prop} [Decidable p] {x y : Exec ε σ α} (hx : ReadOnly x) (hy : ReadOnly y) :
    ReadOnly (if p then x else y) := by
  split
  · exact hx
  · exact hy

/-- Renaming errors changes no state. -/
theorem mapErr {f : ε → ε'} {x : Exec ε σ α} (hx : ReadOnly x) : ReadOnly (Exec.mapErr f x) := by
  intro s
  have hs := hx s
  cases h : x s with
  | ok a s' =>
    rw [h] at hs
    rwa [mapErr_of_ok h]
  | error e s' =>
    rw [h] at hs
    rwa [mapErr_of_error h]

/-- A fold whose step reads only reads only. -/
theorem foldlM {f : α → β → Exec ε σ α} (h : ∀ a b, ReadOnly (f a b)) (l : List β) (a : α) :
    ReadOnly (l.foldlM f a) := by
  induction l generalizing a with
  | nil => exact pure a
  | cons b l ih =>
    rw [List.foldlM_cons]
    exact bind (h a b) ih

/-- A program that reads only returns in the state it started from. -/
theorem state_eq {x : Exec ε σ α} (hx : ReadOnly x) {s s' : σ} {a : α} (h : x s = .ok a s') :
    s' = s := by
  have hs := hx s
  rwa [h] at hs

/-- Whatever its outcome, a program that reads only leaves the state. -/
theorem sat {x : Exec ε σ α} (hx : ReadOnly x) (s : σ) :
    Sat (x s) (fun _ s' => s' = s) fun _ s' => s' = s := by
  have hs := hx s
  refine ⟨fun h => hx.state_eq h, fun h => ?_⟩
  rwa [h] at hs

/-- The run's outcome is a value or a fault, in the same state. -/
theorem outcome {x : Exec ε σ α} (hx : ReadOnly x) (s : σ) :
    (∃ a, x s = .ok a s) ∨ ∃ e, x s = .error e s := by
  have hs := hx s
  cases h : x s with
  | ok a s' =>
    obtain rfl : s' = s := by rwa [h] at hs
    exact .inl ⟨a, rfl⟩
  | error e s' =>
    obtain rfl : s' = s := by rwa [h] at hs
    exact .inr ⟨e, rfl⟩

end ReadOnly

end Exec
