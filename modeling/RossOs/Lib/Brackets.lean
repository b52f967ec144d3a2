import Mathlib.Data.List.Nodup

/-!
# Programs that take and release locks

The lock operations of a piece of code, in order. `Bracketed held p` says that the code, started
with the locks `held`, takes no lock it holds, releases only locks it holds, and ends with none.
`Returns held p` says that it ends with the locks it started with, and is the notion that composes:
in sequence, in a loop, and inside a lock.
-/

/-- An operation on a lock. -/
inductive LockOp (κ : Type)
  | lock (l : κ)
  | unlock (l : κ)
deriving DecidableEq

namespace LockOp

variable {κ : Type}

/-- The locks that the code takes. -/
def locks (p : List (LockOp κ)) : List κ := p.filterMap fun op => match op with
  | .lock l => some l
  | .unlock _ => none

/-- A lock taken at the head of a program is among the locks it takes. -/
theorem lock_mem_locks {l : κ} {p : List (LockOp κ)} : l ∈ locks (.lock l :: p) :=
  List.mem_cons_self

/-- The locks of the rest of a program are locks of the program. -/
theorem locks_cons_subset {op : LockOp κ} {p : List (LockOp κ)} {l : κ} (h : l ∈ locks p) :
    l ∈ locks (op :: p) := by
  cases op with
  | lock l' => exact List.mem_cons_of_mem _ h
  | unlock l' => exact h

/-- Code that holds `l` while it runs `p`. -/
def holding (l : κ) (p : List (LockOp κ)) : List (LockOp κ) := .lock l :: (p ++ [.unlock l])

/-- A loop of `n` turns. -/
def turns (n : ℕ) (p : List (LockOp κ)) : List (LockOp κ) := (List.replicate n p).flatten

variable [DecidableEq κ]

/-- The code takes and releases its locks properly, and ends with none. -/
def Bracketed : List κ → List (LockOp κ) → Prop
  | held, [] => held = []
  | held, .lock l :: p => l ∉ held ∧ Bracketed (l :: held) p
  | held, .unlock l :: p => l ∈ held ∧ Bracketed (held.erase l) p

/-- The code ends with the locks it started with. -/
def Returns (held : List κ) (p : List (LockOp κ)) : Prop :=
  ∀ q, Bracketed held q → Bracketed held (p ++ q)

section
variable {held : List κ} {p q : List (LockOp κ)} {l : κ}

/-- The empty program gives back what it holds. -/
theorem Returns.nil : Returns held ([] : List (LockOp κ)) := fun _ h => h

/-- Two programs that give back what they take, one after the other. -/
theorem Returns.append (hp : Returns held p) (hq : Returns held q) : Returns held (p ++ q) := by
  intro r hr
  rw [List.append_assoc]
  exact hp _ (hq r hr)

/-- A lock held around a program that gives back what it takes is given back too. -/
theorem Returns.holding (hl : l ∉ held) (hp : Returns (l :: held) p) :
    Returns held (holding l p) := by
  intro r hr
  refine ⟨hl, ?_⟩
  show Bracketed (l :: held) (p ++ [.unlock l] ++ r)
  rw [List.append_assoc]
  refine hp _ ⟨List.mem_cons_self, ?_⟩
  rwa [List.erase_cons_head]

/-- A program repeated gives back what it takes. -/
theorem Returns.turns (n : ℕ) (hp : Returns held p) : Returns held (turns n p) := by
  induction n with
  | zero => exact .nil
  | succ n ih =>
    rw [LockOp.turns, List.replicate_succ, List.flatten_cons]
    exact hp.append ih

/-- A program that runs or is left out gives back what it takes. -/
theorem Returns.ite {b : Bool} (hp : Returns held p) : Returns held (if b then p else []) := by
  cases b with
  | true => exact hp
  | false => exact .nil

/-- Code that starts with no lock and ends so is properly bracketed. -/
theorem Returns.bracketed (h : Returns [] p) : Bracketed [] p := by
  have hnil := h [] rfl
  rwa [List.append_nil] at hnil

end

end LockOp
