import Mathlib.Data.List.Nodup
import Mathlib.Logic.Function.Basic
import RossOs.Lib.Run

/-!
# Starting the application processors

`init` in `ross-kernel/src/smp.rs` on the boot processor, and the application processors it wakes.
For each of them it writes the data block at `0x8F00`, of which only `ap_stack_top` differs from one
to the next, and sends INIT and two start-up IPIs. A processor that was started reads
`ap_stack_top` at any later moment; nothing tells the boot processor that it has.
`stacks_distinct` says what that would have to be for every processor to get its own stack.

The steps are those of a build without debug assertions. `install_trampoline` also writes fields of
the data block at addresses that are not aligned for them (`0x8F22`, `0x8F2A`), and a debug build
panics at the first of these writes, before it wakes any processor.
-/

namespace RossOs

namespace Smp

/-! ## The processors -/

/-- `AP_STACK_SIZE`. -/
def apStackSize : ℕ := 16 * 1024
/-- `MAX_APS`. -/
def maxAps : ℕ := 8

/-- The top of the stack `AP_STACKS[i]`, with the pool at `base`. -/
def stackTop (base i : ℕ) : ℕ := base + i * apStackSize + apStackSize

/-- An application processor: it waits for a start-up IPI, runs the trampoline up to the load of its
stack pointer, or runs on its stack. -/
inductive Ap
  | waiting
  | starting
  | running
deriving DecidableEq, Repr

/-- What the boot processor does next in the loop of `init`. -/
inductive Pc
  /-- Take the next identifier and install the trampoline for it. -/
  | next
  /-- `send_init`. -/
  | sendInit (id : UInt8)
  /-- The first `send_sipi`. -/
  | sendSipi (id : UInt8)
  /-- The second `send_sipi`. -/
  | sendSipiAgain (id : UInt8)
  /-- The loop is over. -/
  | done
deriving DecidableEq, Repr

/-- The boot processor in `init`, the data block and the other processors. -/
structure State where
  /-- The identifiers that `init` has not come to. -/
  ids : List UInt8
  bspId : UInt8
  /-- Where the pool of stacks is. -/
  base : ℕ
  apNum : ℕ
  pc : Pc
  /-- `ap_stack_top` in the data block. -/
  apStackTop : ℕ
  ap : UInt8 → Ap
  /-- The stack tops that processors have loaded, the last one first. -/
  loads : List (UInt8 × ℕ)

/-- `init` is called. -/
def start (ids : List UInt8) (bspId : UInt8) (base block : ℕ) : State :=
  ⟨ids, bspId, base, 0, .next, block, fun _ => .waiting, []⟩

/-- One step of the boot processor. Between the two start-up IPIs a processor that has left the
state in which it waits for one ignores the second. -/
def bsp (s : State) : State :=
  match s.pc with
  | .next =>
    match s.ids with
    | [] => { s with pc := .done }
    | id :: ids =>
      if id = s.bspId then { s with ids := ids }
      else if maxAps ≤ s.apNum then { s with pc := .done }
      else { s with ids := ids, pc := .sendInit id, apStackTop := stackTop s.base s.apNum }
  | .sendInit id => { s with pc := .sendSipi id, ap := Function.update s.ap id .waiting }
  | .sendSipi id =>
    { s with
      pc := .sendSipiAgain id
      ap := if s.ap id = .waiting then Function.update s.ap id .starting else s.ap }
  | .sendSipiAgain id =>
    { s with
      pc := .next
      apNum := s.apNum + 1
      ap := if s.ap id = .waiting then Function.update s.ap id .starting else s.ap }
  | .done => s

/-- `mov rsp, [0x8F08]` on a processor that was started. -/
def loadStack (id : UInt8) (s : State) : State :=
  if s.ap id = .starting then
    { s with ap := Function.update s.ap id .running, loads := (id, s.apStackTop) :: s.loads }
  else s

/-- Who takes a step. -/
inductive Step
  | bsp
  | ap (id : UInt8)
deriving DecidableEq, Repr

/-- One step of the machine. -/
def step (s : State) : Step → State
  | .bsp => bsp s
  | .ap id => loadStack id s

/-- No two processors have loaded the same stack top. -/
def StacksDistinct (s : State) : Prop :=
  ∀ a b top, (a, top) ∈ s.loads → (b, top) ∈ s.loads → a = b

/-- The next step of the boot processor writes the data block: the loop is not over, and the
identifier it takes is not its own. -/
def State.Installs (s : State) : Prop :=
  s.pc = .next ∧ s.apNum < maxAps ∧ ∃ id ∈ s.ids.head?, id ≠ s.bspId

/-- The boot processor does not write the data block while a processor it has started has yet to
read it. -/
def Acknowledged (s : State) : Step → Prop
  | .bsp => s.Installs → ∀ id, s.ap id ≠ .starting
  | .ap _ => True

/-! ## The invariant -/

/-- The stack tops written so far: those of the processors done with, and that of the one the boot
processor is at. -/
def State.issued (s : State) : ℕ :=
  match s.pc with
  | .next | .done => s.apNum
  | .sendInit _ | .sendSipi _ | .sendSipiAgain _ => s.apNum + 1

/-- The data block has a stack top that was written for a processor and that no one has loaded. -/
def Unread (s : State) : Prop :=
  s.apStackTop ∉ s.loads.map Prod.snd ∧ ∃ i < s.issued, s.apStackTop = stackTop s.base i

/-- Each stack top was loaded once at most. Before the boot processor sends the start-up IPI no
processor is under way; after it there is one at most, and it will be the first to read the
block. -/
structure Inv (s : State) : Prop where
  nodup : (s.loads.map Prod.snd).Nodup
  tops : ∀ top ∈ s.loads.map Prod.snd, ∃ i < s.issued, top = stackTop s.base i
  quiet : ∀ id, s.pc = .sendInit id ∨ s.pc = .sendSipi id → (∀ x, s.ap x ≠ .starting) ∧ Unread s
  sent : ∀ id, s.pc = .sendSipiAgain id → s.ap id ≠ .waiting
  only : ∀ x y, s.ap x = .starting → s.ap y = .starting → x = y
  unread : ∀ x, s.ap x = .starting → Unread s

section
variable {s : State}

/-- Two numbers give two stack tops. -/
theorem stackTop_inj {base i j : ℕ} (h : stackTop base i = stackTop base j) : i = j := by
  simp only [stackTop, apStackSize] at h
  omega

/-- What the boot processor does when no data block is written. -/
theorem Inv.of_idle (h : Inv s) {ids : List UInt8} {pc : Pc} (hpc : s.pc = .next)
    (hnext : pc = .next ∨ pc = .done) : Inv { s with ids := ids, pc := pc } := by
  have hissued : ({ s with ids := ids, pc := pc } : State).issued = s.issued := by
    rcases hnext with rfl | rfl <;> simp [State.issued, hpc]
  have hunread : Unread s → Unread { s with ids := ids, pc := pc } := by
    rintro ⟨hout, i, hi, htop⟩
    exact ⟨hout, i, by rwa [hissued], htop⟩
  refine ⟨h.nodup, fun top htop => ?_, fun id hid => ?_, fun id hid => ?_, h.only,
    fun x hx => hunread (h.unread x hx)⟩
  · rw [hissued]
    exact h.tops top htop
  · rcases hnext with rfl | rfl <;> simp at hid
  · rcases hnext with rfl | rfl <;> simp at hid

/-- Writing the data block, when every processor started so far has read it. -/
theorem Inv.install (h : Inv s) {id : UInt8} {ids : List UInt8} (hpc : s.pc = .next)
    (hquiet : ∀ x, s.ap x ≠ .starting) :
    Inv { s with ids := ids, pc := .sendInit id, apStackTop := stackTop s.base s.apNum } := by
  have hissued : s.issued = s.apNum := by simp [State.issued, hpc]
  have hunread :
      Unread { s with ids := ids, pc := .sendInit id, apStackTop := stackTop s.base s.apNum } := by
    refine ⟨fun hmem => ?_, s.apNum, Nat.lt_succ_self _, rfl⟩
    obtain ⟨i, hi, htop⟩ := h.tops _ hmem
    have := stackTop_inj htop
    omega
  refine ⟨h.nodup, fun top htop => ?_, fun _ _ => ⟨hquiet, hunread⟩, fun _ hid => by simp at hid,
    h.only, fun x hx => absurd hx (hquiet x)⟩
  obtain ⟨i, hi, rfl⟩ := h.tops top htop
  exact ⟨i, by simp only [State.issued]; omega, rfl⟩

/-- INIT starts no one. -/
theorem Inv.sendInit (h : Inv s) {id : UInt8} (hpc : s.pc = .sendInit id) :
    Inv { s with pc := .sendSipi id, ap := Function.update s.ap id .waiting } := by
  have hissued : s.issued = s.apNum + 1 := by simp [State.issued, hpc]
  obtain ⟨hquiet, hout, i, hi, htop⟩ := h.quiet id (.inl hpc)
  have hquiet' : ∀ x, Function.update s.ap id .waiting x ≠ .starting := by
    intro x
    rw [Function.update_apply]
    split
    · exact Ap.noConfusion
    · exact hquiet x
  refine ⟨h.nodup, fun top hmem => ?_, fun _ _ => ⟨hquiet', hout, i, by rwa [hissued] at hi, htop⟩,
    fun _ hid => by simp at hid, fun x _ hx => absurd hx (hquiet' x),
    fun x hx => absurd hx (hquiet' x)⟩
  obtain ⟨j, hj, htop⟩ := h.tops top hmem
  exact ⟨j, by rwa [hissued] at hj, htop⟩

/-- The first start-up IPI starts the one processor it is for. -/
theorem Inv.sendSipi (h : Inv s) {id : UInt8} (hpc : s.pc = .sendSipi id) :
    Inv { s with
      pc := .sendSipiAgain id
      ap := if s.ap id = .waiting then Function.update s.ap id .starting else s.ap } := by
  have hissued : s.issued = s.apNum + 1 := by simp [State.issued, hpc]
  obtain ⟨hquiet, hout, i, hi, htop⟩ := h.quiet id (.inr hpc)
  have honly : ∀ x, (if s.ap id = .waiting then Function.update s.ap id .starting else s.ap) x =
      .starting → x = id := by
    intro x hx
    split at hx
    · by_contra hne
      rw [Function.update_of_ne hne] at hx
      exact hquiet x hx
    · exact absurd hx (hquiet x)
  refine ⟨h.nodup, fun top hmem => ?_, fun _ hid => by simp at hid, fun id' hid => ?_,
    fun x y hx hy => (honly x hx).trans (honly y hy).symm,
    fun _ _ => ⟨hout, i, by rwa [hissued] at hi, htop⟩⟩
  · obtain ⟨j, hj, htop⟩ := h.tops top hmem
    exact ⟨j, by rwa [hissued] at hj, htop⟩
  · obtain rfl : id = id' := by simpa using hid
    simp only
    split
    · rw [Function.update_self]
      exact Ap.noConfusion
    case isFalse hne => exact hne

/-- A processor that was started ignores the second start-up IPI. -/
theorem Inv.sendSipiAgain (h : Inv s) {id : UInt8} (hpc : s.pc = .sendSipiAgain id) :
    Inv { s with pc := .next, apNum := s.apNum + 1 } := by
  have hissued : s.issued = s.apNum + 1 := by simp [State.issued, hpc]
  refine ⟨h.nodup, fun top hmem => ?_, fun _ hid => by simp at hid, fun _ hid => by simp at hid,
    h.only, fun x hx => ?_⟩
  · obtain ⟨j, hj, htop⟩ := h.tops top hmem
    exact ⟨j, by rwa [hissued] at hj, htop⟩
  · obtain ⟨hout, i, hi, htop⟩ := h.unread x hx
    exact ⟨hout, i, by rwa [hissued] at hi, htop⟩

/-- A step of the boot processor keeps the invariant, if it waits before it writes the block. -/
theorem Inv.bsp (h : Inv s) (hack : s.Installs → ∀ id, s.ap id ≠ .starting) : Inv (bsp s) := by
  rw [Smp.bsp]
  split
  case h_1 hpc =>
    split
    case h_1 => exact h.of_idle hpc (.inr rfl)
    case h_2 id ids hids =>
      split
      case isTrue => exact hpc ▸ h.of_idle hpc (.inl rfl)
      case isFalse hid =>
        split
        case isTrue => exact h.of_idle hpc (.inr rfl)
        case isFalse hroom =>
          have hinstalls : s.Installs := ⟨hpc, by omega, id, by rw [hids]; rfl, hid⟩
          exact h.install hpc (hack hinstalls)
  case h_2 id hpc => exact h.sendInit hpc
  case h_3 id hpc => exact h.sendSipi hpc
  case h_4 id hpc =>
    rw [if_neg (h.sent id hpc)]
    exact h.sendSipiAgain hpc
  case h_5 => exact h

/-- Loading a stack pointer keeps the invariant. -/
theorem Inv.loadStack (h : Inv s) (id : UInt8) : Inv (loadStack id s) := by
  rw [Smp.loadStack]
  split
  case isTrue hid =>
    obtain ⟨hout, htop⟩ := h.unread id hid
    -- the processor was the only one under way
    have hquiet : ∀ x, Function.update s.ap id .running x ≠ .starting := by
      intro x hx
      rcases eq_or_ne x id with rfl | hne
      · rw [Function.update_self] at hx
        cases hx
      · rw [Function.update_of_ne hne] at hx
        exact hne (h.only x id hx hid)
    refine ⟨List.nodup_cons.2 ⟨hout, h.nodup⟩, fun top hmem => ?_, fun id' hpc => ?_,
      fun id' hpc => ?_, fun x _ hx => absurd hx (hquiet x), fun x hx => absurd hx (hquiet x)⟩
    · rcases List.mem_cons.1 hmem with rfl | hmem
      · exact htop
      · exact h.tops top hmem
    · exact absurd hid ((h.quiet id' hpc).1 id)
    · simp only
      rw [Function.update_apply]
      split
      · exact Ap.noConfusion
      · exact h.sent id' hpc
  case isFalse => exact h

/-- At first no processor has loaded a stack. -/
theorem inv_start (ids : List UInt8) (bspId : UInt8) (base block : ℕ) :
    Inv (start ids bspId base block) := by
  refine ⟨List.nodup_nil, fun _ hmem => absurd hmem List.not_mem_nil, fun id hid => ?_,
    fun id hid => ?_, fun x _ hx => ?_, fun x hx => ?_⟩
  · simp [start] at hid
  · simp [start] at hid
  · cases hx
  · cases hx

/-- A stack top that was loaded once at most was loaded by one processor. -/
theorem Inv.stacksDistinct (h : Inv s) : StacksDistinct s := by
  intro a b top ha hb
  have hpair := List.inj_on_of_nodup_map h.nodup ha hb rfl
  exact congrArg Prod.fst hpair

end

/-- Every processor gets its own stack in every run in which the boot processor waits for the one it
has started before it writes the data block for another. -/
theorem stacks_distinct (ids : List UInt8) (bspId : UInt8) (base block : ℕ) (l : List Step)
    (h : Run.Guarded step Acknowledged (start ids bspId base block) l) :
    StacksDistinct (l.foldl step (start ids bspId base block)) := by
  refine (Run.invariant (I := Inv) (fun s a hs ha => ?_) (inv_start ids bspId base block)
    h).stacksDistinct
  cases a with
  | bsp => exact hs.bsp ha
  | ap id => exact hs.loadStack id

/-- Two processors: the boot processor skips its own identifier before the first one has read the
data block, and leaves the loop before the second one has. -/
theorem stacks_distinct_two :
    StacksDistinct ((List.replicate 5 Step.bsp ++ [Step.ap 1] ++ List.replicate 5 Step.bsp ++
      [Step.ap 2]).foldl step (start [1, 0, 2] 0 0 0)) := by
  have hread : ∀ id : UInt8, (if id = 1 then Ap.running else Ap.waiting) ≠ .starting := by
    intro id
    split <;> exact Ap.noConfusion
  refine stacks_distinct [1, 0, 2] 0 0 0 _ ⟨fun _ _ => Ap.noConfusion, ?_⟩
  simpa [Run.Guarded, Acknowledged, State.Installs, step, bsp, loadStack, start,
    Function.update_apply, maxAps] using hread

/-- The second processor is woken before the first one has read the data block. -/
theorem stacks_shared :
    ¬ StacksDistinct ((List.replicate 8 Step.bsp ++ [Step.ap 1, Step.ap 2]).foldl step
      (start [1, 2] 0 0 0)) := by
  intro h
  have hloads : ((List.replicate 8 Step.bsp ++ [Step.ap 1, Step.ap 2]).foldl step
      (start [1, 2] 0 0 0)).loads = [(2, 32768), (1, 32768)] := by decide
  have := h 1 2 32768 (by rw [hloads]; decide) (by rw [hloads]; decide)
  exact absurd this (by decide)

end Smp

end RossOs
