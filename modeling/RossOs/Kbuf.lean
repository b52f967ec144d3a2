import Mathlib.Data.List.Infix
import Mathlib.Logic.Function.Basic
import RossOs.Lib.Run

/-!
# The keyboard buffer

The ring buffer of `ross-kernel/src/kbuf.rs`. `push` and `pop` are taken apart into their atomic
steps: the two loads of the indices, the access to the buffer, and the store of the own index. The
items of the buffer are of any type, so that two presses of one key can be told apart. `Inv` is the
invariant for one producer and one consumer whose steps come in any order, and `ring_law` what it
means for the buffer. The system call `sys_read` is a second consumer: `delivered_once` says when
it does no harm, and `delivered_twice` shows the harm.
-/

namespace RossOs

namespace Kbuf

/-- `BUF_SIZE`. -/
def bufSize : ℕ := 256

variable {α : Type}

/-! ## The steps of `push` and `pop` -/

/-- Where a `push` is: before it, after the load of `HEAD`, after the test of `TAIL`, after the
store into the buffer. -/
inductive Producer (α : Type)
  | idle
  | loaded (byte : α) (head : ℕ)
  | checked (byte : α) (head : ℕ)
  | stored (byte : α) (head : ℕ)
deriving DecidableEq

/-- Where a `pop` is: before it, after the load of `TAIL`, after the test of `HEAD`, after the load
from the buffer. -/
inductive Consumer (α : Type)
  | idle
  | loaded (tail : ℕ)
  | checked (tail : ℕ)
  | taken (tail : ℕ) (byte : α)
deriving DecidableEq

/-- `BUFFER`, `HEAD` and `TAIL`, with the running calls, and what was accepted and popped so far. -/
structure State (α : Type) where
  buffer : ℕ → α
  head : ℕ
  tail : ℕ
  producer : Producer α
  consumer : Consumer α
  accepted : List α
  popped : List α

/-- The start, for any bytes in the buffer. -/
def State.start (buffer : ℕ → α) : State α := ⟨buffer, 0, 0, .idle, .idle, [], []⟩

/-- The next step of the producer; when it is idle, the first one of `push(byte)`. -/
def pushStep (byte : α) (s : State α) : State α :=
  match s.producer with
  | .idle => { s with producer := .loaded byte s.head }
  | .loaded byte head =>
    if (head + 1) % bufSize ≠ s.tail then { s with producer := .checked byte head }
    else { s with producer := .idle }
  | .checked byte head =>
    { s with
      buffer := Function.update s.buffer head byte
      producer := .stored byte head }
  | .stored byte head =>
    { s with
      head := (head + 1) % bufSize
      producer := .idle
      accepted := s.accepted ++ [byte] }

/-- The next step of the consumer; when it is idle, the first one of `pop()`. -/
def popStep (s : State α) : State α :=
  match s.consumer with
  | .idle => { s with consumer := .loaded s.tail }
  | .loaded tail =>
    if tail = s.head then { s with consumer := .idle } else { s with consumer := .checked tail }
  | .checked tail => { s with consumer := .taken tail (s.buffer tail) }
  | .taken tail byte =>
    { s with
      tail := (tail + 1) % bufSize
      consumer := .idle
      popped := s.popped ++ [byte] }

/-- The push under way drops its byte when it reads `TAIL` now. -/
def Drops (s : State α) : Prop := ∃ byte head, s.producer = .loaded byte head ∧
  ¬ (head + 1) % bufSize ≠ s.tail

/-- The pop under way returns `None` when it reads `HEAD` now. -/
def ReturnsNone (s : State α) : Prop := ∃ tail, s.consumer = .loaded tail ∧ tail = s.head

/-- What the buffer holds, from `TAIL` on up to `HEAD`. -/
def contents (s : State α) : List α :=
  (List.range ((s.head + bufSize - s.tail) % bufSize)).map fun i =>
    s.buffer ((s.tail + i) % bufSize)

/-- Whose turn it is. -/
inductive Turn (α : Type)
  | producer (byte : α)
  | consumer

/-- One step of one side. -/
def Turn.run : Turn α → State α → State α
  | .producer byte, s => pushStep byte s
  | .consumer, s => popStep s

/-- The two sides in the order of the turns. -/
def run (buffer : ℕ → α) (turns : List (Turn α)) : State α :=
  turns.foldl (fun s t => t.run s) (.start buffer)

/-! ## The invariant -/

/-- What a running push knows: `HEAD` is its own, and there was room, which stays. -/
def Producer.Ok (p : Producer α) (s : State α) : Prop :=
  match p with
  | .idle => True
  | .loaded _ head => head = s.head
  | .checked _ head => head = s.head ∧ s.accepted.length < s.popped.length + 255
  | .stored byte head => head = s.head ∧ s.accepted.length < s.popped.length + 255 ∧
    s.buffer head = byte

/-- What a running pop knows: `TAIL` is its own, and there was a byte, which stays. -/
def Consumer.Ok (c : Consumer α) (s : State α) : Prop :=
  match c with
  | .idle => True
  | .loaded tail => tail = s.tail
  | .checked tail => tail = s.tail ∧ s.popped.length < s.accepted.length
  | .taken tail byte => tail = s.tail ∧ s.accepted[s.popped.length]? = some byte

/-- The invariant. The indices count the accepted and the popped bytes, modulo the size, and every
byte between them is in its cell. -/
structure Inv (s : State α) : Prop where
  head : s.head = s.accepted.length % bufSize
  tail : s.tail = s.popped.length % bufSize
  order : s.popped <+: s.accepted
  room : s.accepted.length ≤ s.popped.length + 255
  cells : ∀ k, s.popped.length ≤ k → k < s.accepted.length →
    s.accepted[k]? = some (s.buffer (k % bufSize))
  producer : s.producer.Ok s
  consumer : s.consumer.Ok s

section
variable {s : State α}

/-- The ring is empty at first. -/
theorem Inv.start (buffer : ℕ → α) : Inv (.start buffer) :=
  ⟨rfl, rfl, List.prefix_refl _, Nat.zero_le _, fun k _ hk => absurd hk (Nat.not_lt_zero k),
    trivial, trivial⟩

/-- One more accepted byte does not matter to a running pop. -/
theorem Consumer.Ok.accept {c : Consumer α} {s' : State α} {byte : α} (h : c.Ok s)
    (htail : s'.tail = s.tail) (hpopped : s'.popped = s.popped)
    (haccepted : s'.accepted = s.accepted ++ [byte]) : c.Ok s' := by
  cases c with
  | idle => trivial
  | loaded tail => exact Eq.trans h htail.symm
  | checked tail =>
    refine ⟨h.1.trans htail.symm, ?_⟩
    rw [hpopped, haccepted, List.length_append]
    exact Nat.lt_add_right _ h.2
  | taken tail b =>
    have hlt := (List.getElem?_eq_some_iff.1 h.2).1
    refine ⟨h.1.trans htail.symm, ?_⟩
    rw [hpopped, haccepted, List.getElem?_append_left hlt]
    exact h.2

/-- One more popped byte does not matter to a running push. -/
theorem Producer.Ok.take {p : Producer α} {s' : State α} {byte : α} (h : p.Ok s)
    (hhead : s'.head = s.head) (hbuffer : s'.buffer = s.buffer)
    (haccepted : s'.accepted = s.accepted) (hpopped : s'.popped = s.popped ++ [byte]) :
    p.Ok s' := by
  have hroom : s.accepted.length < s.popped.length + 255 →
      s'.accepted.length < s'.popped.length + 255 := by
    rw [haccepted, hpopped, List.length_append, List.length_singleton]
    omega
  cases p with
  | idle => trivial
  | loaded b head => exact Eq.trans h hhead.symm
  | checked b head => exact ⟨h.1.trans hhead.symm, hroom h.2⟩
  | stored b head =>
    refine ⟨h.1.trans hhead.symm, hroom h.2.1, ?_⟩
    rw [hbuffer]
    exact h.2.2

/-- Making the stored byte visible: the last step of a push. -/
theorem Inv.accept (h : Inv s) {byte : α} (hroom : s.accepted.length < s.popped.length + 255)
    (hcell : s.buffer s.head = byte) :
    Inv { s with
      head := (s.head + 1) % bufSize
      producer := .idle
      accepted := s.accepted ++ [byte] } := by
  have hhead : s.head = s.accepted.length % 256 := h.head
  have hlen : (s.accepted ++ [byte]).length = s.accepted.length + 1 := by
    rw [List.length_append, List.length_singleton]
  refine ⟨?_, h.tail, h.order.trans (List.prefix_append _ _), ?_, fun k hk hk' => ?_, trivial,
    h.consumer.accept rfl rfl rfl⟩
  · show (s.head + 1) % 256 = (s.accepted ++ [byte]).length % 256
    rw [hhead, hlen]
    omega
  · show (s.accepted ++ [byte]).length ≤ s.popped.length + 255
    rw [hlen]
    omega
  · have hk' : k < (s.accepted ++ [byte]).length := hk'
    rw [hlen] at hk'
    show (s.accepted ++ [byte])[k]? = some (s.buffer (k % bufSize))
    rcases Nat.lt_or_ge k s.accepted.length with hlt | hge
    · rw [List.getElem?_append_left hlt]
      exact h.cells k hk hlt
    · obtain rfl : k = s.accepted.length := by omega
      rw [List.getElem?_concat_length, ← h.head, hcell]

/-- A step of `push` keeps the invariant. -/
theorem Inv.pushStep (h : Inv s) (byte : α) : Inv (pushStep byte s) := by
  have hlen := h.order.length_le
  have hprod := h.producer
  have hhead : s.head = s.accepted.length % 256 := h.head
  have htail : s.tail = s.popped.length % 256 := h.tail
  rw [Kbuf.pushStep]
  cases hp : s.producer with
  | idle => exact { h with producer := rfl }
  | loaded b head =>
    rw [hp] at hprod
    simp only
    split
    case isTrue hne =>
      refine { h with producer := ⟨hprod, ?_⟩ }
      have hroom := h.room
      have hne' : (head + 1) % 256 ≠ s.tail := hne
      rw [show head = s.head from hprod] at hne'
      show s.accepted.length < s.popped.length + 255
      omega
    case isFalse => exact { h with producer := trivial }
  | checked b head =>
    rw [hp] at hprod
    obtain ⟨hhd, hroom⟩ := hprod
    refine { h with
      cells := fun k hk hk' => ?_
      producer := ⟨hhd, hroom, Function.update_self ..⟩ }
    -- the cell written is not one of those between the indices
    have hne : k % bufSize ≠ head := by
      rw [hhd, hhead]
      show k % 256 ≠ s.accepted.length % 256
      have hk1 : s.popped.length ≤ k := hk
      have hk2 : k < s.accepted.length := hk'
      omega
    simp only
    rw [Function.update_of_ne hne]
    exact h.cells k hk hk'
  | stored b head =>
    rw [hp] at hprod
    obtain ⟨rfl, hroom, hcell⟩ := hprod
    exact h.accept hroom hcell

/-- Taking the next byte: what both consumers do in the end. -/
theorem Inv.take (h : Inv s) {byte : α} (hbyte : s.accepted[s.popped.length]? = some byte) :
    Inv { s with
      tail := (s.tail + 1) % bufSize
      consumer := .idle
      popped := s.popped ++ [byte] } := by
  have hlt := (List.getElem?_eq_some_iff.1 hbyte).1
  have htail : s.tail = s.popped.length % 256 := h.tail
  have hlen : (s.popped ++ [byte]).length = s.popped.length + 1 := by
    rw [List.length_append, List.length_singleton]
  refine ⟨h.head, ?_, ?_, ?_, fun k hk hk' => ?_, h.producer.take rfl rfl rfl rfl, trivial⟩
  · show (s.tail + 1) % 256 = (s.popped ++ [byte]).length % 256
    rw [hlen, htail]
    omega
  · obtain ⟨rest, hrest⟩ := h.order
    have hhead : rest.head? = some byte := by
      rw [← hrest, List.getElem?_append_right le_rfl, Nat.sub_self] at hbyte
      rwa [List.head?_eq_getElem?]
    obtain ⟨rest', rfl⟩ := List.head?_eq_some_iff.1 hhead
    exact ⟨rest', by rw [List.append_assoc, List.singleton_append, hrest]⟩
  · have hroom := h.room
    show s.accepted.length ≤ (s.popped ++ [byte]).length + 255
    rw [hlen]
    omega
  · have hk : (s.popped ++ [byte]).length ≤ k := hk
    rw [hlen] at hk
    exact h.cells k (by omega) hk'

/-- A byte is pending when the indices differ. -/
theorem Inv.lt_of_ne (h : Inv s) (hne : s.tail ≠ s.head) : s.popped.length < s.accepted.length := by
  have hlen := h.order.length_le
  have hhead : s.head = s.accepted.length % 256 := h.head
  have htail : s.tail = s.popped.length % 256 := h.tail
  rcases Nat.lt_or_eq_of_le hlen with hlt | heq
  · exact hlt
  · rw [hhead, htail, heq] at hne
    exact absurd rfl hne

/-- The byte in the cell of `TAIL` is the next one. -/
theorem Inv.getElem?_tail (h : Inv s) (hlt : s.popped.length < s.accepted.length) :
    s.accepted[s.popped.length]? = some (s.buffer s.tail) := by
  rw [h.cells _ le_rfl hlt, h.tail]

/-- A step of `pop` keeps the invariant. -/
theorem Inv.popStep (h : Inv s) : Inv (popStep s) := by
  have hcons := h.consumer
  rw [Kbuf.popStep]
  cases hc : s.consumer with
  | idle => exact { h with consumer := rfl }
  | loaded tail =>
    rw [hc] at hcons
    simp only
    split
    case isTrue => exact { h with consumer := trivial }
    case isFalse hne =>
      refine { h with consumer := ⟨hcons, h.lt_of_ne fun he => hne ?_⟩ }
      rw [← he]
      exact hcons
  | checked tail =>
    rw [hc] at hcons
    refine { h with consumer := ⟨hcons.1, ?_⟩ }
    rw [hcons.1]
    exact h.getElem?_tail hcons.2
  | taken tail byte =>
    rw [hc] at hcons
    have htake := h.take hcons.2
    rw [← hcons.1] at htake
    exact htake

/-- The invariant holds after every run. -/
theorem Inv.run (buffer : ℕ → α) (turns : List (Turn α)) : Inv (run buffer turns) := by
  induction turns using List.reverseRecOn with
  | nil => exact .start buffer
  | append_singleton turns t ih =>
    have hstep : Kbuf.run buffer (turns ++ [t]) = t.run (Kbuf.run buffer turns) :=
      List.foldl_concat ..
    rw [hstep]
    cases t with
    | producer byte => exact ih.pushStep byte
    | consumer => exact ih.popStep

/-- The buffer holds the accepted bytes that were not popped. -/
theorem Inv.contents_eq (h : Inv s) : contents s = s.accepted.drop s.popped.length := by
  have hlen := h.order.length_le
  have hroom := h.room
  have hhead : s.head = s.accepted.length % 256 := h.head
  have htail : s.tail = s.popped.length % 256 := h.tail
  have hcount : (s.head + bufSize - s.tail) % bufSize =
      s.accepted.length - s.popped.length := by
    show (s.head + 256 - s.tail) % 256 = _
    omega
  rw [contents, hcount]
  refine List.ext_getElem? fun i => ?_
  rcases Nat.lt_or_ge i (s.accepted.length - s.popped.length) with hi | hi
  · have hcell : (s.tail + i) % bufSize = (s.popped.length + i) % bufSize := by
      show (s.tail + i) % 256 = (s.popped.length + i) % 256
      omega
    rw [List.getElem?_map, List.getElem?_range hi, List.getElem?_drop,
      h.cells _ (Nat.le_add_right _ _) (by omega), Option.map_some, hcell]
  · rw [List.getElem?_eq_none (by simpa using hi), List.getElem?_eq_none (by simpa using hi)]

end

/-- What holds of the buffer at any time: the popped bytes are the first of the accepted ones, in
order, the others are in the buffer, and there are at most 255 of them. A push drops its byte only
when there are that many, and a pop returns `None` only when there are none. -/
structure RingLaw (s : State α) : Prop where
  popped : s.popped <+: s.accepted
  accepted : s.accepted = s.popped ++ contents s
  bounded : (contents s).length ≤ 255
  drops : Drops s → (contents s).length = 255
  none : ReturnsNone s → contents s = []

/-- The law of the ring buffer, for every order of the steps of one producer and one consumer. -/
theorem ring_law (buffer : ℕ → α) (turns : List (Turn α)) : RingLaw (run buffer turns) := by
  have h := Inv.run buffer turns
  generalize run buffer turns = s at h
  have hlen := h.order.length_le
  have hroom := h.room
  have hhead : s.head = s.accepted.length % 256 := h.head
  have htail : s.tail = s.popped.length % 256 := h.tail
  have hcontents : (contents s).length = s.accepted.length - s.popped.length := by
    rw [h.contents_eq, List.length_drop]
  refine ⟨h.order, ?_, by omega, ?_, ?_⟩
  · rw [h.contents_eq]
    conv_rhs => rw [List.prefix_iff_eq_take.1 h.order, List.length_take_of_le hlen]
    exact (List.take_append_drop _ _).symm
  · rintro ⟨byte, head, hp, hfull⟩
    have hprod := h.producer
    rw [hp] at hprod
    have hfull' : (head + 1) % 256 = s.tail := not_not.1 hfull
    rw [show head = s.head from hprod] at hfull'
    omega
  · rintro ⟨tail, hc, heq⟩
    have hcons := h.consumer
    rw [hc] at hcons
    have heq' : s.tail = s.head := (show tail = s.tail from hcons).symm.trans heq
    exact List.eq_nil_of_length_eq_zero (by omega)

/-! ## The second consumer -/

/-- A whole `pop` inside `sys_read`, which no step of the others comes between, since interrupts are
masked. -/
def sysPop (s : State α) : State α :=
  if s.tail = s.head then s
  else
    { s with
      tail := (s.tail + 1) % bufSize
      popped := s.popped ++ [s.buffer s.tail] }

/-- A step of the system: of the interrupt handler that pushes, of the main loop that pops and can
be preempted at any time, or a pop of a user task in `sys_read`. -/
inductive Action (α : Type)
  | turn (t : Turn α)
  | sysPop

/-- One step. -/
def State.act (s : State α) : Action α → State α
  | .turn t => t.run s
  | .sysPop => sysPop s

/-- No pop of a user task takes a byte while the main loop is inside a pop. -/
def Undisturbed (s : State α) : Action α → Prop
  | .turn _ => True
  | .sysPop => s.consumer = .idle ∨ s.tail = s.head

instance [DecidableEq α] (s : State α) : ∀ a : Action α, Decidable (Undisturbed s a)
  | .turn _ => inferInstanceAs (Decidable True)
  | .sysPop => inferInstanceAs (Decidable (s.consumer = .idle ∨ s.tail = s.head))

/-- The state after a run. -/
def after (buffer : ℕ → α) (actions : List (Action α)) : State α :=
  actions.foldl State.act (.start buffer)

/-- No byte was returned more often than it was accepted. -/
def DeliveredOnce [BEq α] (s : State α) : Prop := ∀ a, s.popped.count a ≤ s.accepted.count a

/-- `TAIL` stays or moves on by one. -/
def TailAdvances (s s' : State α) : Prop := s'.tail = s.tail ∨ s'.tail = (s.tail + 1) % bufSize

section
variable {s : State α}

/-- So does a pop by a system call, while the main loop does not pop or the ring is empty. -/
theorem Inv.sysPop (h : Inv s) (hfree : s.consumer = .idle ∨ s.tail = s.head) :
    Inv (sysPop s) := by
  rw [Kbuf.sysPop]
  split
  case isTrue => exact h
  case isFalse hne =>
    have hidle := hfree.resolve_right hne
    have htake := h.take (h.getElem?_tail (h.lt_of_ne hne))
    rwa [← hidle] at htake

/-- Every action moves the tail by one byte at most. -/
theorem Inv.tailAdvances (h : Inv s) (a : Action α) : TailAdvances s (s.act a) := by
  cases a with
  | turn t =>
    cases t with
    | producer byte =>
      left
      show (Kbuf.pushStep byte s).tail = s.tail
      rw [Kbuf.pushStep]
      cases s.producer with
      | loaded =>
        simp only
        split <;> rfl
      | idle | checked | stored => rfl
    | consumer =>
      have hcons := h.consumer
      show (Kbuf.popStep s).tail = s.tail ∨ (Kbuf.popStep s).tail = (s.tail + 1) % bufSize
      rw [Kbuf.popStep]
      cases hc : s.consumer with
      | loaded =>
        simp only
        split <;> exact .inl rfl
      | idle | checked => exact .inl rfl
      | taken tail byte =>
        rw [hc] at hcons
        right
        simp only
        rw [hcons.1]
  | sysPop =>
    show (Kbuf.sysPop s).tail = s.tail ∨ (Kbuf.sysPop s).tail = (s.tail + 1) % bufSize
    rw [Kbuf.sysPop]
    split
    · exact .inl rfl
    · exact .inr rfl

end

/-- Every undisturbed action keeps the invariant. -/
theorem Inv.action {s : State α} (h : Inv s) {a : Action α} (ha : Undisturbed s a) :
    Inv (s.act a) := by
  cases a with
  | turn t =>
    cases t with
    | producer byte => exact h.pushStep byte
    | consumer => exact h.popStep
  | sysPop => exact h.sysPop ha

/-- Without disturbance each byte is delivered at most once, and `TAIL` never moves back. -/
theorem delivered_once [BEq α] (buffer : ℕ → α) (actions : List (Action α))
    (h : Run.Guarded State.act Undisturbed (.start buffer) actions) :
    DeliveredOnce (after buffer actions) ∧
      ∀ a, TailAdvances (after buffer actions) ((after buffer actions).act a) := by
  have hinv : Inv (after buffer actions) :=
    Run.invariant (I := Inv) (fun _ _ hs ha => hs.action ha) (.start buffer) h
  exact ⟨fun a => hinv.order.sublist.count_le a, hinv.tailAdvances⟩

/-- One key press, which a user task reads before the main loop looks. -/
theorem delivered_once_one_press : DeliveredOnce (after (fun _ => 0)
    [.turn (.producer 7), .turn (.producer 7), .turn (.producer 7), .turn (.producer 7),
      .sysPop, .turn .consumer]) :=
  (delivered_once (fun _ => 0) _ (by decide)).1

/-- The main loop has read a byte when the timer preempts it; a user task pops the byte, and the
main loop returns it once more. When the user task has popped two bytes, `TAIL` moves back. -/
theorem delivered_twice : ¬ DeliveredOnce (after (fun _ => 0)
    [.turn (.producer 7), .turn (.producer 7), .turn (.producer 7), .turn (.producer 7),
      .turn .consumer, .turn .consumer, .turn .consumer, .sysPop, .turn .consumer]) ∧
    ¬ TailAdvances
      (after (fun _ => 0)
        [.turn (.producer 7), .turn (.producer 7), .turn (.producer 7), .turn (.producer 7),
          .turn (.producer 8), .turn (.producer 8), .turn (.producer 8), .turn (.producer 8),
          .turn .consumer, .turn .consumer, .turn .consumer, .sysPop, .sysPop])
      (after (fun _ => 0)
        [.turn (.producer 7), .turn (.producer 7), .turn (.producer 7), .turn (.producer 7),
          .turn (.producer 8), .turn (.producer 8), .turn (.producer 8), .turn (.producer 8),
          .turn .consumer, .turn .consumer, .turn .consumer, .sysPop, .sysPop,
          .turn .consumer]) := by
  refine ⟨fun h => absurd (h 7) (by decide), ?_⟩
  rintro (h | h)
  · exact absurd h (by decide)
  · exact absurd h (by decide)

end Kbuf

end RossOs
