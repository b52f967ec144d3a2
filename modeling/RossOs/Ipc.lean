import RossOs.Lib.Bytes

/-!
# Pipes

The pipe table of `ross-kernel/src/ipc.rs`. A call on the table is one step, since each holds the
lock of `PIPES`, so that an interleaving of calls is a list of them. `pipes_fifo` is the law of a
whole history: what was read from a pipe since it was created, followed by what is in its buffer,
is what was written to it.
-/

namespace RossOs

open ByteMem

namespace Ipc

/-! ## The table -/

/-- `MAX_PIPE_BYTES`. -/
def maxPipeBytes : ℕ := 4096
/-- `MAX_PIPES`. -/
def maxPipes : ℕ := 64

/-- `Pipe`. -/
structure Pipe where
  buffer : List UInt8
  closed : Bool
deriving DecidableEq, Repr

/-- `PipeTable`. -/
abbrev PipeTable := List (Option Pipe)

/-- A new pipe. -/
def Pipe.new : Pipe := ⟨[], false⟩

/-- `tbl.pipes.get_mut(id).and_then(|s| s.as_mut())`. -/
def getPipe (t : PipeTable) (id : ℕ) : Option Pipe := t[id]?.join

/-- `create`. -/
def create (t : PipeTable) : Option ℕ × PipeTable :=
  match t.findIdx? (·.isNone) with
  | some i => (some i, t.set i (some .new))
  | none => if maxPipes ≤ t.length then (none, t) else (some t.length, t ++ [some .new])

/-- `write`: the number of bytes accepted. -/
def write (id : ℕ) (data : List UInt8) (t : PipeTable) : Except Unit ℕ × PipeTable :=
  match getPipe t id with
  | none => (.error (), t)
  | some pipe =>
    if pipe.closed then (.error (), t)
    else
      let take := min (maxPipeBytes - pipe.buffer.length) data.length
      (.ok take, t.set id (some { pipe with buffer := pipe.buffer ++ data.take take }))

/-- `read` into a buffer: the number of bytes, and the buffer. -/
def read (id : ℕ) (buf : List UInt8) (t : PipeTable) : Except Unit (ℕ × List UInt8) × PipeTable :=
  match getPipe t id with
  | none => (.error (), t)
  | some pipe =>
    let n := min buf.length pipe.buffer.length
    (.ok (n, splice buf 0 (pipe.buffer.take n)),
      t.set id (some { pipe with buffer := pipe.buffer.drop n }))

/-- `close`. -/
def close (id : ℕ) (t : PipeTable) : PipeTable := t.set id none

/-! ## Histories -/

/-- A call with its result. -/
inductive Event
  | create (r : Option ℕ)
  | write (id : ℕ) (data : List UInt8) (r : Except Unit ℕ)
  | read (id : ℕ) (r : Except Unit (ℕ × List UInt8))
  | close (id : ℕ)

/-- A call. -/
inductive Call
  | create
  | write (id : ℕ) (data : List UInt8)
  | read (id : ℕ) (buf : List UInt8)
  | close (id : ℕ)

/-- A call on the table. -/
def Call.run : Call → PipeTable → Event × PipeTable
  | .create, t => (.create (Ipc.create t).1, (Ipc.create t).2)
  | .write id data, t => (.write id data (Ipc.write id data t).1, (Ipc.write id data t).2)
  | .read id buf, t => (.read id (Ipc.read id buf t).1, (Ipc.read id buf t).2)
  | .close id, t => (.close id, Ipc.close id t)

/-- The calls one after the other, from the empty table of the start. -/
def history (calls : List Call) : List Event × PipeTable :=
  calls.foldl (fun h c => (h.1 ++ [(c.run h.2).1], (c.run h.2).2)) ([], [])

/-- The pipe an event is about. -/
def Event.pipe : Event → Option ℕ
  | .create r => r
  | .write id _ _ => some id
  | .read id _ => some id
  | .close id => some id

/-- Whether a pipe is between its creation and its close. -/
def Event.setOpen (id : ℕ) (isOpen : Bool) : Event → Bool
  | .create r => r = some id || isOpen
  | .close id' => !decide (id' = id) && isOpen
  | _ => isOpen

/-- What was accepted for a pipe since its creation. -/
def Event.addAccepted (id : ℕ) (acc : List UInt8) : Event → List UInt8
  | .create r => if r = some id then [] else acc
  | .write id' data (.ok n) => if id' = id then acc ++ data.take n else acc
  | _ => acc

/-- What was returned from a pipe since its creation. -/
def Event.addReturned (id : ℕ) (acc : List UInt8) : Event → List UInt8
  | .create r => if r = some id then [] else acc
  | .read id' (.ok (n, buf)) => if id' = id then acc ++ buf.take n else acc
  | _ => acc

@[inherit_doc Event.setOpen]
def isOpen (events : List Event) (id : ℕ) : Bool := events.foldl (Event.setOpen id) false

@[inherit_doc Event.addAccepted]
def accepted (events : List Event) (id : ℕ) : List UInt8 := events.foldl (Event.addAccepted id) []

@[inherit_doc Event.addReturned]
def returned (events : List Event) (id : ℕ) : List UInt8 := events.foldl (Event.addReturned id) []

/-! ## The law -/

/-- What holds of a table after a history. -/
structure TableLaw (events : List Event) (t : PipeTable) : Prop where
  slots : t.length ≤ maxPipes
  isOpen : ∀ id, Ipc.isOpen events id = (getPipe t id).isSome
  fifo : ∀ id pipe, getPipe t id = some pipe →
    returned events id ++ pipe.buffer = accepted events id
  bounded : ∀ id pipe, getPipe t id = some pipe → pipe.buffer.length ≤ maxPipeBytes

/-- What the next call does to a table. Only the pipe it is about can change, and none does when it
fails. A write that is cut short leaves its pipe full, and a new pipe is in a slot that no pipe was
in, and empty. -/
structure CallLaw (t : PipeTable) (c : Call) : Prop where
  frame : ∀ id, (c.run t).1.pipe ≠ some id → getPipe (c.run t).2 id = getPipe t id
  full : ∀ id data n, (c.run t).1 = .write id data (.ok n) → n ≤ data.length ∧
    (n < data.length → ∃ pipe, getPipe (c.run t).2 id = some pipe ∧
      pipe.buffer.length = maxPipeBytes)
  fresh : ∀ id, (c.run t).1 = .create (some id) →
    getPipe t id = none ∧ ∃ pipe, getPipe (c.run t).2 id = some pipe ∧ pipe.buffer = []
  failed : (∀ id data, (c.run t).1 = .write id data (.error ()) → (c.run t).2 = t) ∧
    (∀ id, (c.run t).1 = .read id (.error ()) → (c.run t).2 = t) ∧
    ((c.run t).1 = .create none → (c.run t).2 = t)

section
variable {t : PipeTable} {id id' : ℕ} {pipe : Pipe}

/-- A pipe is open if its slot holds it. -/
theorem getPipe_eq_some : getPipe t id = some pipe ↔ t[id]? = some (some pipe) := by
  rw [getPipe]
  cases t[id]? with
  | none => exact ⟨nofun, nofun⟩
  | some p => exact ⟨congrArg some, Option.some.inj⟩

/-- The slot just set holds what it was set to. -/
theorem getPipe_set_self (h : id < t.length) (p : Option Pipe) : getPipe (t.set id p) id = p := by
  rw [getPipe, List.getElem?_set_self h]
  rfl

/-- The other slots hold what they held. -/
theorem getPipe_set_of_ne (h : id ≠ id') (p : Option Pipe) :
    getPipe (t.set id p) id' = getPipe t id' := by
  rw [getPipe, List.getElem?_set_ne h, getPipe]

/-- A pipe has a slot of the table. -/
theorem lt_of_getPipe (h : getPipe t id = some pipe) : id < t.length :=
  (List.getElem?_eq_some_iff.1 (getPipe_eq_some.1 h)).1

/-- `create` in one formula: the slot it takes held no pipe, and the others stay. -/
theorem create_spec (h : (create t).1 = some id) : getPipe t id = none ∧
    getPipe (create t).2 id = some .new ∧
    (∀ id', id' ≠ id → getPipe (create t).2 id' = getPipe t id') ∧
    (t.length ≤ maxPipes → (create t).2.length ≤ maxPipes) := by
  rw [create] at h ⊢
  cases hfind : t.findIdx? (·.isNone) with
  | some i =>
    rw [hfind] at h
    obtain rfl : i = id := Option.some.inj h
    obtain ⟨hlt, hnone, -⟩ := List.findIdx?_eq_some_iff_getElem.1 hfind
    refine ⟨?_, getPipe_set_self hlt _, fun id' hne => getPipe_set_of_ne (Ne.symm hne) _,
      fun hle => ?_⟩
    · rw [getPipe, List.getElem?_eq_getElem hlt, Option.isNone_iff_eq_none.1 hnone]
      rfl
    · rwa [List.length_set]
  | none =>
    rw [hfind] at h
    simp only at h ⊢
    split at h
    · cases h
    · rename_i hlt
      obtain rfl : t.length = id := Option.some.inj h
      rw [if_neg hlt]
      refine ⟨?_, ?_, fun id' hne => ?_, fun _ => ?_⟩
      · rw [getPipe, List.getElem?_eq_none le_rfl]
        rfl
      · rw [getPipe, List.getElem?_concat_length]
        rfl
      · rcases Nat.lt_or_gt_of_ne hne with hlt' | hlt'
        · rw [getPipe, List.getElem?_append_left hlt', getPipe]
        · rw [getPipe, getPipe, List.getElem?_eq_none, List.getElem?_eq_none (by omega)]
          rw [List.length_append, List.length_singleton]
          omega
      · rw [List.length_append, List.length_singleton]
        omega

/-- Without a free slot nothing changes. -/
theorem create_none (h : (create t).1 = none) : (create t).2 = t := by
  rw [create] at h ⊢
  cases hfind : t.findIdx? (·.isNone) with
  | some i =>
    rw [hfind] at h
    cases h
  | none =>
    rw [hfind] at h
    simp only at h ⊢
    split at h
    · rename_i hle
      rw [if_pos hle]
    · cases h

/-- `write`: it fails and changes nothing, or appends to the buffer what fits. -/
theorem write_spec (id : ℕ) (data : List UInt8) (t : PipeTable) : write id data t = (.error (), t) ∨
    ∃ pipe, getPipe t id = some pipe ∧
      write id data t = (.ok (min (maxPipeBytes - pipe.buffer.length) data.length),
        t.set id (some { pipe with
          buffer := pipe.buffer ++
            data.take (min (maxPipeBytes - pipe.buffer.length) data.length) })) := by
  rw [write]
  cases hpipe : getPipe t id with
  | none => exact .inl rfl
  | some pipe =>
    simp only
    split
    · exact .inl rfl
    · exact .inr ⟨pipe, rfl, rfl⟩

/-- `read`: it fails and changes nothing, or takes from the front of the buffer. -/
theorem read_spec (id : ℕ) (buf : List UInt8) (t : PipeTable) : read id buf t = (.error (), t) ∨
    ∃ pipe out, getPipe t id = some pipe ∧
      out.take (min buf.length pipe.buffer.length) =
        pipe.buffer.take (min buf.length pipe.buffer.length) ∧
      read id buf t = (.ok (min buf.length pipe.buffer.length, out),
        t.set id (some { pipe with
          buffer := pipe.buffer.drop (min buf.length pipe.buffer.length) })) := by
  rw [read]
  cases hpipe : getPipe t id with
  | none => exact .inl rfl
  | some pipe =>
    refine .inr ⟨pipe, _, rfl, ?_, rfl⟩
    have hlen : (pipe.buffer.take (min buf.length pipe.buffer.length)).length =
        min buf.length pipe.buffer.length := by
      rw [List.length_take]
      omega
    rw [splice, List.take_zero, List.nil_append, List.take_left' hlen]

/-- A closed pipe has no slot. -/
theorem getPipe_close (id : ℕ) (t : PipeTable) : getPipe (close id t) id = none := by
  rcases Nat.lt_or_ge id t.length with h | h
  · exact getPipe_set_self h none
  · rw [getPipe, List.getElem?_eq_none (by rwa [close, List.length_set])]
    rfl

/-- A call leaves every pipe that it is not about. -/
theorem getPipe_run_of_ne (c : Call) (hne : (c.run t).1.pipe ≠ some id) :
    getPipe (c.run t).2 id = getPipe t id := by
  cases c with
  | create =>
    show getPipe (create t).2 id = _
    cases hr : (create t).1 with
    | none => rw [create_none hr]
    | some i =>
      refine (create_spec hr).2.2.1 id fun he => hne ?_
      show (create t).1 = some id
      rw [hr, he]
  | write id' data =>
    show getPipe (write id' data t).2 id = _
    rcases write_spec id' data t with hrun | ⟨pipe, -, hrun⟩
    · rw [hrun]
    · rw [hrun]
      exact getPipe_set_of_ne (fun he => hne (congrArg some he)) _
  | read id' buf =>
    show getPipe (read id' buf t).2 id = _
    rcases read_spec id' buf t with hrun | ⟨pipe, out, -, -, hrun⟩
    · rw [hrun]
    · rw [hrun]
      exact getPipe_set_of_ne (fun he => hne (congrArg some he)) _
  | close id' => exact getPipe_set_of_ne (fun he => hne (congrArg some he)) _

/-- A write that is cut short fills its pipe. -/
theorem write_full (hbound : ∀ pipe, getPipe t id = some pipe → pipe.buffer.length ≤ maxPipeBytes)
    {data : List UInt8} {n : ℕ} (h : (write id data t).1 = .ok n) : n ≤ data.length ∧
      (n < data.length → ∃ pipe, getPipe (write id data t).2 id = some pipe ∧
        pipe.buffer.length = maxPipeBytes) := by
  rcases write_spec id data t with hrun | ⟨pipe, hpipe, hrun⟩
  · rw [hrun] at h
    cases h
  · have hle := hbound pipe hpipe
    rw [hrun] at h ⊢
    injection h with h
    subst h
    refine ⟨min_le_right _ _, fun hlt => ?_⟩
    refine ⟨_, getPipe_set_self (lt_of_getPipe hpipe) _, ?_⟩
    rw [List.length_append, List.length_take]
    omega

/-- Every call on a table within its bounds does what it should. -/
theorem callLaw (hbound : ∀ id pipe, getPipe t id = some pipe → pipe.buffer.length ≤ maxPipeBytes)
    (c : Call) : CallLaw t c := by
  refine ⟨fun id => getPipe_run_of_ne c, fun id data n h => ?_, fun id h => ?_,
    fun id data h => ?_, fun id h => ?_, fun h => ?_⟩
  · cases c with
    | write id' data' =>
      injection h with hid hdata hr
      subst hid
      subst hdata
      exact write_full (hbound id') hr
    | create | read | close => cases h
  · cases c with
    | create =>
      have hr : (create t).1 = some id := by injection h
      obtain ⟨hnone, hnew, -⟩ := create_spec hr
      exact ⟨hnone, .new, hnew, rfl⟩
    | write | read | close => cases h
  · cases c with
    | write id' data' =>
      have hr : (write id' data' t).1 = .error () := by injection h
      show (write id' data' t).2 = t
      rcases write_spec id' data' t with hrun | ⟨pipe, -, hrun⟩
      · rw [hrun]
      · rw [hrun] at hr
        cases hr
    | create | read | close => cases h
  · cases c with
    | read id' buf =>
      have hr : (read id' buf t).1 = .error () := by injection h
      show (read id' buf t).2 = t
      rcases read_spec id' buf t with hrun | ⟨pipe, out, -, -, hrun⟩
      · rw [hrun]
      · rw [hrun] at hr
        cases hr
    | create | write | close => cases h
  · cases c with
    | create => exact create_none (by injection h)
    | write | read | close => cases h

section
variable {events : List Event}

/-- Whether a pipe is open after one event more. -/
theorem isOpen_concat (e : Event) : isOpen (events ++ [e]) id = e.setOpen id (isOpen events id) :=
  List.foldl_concat ..

/-- The bytes accepted after one event more. -/
theorem accepted_concat (e : Event) :
    accepted (events ++ [e]) id = e.addAccepted id (accepted events id) := List.foldl_concat ..

/-- The bytes returned after one event more. -/
theorem returned_concat (e : Event) :
    returned (events ++ [e]) id = e.addReturned id (returned events id) := List.foldl_concat ..

/-- A call about another pipe adds nothing to the history of this one. -/
theorem event_of_other {e : Event} (h : e.pipe ≠ some id) (b : Bool) (acc : List UInt8) :
    e.setOpen id b = b ∧ e.addAccepted id acc = acc ∧ e.addReturned id acc = acc := by
  cases e with
  | create r =>
    have hr : r ≠ some id := h
    refine ⟨?_, if_neg hr, if_neg hr⟩
    rw [Event.setOpen, decide_eq_false hr, Bool.false_or]
  | write id' data r =>
    have hid : id' ≠ id := fun he => h (congrArg some he)
    cases r with
    | error _ => exact ⟨rfl, rfl, rfl⟩
    | ok n => exact ⟨rfl, if_neg hid, rfl⟩
  | read id' r =>
    have hid : id' ≠ id := fun he => h (congrArg some he)
    rcases r with _ | ⟨n, buf⟩
    · exact ⟨rfl, rfl, rfl⟩
    · exact ⟨rfl, rfl, if_neg hid⟩
  | close id' =>
    have hid : id' ≠ id := fun he => h (congrArg some he)
    refine ⟨?_, rfl, rfl⟩
    rw [Event.setOpen, decide_eq_false hid, Bool.not_false, Bool.true_and]

/-- The history of one pipe against its place in the table. -/
structure PipeLaw (opened : Bool) (ret acc : List UInt8) (p : Option Pipe) : Prop where
  isOpen : opened = p.isSome
  fifo : ∀ pipe, p = some pipe → ret ++ pipe.buffer = acc
  bounded : ∀ pipe, p = some pipe → pipe.buffer.length ≤ maxPipeBytes

/-- A call keeps the law of the pipe it is about. -/
theorem PipeLaw.step {b : Bool} {ret acc : List UInt8} (c : Call)
    (h : PipeLaw b ret acc (getPipe t id)) (hid : (c.run t).1.pipe = some id) :
    PipeLaw ((c.run t).1.setOpen id b) ((c.run t).1.addReturned id ret)
      ((c.run t).1.addAccepted id acc) (getPipe (c.run t).2 id) := by
  cases c with
  | create =>
    have hr : (create t).1 = some id := hid
    have hnew := (create_spec hr).2.1
    simp only [Call.run, Event.setOpen, Event.addReturned, Event.addAccepted, hr, hnew, if_true]
    refine ⟨by simp, fun pipe hp => ?_, fun pipe hp => ?_⟩
    · cases hp
      rfl
    · cases hp
      exact Nat.zero_le _
  | write id' data =>
    obtain rfl : id' = id := Option.some.inj hid
    rcases write_spec id' data t with hrun | ⟨pipe, hpipe, hrun⟩
    · simp only [Call.run, hrun, Event.setOpen, Event.addReturned, Event.addAccepted]
      exact h
    · have hfifo := h.fifo pipe hpipe
      have hbound := h.bounded pipe hpipe
      simp only [Call.run, hrun, Event.setOpen, Event.addReturned, Event.addAccepted, if_true,
        getPipe_set_self (lt_of_getPipe hpipe)]
      refine ⟨?_, fun pipe' hp => ?_, fun pipe' hp => ?_⟩
      · rw [h.isOpen, hpipe]
        rfl
      · cases hp
        rw [← hfifo, List.append_assoc]
      · cases hp
        rw [List.length_append, List.length_take]
        omega
  | read id' buf =>
    obtain rfl : id' = id := Option.some.inj hid
    rcases read_spec id' buf t with hrun | ⟨pipe, out, hpipe, hout, hrun⟩
    · simp only [Call.run, hrun, Event.setOpen, Event.addReturned, Event.addAccepted]
      exact h
    · have hfifo := h.fifo pipe hpipe
      have hbound := h.bounded pipe hpipe
      simp only [Call.run, hrun, Event.setOpen, Event.addReturned, Event.addAccepted, if_true,
        getPipe_set_self (lt_of_getPipe hpipe)]
      refine ⟨?_, fun pipe' hp => ?_, fun pipe' hp => ?_⟩
      · rw [h.isOpen, hpipe]
        rfl
      · cases hp
        rw [hout, List.append_assoc, List.take_append_drop, hfifo]
      · cases hp
        rw [List.length_drop]
        omega
  | close id' =>
    obtain rfl : id' = id := Option.some.inj hid
    simp only [Call.run, Event.setOpen, Event.addReturned, Event.addAccepted, getPipe_close]
    exact ⟨by simp, nofun, nofun⟩

/-- Every call keeps the law of the table. -/
theorem tableLaw_step (h : TableLaw events t) (c : Call) :
    TableLaw (events ++ [(c.run t).1]) (c.run t).2 := by
  have hpipes : ∀ id, PipeLaw (isOpen (events ++ [(c.run t).1]) id)
      (returned (events ++ [(c.run t).1]) id) (accepted (events ++ [(c.run t).1]) id)
      (getPipe (c.run t).2 id) := by
    intro id
    have hlaw : PipeLaw (isOpen events id) (returned events id) (accepted events id)
        (getPipe t id) := ⟨h.isOpen id, h.fifo id, h.bounded id⟩
    rw [isOpen_concat, returned_concat, accepted_concat]
    by_cases hid : (c.run t).1.pipe = some id
    · exact hlaw.step c hid
    · rw [(event_of_other hid _ []).1, (event_of_other hid true _).2.1,
        (event_of_other hid true _).2.2, getPipe_run_of_ne c hid]
      exact hlaw
  refine ⟨?_, fun id => (hpipes id).isOpen, fun id => (hpipes id).fifo,
    fun id => (hpipes id).bounded⟩
  cases c with
  | create =>
    cases hr : (create t).1 with
    | none =>
      show (create t).2.length ≤ _
      rw [create_none hr]
      exact h.slots
    | some i => exact (create_spec hr).2.2.2 h.slots
  | write id data =>
    show (write id data t).2.length ≤ _
    rcases write_spec id data t with hrun | ⟨pipe, -, hrun⟩
    · rw [hrun]
      exact h.slots
    · rw [hrun, List.length_set]
      exact h.slots
  | read id buf =>
    show (read id buf t).2.length ≤ _
    rcases read_spec id buf t with hrun | ⟨pipe, out, -, -, hrun⟩
    · rw [hrun]
      exact h.slots
    · rw [hrun, List.length_set]
      exact h.slots
  | close id =>
    show (close id t).length ≤ _
    rw [close, List.length_set]
    exact h.slots

end

/-- Pipes are bounded streams, each apart from the others, for every order of calls. -/
theorem pipes_fifo (calls : List Call) :
    TableLaw (history calls).1 (history calls).2 ∧ ∀ c, CallLaw (history calls).2 c := by
  suffices h : TableLaw (history calls).1 (history calls).2 from ⟨h, callLaw h.bounded⟩
  induction calls using List.reverseRecOn with
  | nil => exact ⟨Nat.zero_le _, fun _ => rfl, nofun, nofun⟩
  | append_singleton calls c ih =>
    have hstep : history (calls ++ [c]) = ((history calls).1 ++ [(c.run (history calls).2).1],
        (c.run (history calls).2).2) := List.foldl_concat ..
    rw [hstep]
    exact tableLaw_step ih c

end

end Ipc

end RossOs
