import RossOs.Syscall.Model

/-!
# The caller's memory

`sys_read` and `sys_write` take a pointer and a length from the caller and use them as they are, at
the privilege of the kernel. `Cpu` is the machine they run on: an access goes through the caller's
page tables, an address that these do not map is a page fault, which ends in the panic screen, and
every address an access reaches is noted. Making a slice of the two is what the kernel does before
any access; the debug build that `boot.sh` starts panics there on a null pointer and on a length
above `isize::MAX` (`SliceOk`). `confined_iff` says which calls stay inside the user memory of the
caller.
-/

namespace RossOs

open ByteMem Paging Ipc

/-! ## Accesses -/

/-- The system with physical memory, the bytes that were written to the screen and to the serial
port, and the virtual addresses that the call accessed through the caller's pointer. -/
structure Cpu where
  sys : SysState
  mem : Mem
  screen : List UInt8
  serial : List UInt8
  touched : List ℕ

/-- The leaf entry for a virtual address; an address that is not canonical has none. -/
def translate (m : Mem) (cr3 va : ℕ) : Option Leaf :=
  if va < 2 ^ 47 ∨ 2 ^ 64 - 2 ^ 47 ≤ va ∧ va < 2 ^ 64 then walk m cr3 va else none

/-- The page tables map the address for the user, and writable where that is asked for. -/
def userByte (m : Mem) (cr3 : ℕ) (write : Bool) (va : ℕ) : Bool :=
  (translate m cr3 va).any fun l => l.user && (l.writable || !write)

/-- The whole range of the call is so mapped. -/
def UserRange (m : Mem) (cr3 : ℕ) (write : Bool) (ptr len : ℕ) : Prop :=
  ∀ i < len, userByte m cr3 write (ptr + i)

instance (m : Mem) (cr3 : ℕ) (write : Bool) (ptr len : ℕ) :
    Decidable (UserRange m cr3 write ptr len) :=
  inferInstanceAs (Decidable (∀ i < len, userByte m cr3 write (ptr + i)))

/-- An access of the kernel to a byte: where it is in physical memory. The page tables are `m`;
a store to a page that is not writable faults when `CR0.WP` is set. -/
def access (m : Mem) (cr3 : ℕ) (wp store : Bool) (va : ℕ) : Exec Empty Cpu ℕ := do
  modify fun c => { c with touched := c.touched ++ [va] }
  match translate m cr3 va with
  | none => Exec.panic
  | some l => if store && wp && !l.writable then Exec.panic else pure l.phys

/-- Stores bytes at a pointer, one after the other. -/
def storeBytes (m : Mem) (cr3 : ℕ) (wp : Bool) : ℕ → List UInt8 → Exec Empty Cpu PUnit
  | _, [] => pure ⟨⟩
  | ptr, b :: bs => do
    let phys ← access m cr3 wp true (ptr % 2 ^ 64)
    modify fun c => { c with mem := write c.mem phys [b] }
    storeBytes m cr3 wp (ptr + 1) bs

/-- Loads bytes from a pointer, one after the other. -/
def loadBytes (m : Mem) (cr3 : ℕ) (wp : Bool) : ℕ → ℕ → Exec Empty Cpu (List UInt8)
  | _, 0 => pure []
  | ptr, n + 1 => do
    let phys ← access m cr3 wp false (ptr % 2 ^ 64)
    let bs ← loadBytes m cr3 wp (ptr + 1) n
    pure (m phys :: bs)

/-! ## The calls -/

/-- Run on the system. -/
def onSys {α : Type} (x : Exec Empty SysState α) : Exec Empty Cpu α :=
  Exec.zoom Cpu.sys (fun s c => { c with sys := s }) x

/-- A call on the system that returns. -/
theorem onSys_of_ok {α : Type} {x : Exec Empty SysState α} {c : Cpu} {a : α} {s : SysState}
    (h : x c.sys = .ok a s) : onSys x c = .ok a { c with sys := s } := Exec.zoom_of_ok h

/-- A call on the system that stops. -/
theorem onSys_of_error {α : Type} {x : Exec Empty SysState α} {c : Cpu} {e : Fault Empty}
    {s : SysState} (h : x c.sys = .error e s) : onSys x c = .error e { c with sys := s } :=
  Exec.zoom_of_error h

/-- What `core::slice::from_raw_parts` checks of a pointer to bytes in a debug build. -/
def SliceOk (ptr len : ℕ) : Prop := ptr ≠ 0 ∧ len < 2 ^ 63

instance (ptr len : ℕ) : Decidable (SliceOk ptr len) :=
  inferInstanceAs (Decidable (ptr ≠ 0 ∧ len < 2 ^ 63))

/-- `core::slice::from_raw_parts` and its sibling for a mutable slice. -/
def fromRawParts (ptr len : ℕ) : Exec Empty Cpu PUnit :=
  if SliceOk ptr len then pure ⟨⟩ else Exec.panic

/-- `sys_read` makes a slice of the caller's buffer: for the keyboard, and for a descriptor that is
a pipe or a file. -/
def SysState.buffered (s : SysState) (fd : ℕ) : Bool := fd == 0 || (s.readTarget fd).isSome

/-- The slice of `sys_read`, before the call looks for bytes to put there. -/
def readSlice (fd ptr len : ℕ) : Exec Empty Cpu PUnit := do
  if len ≠ 0 ∧ (← get).sys.buffered fd then fromRawParts ptr len else pure ⟨⟩

/-- `sys_read(fd, ptr, len)` with the caller's `cr3`. -/
def sysReadAt (cr3 : ℕ) (wp : Bool) (fd ptr len : ℕ) : Exec Empty Cpu ℕ := do
  readSlice fd ptr len
  let r ← onSys (sysRead fd len)
  storeBytes (← get).mem cr3 wp ptr r.2
  pure r.1

/-- The bytes that `sys_write` puts on the screen. -/
def isPrinted (b : UInt8) : Bool := b == 0x0A || (0x21 ≤ b && b ≤ 0x7E) || b == 0x20

/-- The pipe of a descriptor. -/
def SysState.pipeOf (s : SysState) (fd : ℕ) : Option ℕ :=
  s.fdTable.bind fun t => match t.get fd with
    | some (.pipe id) => some id
    | _ => none

/-- How many bytes `ipc::write` takes from a slice of `len` bytes, or none when it fails before it
looks at them. -/
def Ipc.takes (t : PipeTable) (id len : ℕ) : Option ℕ :=
  match getPipe t id with
  | none => none
  | some pipe => if pipe.closed then none else some (min (maxPipeBytes - pipe.buffer.length) len)

/-- `sys_write` to a pipe: of the caller's bytes only those are read that the pipe takes. -/
def writePipe (cr3 : ℕ) (wp : Bool) (id ptr len : ℕ) : Exec Empty Cpu ℕ := do
  match Ipc.takes (← get).sys.pipes id len with
  | none => pure u64Max
  | some n =>
    let data ← loadBytes (← get).mem cr3 wp ptr n
    modify fun c => { c with sys := { c.sys with pipes := (Ipc.write id data c.sys.pipes).2 } }
    pure n

/-- What `sys_write` does with the slice, by the number of the descriptor. -/
def writeSlice (cr3 : ℕ) (wp : Bool) (fd ptr len : ℕ) : Exec Empty Cpu ℕ := do
  if fd = 1 then
    let data ← loadBytes (← get).mem cr3 wp ptr len
    modify fun c => { c with screen := c.screen ++ data.filter isPrinted }
    pure len
  else if fd = 2 then
    let data ← loadBytes (← get).mem cr3 wp ptr len
    modify fun c => { c with serial := c.serial ++ data }
    pure len
  else
    match (← get).sys.pipeOf fd with
    | none => pure u64Max
    | some id => writePipe cr3 wp id ptr len

/-- `sys_write(fd, ptr, len)` with the caller's `cr3`. The slice is made before the descriptor is
looked at. -/
def sysWriteAt (cr3 : ℕ) (wp : Bool) (fd ptr len : ℕ) : Exec Empty Cpu ℕ := do
  if len = 0 then pure 0
  else
    fromRawParts ptr len
    writeSlice cr3 wp fd ptr len

/-- What the pipe gets is what `ipc::write` makes of the whole slice. -/
theorem Ipc.write_of_takes {t : PipeTable} {id n : ℕ} {data : List UInt8}
    (h : Ipc.takes t id data.length = some n) :
    Ipc.write id data t = (.ok n, (Ipc.write id (data.take n) t).2) := by
  rw [Ipc.takes] at h
  rw [Ipc.write, Ipc.write]
  cases hpipe : getPipe t id with
  | none =>
    rw [hpipe] at h
    cases h
  | some pipe =>
    rw [hpipe] at h
    simp only at h ⊢
    split at h
    · cases h
    · rename_i hopen
      obtain rfl := Option.some.inj h
      rw [if_neg hopen, if_neg hopen, List.take_take, List.length_take]
      congr 6
      omega

/-! ## Confinement -/

/-- The call, run from `c`, accesses only user memory of the caller inside its range, and changes
physical memory only there; when the range is not user memory, it fails and changes nothing. -/
structure Confined (cr3 : ℕ) (write : Bool) (ptr len : ℕ) (c : Cpu)
    (r : Exec.Outcome Empty Cpu ℕ) : Prop where
  touched : ∀ va ∈ (Exec.Outcome.state r).touched, va ∈ c.touched ∨
    ptr ≤ va ∧ va < ptr + len ∧ userByte c.mem cr3 write va
  frame : ∀ p, (Exec.Outcome.state r).mem p ≠ c.mem p → write = true ∧ ∃ i < len, ∃ l,
    translate c.mem cr3 (ptr + i) = some l ∧ l.user ∧ l.writable ∧ l.phys = p
  refused : ¬ UserRange c.mem cr3 write ptr len → r = .ok u64Max c

/-- The descriptor has nothing to give to `sys_read`. -/
def SysState.FailsRead (s : SysState) (fd len : ℕ) : Prop :=
  fd ≠ 0 ∧ match s.readTarget fd with
    | none => True
    | some (.pipe id) => getPipe s.pipes id = none
    | some (.file node offset) =>
      node.read offset (List.replicate len 0) s.disk = .error (.err ()) s.disk

/-- `sys_read` fails on its descriptor, where it makes a slice after that was made. -/
def SysState.RefusesRead (s : SysState) (fd ptr len : ℕ) : Prop :=
  s.FailsRead fd len ∧ (s.buffered fd → SliceOk ptr len)

/-- `sys_write` makes the slice and then fails on its descriptor. -/
def SysState.RefusesWrite (s : SysState) (fd ptr len : ℕ) : Prop :=
  SliceOk ptr len ∧ fd ≠ 1 ∧ fd ≠ 2 ∧ ∀ id, s.pipeOf fd = some id →
    ∀ pipe, getPipe s.pipes id = some pipe → pipe.closed

/-! ## What the accesses reach -/

/-- The run from `c` to `c'` accessed only user memory in the range, through the page tables `m`. -/
structure Within (m : Mem) (cr3 : ℕ) (write : Bool) (ptr len : ℕ) (c c' : Cpu) : Prop where
  touched : ∀ va ∈ c'.touched, va ∈ c.touched ∨
    ptr ≤ va ∧ va < ptr + len ∧ userByte m cr3 write va
  frame : ∀ p, c'.mem p ≠ c.mem p → write = true ∧ ∃ i < len, ∃ l,
    translate m cr3 (ptr + i) = some l ∧ l.user ∧ l.writable ∧ l.phys = p

section
variable {m : Mem} {cr3 ptr len va : ℕ} {wp store write : Bool} {c c' c'' : Cpu}

/-- Nothing was accessed. -/
theorem Within.of_eq (htouched : c'.touched = c.touched) (hmem : c'.mem = c.mem) :
    Within m cr3 write ptr len c c' := by
  refine ⟨fun va hva => .inl (htouched ▸ hva), fun p hp => absurd ?_ hp⟩
  rw [hmem]

/-- Two runs inside the range are one. -/
theorem Within.trans (h : Within m cr3 write ptr len c c')
    (h' : Within m cr3 write ptr len c' c'') : Within m cr3 write ptr len c c'' := by
  refine ⟨fun va hva => ?_, fun p hp => ?_⟩
  · rcases h'.touched va hva with hva | hva
    · exact h.touched va hva
    · exact .inr hva
  · by_cases hp' : c''.mem p = c'.mem p
    · exact h.frame p (hp' ▸ hp)
    · exact h'.frame p hp'

/-- A run inside a range is inside a wider one. -/
theorem Within.mono {ptr' len' : ℕ} (h : Within m cr3 write ptr' len' c c') (hptr : ptr ≤ ptr')
    (hlen : ptr' + len' ≤ ptr + len) : Within m cr3 write ptr len c c' := by
  refine ⟨fun va hva => ?_, fun p hp => ?_⟩
  · rcases h.touched va hva with hva | ⟨h1, h2, h3⟩
    · exact .inl hva
    · exact .inr ⟨by omega, by omega, h3⟩
  · obtain ⟨hwrite, i, hi, l, hl, hrest⟩ := h.frame p hp
    refine ⟨hwrite, ptr' - ptr + i, by omega, l, ?_, hrest⟩
    rwa [show ptr + (ptr' - ptr + i) = ptr' + i by omega]

/-- A byte is the user's when its page is, and writable if it is written. -/
theorem userByte_iff : userByte m cr3 write va ↔
    ∃ l, translate m cr3 va = some l ∧ l.user ∧ (l.writable ∨ write = false) := by
  rw [userByte]
  cases translate m cr3 va with
  | none => exact ⟨nofun, fun ⟨_, h, _⟩ => nomatch h⟩
  | some l => simp

/-- A user byte has an address of 64 bits. -/
theorem lt_of_userByte (h : userByte m cr3 write va) : va < 2 ^ 64 := by
  obtain ⟨l, hl, -⟩ := userByte_iff.1 h
  rw [translate] at hl
  split at hl
  · omega
  · cases hl

/-- An access is noted, whether it goes through or faults. -/
theorem access_cases (m : Mem) (cr3 : ℕ) (wp store : Bool) (va : ℕ) (c : Cpu) :
    (∃ phys, access m cr3 wp store va c = .ok phys { c with touched := c.touched ++ [va] }) ∨
      access m cr3 wp store va c = .error .panic { c with touched := c.touched ++ [va] } := by
  rw [access, Exec.bind_of_ok (Exec.modify_apply _ c)]
  cases translate m cr3 va with
  | none => exact .inr rfl
  | some l =>
    simp only
    split
    · exact .inr rfl
    · exact .inl ⟨_, rfl⟩

/-- An access to user memory goes through. -/
theorem access_run {l : Leaf} (hl : translate m cr3 va = some l)
    (hstore : l.writable ∨ store = false) :
    access m cr3 wp store va c = .ok l.phys { c with touched := c.touched ++ [va] } := by
  rw [access, Exec.bind_of_ok (Exec.modify_apply _ c), hl]
  simp only
  rw [if_neg]
  · rfl
  · rcases hstore with h | h <;> simp [h]

/-- A byte of the range is touched. -/
theorem Within.note (hva : userByte m cr3 write ptr) (hlen : 0 < len) :
    Within m cr3 write ptr len c { c with touched := c.touched ++ [ptr] } := by
  refine ⟨fun va hmem => ?_, fun p hp => absurd rfl hp⟩
  rcases List.mem_append.1 hmem with hmem | hmem
  · exact .inl hmem
  · obtain rfl := List.mem_singleton.1 hmem
    exact .inr ⟨le_rfl, by omega, hva⟩

/-- The range behind the first byte of a user range is one. -/
theorem UserRange.tail (h : UserRange m cr3 write ptr (len + 1)) :
    UserRange m cr3 write (ptr + 1) len := by
  intro i hi
  rw [show ptr + 1 + i = ptr + (i + 1) by omega]
  exact h (i + 1) (by omega)

/-- Stores into user memory stay there. -/
theorem storeBytes_within (wp : Bool) (c : Cpu) {bs : List UInt8}
    (h : UserRange m cr3 true ptr bs.length) :
    Within m cr3 true ptr bs.length c (Exec.Outcome.state (storeBytes m cr3 wp ptr bs c)) := by
  induction bs generalizing ptr c with
  | nil => exact .of_eq rfl rfl
  | cons b bs ih =>
    have hptr : userByte m cr3 true ptr := h 0 (by simp)
    obtain ⟨l, hl, huser, hwritable⟩ := userByte_iff.1 hptr
    have hw : l.writable := hwritable.resolve_right (by decide)
    rw [storeBytes, Nat.mod_eq_of_lt (lt_of_userByte hptr),
      Exec.bind_of_ok (access_run hl (.inl hw)), Exec.bind_of_ok (Exec.modify_apply _ _)]
    refine (Within.note hptr (by simp)).trans (.trans ?_ ((ih _ h.tail).mono (by omega) ?_))
    · refine ⟨fun va hva => .inl hva, fun p hp => ⟨rfl, 0, by simp, l, hl, huser, hw, ?_⟩⟩
      by_contra hne
      refine hp (write_apply_of_outside ?_)
      rw [List.length_singleton]
      omega
    · rw [List.length_cons]
      omega

/-- Loads from user memory stay there. -/
theorem loadBytes_within (wp : Bool) (c : Cpu) (h : UserRange m cr3 false ptr len) :
    Within m cr3 false ptr len c (Exec.Outcome.state (loadBytes m cr3 wp ptr len c)) := by
  induction len generalizing ptr c with
  | zero => exact .of_eq rfl rfl
  | succ n ih =>
    have hptr : userByte m cr3 false ptr := h 0 (by omega)
    obtain ⟨l, hl, -⟩ := userByte_iff.1 hptr
    rw [loadBytes, Nat.mod_eq_of_lt (lt_of_userByte hptr),
      Exec.bind_of_ok (access_run hl (.inr rfl))]
    refine (Within.note hptr (by omega)).trans
      (.trans ((ih _ h.tail).mono (by omega) (by omega)) ?_)
    cases hrest : loadBytes m cr3 wp (ptr + 1) n { c with touched := c.touched ++ [ptr] } with
    | ok bs c' =>
      rw [Exec.bind_of_ok hrest]
      exact .of_eq rfl rfl
    | error e c' =>
      rw [Exec.bind_of_error hrest]
      exact .of_eq rfl rfl

/-- A later state has noted at least what an earlier one has. -/
theorem storeBytes_touched (m : Mem) (cr3 : ℕ) (wp : Bool) (ptr : ℕ) {bs : List UInt8}
    (hbs : bs ≠ []) (c : Cpu) :
    (Exec.Outcome.state (storeBytes m cr3 wp ptr bs c)).touched ≠ c.touched := by
  have key : ∀ (bs : List UInt8) (ptr : ℕ) (c : Cpu), c.touched.length + min bs.length 1 ≤
      (Exec.Outcome.state (storeBytes m cr3 wp ptr bs c)).touched.length := by
    intro bs
    induction bs with
    | nil => exact fun ptr c => le_rfl
    | cons b bs ih =>
      intro ptr c
      rw [storeBytes]
      rcases access_cases m cr3 wp true (ptr % 2 ^ 64) c with ⟨phys, h⟩ | h
      · rw [Exec.bind_of_ok h, Exec.bind_of_ok (Exec.modify_apply _ _)]
        refine le_trans ?_ (ih _ _)
        simp only [List.length_append, List.length_cons]
        omega
      · rw [Exec.bind_of_error h]
        simp only [Exec.Outcome.state, List.length_append, List.length_cons]
        omega
  intro heq
  have hlen := key bs ptr c
  rw [heq] at hlen
  have hpos := List.length_pos_of_ne_nil hbs
  omega

/-- Bytes are loaded, so memory is touched. -/
theorem loadBytes_touched (m : Mem) (cr3 : ℕ) (wp : Bool) (ptr : ℕ) (hlen : len ≠ 0) (c : Cpu) :
    (Exec.Outcome.state (loadBytes m cr3 wp ptr len c)).touched ≠ c.touched := by
  have key : ∀ (n ptr : ℕ) (c : Cpu), c.touched.length + min n 1 ≤
      (Exec.Outcome.state (loadBytes m cr3 wp ptr n c)).touched.length := by
    intro n
    induction n with
    | zero => exact fun ptr c => le_rfl
    | succ n ih =>
      intro ptr c
      rw [loadBytes]
      rcases access_cases m cr3 wp false (ptr % 2 ^ 64) c with ⟨phys, h⟩ | h
      · rw [Exec.bind_of_ok h]
        have hrest := ih (ptr + 1) { c with touched := c.touched ++ [ptr % 2 ^ 64] }
        simp only [List.length_append, List.length_singleton] at hrest
        cases hrun : loadBytes m cr3 wp (ptr + 1) n
          { c with touched := c.touched ++ [ptr % 2 ^ 64] } with
        | ok bs c' =>
          rw [hrun] at hrest
          rw [Exec.bind_of_ok hrun]
          exact le_trans (by omega) hrest
        | error e c' =>
          rw [hrun] at hrest
          rw [Exec.bind_of_error hrun]
          exact le_trans (by omega) hrest
      · rw [Exec.bind_of_error h]
        simp only [Exec.Outcome.state, List.length_append, List.length_singleton]
        omega
  intro heq
  have h := key len ptr c
  rw [heq] at h
  omega

end

/-! ## `sys_read` -/

/-- A read fills at most the buffer. -/
theorem Node.read_length {node : Node} {offset : ℕ} {buf : List UInt8} {d d' : Disk}
    {r : ℕ × List UInt8} (h : node.read offset buf d = .ok r d') :
    r.1 ≤ buf.length ∧ buf.length ≤ r.2.length := by
  have hsplice : ∀ src : List UInt8, buf.length ≤ (splice buf 0 src).length := by
    intro src
    simp only [splice, List.length_append, List.length_take, List.length_drop]
    omega
  cases node with
  | tarFile f =>
    obtain ⟨rfl, -⟩ := Exec.pure_eq_ok.1 h
    rw [TarFile.read_eq]
    exact ⟨Nat.min_le_left _ _, hsplice _⟩
  | tarFileSystem files => cases h
  | fat32 fs node =>
    have h' : node.read fs offset buf d = .ok r d' := h
    rw [Fat.Fat32Node.read] at h'
    split at h'
    · cases h'
    split at h'
    · obtain ⟨rfl, -⟩ := Exec.pure_eq_ok.1 h'
      exact ⟨Nat.zero_le _, le_rfl⟩
    · obtain ⟨chain, d₁, -, hrest⟩ := Exec.bind_eq_ok.1 h'
      split at hrest
      · obtain ⟨rfl, -⟩ := Exec.pure_eq_ok.1 hrest
        exact ⟨Nat.zero_le _, le_rfl⟩
      · obtain ⟨rfl, -⟩ := Exec.pure_eq_ok.1 hrest
        refine ⟨?_, hsplice _⟩
        show min chain.length (offset + min buf.length (node.size - offset)) - offset ≤ buf.length
        omega

/-- No more keys are popped than asked for. -/
theorem length_popKeys (n : ℕ) (k : Kbuf.State UInt8) : (popKeys n k).1.length ≤ n := by
  induction n generalizing k with
  | zero => exact le_rfl
  | succ n ih =>
    rw [popKeys]
    split
    · exact Nat.zero_le _
    · exact Nat.succ_le_succ (ih _)

section
variable {s s' : SysState} {fd len : ℕ} {r : ℕ × List UInt8}

/-- `sys_read` from a pipe returns as many bytes as it says, or refuses and changes nothing. -/
theorem sysRead_pipe_cases {id : ℕ} (hlen : len ≠ 0) (hfd : fd ≠ 0)
    (htarget : s.readTarget fd = some (.pipe id)) (h : sysRead fd len s = .ok r s') :
    r.2.length = r.1 ∧ r.1 ≤ len ∧ ¬ s.FailsRead fd len ∨
      r = (u64Max, []) ∧ s' = s ∧ s.FailsRead fd len := by
  rw [sysRead_of_pipe hlen hfd htarget, readPipe, Exec.bind_of_ok (Exec.get_apply s),
    Exec.bind_of_ok (Exec.modify_apply _ s), Ipc.read] at h
  cases hpipe : getPipe s.pipes id with
  | none =>
    rw [hpipe] at h
    obtain ⟨rfl, rfl⟩ := Exec.pure_eq_ok.1 h
    refine .inr ⟨rfl, rfl, hfd, ?_⟩
    rw [htarget]
    exact hpipe
  | some pipe =>
    rw [hpipe] at h
    obtain ⟨rfl, -⟩ := Exec.pure_eq_ok.1 h
    refine .inl ⟨?_, ?_, fun hr => ?_⟩
    · simp only [List.length_take, splice, List.length_append, List.length_drop,
        List.length_replicate]
      omega
    · rw [List.length_replicate]
      exact Nat.min_le_left _ _
    · have hr' := hr.2
      rw [htarget] at hr'
      rw [show getPipe s.pipes id = none from hr'] at hpipe
      cases hpipe

/-- A read of a file yields at most as many bytes as asked for, or is refused. -/
theorem sysRead_file_cases {node : Node} {offset : ℕ} (hlen : len ≠ 0) (hfd : fd ≠ 0)
    (htarget : s.readTarget fd = some (.file node offset)) (h : sysRead fd len s = .ok r s') :
    r.2.length = r.1 ∧ r.1 ≤ len ∧ ¬ s.FailsRead fd len ∨
      r = (u64Max, []) ∧ s' = s ∧ s.FailsRead fd len := by
  rw [sysRead_of_file hlen hfd htarget] at h
  rcases (node.read_readOnly offset (List.replicate len 0)).outcome s.disk with
    ⟨x, hx⟩ | ⟨e, he⟩
  · rw [readFile_of_ok hx] at h
    cases h
    obtain ⟨hn, hbuf⟩ := Node.read_length hx
    rw [List.length_replicate] at hn hbuf
    refine .inl ⟨?_, hn, fun hr => ?_⟩
    · show (x.2.take x.1).length = x.1
      rw [List.length_take]
      omega
    · have hr' := hr.2
      rw [htarget] at hr'
      rw [show node.read offset (List.replicate len 0) s.disk = _ from hr'] at hx
      cases hx
  · rcases readFile_of_error he with ⟨rfl, heq⟩ | ⟨e', heq⟩
    · rw [heq] at h
      cases h
      refine .inr ⟨rfl, rfl, hfd, ?_⟩
      rw [htarget]
      exact he
    · rw [heq] at h
      cases h

/-- `sys_read` returns as many bytes as it says, or refuses and changes nothing. -/
theorem sysRead_cases (hlen : len ≠ 0) (h : sysRead fd len s = .ok r s') :
    r.2.length = r.1 ∧ r.1 ≤ len ∧ ¬ s.FailsRead fd len ∨
      r = (u64Max, []) ∧ s' = s ∧ s.FailsRead fd len := by
  by_cases hfd : fd = 0
  · rw [sysRead, if_neg hlen, if_pos hfd, Exec.bind_of_ok (Exec.get_apply s),
      Exec.bind_of_ok (Exec.modify_apply _ s)] at h
    obtain ⟨rfl, -⟩ := Exec.pure_eq_ok.1 h
    exact .inl ⟨rfl, length_popKeys len s.keyboard, fun hr => hr.1 hfd⟩
  cases htarget : s.readTarget fd with
  | none =>
    rw [sysRead_of_none hlen hfd htarget] at h
    cases h
    refine .inr ⟨rfl, rfl, hfd, ?_⟩
    rw [htarget]
    trivial
  | some target =>
    cases target with
    | pipe id => exact sysRead_pipe_cases hlen hfd htarget h
    | file node offset => exact sysRead_file_cases hlen hfd htarget h

end

/-- The converse for a call that is refused. -/
theorem sysRead_refused {s : SysState} {fd len : ℕ} (hlen : len ≠ 0) (h : s.FailsRead fd len) :
    sysRead fd len s = .ok (u64Max, []) s := by
  obtain ⟨hfd, hrefused⟩ := h
  cases htarget : s.readTarget fd with
  | none => exact sysRead_of_none hlen hfd htarget
  | some target =>
    rw [htarget] at hrefused
    cases target with
    | pipe id =>
      rw [sysRead_of_pipe hlen hfd htarget, readPipe, Exec.bind_of_ok (Exec.get_apply s),
        Exec.bind_of_ok (Exec.modify_apply _ s), Ipc.read,
        show getPipe s.pipes id = none from hrefused]
      rfl
    | file node offset =>
      rw [sysRead_of_file hlen hfd htarget, readFile,
        Exec.bind_of_ok (attempt_onFiles_of_err hrefused)]
      rfl

section
variable {cr3 fd ptr len : ℕ} {wp : Bool} {c : Cpu}

/-- The empty range is a user range. -/
theorem UserRange.of_zero {m : Mem} {write : Bool} (h : len = 0) : UserRange m cr3 write ptr len :=
  fun i hi => absurd hi (by omega)

/-- The front of a user range is one. -/
theorem UserRange.take {m : Mem} {write : Bool} (h : UserRange m cr3 write ptr len) {n : ℕ}
    (hn : n ≤ len) : UserRange m cr3 write ptr n := fun i hi => h i (by omega)

/-- Making the slice changes nothing, and goes through where the pointer and the length allow it. -/
theorem readSlice_cases (fd ptr len : ℕ) (c : Cpu) :
    readSlice fd ptr len c = .ok ⟨⟩ c ∧ (len ≠ 0 → c.sys.buffered fd → SliceOk ptr len) ∨
      readSlice fd ptr len c = .error .panic c ∧ c.sys.buffered fd ∧ ¬ SliceOk ptr len := by
  rw [readSlice, Exec.bind_of_ok (Exec.get_apply c), fromRawParts]
  by_cases hneeds : len ≠ 0 ∧ c.sys.buffered fd = true
  · rw [if_pos hneeds]
    by_cases hok : SliceOk ptr len
    · rw [if_pos hok]
      exact .inl ⟨rfl, fun _ _ => hok⟩
    · rw [if_neg hok]
      exact .inr ⟨rfl, hneeds.2, hok⟩
  · rw [if_neg hneeds]
    exact .inl ⟨rfl, fun hlen hb => absurd ⟨hlen, hb⟩ hneeds⟩

/-- Where the slice can be made, the rest of `sys_read` is left to do. -/
theorem sysReadAt_of_slice {cr3 fd ptr len : ℕ} {wp : Bool} {c : Cpu}
    (h : readSlice fd ptr len c = .ok ⟨⟩ c) : sysReadAt cr3 wp fd ptr len c = (do
      let r ← onSys (sysRead fd len)
      storeBytes (← get).mem cr3 wp ptr r.2
      pure r.1 : Exec Empty Cpu ℕ) c := by
  rw [sysReadAt, Exec.bind_of_ok h]

/-- A call that is refused returns the error and changes nothing. -/
theorem sysReadAt_refused {cr3 fd ptr len : ℕ} {wp : Bool} {c : Cpu} (hlen : len ≠ 0)
    (h : c.sys.RefusesRead fd ptr len) : sysReadAt cr3 wp fd ptr len c = .ok u64Max c := by
  rcases readSlice_cases fd ptr len c with ⟨hslice, -⟩ | ⟨-, hb, hbad⟩
  · rw [sysReadAt_of_slice hslice, Exec.bind_of_ok (onSys_of_ok (sysRead_refused hlen h.1))]
    rfl
  · exact absurd (h.2 hb) hbad

/-- `sys_read` into user memory stays there. -/
theorem sysReadAt_within (wp : Bool) (fd : ℕ) (h : UserRange c.mem cr3 true ptr len) :
    Within c.mem cr3 true ptr len c (Exec.Outcome.state (sysReadAt cr3 wp fd ptr len c)) := by
  rcases readSlice_cases fd ptr len c with ⟨hslice, -⟩ | ⟨hslice, -⟩
  case inr =>
    rw [sysReadAt, Exec.bind_of_error hslice]
    exact .of_eq rfl rfl
  rw [sysReadAt_of_slice hslice]
  cases hread : sysRead fd len c.sys with
  | error e s' =>
    rw [Exec.bind_of_error (onSys_of_error hread)]
    exact .of_eq rfl rfl
  | ok r s' =>
    have hle : r.2.length ≤ len := by
      by_cases hlen : len = 0
      · rw [sysRead, if_pos hlen] at hread
        obtain ⟨rfl, -⟩ := Exec.pure_eq_ok.1 hread
        exact Nat.zero_le _
      · rcases sysRead_cases hlen hread with ⟨heq, hle, -⟩ | ⟨rfl, -⟩
        · omega
        · exact Nat.zero_le _
    rw [Exec.bind_of_ok (onSys_of_ok hread), Exec.bind_of_ok (Exec.get_apply _)]
    have hstore := (storeBytes_within wp { c with sys := s' } (h.take hle)).mono
      (le_refl ptr) (Nat.add_le_add_left hle ptr)
    have hsys : Within c.mem cr3 true ptr len c { c with sys := s' } := .of_eq rfl rfl
    refine hsys.trans (hstore.trans ?_)
    cases hrun : storeBytes c.mem cr3 wp ptr r.2 { c with sys := s' } with
    | ok u c' =>
      rw [Exec.bind_of_ok hrun]
      exact .of_eq rfl rfl
    | error e c' =>
      rw [Exec.bind_of_error hrun]
      exact .of_eq rfl rfl

/-- A call of `sys_read` that fails without a trace was refused. -/
theorem refusesRead_of_eq (hlen : len ≠ 0) (h : sysReadAt cr3 wp fd ptr len c = .ok u64Max c) :
    c.sys.RefusesRead fd ptr len := by
  rcases readSlice_cases fd ptr len c with ⟨hslice, hok⟩ | ⟨hslice, -⟩
  case inr =>
    rw [sysReadAt, Exec.bind_of_error hslice] at h
    cases h
  refine ⟨?_, hok hlen⟩
  rw [sysReadAt_of_slice hslice] at h
  obtain ⟨r, c₁, hread, hrest⟩ := Exec.bind_eq_ok.1 h
  obtain ⟨c₂, c₃, hget, hrest⟩ := Exec.bind_eq_ok.1 hrest
  obtain ⟨u, c₄, hstore, hpure⟩ := Exec.bind_eq_ok.1 hrest
  obtain ⟨hvalue, rfl⟩ := Exec.pure_eq_ok.1 hpure
  cases hget
  cases hrun : sysRead fd len c₄.sys with
  | error e s' =>
    rw [onSys_of_error hrun] at hread
    cases hread
  | ok r' s' =>
    rw [onSys_of_ok hrun] at hread
    cases hread
    rcases sysRead_cases hlen hrun with ⟨hcount, -⟩ | ⟨-, -, hrefused⟩
    · have hnil : r.2 = [] := by
        by_contra hne
        have htouched := storeBytes_touched c₄.mem cr3 wp ptr hne { c₄ with sys := s' }
        rw [show storeBytes c₄.mem cr3 wp ptr r.2 { c₄ with sys := s' } = _ from hstore] at htouched
        exact htouched rfl
      rw [hnil, hvalue] at hcount
      exact absurd hcount (by decide)
    · exact hrefused

/-- `sys_read` stays inside user memory exactly for a range that is user memory, or when it is
refused. -/
theorem sysReadAt_confined_iff : Confined cr3 true ptr len c (sysReadAt cr3 wp fd ptr len c) ↔
    UserRange c.mem cr3 true ptr len ∨ c.sys.RefusesRead fd ptr len := by
  by_cases hrange : UserRange c.mem cr3 true ptr len
  · have hwithin := sysReadAt_within wp fd hrange
    exact iff_of_true ⟨hwithin.touched, hwithin.frame, fun h => absurd hrange h⟩ (.inl hrange)
  · have hlen : len ≠ 0 := fun h => hrange (.of_zero h)
    constructor
    · exact fun h => .inr (refusesRead_of_eq hlen (h.refused hrange))
    · intro h
      rw [sysReadAt_refused hlen (h.resolve_left hrange)]
      exact ⟨fun va hva => .inl hva, fun p hp => absurd rfl hp, fun _ => rfl⟩

/-! ## `sys_write` -/

/-- The caller's bytes are loaded, and the rest of the call neither accesses memory nor faults. -/
theorem loadThen_within {n : ℕ} {f : List UInt8 → Cpu → Cpu} {r : ℕ} (hn : n ≤ len)
    (hf : ∀ data c, (f data c).touched = c.touched ∧ (f data c).mem = c.mem)
    (h : UserRange c.mem cr3 false ptr len) :
    Within c.mem cr3 false ptr len c (Exec.Outcome.state ((do
      let data ← loadBytes c.mem cr3 wp ptr n
      modify (f data)
      pure r : Exec Empty Cpu ℕ) c)) := by
  have hload := (loadBytes_within wp c (h.take hn)).mono (le_refl ptr)
    (Nat.add_le_add_left hn ptr)
  refine hload.trans ?_
  cases hrun : loadBytes c.mem cr3 wp ptr n c with
  | ok data c' =>
    rw [Exec.bind_of_ok hrun, Exec.bind_of_ok (Exec.modify_apply _ _)]
    exact .of_eq (hf data c').1 (hf data c').2
  | error e c' =>
    rw [Exec.bind_of_error hrun]
    exact .of_eq rfl rfl

/-- A call that loaded bytes left a trace. -/
theorem loadThen_ne {n : ℕ} {f : List UInt8 → Cpu → Cpu} {r v : ℕ} (hn : n ≠ 0)
    (hf : ∀ data c, (f data c).touched = c.touched) : (do
      let data ← loadBytes c.mem cr3 wp ptr n
      modify (f data)
      pure r : Exec Empty Cpu ℕ) c ≠ .ok v c := by
  intro h
  obtain ⟨data, c₁, hload, hrest⟩ := Exec.bind_eq_ok.1 h
  rw [Exec.bind_of_ok (Exec.modify_apply _ _)] at hrest
  obtain ⟨-, heq⟩ := Exec.pure_eq_ok.1 hrest
  have htouched := loadBytes_touched c.mem cr3 wp ptr hn c
  rw [hload] at htouched
  exact htouched (by rw [← heq, hf]; rfl)

/-- A pipe takes no more than it is given. -/
theorem takes_le {t : PipeTable} {id n : ℕ} (h : Ipc.takes t id len = some n) : n ≤ len := by
  rw [Ipc.takes] at h
  cases hpipe : getPipe t id with
  | none =>
    rw [hpipe] at h
    cases h
  | some pipe =>
    rw [hpipe] at h
    simp only at h
    split at h
    · cases h
    · obtain rfl := Option.some.inj h
      exact Nat.min_le_right _ _

/-- A pipe refuses bytes when it is closed or not there. -/
theorem takes_eq_none {t : PipeTable} {id : ℕ} :
    Ipc.takes t id len = none ↔ ∀ pipe, getPipe t id = some pipe → pipe.closed := by
  rw [Ipc.takes]
  cases getPipe t id with
  | none => exact iff_of_true rfl fun _ h => nomatch h
  | some pipe =>
    simp only [Option.some.injEq, forall_eq']
    split
    · rename_i h
      exact iff_of_true rfl h
    · rename_i h
      exact iff_of_false nofun h

/-- A slice that was made leaves the rest of `sys_write` to do. -/
theorem sysWriteAt_of_slice (hlen : len ≠ 0) (hok : SliceOk ptr len) :
    sysWriteAt cr3 wp fd ptr len c = writeSlice cr3 wp fd ptr len c := by
  rw [sysWriteAt, if_neg hlen, fromRawParts, if_pos hok]
  rfl

/-- A slice that cannot be made is the end of the call. -/
theorem sysWriteAt_panic (hlen : len ≠ 0) (hbad : ¬ SliceOk ptr len) :
    sysWriteAt cr3 wp fd ptr len c = .error .panic c := by
  rw [sysWriteAt, if_neg hlen, fromRawParts, if_neg hbad]
  rfl

/-- What `sys_write` does with a slice of user memory stays there. -/
theorem writeSlice_within (wp : Bool) (fd : ℕ) (h : UserRange c.mem cr3 false ptr len) :
    Within c.mem cr3 false ptr len c (Exec.Outcome.state (writeSlice cr3 wp fd ptr len c)) := by
  rw [writeSlice]
  by_cases h1 : fd = 1
  · rw [if_pos h1, Exec.bind_of_ok (Exec.get_apply c)]
    exact loadThen_within le_rfl (fun _ _ => ⟨rfl, rfl⟩) h
  rw [if_neg h1]
  by_cases h2 : fd = 2
  · rw [if_pos h2, Exec.bind_of_ok (Exec.get_apply c)]
    exact loadThen_within le_rfl (fun _ _ => ⟨rfl, rfl⟩) h
  rw [if_neg h2, Exec.bind_of_ok (Exec.get_apply c)]
  cases c.sys.pipeOf fd with
  | none => exact .of_eq rfl rfl
  | some id =>
    show Within _ _ _ _ _ _ (Exec.Outcome.state (writePipe cr3 wp id ptr len c))
    rw [writePipe, Exec.bind_of_ok (Exec.get_apply c)]
    cases htakes : Ipc.takes c.sys.pipes id len with
    | none => exact .of_eq rfl rfl
    | some n =>
      simp only
      rw [Exec.bind_of_ok (Exec.get_apply c)]
      exact loadThen_within (takes_le htakes) (fun _ _ => ⟨rfl, rfl⟩) h

/-- `sys_write` from user memory stays there. -/
theorem sysWriteAt_within (wp : Bool) (fd : ℕ) (h : UserRange c.mem cr3 false ptr len) :
    Within c.mem cr3 false ptr len c (Exec.Outcome.state (sysWriteAt cr3 wp fd ptr len c)) := by
  by_cases hlen : len = 0
  · rw [sysWriteAt, if_pos hlen]
    exact .of_eq rfl rfl
  by_cases hok : SliceOk ptr len
  · rw [sysWriteAt_of_slice hlen hok]
    exact writeSlice_within wp fd h
  · rw [sysWriteAt_panic hlen hok]
    exact .of_eq rfl rfl

/-- A call of `sys_write` that fails without a trace was refused. -/
theorem refusesWrite_of_eq (hlen : len ≠ 0) (h : sysWriteAt cr3 wp fd ptr len c = .ok u64Max c) :
    c.sys.RefusesWrite fd ptr len := by
  by_cases hok : SliceOk ptr len
  case neg =>
    rw [sysWriteAt_panic hlen hok] at h
    cases h
  refine ⟨hok, ?_⟩
  rw [sysWriteAt_of_slice hlen hok, writeSlice] at h
  by_cases h1 : fd = 1
  · rw [if_pos h1, Exec.bind_of_ok (Exec.get_apply c)] at h
    exact absurd h (loadThen_ne hlen fun _ _ => rfl)
  rw [if_neg h1] at h
  by_cases h2 : fd = 2
  · rw [if_pos h2, Exec.bind_of_ok (Exec.get_apply c)] at h
    exact absurd h (loadThen_ne hlen fun _ _ => rfl)
  rw [if_neg h2, Exec.bind_of_ok (Exec.get_apply c)] at h
  refine ⟨h1, h2, fun id hid => ?_⟩
  rw [hid] at h
  have hpipe : writePipe cr3 wp id ptr len c = .ok u64Max c := h
  rw [writePipe, Exec.bind_of_ok (Exec.get_apply c)] at hpipe
  cases htakes : Ipc.takes c.sys.pipes id len with
  | none => exact takes_eq_none.1 htakes
  | some n =>
    rw [htakes] at hpipe
    simp only at hpipe
    rw [Exec.bind_of_ok (Exec.get_apply c)] at hpipe
    by_cases hn : n = 0
    · obtain ⟨data, c₁, -, hrest⟩ := Exec.bind_eq_ok.1 hpipe
      rw [Exec.bind_of_ok (Exec.modify_apply _ _)] at hrest
      obtain ⟨hvalue, -⟩ := Exec.pure_eq_ok.1 hrest
      rw [hn] at hvalue
      exact absurd hvalue (by decide)
    · exact absurd hpipe (loadThen_ne hn fun _ _ => rfl)

/-- A call that is refused returns the error and changes nothing. -/
theorem sysWriteAt_refused (hlen : len ≠ 0) (h : c.sys.RefusesWrite fd ptr len) :
    sysWriteAt cr3 wp fd ptr len c = .ok u64Max c := by
  obtain ⟨hok, h1, h2, hpipe⟩ := h
  rw [sysWriteAt_of_slice hlen hok, writeSlice, if_neg h1, if_neg h2,
    Exec.bind_of_ok (Exec.get_apply c)]
  cases hid : c.sys.pipeOf fd with
  | none => rfl
  | some id =>
    show writePipe cr3 wp id ptr len c = _
    rw [writePipe, Exec.bind_of_ok (Exec.get_apply c), takes_eq_none.2 (hpipe id hid)]
    rfl

/-- `sys_write` stays inside user memory exactly for a range that is user memory, or when it is
refused. -/
theorem sysWriteAt_confined_iff : Confined cr3 false ptr len c (sysWriteAt cr3 wp fd ptr len c) ↔
    UserRange c.mem cr3 false ptr len ∨ c.sys.RefusesWrite fd ptr len := by
  by_cases hrange : UserRange c.mem cr3 false ptr len
  · have hwithin := sysWriteAt_within wp fd hrange
    exact iff_of_true ⟨hwithin.touched, hwithin.frame, fun h => absurd hrange h⟩ (.inl hrange)
  · have hlen : len ≠ 0 := fun h => hrange (.of_zero h)
    constructor
    · exact fun h => .inr (refusesWrite_of_eq hlen (h.refused hrange))
    · intro h
      rw [sysWriteAt_refused hlen (h.resolve_left hrange)]
      exact ⟨fun va hva => .inl hva, fun p hp => absurd rfl hp, fun _ => rfl⟩

/-- The two calls stay inside the user memory of the caller exactly when the pointer and the length
the caller gives do, or the call fails on its descriptor before it comes to them. -/
theorem confined_iff (cr3 : ℕ) (wp : Bool) (fd ptr len : ℕ) (c : Cpu) :
    (Confined cr3 true ptr len c (sysReadAt cr3 wp fd ptr len c) ↔
      UserRange c.mem cr3 true ptr len ∨ c.sys.RefusesRead fd ptr len) ∧
    (Confined cr3 false ptr len c (sysWriteAt cr3 wp fd ptr len c) ↔
      UserRange c.mem cr3 false ptr len ∨ c.sys.RefusesWrite fd ptr len) :=
  ⟨sysReadAt_confined_iff, sysWriteAt_confined_iff⟩

end

/-- A task whose page tables map the first gigabyte for the kernel only, with a pipe that holds one
byte. -/
def kernelMapped : Cpu where
  sys :=
    { tasks := []
      currentTask := some
        { id := 2, stack := ⟨0, 0, 0, 0, 0⟩, kernelStackTop := 0, rsp := 0, cr3 := 0x1000,
          state := .running, isUser := true, heapEnd := 0,
          fdTable := FdTable.withStdio.set 3 (some (.pipe 0)) }
      pipes := [some ⟨[0xCC], false⟩]
      keyboard := .start fun _ => 0
      vfs := ⟨none, none⟩
      disk := emptyDisk }
  mem := setWord (setWord (fun _ => 0) 0x1000 0 0x2003) 0x2000 0 0x83
  screen := []
  serial := []
  touched := []

/-- The task reads the byte into a page of the kernel. -/
theorem read_into_kernel :
    ¬ Confined 0x1000 true 0x5000 1 kernelMapped
      (sysReadAt 0x1000 true 3 0x5000 1 kernelMapped) := by
  intro h
  have hrun := h.refused (by decide +kernel)
  have hwrong : (Exec.Outcome.state (sysReadAt 0x1000 true 3 0x5000 1 kernelMapped)).mem 0x5000 =
      kernelMapped.mem 0x5000 := by
    rw [hrun]
    rfl
  exact absurd hwrong (by decide +kernel)

end RossOs
