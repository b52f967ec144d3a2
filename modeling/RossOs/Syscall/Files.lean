import RossOs.Syscall.Model

/-!
# Descriptors as streams

What a task reads through a descriptor of a file, over a whole run of its system calls. `Reader`
keeps, beside the system, for each descriptor that `sys_open` returned the node the path led to, how
many bytes were asked for since, and which bytes were returned. `streams_law` says that these are
the first bytes of the file. The files do not change meanwhile, and the other tasks may do with the
queue, the pipes and the keyboard buffer what they like.
-/

namespace RossOs

open ByteMem Ipc

/-! ## Runs -/

/-- What was read through a descriptor since it was opened. -/
structure Stream where
  node : Node
  requested : ℕ
  returned : List UInt8

/-- The system, and the descriptors of the current task that `sys_open` returned and that were not
closed since. -/
structure Reader where
  sys : SysState
  streams : ℕ → Option Stream

/-- A system call of the task, or what the other tasks do until it runs again. -/
inductive FileAction
  | sysOpen (fuel : ℕ) (path : List Char)
  | sysRead (fd len : ℕ)
  | sysPipe
  | sysClose (fd : ℕ)
  | others (tasks : List Proc) (pipes : PipeTable) (keyboard : Kbuf.State UInt8)

/-- The bytes that a call of `sys_read` returned. -/
def returnedBytes : Exec.Outcome Empty SysState (ℕ × List UInt8) → List UInt8
  | .ok r _ => r.2
  | .error _ _ => []

namespace Reader

/-- The descriptors after `sys_open`. -/
def opened (r : Reader) (fuel : ℕ) (path : List Char) : ℕ → Option Stream :=
  match RossOs.sysOpen fuel path r.sys, r.sys.vfs.openPath fuel path r.sys.disk with
  | .ok fd _, .ok node _ =>
    if fd = u64Max then r.streams else Function.update r.streams fd (some ⟨node, 0, []⟩)
  | _, _ => r.streams

/-- The descriptors after `sys_read`. -/
def extended (r : Reader) (fd len : ℕ) : ℕ → Option Stream :=
  Function.update r.streams fd ((r.streams fd).map fun st =>
    { st with
      requested := st.requested + len
      returned := st.returned ++ returnedBytes (RossOs.sysRead fd len r.sys) })

/-- The descriptors after `sys_close`. -/
def closed (r : Reader) (fd : ℕ) : ℕ → Option Stream :=
  match RossOs.sysClose fd r.sys with
  | .ok 0 _ => Function.update r.streams fd none
  | _ => r.streams

/-- One step. -/
def step (r : Reader) : FileAction → Reader
  | .sysOpen fuel path => ⟨Exec.Outcome.state (RossOs.sysOpen fuel path r.sys), r.opened fuel path⟩
  | .sysRead fd len => ⟨Exec.Outcome.state (RossOs.sysRead fd len r.sys), r.extended fd len⟩
  | .sysPipe => ⟨Exec.Outcome.state (RossOs.sysPipe r.sys), r.streams⟩
  | .sysClose fd => ⟨Exec.Outcome.state (RossOs.sysClose fd r.sys), r.closed fd⟩
  | .others tasks pipes keyboard =>
    ⟨{ r.sys with tasks := tasks, pipes := pipes, keyboard := keyboard }, r.streams⟩

end Reader

/-- The law: an open descriptor names the node it was opened on, and when that is a file, what was
returned are its first bytes, as many as were asked for or as there are. -/
def StreamLaw (r : Reader) : Prop :=
  ∀ fd st, r.streams fd = some st →
    (∃ t offset, r.sys.fdTable = some t ∧ t.get fd = some (.vfsFile st.node offset)) ∧
    ∀ bytes, st.node.Holds r.sys.disk bytes →
      st.returned = bytes.take (min st.requested bytes.length)

/-! ## The frame of the calls -/

/-- A system call that changes at most one slot of the caller's table, and neither the disk nor
what is mounted. -/
structure Touches (fd : ℕ) (s s' : SysState) : Prop where
  disk : s'.disk = s.disk
  vfs : s'.vfs = s.vfs
  table : s'.fdTable = s.fdTable ∨ fd < fdMax ∧
    ∃ t e, s.fdTable = some t ∧ s'.fdTable = some (t.set fd e)

section
variable {s : SysState} {t : FdTable} {fd len : ℕ}

/-- A state that did not change has touched no descriptor. -/
theorem Touches.refl (fd : ℕ) (s : SysState) : Touches fd s s := ⟨rfl, rfl, .inl rfl⟩

/-- A step that touches one descriptor leaves the others. -/
theorem Touches.get_of_ne {s' : SysState} (h : Touches fd s s') (ht : s.fdTable = some t) {fd' : ℕ}
    (hne : fd' ≠ fd) : ∃ t', s'.fdTable = some t' ∧ t'.get fd' = t.get fd' := by
  rcases h.table with heq | ⟨hlt, t₀, e, ht₀, heq⟩
  · exact ⟨t, heq.trans ht, rfl⟩
  · obtain rfl := Option.some.inj (ht₀.symm.trans ht)
    refine ⟨_, heq, ?_⟩
    rw [FdTable.get_set hlt, if_neg hne]

/-- Moving an offset touches one descriptor. -/
theorem advance_touches (fd n : ℕ) (s : SysState) : Touches fd s (s.advance fd n) := by
  rw [SysState.advance]
  cases ht : s.fdTable with
  | none => exact .refl fd s
  | some t =>
    simp only
    split
    case h_1 node offset hget =>
      exact ⟨rfl, rfl, .inr ⟨FdTable.lt_of_get hget, t, _, ht, SysState.fdTable_setTable ht _⟩⟩
    case h_2 => exact .refl fd s

/-- `sys_read` leaves the drive, what is mounted, and every other descriptor. -/
theorem sysRead_touches (fd len : ℕ) (s : SysState) :
    Touches fd s (Exec.Outcome.state (sysRead fd len s)) := by
  by_cases hlen : len = 0
  · rw [sysRead, if_pos hlen]
    exact .refl fd s
  by_cases hfd : fd = 0
  · rw [sysRead, if_neg hlen, if_pos hfd]
    exact ⟨rfl, rfl, .inl rfl⟩
  cases h : s.readTarget fd with
  | none =>
    rw [sysRead_of_none hlen hfd h]
    exact .refl fd s
  | some target =>
    cases target with
    | pipe id =>
      rw [sysRead_of_pipe hlen hfd h, readPipe, Exec.bind_of_ok (Exec.get_apply s),
        Exec.bind_of_ok (Exec.modify_apply _ s)]
      cases (Ipc.read id (List.replicate len 0) s.pipes).1 with
      | ok r => exact ⟨rfl, rfl, .inl rfl⟩
      | error e => exact ⟨rfl, rfl, .inl rfl⟩
    | file node offset =>
      rw [sysRead_of_file hlen hfd h]
      rcases (node.read_readOnly offset (List.replicate len 0)).outcome s.disk with
        ⟨r, hr⟩ | ⟨e, he⟩
      · rw [readFile_of_ok hr]
        exact advance_touches fd r.1 s
      · rcases readFile_of_error he with ⟨-, heq⟩ | ⟨e, heq⟩
        · rw [heq]
          exact .refl fd s
        · rw [heq]
          exact .refl fd s

/-- A new entry leaves the others: it goes into a slot that was free. -/
theorem allocFd_keeps (e : FdEntry) (ht : s.fdTable = some t) {e' : FdEntry}
    (hget : t.get fd = some e') : ∃ t', (Exec.Outcome.state (allocFd e s)).fdTable = some t' ∧
      t'.get fd = some e' := by
  rw [allocFd_run ht]
  refine ⟨_, SysState.fdTable_setTable ht _, ?_⟩
  rcases t.alloc_spec e with ⟨i, -, hi, hfree, heq⟩ | ⟨-, heq⟩
  · rw [heq, FdTable.get_set hi, if_neg, hget]
    rintro rfl
    rw [hfree] at hget
    cases hget
  · rwa [heq]

/-- A new descriptor leaves the drive. -/
theorem allocFd_disk (e : FdEntry) (s : SysState) :
    (Exec.Outcome.state (allocFd e s)).disk = s.disk := by
  cases ht : s.fdTable with
  | none => rw [allocFd_none ht]; rfl
  | some t => rw [allocFd_run ht]; rfl

end

/-! ## The invariant -/

/-- What holds of a descriptor: its slot has the node, and when that is a file, the offset is where
the returned bytes end. The slots below 3 are never used, which matters for number 0: `sys_read`
takes it for the keyboard. -/
structure Stream.Sound (s : SysState) (fd : ℕ) (st : Stream) : Prop where
  three_le : 3 ≤ fd
  slot : ∃ t offset, s.fdTable = some t ∧ t.get fd = some (.vfsFile st.node offset) ∧
    ∀ bytes, st.node.Holds s.disk bytes →
      offset = min st.requested bytes.length ∧ st.returned = bytes.take st.requested

/-- The invariant. -/
def StreamInv (r : Reader) : Prop := ∀ fd st, r.streams fd = some st → st.Sound r.sys fd

section
variable {r : Reader} {s s' : SysState} {fd : ℕ} {st : Stream}

/-- A descriptor stays sound while its slot and the disk stay. -/
theorem Stream.Sound.of_get (h : st.Sound s fd) (hdisk : s'.disk = s.disk)
    (hget : ∀ t e, s.fdTable = some t → t.get fd = some e →
      ∃ t', s'.fdTable = some t' ∧ t'.get fd = some e) : st.Sound s' fd := by
  obtain ⟨h3, t, offset, ht, hslot, hbytes⟩ := h
  obtain ⟨t', ht', hslot'⟩ := hget t _ ht hslot
  refine ⟨h3, t', offset, ht', hslot', ?_⟩
  rw [hdisk]
  exact hbytes

/-- A step on one descriptor leaves the streams of the others. -/
theorem Stream.Sound.touches (h : st.Sound s fd) {fd' : ℕ} (htouch : Touches fd' s s')
    (hne : fd ≠ fd') : st.Sound s' fd := by
  refine h.of_get htouch.disk fun t e ht hget => ?_
  obtain ⟨t', ht', heq⟩ := htouch.get_of_ne ht hne
  exact ⟨t', ht', heq.trans hget⟩

/-- `sys_open` keeps the streams, and starts the one of its descriptor. -/
theorem StreamInv.sysOpen (h : StreamInv r) (fuel : ℕ) (path : List Char) :
    StreamInv (r.step (.sysOpen fuel path)) := by
  intro fd st hst
  show st.Sound (Exec.Outcome.state (RossOs.sysOpen fuel path r.sys)) fd
  have hst' : r.opened fuel path fd = some st := hst
  rw [Reader.opened] at hst'
  rcases sysOpen_cases r.sys fuel path with ⟨node, hopen, heq⟩ | ⟨⟨e, hopen⟩, heq⟩
  · rw [heq] at hst' ⊢
    rw [hopen] at hst'
    have hkeep : ∀ {fd st}, r.streams fd = some st →
        st.Sound (Exec.Outcome.state (allocFd (.vfsFile node 0) r.sys)) fd := fun hfd =>
      (h _ _ hfd).of_get (allocFd_disk _ _) fun t e ht hget => allocFd_keeps _ ht hget
    cases ht : r.sys.fdTable with
    | none =>
      rw [allocFd_none ht] at hst'
      exact hkeep hst'
    | some t =>
      rw [allocFd_run ht] at hst'
      rcases t.alloc_spec (.vfsFile node 0) with ⟨i, hi3, hi, -, halloc⟩ | ⟨-, halloc⟩
      · rw [halloc] at hst'
        have hi' : i ≠ u64Max := by
          rintro rfl
          exact absurd hi (by decide)
        simp only [Option.getD_some, if_neg hi'] at hst'
        by_cases hfd : fd = i
        · subst hfd
          rw [Function.update_self] at hst'
          obtain rfl := Option.some.inj hst'
          refine ⟨hi3, t.set fd (some (.vfsFile node 0)), 0, ?_, ?_, fun bytes _ => ⟨?_, rfl⟩⟩
          · rw [allocFd_run ht, halloc]
            exact SysState.fdTable_setTable ht _
          · rw [FdTable.get_set hi, if_pos rfl]
          · exact (Nat.zero_min _).symm
        · rw [Function.update_of_ne hfd] at hst'
          exact hkeep hst'
      · rw [halloc] at hst'
        exact hkeep hst'
  · rw [hopen] at hst'
    rcases heq with heq | ⟨e, heq⟩
    · rw [heq] at hst' ⊢
      exact h _ _ hst'
    · rw [heq] at hst' ⊢
      exact h _ _ hst'

/-- What a read adds to the bytes returned so far. -/
theorem take_append_slice (bytes : List UInt8) (requested len : ℕ) :
    bytes.take requested ++ slice bytes (min requested bytes.length) len =
      bytes.take (requested + len) := by
  rcases Nat.le_total requested bytes.length with hle | hle
  · rw [Nat.min_eq_left hle, slice, List.take_add]
  · rw [Nat.min_eq_right hle, slice, List.drop_length, List.take_nil, List.append_nil,
      List.take_of_length_le hle, List.take_of_length_le (by omega)]

/-- `sys_read` on a descriptor of a file. -/
theorem Stream.Sound.sysRead (h : st.Sound s fd) (len : ℕ) :
    Stream.Sound (Exec.Outcome.state (RossOs.sysRead fd len s)) fd
      { st with
        requested := st.requested + len
        returned := st.returned ++ returnedBytes (RossOs.sysRead fd len s) } := by
  obtain ⟨h3, t, offset, ht, hslot, hbytes⟩ := h
  by_cases hlen : len = 0
  · rw [RossOs.sysRead, if_pos hlen, hlen]
    refine ⟨h3, t, offset, ht, hslot, fun bytes hb => ?_⟩
    rw [show returnedBytes ((pure (0, []) : Exec Empty SysState _) s) = [] from rfl,
      List.append_nil]
    exact hbytes bytes hb
  have htarget : s.readTarget fd = some (.file st.node offset) := by
    rw [SysState.readTarget, ht, Option.bind_some, hslot]
  rw [sysRead_of_file hlen (by omega) htarget]
  rcases (st.node.read_readOnly offset (List.replicate len 0)).outcome s.disk with ⟨r, hr⟩ | ⟨e, he⟩
  · have hadvance : s.advance fd r.1 =
        s.setTable (t.set fd (some (.vfsFile st.node (offset + r.1)))) := by
      rw [SysState.advance, ht]
      simp only [hslot]
    rw [readFile_of_ok hr, Exec.Outcome.state, hadvance]
    refine ⟨h3, t.set fd (some (.vfsFile st.node (offset + r.1))), offset + r.1,
      SysState.fdTable_setTable ht _, ?_, fun bytes (hb : st.node.Holds s.disk bytes) => ?_⟩
    · rw [FdTable.get_set (FdTable.lt_of_get hslot), if_pos rfl]
    · obtain ⟨hoff, hret⟩ := hbytes bytes hb
      have hrun := Node.read_run hb offset (List.replicate len 0)
      rw [List.length_replicate, hr] at hrun
      obtain rfl : r = _ := by
        injection hrun
      have hslice : (slice bytes offset len).length = min len (bytes.length - offset) := by
        rw [slice, List.length_take, List.length_drop]
      constructor
      · show offset + min len (bytes.length - offset) = min (st.requested + len) bytes.length
        omega
      · show st.returned ++ (splice (List.replicate len 0) 0 (slice bytes offset len)).take
          (min len (bytes.length - offset)) = bytes.take (st.requested + len)
        rw [splice, List.take_zero, List.nil_append, List.take_left' hslice, hret, hoff,
          take_append_slice]
  · have hno : ∀ bytes, ¬ st.node.Holds s.disk bytes := by
      intro bytes hb
      rw [Node.read_run hb] at he
      cases he
    have hstate : Exec.Outcome.state (readFile fd st.node offset len s) = s := by
      rcases readFile_of_error he with ⟨-, heq⟩ | ⟨e, heq⟩
      · rw [heq]
        rfl
      · rw [heq]
        rfl
    rw [hstate]
    exact ⟨h3, t, offset, ht, hslot, fun bytes hb => absurd hb (hno bytes)⟩

/-- `sys_read` keeps the streams, and extends the one of its descriptor. -/
theorem StreamInv.sysRead (h : StreamInv r) (fd len : ℕ) :
    StreamInv (r.step (.sysRead fd len)) := by
  intro fd' st hst
  have hst' : r.extended fd len fd' = some st := hst
  rw [Reader.extended] at hst'
  by_cases hfd : fd' = fd
  · subst hfd
    rw [Function.update_self, Option.map_eq_some_iff] at hst'
    obtain ⟨st₀, hst₀, rfl⟩ := hst'
    exact (h _ _ hst₀).sysRead len
  · rw [Function.update_of_ne hfd] at hst'
    exact (h _ _ hst').touches (sysRead_touches fd len r.sys) hfd

/-- `sys_pipe` keeps the streams. -/
theorem StreamInv.sysPipe (h : StreamInv r) : StreamInv (r.step .sysPipe) := by
  intro fd st hst
  show st.Sound (Exec.Outcome.state (RossOs.sysPipe r.sys)) fd
  cases hcreate : (Ipc.create r.sys.pipes).1 with
  | none =>
    rw [sysPipe_of_none hcreate]
    exact h _ _ hst
  | some id =>
    rw [sysPipe_of_some hcreate]
    refine (h _ _ hst).of_get (allocFd_disk _ _) fun t e ht hget => ?_
    exact allocFd_keeps (s := { r.sys with pipes := (Ipc.create r.sys.pipes).2 }) _ ht hget

/-- `sys_close` keeps the streams, and ends the one of its descriptor. -/
theorem StreamInv.sysClose (h : StreamInv r) (fd : ℕ) : StreamInv (r.step (.sysClose fd)) := by
  intro fd' st hst
  show st.Sound (Exec.Outcome.state (RossOs.sysClose fd r.sys)) fd'
  have hst' : r.closed fd fd' = some st := hst
  rw [Reader.closed] at hst'
  cases ht : r.sys.fdTable with
  | none =>
    have hclose : RossOs.sysClose fd r.sys = .ok u64Max r.sys := by
      rw [RossOs.sysClose, Exec.bind_of_ok (Exec.get_apply _)]
      simp only [ht]
      rfl
    rw [hclose] at hst' ⊢
    exact h _ _ hst'
  | some t =>
    have hclose : RossOs.sysClose fd r.sys =
        .ok (if (t.close fd).1 then 0 else u64Max) (r.sys.setTable (t.close fd).2) := by
      rw [RossOs.sysClose, Exec.bind_of_ok (Exec.get_apply _)]
      simp only [ht]
      rfl
    rw [hclose] at hst' ⊢
    rcases t.close_spec fd with ⟨e, hget, heq⟩ | ⟨-, heq⟩
    · rw [heq] at hst' ⊢
      by_cases hfd : fd' = fd
      · simp [hfd] at hst'
      · have hst₀ : r.streams fd' = some st := by simpa [hfd] using hst'
        refine (h _ _ hst₀).touches ⟨rfl, rfl, .inr ⟨FdTable.lt_of_get hget, t, none, ht, ?_⟩⟩ hfd
        exact SysState.fdTable_setTable ht _
    · rw [heq] at hst' ⊢
      have hst₀ : r.streams fd' = some st := hst'
      refine (h _ _ hst₀).of_get rfl fun t' e ht' hget => ⟨t, SysState.fdTable_setTable ht _, ?_⟩
      obtain rfl := Option.some.inj (ht.symm.trans ht')
      exact hget

/-- Every step keeps the streams. -/
theorem StreamInv.step (h : StreamInv r) (a : FileAction) : StreamInv (r.step a) := by
  cases a with
  | sysOpen fuel path => exact h.sysOpen fuel path
  | sysRead fd len => exact h.sysRead fd len
  | sysPipe => exact h.sysPipe
  | sysClose fd => exact h.sysClose fd
  | others tasks pipes keyboard =>
    exact fun fd st hst => (h fd st hst).of_get rfl fun t e ht hget => ⟨t, ht, hget⟩

end

/-- Every descriptor reads its file as a stream, in every order of the task's system calls. -/
theorem streams_law (s : SysState) (l : List FileAction) :
    StreamLaw (l.foldl Reader.step ⟨s, fun _ => none⟩) := by
  have hinv : StreamInv (l.foldl Reader.step ⟨s, fun _ => none⟩) := by
    have key : ∀ r, StreamInv r → StreamInv (l.foldl Reader.step r) := by
      induction l with
      | nil => exact fun r hr => hr
      | cons a l ih => exact fun r hr => ih _ (hr.step a)
    exact key _ fun fd st hst => nomatch hst
  intro fd st hst
  obtain ⟨-, t, offset, ht, hslot, hbytes⟩ := hinv fd st hst
  refine ⟨⟨t, offset, ht, hslot⟩, fun bytes hb => ?_⟩
  rw [(hbytes bytes hb).2]
  rcases Nat.le_total st.requested bytes.length with hle | hle
  · rw [Nat.min_eq_left hle]
  · rw [Nat.min_eq_right hle, List.take_length, List.take_of_length_le hle]

end RossOs
