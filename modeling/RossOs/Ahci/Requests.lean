import RossOs.Ahci.Controller
import RossOs.Lib.Serve
import RossOs.Paging.Space

/-!
# The requests of the AHCI driver

With a controller that behaves (`Lawful`) the driver is the sector interface of `Fat/Disk.lean`:
each request gives the answer that the drive gives there and leaves the drive as it is left there,
however long the controller takes and whatever else in memory changes between two requests
(`requests_refine`). The command that the driver lays out is the one that the controller fetches
(`fetch_filled`), and the polling loop comes to its end (`pollDone_busy`).
-/

namespace RossOs

open ByteMem Exec Paging

namespace Ahci

/-! ## Steps of the controller -/

section
variable {δ σ : Type} {hba : Hba δ} {P : Port δ} {s s' s'' : State δ σ}

/-- What no access to a register changes. -/
structure Kept (P : Port δ) (s s' : State δ σ) : Prop where
  pages : s'.pages = s.pages
  port : s'.port = s.port
  reg : ∀ r ∈ programmed, P.reg s'.hba r = P.reg s.hba r

/-- A state keeps what an access keeps. -/
theorem Kept.refl (s : State δ σ) : Kept P s s := ⟨rfl, rfl, fun _ _ => rfl⟩

/-- Two accesses keep what each of them keeps. -/
theorem Kept.trans (h : Kept P s s') (h' : Kept P s' s'') : Kept P s s'' :=
  ⟨h'.pages.trans h.pages, h'.port.trans h.port, fun r hr => (h'.reg r hr).trans (h.reg r hr)⟩

/-- The address of the command list stays. -/
theorem Kept.clb (h : Kept P s s') : P.clb s'.hba = P.clb s.hba := by
  unfold Port.clb
  rw [h.reg pxClb (by decide), h.reg pxClbu (by decide)]

/-- The address for received FISes stays. -/
theorem Kept.fb (h : Kept P s s') : P.fb s'.hba = P.fb s.hba := by
  unfold Port.fb
  rw [h.reg pxFb (by decide), h.reg pxFbu (by decide)]

/-- Whether the port is started stays. -/
theorem Kept.started (h : Kept P s s') : P.Started s'.hba ↔ P.Started s.hba := by
  unfold Port.Started
  rw [h.reg pxCmd (by decide)]

/-- Where the port may post stays. -/
theorem Kept.posts (h : Kept P s s') (a : ℕ) : P.Posts s'.hba a ↔ P.Posts s.hba a := by
  unfold Port.Posts
  rw [h.reg pxCmd (by decide), h.fb]

/-- What a command may touch stays. -/
theorem Kept.touches (h : Kept P s s') (c : Command) (a : ℕ) :
    P.Touches s'.hba c a ↔ P.Touches s.hba c a := by
  unfold Port.Touches
  rw [h.posts, h.clb]

/-- Accesses while no command is there. -/
structure Still (P : Port δ) (failed : Bool) (s s' : State δ σ) : Prop extends Kept P s s' where
  slot : P.slot s'.hba = .idle failed
  drive : P.drive s'.hba = P.drive s.hba
  mem : ∀ a, ¬ P.Posts s.hba a → s'.mem a = s.mem a

/-- A port without a command is still. -/
theorem Still.refl {failed : Bool} (h : P.slot s.hba = .idle failed) : Still P failed s s :=
  ⟨Kept.refl s, h, rfl, fun _ _ => rfl⟩

/-- A port without a command stays so over two accesses. -/
theorem Still.trans {failed : Bool} (h : Still P failed s s') (h' : Still P failed s' s'') :
    Still P failed s s'' where
  toKept := h.toKept.trans h'.toKept
  slot := h'.slot
  drive := h'.drive.trans h.drive
  mem := by
    intro a ha
    rw [h'.mem a ((h.posts a).not.2 ha), h.mem a ha]

/-- Accesses while the command is in flight, or in which it ends. -/
structure Moves (P : Port δ) (c : Command) (s s' : State δ σ) : Prop extends Kept P s s' where
  mem : ∀ a, ¬ P.Touches s.hba c a → s'.mem a = s.mem a

/-- What a command touches over two accesses it may touch. -/
theorem Moves.trans {c : Command} (h : Moves P c s s') (h' : Moves P c s' s'') :
    Moves P c s s'' where
  toKept := h.toKept.trans h'.toKept
  mem := by
    intro a ha
    rw [h'.mem a ((h.touches c a).not.2 ha), h.mem a ha]

/-- An access while no command is there may come before or after a command's. -/
theorem Still.moves {failed : Bool} (h : Still P failed s s') (c : Command) : Moves P c s s' where
  toKept := h.toKept
  mem := fun a ha => h.mem a fun hp => ha (.inl hp)

/-- The command ended. -/
structure Ended (P : Port δ) (c : Command) (d : Disk) (failed : Bool) (s s' : State δ σ) : Prop
    extends Moves P c s s' where
  slot : P.slot s'.hba = .idle failed
  done : Completes c d s'.mem failed (P.drive s'.hba)

/-! ## One access -/

variable {port off : ℕ} {failed : Bool} {left : ℕ} {c : Command} {d : Disk}

/-- A read of a register is a step of the controller. -/
theorem portRead_run (hl : Lawful hba port P) (off : ℕ) (s : State δ σ) : ∃ v s',
    portRead hba port off s = .ok v s' ∧
      hba.mmioRead (portReg port off) (s.mem, s.hba) = (v, s'.mem, s'.hba) ∧
      Progress P s.mem s.hba s'.mem s'.hba ∧ Kept P s s' := by
  rcases hread : hba.mmioRead (portReg port off) (s.mem, s.hba) with ⟨v, m, h⟩
  have hp := hl.read_progress _ _ _ _ _ _ hread
  refine ⟨v, { s with mem := m, hba := h }, ?_, rfl, hp, rfl, rfl, hp.reg⟩
  unfold portRead mmioRead
  rw [hread]

/-- A read of a register while no command is there. -/
theorem portRead_idle (hl : Lawful hba port P) (off : ℕ) (hs : P.slot s.hba = .idle failed) :
    ∃ v s', portRead hba port off s = .ok v s' ∧
      hba.mmioRead (portReg port off) (s.mem, s.hba) = (v, s'.mem, s'.hba) ∧
      Still P failed s s' := by
  obtain ⟨v, s', hrun, hread, hp, hkept⟩ := portRead_run hl off s
  obtain ⟨hmem, hslot, hdrive⟩ := hp.idle failed hs
  exact ⟨v, s', hrun, hread, hkept, hslot, hdrive, hmem⟩

/-- A read of a register while a command is in flight: it comes nearer to its end, or ends. -/
theorem portRead_busy (hl : Lawful hba port P) (off : ℕ) (hs : P.slot s.hba = .busy left c d) :
    ∃ v s', portRead hba port off s = .ok v s' ∧
      hba.mmioRead (portReg port off) (s.mem, s.hba) = (v, s'.mem, s'.hba) ∧ Moves P c s s' ∧
      ((∃ left' < left, P.slot s'.hba = .busy left' c d) ∨ ∃ failed, Ended P c d failed s s') := by
  obtain ⟨v, s', hrun, hread, hp, hkept⟩ := portRead_run hl off s
  obtain ⟨hmem, hend⟩ := hp.busy left c d hs
  refine ⟨v, s', hrun, hread, ⟨hkept, hmem⟩, ?_⟩
  rcases hend with hbusy | ⟨failed, hslot, hdone⟩
  · exact .inl hbusy
  · exact .inr ⟨failed, ⟨hkept, hmem⟩, hslot, hdone⟩

/-- A write to a register with no command there, other than the one that starts it. -/
theorem portWrite_run (hl : Lawful hba port P) {off v : ℕ}
    (hoff : Programs port (portReg port off) v) (hs : P.slot s.hba = .idle false) :
    ∃ s', portWrite hba port off v s = .ok ⟨⟩ s' ∧ s'.pages = s.pages ∧ s'.port = s.port ∧
      P.slot s'.hba = .idle false ∧ P.drive s'.hba = P.drive s.hba ∧
      (∀ a, ¬ P.Posts s.hba a → ¬ P.Posts s'.hba a → s'.mem a = s.mem a) ∧
      ∀ r ∈ programmed, P.reg s'.hba r = if off = r then v else P.reg s.hba r := by
  rcases hwrite : hba.mmioWrite (portReg port off) v (s.mem, s.hba) with ⟨m, h⟩
  obtain ⟨hmem, hslot, hdrive, hreg⟩ := hl.write_reg _ _ _ _ _ _ hoff hs hwrite
  refine ⟨{ s with mem := m, hba := h }, ?_, rfl, rfl, hslot, hdrive, hmem, fun r hr => ?_⟩
  · unfold portWrite mmioWrite
    rw [modify_apply, hwrite]
  · rw [hreg r hr]
    simp only [portReg, Nat.add_left_cancel_iff]

/-! ## Loops -/

/-- Waiting for a port that has no command. -/
theorem waitClear_still (hl : Lawful hba port P) (off mask n : ℕ)
    (hs : P.slot s.hba = .idle false) :
    ∃ s', waitClear hba port off mask n s = .ok ⟨⟩ s' ∧ Still P false s s' := by
  induction n generalizing s with
  | zero => exact ⟨s, rfl, .refl hs⟩
  | succ n ih =>
    obtain ⟨v, s₁, hrun, -, hstill⟩ := portRead_idle hl off hs
    unfold waitClear
    rw [bind_of_ok hrun]
    split
    case isTrue => exact ⟨s₁, rfl, hstill⟩
    case isFalse =>
      obtain ⟨s₂, hrun₂, hstill₂⟩ := ih hstill.slot
      exact ⟨s₂, hrun₂, hstill.trans hstill₂⟩

/-- Polling for a command that failed. -/
theorem pollDone_failed (hl : Lawful hba port P) (n : ℕ) (hs : P.slot s.hba = .idle true) :
    ∃ s', pollDone hba port (n + 1) s = .error (.err "AHCI task file error") s' ∧
      Still P true s s' := by
  obtain ⟨v, s₁, hrun, hread, hstill⟩ := portRead_idle hl pxIs hs
  refine ⟨s₁, ?_, hstill⟩
  unfold pollDone
  rw [bind_of_ok hrun, if_pos ((hl.is_value _ _ _ _ _ hread).2 hstill.slot)]
  rfl

/-- How a command ended does not depend on memory outside its buffer. -/
theorem Completes.congr {m m' : Mem} {d' : Disk} (h : Completes c d m failed d')
    (hmem : ∀ i < c.bytes, m' (c.dba + i) = m (c.dba + i)) : Completes c d m' failed d' := by
  have hread : ByteMem.read m' c.dba c.bytes = ByteMem.read m c.dba c.bytes := read_congr hmem
  cases h with
  | read hop hdir hfit hdata => exact .read hop hdir hfit (hread.trans hdata)
  | write hop hdir hfit =>
    rw [← hread]
    exact .write hop hdir hfit
  | beyond hd => exact .beyond hd
  | refused d' hfit hd => exact .refused d' hfit hd
  | other failed d' hnr hnw => exact .other failed d' hnr hnw

/-- A command that has ended, some accesses later. -/
theorem Ended.still (h : Ended P c d failed s s') (h' : Still P failed s' s'')
    (hbuf : ∀ i < c.bytes, ¬ P.Posts s.hba (c.dba + i)) : Ended P c d failed s s'' where
  toMoves := h.toMoves.trans (h'.moves c)
  slot := h'.slot
  done := by
    rw [h'.drive]
    exact h.done.congr fun i hi => h'.mem _ ((h.posts _).not.2 (hbuf i hi))

/-- A command that ends after further accesses ends in their course. -/
theorem Moves.ended (h : Moves P c s s') (h' : Ended P c d failed s' s'') :
    Ended P c d failed s s'' :=
  ⟨h.trans h'.toMoves, h'.slot, h'.done⟩

/-- How a run of a command ended: well, or with the task file error. -/
def Answered (P : Port δ) (c : Command) (d : Disk) {α : Type} (a : α) (s : State δ σ)
    (r : Outcome String (State δ σ) α) : Prop :=
  (∃ s', r = .ok a s' ∧ Ended P c d false s s') ∨
    ∃ s', r = .error (.err "AHCI task file error") s' ∧ Ended P c d true s s'

/-- The polling loop sees the end of a command that ends in time. The number of turns left exceeds
the time that the command has left. -/
theorem pollDone_busy (hl : Lawful hba port P) (hbuf : ∀ i < c.bytes, ¬ P.Posts s.hba (c.dba + i))
    {n : ℕ} (hn : left < n) (hs : P.slot s.hba = .busy left c d) :
    Answered P c d true s (pollDone hba port n s) := by
  induction n generalizing left s with
  | zero => omega
  | succ n ih =>
    obtain ⟨v, s₁, hrun, hread, hmoves, hend⟩ := portRead_busy hl pxIs hs
    unfold pollDone
    rw [bind_of_ok hrun]
    rcases hend with ⟨left₁, hlt, hbusy⟩ | ⟨failed, hended⟩
    · -- still in flight at the first read
      have hnoerr : ¬ v &&& isTfes ≠ 0 := by
        intro h
        have := (hl.is_value _ _ _ _ _ hread).1 h
        rw [hbusy] at this
        cases this
      obtain ⟨w, s₂, hrun₂, hread₂, hmoves₂, hend₂⟩ := portRead_busy hl pxCi hbusy
      rw [if_neg hnoerr, bind_of_ok hrun₂]
      have hbuf₂ : ∀ i < c.bytes, ¬ P.Posts s₂.hba (c.dba + i) := fun i hi =>
        ((hmoves.trans hmoves₂).posts _).not.2 (hbuf i hi)
      rcases hend₂ with ⟨left₂, hlt₂, hbusy₂⟩ | ⟨failed, hended⟩
      · have hset : ¬ w &&& 1 = 0 := by
          intro h
          have := (hl.ci_value _ _ _ _ _ hread₂).1 h
          rw [hbusy₂] at this
          cases this
        rw [if_neg hset]
        rcases ih hbuf₂ (by omega) hbusy₂ with ⟨s', hpoll, hended⟩ | ⟨s', hpoll, hended⟩
        · exact .inl ⟨s', hpoll, (hmoves.trans hmoves₂).ended hended⟩
        · exact .inr ⟨s', hpoll, (hmoves.trans hmoves₂).ended hended⟩
      · cases failed with
        | false =>
          rw [if_pos ((hl.ci_value _ _ _ _ _ hread₂).2 hended.slot)]
          exact .inl ⟨s₂, rfl, hmoves.ended hended⟩
        | true =>
          have hset : ¬ w &&& 1 = 0 := by
            intro h
            have := (hl.ci_value _ _ _ _ _ hread₂).1 h
            rw [hended.slot] at this
            cases this
          obtain ⟨n, rfl⟩ : ∃ n', n = n' + 1 := ⟨n - 1, by omega⟩
          obtain ⟨s₃, hpoll, hstill⟩ := pollDone_failed hl n hended.slot
          rw [if_neg hset]
          exact .inr ⟨s₃, hpoll, (hmoves.ended hended).still hstill hbuf⟩
    · cases failed with
      | false =>
        have hnoerr : ¬ v &&& isTfes ≠ 0 := by
          intro h
          have := (hl.is_value _ _ _ _ _ hread).1 h
          rw [hended.slot] at this
          cases this
        obtain ⟨w, s₂, hrun₂, hread₂, hstill⟩ := portRead_idle hl pxCi hended.slot
        rw [if_neg hnoerr, bind_of_ok hrun₂, if_pos ((hl.ci_value _ _ _ _ _ hread₂).2 hstill.slot)]
        exact .inl ⟨s₂, rfl, hended.still hstill hbuf⟩
      | true =>
        rw [if_pos ((hl.is_value _ _ _ _ _ hread).2 hended.slot)]
        exact .inr ⟨s₁, rfl, hended⟩

/-- The write that starts the command. -/
theorem portWrite_ci (hl : Lawful hba port P) (hs : P.slot s.hba = .idle false)
    (hstarted : P.Started s.hba) : ∃ s', portWrite hba port pxCi 1 s = .ok ⟨⟩ s' ∧ Kept P s s' ∧
      s'.mem = s.mem ∧ ∃ left < doneRounds,
        P.slot s'.hba = .busy left (fetch s.mem (P.clb s.hba)) (P.drive s.hba) := by
  rcases hwrite : hba.mmioWrite (portReg port pxCi) 1 (s.mem, s.hba) with ⟨m, h⟩
  obtain ⟨hmem, -, hreg, hslot⟩ := hl.write_ci _ _ _ _ hs hstarted hwrite
  refine ⟨{ s with mem := m, hba := h }, ?_, ⟨rfl, rfl, hreg⟩, hmem, hslot⟩
  unfold portWrite mmioWrite
  rw [modify_apply, hwrite]

/-- Running the command that is laid out in memory. -/
theorem runCommand_answered (hl : Lawful hba port P) (timedOut : String)
    (hs : P.slot s.hba = .idle false) (hstarted : P.Started s.hba)
    (hfetch : ∀ m : Mem, (∀ a, ¬ P.Posts s.hba a → m a = s.mem a) → fetch m (P.clb s.hba) = c)
    (hbuf : ∀ i < c.bytes, ¬ P.Posts s.hba (c.dba + i)) :
    Answered P c (P.drive s.hba) PUnit.unit s (runCommand hba port timedOut s) := by
  obtain ⟨s₁, hwait, hstill⟩ := waitClear_still hl pxTfd (tfdBsy ||| tfdDrq) idleRounds hs
  obtain ⟨s₂, his, hpages₂, hport₂, hslot₂, hdrive₂, hmem₂, hreg₂⟩ :=
    portWrite_run (v := 0xFFFFFFFF) hl (.other (r := pxIs) (by decide)) hstill.slot
  have hkept₂ : Kept P s₁ s₂ := by
    refine ⟨hpages₂, hport₂, fun r hr => ?_⟩
    rw [hreg₂ r hr, if_neg]
    intro h
    subst h
    revert hr
    decide
  have hstill₂ : Still P false s₁ s₂ :=
    ⟨hkept₂, hslot₂, hdrive₂, fun a ha => hmem₂ a ha ((hkept₂.posts a).not.2 ha)⟩
  have hfirst := hstill.trans hstill₂
  obtain ⟨s₃, hci, hkept₃, hmem₃, left, hlt, hbusy⟩ :=
    portWrite_ci hl hslot₂ (hfirst.started.2 hstarted)
  rw [hfirst.clb, hfetch s₂.mem hfirst.mem, hfirst.drive] at hbusy
  have hmoves : Moves P c s s₃ := by
    refine (hfirst.moves c).trans ⟨hkept₃, fun a _ => ?_⟩
    rw [hmem₃]
  have hbuf₃ : ∀ i < c.bytes, ¬ P.Posts s₃.hba (c.dba + i) := fun i hi =>
    (hmoves.posts _).not.2 (hbuf i hi)
  unfold runCommand
  rw [bind_of_ok hwait, bind_of_ok his, bind_of_ok hci]
  rcases pollDone_busy hl hbuf₃ hlt hbusy with ⟨s₄, hpoll, hended⟩ | ⟨s₄, hpoll, hended⟩
  · obtain ⟨v, s₅, hrun, hread, hstill₅⟩ := portRead_idle hl pxTfd hended.slot
    rw [bind_of_ok hpoll, if_neg (by decide), bind_of_ok hrun,
      if_neg (not_not.2 (hl.tfd_value _ _ _ _ _ hread hstill₅.slot))]
    exact .inl ⟨s₅, rfl, (hmoves.ended hended).still hstill₅ hbuf⟩
  · rw [bind_of_error hpoll]
    exact .inr ⟨s₄, rfl, hmoves.ended hended⟩

end

/-! ## The command in memory -/

/-- The pages that the driver shares with the controller, where `fb` is the one for received
FISes. -/
def PortState.shared (st : PortState) (fb : ℕ) : List ℕ :=
  [st.clbPhys, fb, st.ctPhys, st.dmaPhys]

/-- The shared pages lie in the kernel's window and do not overlap. -/
structure Shared (st : PortState) (fb : ℕ) : Prop where
  inWindow : ∀ f ∈ st.shared fb, f + 4096 ≤ 2 ^ 31
  apart : (st.shared fb).Pairwise fun f g => f + 4096 ≤ g ∨ g + 4096 ≤ f

/-- Memory with the command laid out. -/
def filled (st : PortState) (command : UInt8) (flags lba count : ℕ) (m : Mem) : Mem :=
  let m := write m st.ctPhys (commandFis command lba count)
  let m := write m (st.ctPhys + 128) (toLe 4 (st.dmaPhys &&& 0xFFFFFFFF))
  let m := write m (st.ctPhys + 132) (toLe 4 (st.dmaPhys >>> 32))
  let m := write m (st.ctPhys + 136) (toLe 4 0)
  let m := write m (st.ctPhys + 140) (toLe 4 (count * 512 - 1))
  let m := write m st.clbPhys (toLe 2 flags)
  let m := write m (st.clbPhys + 2) (toLe 2 1)
  write m (st.clbPhys + 4) (toLe 4 0)

/-- The command that the driver lays out. -/
def laidOut (st : PortState) (command : UInt8) (flags lba count : ℕ) : Command where
  fis := commandFis command lba count
  toDevice := flags.testBit 6
  dba := st.dmaPhys
  bytes := count * 512

section
variable {δ σ : Type} {st : PortState} {fb : ℕ} {command : UInt8} {flags lba count : ℕ}
  {m m' : Mem}

/-- The command FIS fills its 64 bytes. -/
theorem length_commandFis : (commandFis command lba count).length = 64 := by
  simp [commandFis]

/-- A number just written reads back as its bytes. -/
theorem read_write_toLe (m : Mem) (a n v : ℕ) : read (write m a (toLe n v)) a n = toLe n v := by
  have h := read_write_self m a (toLe n v)
  rwa [length_toLe] at h

/-- The two halves of a 64-bit address. -/
theorem leNat_halves {x : ℕ} (h : x < 2 ^ 64) :
    leNat (toLe 4 (x &&& 0xFFFFFFFF)) + 2 ^ 32 * leNat (toLe 4 (x >>> 32)) = x := by
  have hlow : x &&& 0xFFFFFFFF = x % 2 ^ 32 := Bits.and_low_mask x 32
  rw [hlow, Nat.shiftRight_eq_div_pow, leNat_toLe_of_lt (by omega), leNat_toLe_of_lt (by omega)]
  omega

/-- A shared page is reached through the kernel's window. -/
theorem Shared.window_run (h : Shared st fb) {f : ℕ} (hf : f ∈ st.shared fb) (s : State δ σ) :
    window f s = .ok f s := by
  have hwindow := h.inWindow f hf
  unfold window
  rw [if_pos (by unfold kernelVmaBase; omega)]
  rfl

/-- A store writes its bytes. -/
theorem store_run (a : ℕ) (bs : List UInt8) (s : State δ σ) :
    store a bs s = .ok ⟨⟩ { s with mem := write s.mem a bs } := rfl

/-- The command is laid out in the shared pages. -/
theorem fillCommand_run (h : Shared st fb) (s : State δ σ) :
    fillCommand st command flags lba count s =
      .ok ⟨⟩ { s with mem := filled st command flags lba count s.mem } := by
  unfold fillCommand
  rw [bind_of_ok (h.window_run (by simp [PortState.shared]) s), bind_of_ok (store_run _ _ _),
    bind_of_ok (store_run _ _ _), bind_of_ok (store_run _ _ _), bind_of_ok (store_run _ _ _),
    bind_of_ok (store_run _ _ _), bind_of_ok (h.window_run (by simp [PortState.shared]) _),
    bind_of_ok (store_run _ _ _), bind_of_ok (store_run _ _ _), store_run]
  unfold filled
  rfl

/-- The controller fetches the command that the driver laid out, whatever it posted meanwhile. -/
theorem fetch_filled (h : Shared st fb) (h0 : 0 < count) (h8 : count ≤ 8) (hflags : flags < 2 ^ 16)
    (htable : leNat (read m (st.clbPhys + 8) 4) + 2 ^ 32 * leNat (read m (st.clbPhys + 12) 4) =
      st.ctPhys) (hm : ∀ a, ¬ InFrame fb a → m' a = filled st command flags lba count m a) :
    fetch m' st.clbPhys = laidOut st command flags lba count := by
  have hapart := h.apart
  simp only [PortState.shared, List.pairwise_cons, List.mem_cons, List.not_mem_nil, or_false,
    forall_eq_or_imp, forall_eq] at hapart
  obtain ⟨⟨hcf, hcc, hcd⟩, ⟨hfc, hfd⟩, hct, -⟩ := hapart
  have hdma := h.inWindow st.dmaPhys (by simp [PortState.shared])
  have hsame : ∀ a n, (a + n ≤ fb ∨ fb + 4096 ≤ a) →
      read m' a n = read (filled st command flags lba count m) a n := by
    intro a n ha
    refine read_congr fun i hi => hm _ fun hin => ?_
    unfold InFrame at hin
    omega
  have hlen : (commandFis command lba count).length = 64 := length_commandFis
  have hctba : leNat (read m' (st.clbPhys + 8) 4) + 2 ^ 32 * leNat (read m' (st.clbPhys + 12) 4) =
      st.ctPhys := by
    rw [hsame _ _ (by omega), hsame _ _ (by omega), ← htable]
    simp (disch := (simp only [length_toLe, hlen]; omega)) only [filled, read_write_of_disjoint]
  have hfis : read m' st.ctPhys 64 = commandFis command lba count := by
    have hself := read_write_self m st.ctPhys (commandFis command lba count)
    rw [hlen] at hself
    rw [hsame _ _ (by omega)]
    simp (disch := (simp only [length_toLe]; omega)) only [filled, read_write_of_disjoint]
    exact hself
  have hdir : read m' st.clbPhys 2 = toLe 2 flags := by
    rw [hsame _ _ (by omega)]
    simp (disch := (simp only [length_toLe]; omega)) only [filled, read_write_of_disjoint,
      read_write_toLe]
  have hlow : read m' (st.ctPhys + 128) 4 = toLe 4 (st.dmaPhys &&& 0xFFFFFFFF) := by
    rw [hsame _ _ (by omega)]
    simp (disch := (simp only [length_toLe]; omega)) only [filled, read_write_of_disjoint,
      read_write_toLe]
  have hhigh : read m' (st.ctPhys + 132) 4 = toLe 4 (st.dmaPhys >>> 32) := by
    rw [hsame _ _ (by omega)]
    simp (disch := (simp only [length_toLe]; omega)) only [filled, read_write_of_disjoint,
      read_write_toLe]
  have hbytes : read m' (st.ctPhys + 140) 4 = toLe 4 (count * 512 - 1) := by
    rw [hsame _ _ (by omega)]
    simp (disch := (simp only [length_toLe]; omega)) only [filled, read_write_of_disjoint,
      read_write_toLe]
  unfold fetch laidOut
  simp only [hctba, hfis, hdir, hlow, hhigh, hbytes]
  rw [leNat_halves (by omega), leNat_toLe_of_lt hflags, leNat_toLe_of_lt (by omega),
    Nat.mod_eq_of_lt (by omega), Nat.sub_add_cancel (by omega)]

/-- Laying out a command changes the table and the header, and leaves the address in the header. -/
theorem filled_apply {a : ℕ}
    (ha : (a < st.ctPhys ∨ st.ctPhys + 4096 ≤ a) ∧ (a < st.clbPhys ∨ st.clbPhys + 8 ≤ a)) :
    filled st command flags lba count m a = m a := by
  have hlen : (commandFis command lba count).length = 64 := length_commandFis
  simp (disch := (simp only [length_toLe, hlen]; omega)) only [filled, write_apply_of_outside]

/-- The count of sectors in the FIS is the request's. -/
theorem fisCount_laidOut (h8 : count ≤ 8) : fisCount (commandFis command lba count) = count := by
  rw [fisCount_commandFis, Nat.mod_eq_of_lt (by omega)]

/-- The end of a read that the driver laid out. -/
theorem completes_read {d d' : Disk} {failed : Bool} (h8 : count ≤ 8)
    (h : Completes (laidOut st ataCmdReadDmaExt 5 lba count) d m' failed d') :
    let sector := fisLba (commandFis ataCmdReadDmaExt lba count)
    d' = d ∧ if failed then d.capacity < sector + count else sector + count ≤ d.capacity ∧
      read m' st.dmaPhys (count * 512) = read d.bytes (512 * sector) (512 * count) := by
  intro sector
  have hcount : fisCount (laidOut st ataCmdReadDmaExt 5 lba count).fis = count :=
    fisCount_laidOut h8
  cases h with
  | read hop hdir hfit hdata =>
    have hwithin := hfit.within
    rw [hcount] at hwithin
    refine ⟨rfl, hwithin, ?_⟩
    rw [Nat.mul_comm 512 count]
    exact hdata
  | write hop => cases hop
  | beyond hd =>
    rw [hcount] at hd
    exact ⟨rfl, hd⟩
  | refused d' hfit hd => exact absurd ⟨by rw [hcount]; exact Nat.mul_comm _ _, hd⟩ hfit
  | other failed d' hnr => exact absurd ⟨rfl, rfl⟩ hnr

/-- The end of a write that the driver laid out. -/
theorem completes_write {d d' : Disk} {failed : Bool} (h8 : count ≤ 8)
    (h : Completes (laidOut st ataCmdWriteDmaExt (5 ||| 1 <<< 6) lba count) d m' failed d') :
    let sector := fisLba (commandFis ataCmdWriteDmaExt lba count)
    if failed then d' = d ∧ d.capacity < sector + count else sector + count ≤ d.capacity ∧
      d' = d.setBytes (write d.bytes (512 * sector) (read m' st.dmaPhys (count * 512))) := by
  intro sector
  have hcount : fisCount (laidOut st ataCmdWriteDmaExt (5 ||| 1 <<< 6) lba count).fis = count :=
    fisCount_laidOut h8
  cases h with
  | read hop => cases hop
  | write hop hdir hfit =>
    have hwithin := hfit.within
    rw [hcount] at hwithin
    exact ⟨hwithin, rfl⟩
  | beyond hd =>
    rw [hcount] at hd
    exact ⟨rfl, hd⟩
  | refused d' hfit hd => exact absurd ⟨by rw [hcount]; exact Nat.mul_comm _ _, hd⟩ hfit
  | other failed d' _ hnw => exact absurd ⟨rfl, rfl⟩ hnw

end

/-! ## A request -/

section
variable {δ σ : Type} {hba : Hba δ} {P : Port δ} {st : PortState} {fb : ℕ} {s s' : State δ σ}

/-- The driver may take a request: its port is started with the list and the pages that the driver
remembers, and no command is there. -/
structure Ready (P : Port δ) (st : PortState) (fb : ℕ) (s : State δ σ) : Prop where
  port : s.port = some st
  slot : P.slot s.hba = .idle false
  started : P.Started s.hba
  clb : P.clb s.hba = st.clbPhys
  fb : P.fb s.hba = fb
  table : leNat (read s.mem (st.clbPhys + 8) 4) + 2 ^ 32 * leNat (read s.mem (st.clbPhys + 12) 4) =
    st.ctPhys

/-- The frames of the shared pages. -/
def PortState.frames (st : PortState) (fb : ℕ) : Set ℕ := {f | f ∈ st.shared fb}

/-- What a request leaves: the drive as `d`, and everything as it was but the shared pages. -/
structure Left (P : Port δ) (st : PortState) (fb : ℕ) (d : Disk) (s s' : State δ σ) : Prop where
  drive : P.drive s'.hba = d
  pages : s'.pages = s.pages
  mem : SameOutside (st.frames fb) s.mem s'.mem

/-- The driver's run of a request gives the answer of the drive's run, and the driver is ready for
the next one unless the drive refused it. -/
def Agrees {α : Type} (P : Port δ) (st : PortState) (fb : ℕ) (s : State δ σ) :
    Outcome String (State δ σ) α → Outcome String Disk α → Prop
  | .ok a s', .ok b d => a = b ∧ Left P st fb d s s' ∧ Ready P st fb s'
  | .error e s', .error e' d => e = e' ∧ Left P st fb d s s' ∧
      (e ≠ .err "AHCI task file error" → Ready P st fb s')
  | _, _ => False

/-- Pages apart from the one for received FISes see nothing posted. -/
theorem not_posts (hr : Ready P st fb s) {f a : ℕ} (hapart : f + 4096 ≤ fb ∨ fb + 4096 ≤ f)
    (ha : InFrame f a) : ¬ P.Posts s.hba a := by
  intro hp
  have hposts := hp.2
  rw [hr.fb] at hposts
  unfold InFrame at ha
  omega

/-- The end of a command laid out from the memory `m`, which differs from the driver's in the page
of the buffer only. -/
structure Served (P : Port δ) (st : PortState) (fb : ℕ) (c : Command) (m : Mem) (failed : Bool)
    (s s' : State δ σ) : Prop where
  done : Completes c (P.drive s.hba) s'.mem failed (P.drive s'.hba)
  pages : s'.pages = s.pages
  mem : SameOutside (st.frames fb) s.mem s'.mem
  ready : failed = false → Ready P st fb s'
  buffer : c.toDevice = true → ∀ i < c.bytes, s'.mem (c.dba + i) = m (c.dba + i)

/-- A change of the buffer page leaves the address of the table in the header. -/
theorem Ready.table_of_same (hr : Ready P st fb s) (hsh : Shared st fb) {m : Mem}
    (hm : SameOutside {st.dmaPhys} s.mem m) :
    leNat (read m (st.clbPhys + 8) 4) + 2 ^ 32 * leNat (read m (st.clbPhys + 12) 4) =
      st.ctPhys := by
  have hapart := hsh.apart
  simp only [PortState.shared, List.pairwise_cons, List.mem_cons, List.not_mem_nil, or_false,
    forall_eq_or_imp, forall_eq] at hapart
  obtain ⟨⟨-, -, hcd⟩, -, -, -⟩ := hapart
  have hread : ∀ o, o + 4 ≤ 4096 → read m (st.clbPhys + o) 4 = read s.mem (st.clbPhys + o) 4 := by
    intro o ho
    refine read_congr fun i hi => hm _ fun f hf hin => ?_
    rw [Set.mem_singleton_iff.1 hf] at hin
    unfold InFrame at hin
    omega
  rw [hread 8 (by omega), hread 12 (by omega), hr.table]

/-- What every end of the command leaves: the port is ready again unless the command failed, and
nothing outside the shared pages changed. -/
theorem Ended.served {command : UInt8} {flags lba count : ℕ} {m : Mem} {failed : Bool}
    {s' : State δ σ} (hsh : Shared st fb) (hr : Ready P st fb s) (h8 : count ≤ 8)
    (hm : SameOutside {st.dmaPhys} s.mem m)
    (hended : Ended P (laidOut st command flags lba count) (P.drive s.hba) failed
      { s with mem := filled st command flags lba count m } s') :
    Served P st fb (laidOut st command flags lba count) m failed s s' := by
  have hapart := hsh.apart
  simp only [PortState.shared, List.pairwise_cons, List.mem_cons, List.not_mem_nil, or_false,
    forall_eq_or_imp, forall_eq] at hapart
  obtain ⟨⟨hcf, hcc, hcd⟩, ⟨hfc, hfd⟩, hct, -⟩ := hapart
  have htouch : ∀ a, ¬ InFrame fb a → (a < st.clbPhys + 4 ∨ st.clbPhys + 8 ≤ a) →
      ((laidOut st command flags lba count).toDevice = true ∨ ¬ InFrame st.dmaPhys a) →
      s'.mem a = filled st command flags lba count m a := by
    intro a hfb hclb hdma
    refine hended.mem a fun ht => ?_
    rcases ht with hp | hheader | ⟨hdir, hlow, hhigh⟩
    · have hposts := hp.2
      rw [hr.fb] at hposts
      exact hfb ⟨hposts.1, by omega⟩
    · rw [hr.clb] at hheader
      omega
    · rcases hdma with hdma | hdma
      · rw [hdir] at hdma
        cases hdma
      · have hhigh' : a < st.dmaPhys + count * 512 := hhigh
        exact hdma ⟨hlow, by omega⟩
  have hheader : ∀ o, 8 ≤ o → o + 4 ≤ 16 → read s'.mem (st.clbPhys + o) 4 =
      read m (st.clbPhys + o) 4 := by
    intro o ho ho'
    refine read_congr fun i hi => ?_
    rw [htouch _ (by unfold InFrame; omega) (by omega) (.inr (by unfold InFrame; omega)),
      filled_apply ⟨by omega, by omega⟩]
  constructor
  case done => exact hended.done
  case pages => exact hended.pages
  case mem =>
    intro a ha
    have hnot : ∀ f ∈ st.shared fb, ¬ InFrame f a := fun f hf => ha f hf
    have hclb := hnot st.clbPhys (by simp [PortState.shared])
    have hct := hnot st.ctPhys (by simp [PortState.shared])
    have hdma := hnot st.dmaPhys (by simp [PortState.shared])
    unfold InFrame at hclb hct
    rw [htouch a (hnot fb (by simp [PortState.shared])) (by omega) (.inr hdma),
      filled_apply ⟨by omega, by omega⟩]
    exact hm a fun f hf => by rwa [Set.mem_singleton_iff.1 hf]
  case ready =>
    rintro rfl
    exact ⟨hended.port.trans hr.port, hended.slot, hended.started.2 hr.started,
      hended.clb.trans hr.clb, hended.fb.trans hr.fb, by
        rw [hheader 8 (by omega) (by omega), hheader 12 (by omega) (by omega),
          hr.table_of_same hsh hm]⟩
  case buffer =>
    intro hdir i hi
    have hi' : i < count * 512 := hi
    have hdba : (laidOut st command flags lba count).dba = st.dmaPhys := rfl
    rw [hdba, htouch _ (by unfold InFrame; omega) (by omega) (.inl hdir),
      filled_apply ⟨by omega, by omega⟩]

/-- What a command does that the driver laid out and issued. -/
theorem runCommand_served (hl : Lawful hba st.port P) (hsh : Shared st fb) (hr : Ready P st fb s)
    (command : UInt8) {flags : ℕ} (hflags : flags < 2 ^ 16) (lba : ℕ) {count : ℕ} (h0 : 0 < count)
    (h8 : count ≤ 8) {m : Mem} (hm : SameOutside {st.dmaPhys} s.mem m) (timedOut : String) :
    let run := runCommand hba st.port timedOut
      { s with mem := filled st command flags lba count m }
    let c := laidOut st command flags lba count
    (∃ s', run = .ok ⟨⟩ s' ∧ Served P st fb c m false s s') ∨
      ∃ s', run = .error (.err "AHCI task file error") s' ∧ Served P st fb c m true s s' := by
  intro run c
  have hapart := hsh.apart
  simp only [PortState.shared, List.pairwise_cons, List.mem_cons, List.not_mem_nil, or_false,
    forall_eq_or_imp, forall_eq] at hapart
  obtain ⟨-, ⟨-, hfd⟩, -, -⟩ := hapart
  have hbuf : ∀ i < c.bytes, ¬ P.Posts s.hba (c.dba + i) := by
    intro i hi
    have hi' : i < count * 512 := hi
    exact not_posts hr (f := st.dmaPhys) (by omega) ⟨Nat.le_add_right _ _, by
      show st.dmaPhys + i < _
      omega⟩
  have hanswer := runCommand_answered (c := c)
    (s := { s with mem := filled st command flags lba count m }) hl timedOut hr.slot hr.started (by
      intro m' hm'
      rw [hr.clb]
      refine fetch_filled hsh h0 h8 hflags (hr.table_of_same hsh hm) fun a ha => hm' a fun hp =>
        ha ?_
      have hposts := hp.2
      rw [hr.fb] at hposts
      exact ⟨hposts.1, by omega⟩) hbuf
  rcases hanswer with ⟨s', hrun, hended⟩ | ⟨s', hrun, hended⟩
  · exact .inl ⟨s', hrun, hended.served hsh hr h8 hm⟩
  · exact .inr ⟨s', hrun, hended.served hsh hr h8 hm⟩

/-- A read request is answered as the drive answers it. -/
theorem readSectors_agrees (hl : Lawful hba st.port P) (hsh : Shared st fb) (hr : Ready P st fb s)
    (lba count : ℕ) (buf : List UInt8) :
    Agrees P st fb s (Driver.readSectors hba lba count buf s)
      (readSectors lba count buf (P.drive s.hba)) := by
  have hleft : Left P st fb (P.drive s.hba) s s := ⟨rfl, rfl, SameOutside.refl⟩
  unfold Driver.readSectors readSectors
  rw [Nat.mul_comm 512 count]
  split
  case isTrue => exact ⟨rfl, hleft, hr⟩
  case isFalse h0 =>
    split
    case isTrue => exact ⟨rfl, hleft, fun _ => hr⟩
    case isFalse h8 =>
      split
      case isTrue => exact ⟨rfl, hleft, fun _ => hr⟩
      case isFalse hbuf =>
        rw [bind_of_ok (get_apply s), bind_of_ok (get_apply (P.drive s.hba)), hr.port]
        dsimp only
        rw [fisCount_laidOut (by omega), bind_of_ok (fillCommand_run hsh s)]
        rcases runCommand_served hl hsh hr ataCmdReadDmaExt (show 5 < 2 ^ 16 by decide) lba
          (show 0 < count by omega) (by omega) SameOutside.refl "AHCI read timed out" with
          ⟨s', hrun, hserved⟩ | ⟨s', hrun, hserved⟩
        · obtain ⟨hd, hwithin, hdata⟩ := completes_read (by omega) hserved.done
          rw [bind_of_ok hrun, bind_of_ok (hsh.window_run (by simp [PortState.shared]) s'),
            bind_of_ok (get_apply s'), if_pos hwithin, hdata, Nat.mul_comm count]
          exact ⟨rfl, ⟨hd, hserved.pages, hserved.mem⟩, hserved.ready rfl⟩
        · obtain ⟨hd, hbeyond⟩ := completes_read (by omega) hserved.done
          rw [bind_of_error hrun, if_neg (by simpa using hbeyond)]
          exact ⟨rfl, ⟨hd, hserved.pages, hserved.mem⟩, fun h => absurd rfl h⟩

/-- A write request is answered as the drive answers it. -/
theorem writeSectors_agrees (hl : Lawful hba st.port P) (hsh : Shared st fb) (hr : Ready P st fb s)
    (lba count : ℕ) (buf : List UInt8) :
    Agrees P st fb s (Driver.writeSectors hba lba count buf s)
      (writeSectors lba count buf (P.drive s.hba)) := by
  have hleft : Left P st fb (P.drive s.hba) s s := ⟨rfl, rfl, SameOutside.refl⟩
  unfold Driver.writeSectors writeSectors
  rw [Nat.mul_comm 512 count]
  split
  case isTrue => exact ⟨rfl, hleft, hr⟩
  case isFalse h0 =>
    split
    case isTrue => exact ⟨rfl, hleft, fun _ => hr⟩
    case isFalse h8 =>
      split
      case isTrue => exact ⟨rfl, hleft, fun _ => hr⟩
      case isFalse hbuf =>
        rw [bind_of_ok (get_apply s), bind_of_ok (get_apply (P.drive s.hba)), hr.port]
        dsimp only
        have hlen : (slice buf 0 (count * 512)).length = count * 512 := length_slice (by omega)
        have hpage : SameOutside {st.dmaPhys} s.mem
            (write s.mem st.dmaPhys (slice buf 0 (count * 512))) := by
          intro a ha
          have hin := ha st.dmaPhys rfl
          unfold InFrame at hin
          exact write_apply_of_outside (by omega)
        rw [fisCount_laidOut (by omega),
          bind_of_ok (hsh.window_run (by simp [PortState.shared]) s), bind_of_ok (store_run _ _ s),
          bind_of_ok (fillCommand_run hsh _)]
        rcases runCommand_served hl hsh hr ataCmdWriteDmaExt
          (show 5 ||| 1 <<< 6 < 2 ^ 16 by decide) lba (show 0 < count by omega) (by omega) hpage
          "AHCI write timed out" with ⟨s', hrun, hserved⟩ | ⟨s', hrun, hserved⟩
        · obtain ⟨hwithin, hd⟩ := completes_write (by omega) hserved.done
          have hdata : read s'.mem st.dmaPhys (count * 512) = slice buf 0 (count * 512) := by
            have hself := read_write_self s.mem st.dmaPhys (slice buf 0 (count * 512))
            rw [hlen] at hself
            refine (read_congr fun i hi => ?_).trans hself
            exact hserved.buffer rfl i hi
          rw [hdata] at hd
          rw [hrun, if_pos hwithin]
          exact ⟨rfl, ⟨hd, hserved.pages, hserved.mem⟩, hserved.ready rfl⟩
        · obtain ⟨hd, hbeyond⟩ := completes_write (by omega) hserved.done
          rw [hrun, if_neg (by simpa using hbeyond)]
          exact ⟨rfl, ⟨hd, hserved.pages, hserved.mem⟩, fun h => absurd rfl h⟩

end

/-! ## Requests in a row -/

/-- A request of the driver's callers, or a piece of other code that leaves the memory it may write
to as in `m`. -/
inductive Act where
  | read (lba count : ℕ) (buf : List UInt8)
  | write (lba count : ℕ) (buf : List UInt8)
  | others (m : Mem)

/-- The drive as the callers see it, and the memory outside the shared pages. -/
structure Plain where
  disk : Disk
  rest : Mem

/-- An act on the drive itself. -/
def Act.plain : Act → Exec String Plain (List UInt8)
  | .read lba count buf =>
    zoom Plain.disk (fun d p => { p with disk := d }) (readSectors lba count buf)
  | .write lba count buf => do
    zoom Plain.disk (fun d p => { p with disk := d }) (writeSectors lba count buf)
    pure []
  | .others m => do
    modify fun p => { p with rest := m }
    pure []

instance (st : PortState) (fb a : ℕ) : Decidable (∃ f ∈ st.shared fb, InFrame f a) :=
  inferInstanceAs (Decidable (∃ f ∈ st.shared fb, f ≤ a ∧ a < f + 4096))

/-- Memory with the shared pages as in `m` and the rest as in `m'`. -/
def merged (st : PortState) (fb : ℕ) (m m' : Mem) : Mem := fun a =>
  if ∃ f ∈ st.shared fb, InFrame f a then m a else m' a

/-- The rest of memory is as in the second. -/
theorem merged_rest {st : PortState} {fb a : ℕ} {m m' : Mem}
    (h : ∀ f ∈ st.shared fb, ¬ InFrame f a) : merged st fb m m' a = m' a := by
  unfold merged
  rw [if_neg]
  intro hex
  obtain ⟨f, hf, ha⟩ := hex
  exact h f hf ha

/-- A shared page reads as in the first. -/
theorem read_merged {st : PortState} {fb f a n : ℕ} {m m' : Mem} (hf : f ∈ st.shared fb)
    (ha : f ≤ a) (hn : a + n ≤ f + 4096) : read (merged st fb m m') a n = read m a n := by
  refine read_congr fun i hi => ?_
  unfold merged
  rw [if_pos]
  exact ⟨f, hf, by omega, by omega⟩

section
variable {δ σ : Type} (hba : Hba δ) (st : PortState) (fb : ℕ)

/-- An act on the machine. Other code does not write to the shared pages. -/
def Act.driver : Act → Exec String (State δ σ) (List UInt8)
  | .read lba count buf => Driver.readSectors hba lba count buf
  | .write lba count buf => do
    Driver.writeSectors hba lba count buf
    pure []
  | .others m => do
    modify fun s => { s with mem := merged st fb s.mem m }
    pure []

/-- The sectors of the request are on the drive, or the request is refused before it comes there. -/
def Act.OnDrive (d : Disk) : Act → Prop
  | .read lba count buf | .write lba count buf =>
    lba % 2 ^ 48 + count ≤ d.capacity ∨ count = 0 ∨ 8 < count ∨ buf.length < 512 * count
  | .others _ => True

end

section
variable {δ σ : Type} {hba : Hba δ} {P : Port δ} {st : PortState} {fb : ℕ} {s : State δ σ}

/-- The machine after requests that the drive answered with `p`. -/
structure Shows (P : Port δ) (st : PortState) (fb : ℕ) (s : State δ σ) (p : Plain) : Prop where
  drive : P.drive s.hba = p.disk
  rest : ∀ a, (∀ f ∈ st.shared fb, ¬ InFrame f a) → s.mem a = p.rest a

/-- The same, ready for another act. -/
structure Serving (P : Port δ) (st : PortState) (fb : ℕ) (s : State δ σ) (p : Plain) : Prop
    extends Shows P st fb s p where
  ready : Ready P st fb s

/-- A request that the drive answers is answered by the driver, which is ready for another. -/
theorem Agrees.of_ok {α : Type} {a : α} {d : Disk} {r : Outcome String (State δ σ) α}
    (h : Agrees P st fb s r (.ok a d)) :
    ∃ s', r = .ok a s' ∧ Left P st fb d s s' ∧ Ready P st fb s' := by
  cases r with
  | ok b s' =>
    obtain ⟨rfl, hleft, hready⟩ := h
    exact ⟨s', rfl, hleft, hready⟩
  | error e s' => exact h.elim

/-- A request that fails on the drive fails with the driver, with the same error. -/
theorem Agrees.of_error {α : Type} {e : Fault String} {d : Disk}
    {r : Outcome String (State δ σ) α} (h : Agrees P st fb s r (.error e d)) :
    ∃ s', r = .error e s' ∧ Left P st fb d s s' ∧
      (e ≠ .err "AHCI task file error" → Ready P st fb s') := by
  cases r with
  | ok b s' => exact h.elim
  | error e' s' =>
    obtain ⟨rfl, hleft, hready⟩ := h
    exact ⟨s', rfl, hleft, hready⟩

/-- After a request the machine shows what the drive holds then. -/
theorem Left.shows {d : Disk} {s' : State δ σ} {p : Plain} (h : Left P st fb d s s')
    (hp : Shows P st fb s p) : Shows P st fb s' { p with disk := d } :=
  ⟨h.drive, fun a ha => (h.mem a ha).trans (hp.rest a ha)⟩

/-- A request whose sectors are on the drive is not answered with the task file error, whatever it
does with them. -/
theorem request_onDrive {α : Type} {d d' : Disk} {lba count : ℕ} {buf : List UInt8}
    {e : Fault String} (command : UInt8) {done : α} {served : Disk → Exec String Disk α}
    (hserved : ∀ d, ∃ a d', served d d = .ok a d')
    (hon : lba % 2 ^ 48 + count ≤ d.capacity ∨ count = 0 ∨ 8 < count ∨ buf.length < 512 * count)
    (h : (if count = 0 then pure done
      else if count > 8 then Exec.fail "AHCI: max 8 sectors per call"
      else if buf.length < 512 * count then Exec.fail "AHCI: buf too small"
      else do
        let d ← get
        if fisLba (commandFis command lba count) + fisCount (commandFis command lba count) ≤
            d.capacity then served d
        else Exec.fail "AHCI task file error" : Exec String Disk α) d = .error e d') :
    e ≠ .err "AHCI task file error" := by
  split at h
  case isTrue => cases h
  case isFalse h0 =>
    split at h
    case isTrue =>
      cases h
      decide
    case isFalse h8 =>
      split at h
      case isTrue =>
        cases h
        decide
      case isFalse hbuf =>
        obtain ⟨a, d'', hok⟩ := hserved d
        rw [bind_of_ok (get_apply d), fisLba_commandFis, fisCount_commandFis, if_pos (by omega),
          hok] at h
        cases h

/-- A read of sectors that are on the drive gets no error from it. -/
theorem readSectors_onDrive {d d' : Disk} {lba count : ℕ} {buf : List UInt8} {e : Fault String}
    (hon : (Act.read lba count buf).OnDrive d)
    (h : readSectors lba count buf d = .error e d') : e ≠ .err "AHCI task file error" := by
  refine request_onDrive ataCmdReadDmaExt (fun d => ?_) hon h
  exact ⟨_, d, rfl⟩

/-- A write of sectors that are on the drive gets no error from it. -/
theorem writeSectors_onDrive {d d' : Disk} {lba count : ℕ} {buf : List UInt8} {e : Fault String}
    (hon : (Act.write lba count buf).OnDrive d)
    (h : writeSectors lba count buf d = .error e d') : e ≠ .err "AHCI task file error" := by
  refine request_onDrive ataCmdWriteDmaExt (fun d => ?_) hon h
  exact ⟨⟨⟩, _, rfl⟩

/-- One act: the answers are the same, and the machine shows what the drive is left with. It is
ready for another act unless the drive refused this one. -/
theorem driver_matches (hl : Lawful hba st.port P) (hsh : Shared st fb) (hr : Ready P st fb s)
    {p : Plain} (hp : Shows P st fb s p) (a : Act) :
    Serve.Matches (fun s' p' => Shows P st fb s' p' ∧ (a.OnDrive p.disk → Ready P st fb s'))
      (a.driver hba st fb s) (a.plain p) := by
  cases a with
  | read lba count buf =>
    have hagree := readSectors_agrees hl hsh hr lba count buf
    rw [hp.drive] at hagree
    rw [Act.driver, Act.plain]
    cases hrun : readSectors lba count buf p.disk with
    | ok b d =>
      rw [hrun] at hagree
      obtain ⟨s', hs', hleft, hready⟩ := hagree.of_ok
      rw [zoom_of_ok hrun, hs']
      exact ⟨rfl, hleft.shows hp, fun _ => hready⟩
    | error e d =>
      rw [hrun] at hagree
      obtain ⟨s', hs', hleft, hready⟩ := hagree.of_error
      rw [zoom_of_error hrun, hs']
      exact ⟨rfl, hleft.shows hp, fun hon => hready (readSectors_onDrive hon hrun)⟩
  | write lba count buf =>
    have hagree := writeSectors_agrees hl hsh hr lba count buf
    rw [hp.drive] at hagree
    rw [Act.driver, Act.plain]
    cases hrun : writeSectors lba count buf p.disk with
    | ok b d =>
      rw [hrun] at hagree
      obtain ⟨s', hs', hleft, hready⟩ := hagree.of_ok
      rw [bind_of_ok (zoom_of_ok hrun), bind_of_ok hs']
      exact ⟨rfl, hleft.shows hp, fun _ => hready⟩
    | error e d =>
      rw [hrun] at hagree
      obtain ⟨s', hs', hleft, hready⟩ := hagree.of_error
      rw [bind_of_error (zoom_of_error hrun), bind_of_error hs']
      exact ⟨rfl, hleft.shows hp, fun hon => hready (writeSectors_onDrive hon hrun)⟩
  | others m =>
    have hclb : st.clbPhys ∈ st.shared fb := by simp [PortState.shared]
    refine ⟨rfl, ⟨hp.drive, fun a ha => merged_rest ha⟩, fun _ =>
      ⟨hr.port, hr.slot, hr.started, hr.clb, hr.fb, ?_⟩⟩
    have h8 : read (merged st fb s.mem m) (st.clbPhys + 8) 4 = read s.mem (st.clbPhys + 8) 4 :=
      read_merged hclb (by omega) (by omega)
    have h12 : read (merged st fb s.mem m) (st.clbPhys + 12) 4 = read s.mem (st.clbPhys + 12) 4 :=
      read_merged hclb (by omega) (by omega)
    rw [← hr.table, ← h8, ← h12]

/-- No request changes the capacity of the drive. -/
theorem writeSectors_capacity (lba count : ℕ) (buf : List UInt8) (d : Disk) :
    (Outcome.state (writeSectors lba count buf d)).capacity = d.capacity := by
  unfold writeSectors
  split
  case isTrue => rfl
  case isFalse =>
    split
    case isTrue => rfl
    case isFalse =>
      split
      case isTrue => rfl
      case isFalse =>
        rw [bind_of_ok (get_apply d)]
        split
        case isTrue => exact Disk.setBytes_capacity d _
        case isFalse => rfl

/-- A read leaves the drive. -/
theorem readSectors_state (lba count : ℕ) (buf : List UInt8) (d : Disk) :
    Outcome.state (readSectors lba count buf d) = d := by
  unfold readSectors
  split
  case isTrue => rfl
  case isFalse =>
    split
    case isTrue => rfl
    case isFalse =>
      split
      case isTrue => rfl
      case isFalse =>
        rw [bind_of_ok (get_apply d)]
        split
        case isTrue => rfl
        case isFalse => rfl

/-- No act changes the drive's size. -/
theorem plain_capacity (a : Act) (p : Plain) :
    (Serve.answer (a.plain p)).2.disk.capacity = p.disk.capacity := by
  rw [Serve.answer_state]
  cases a with
  | read lba count buf =>
    have hstate := readSectors_state lba count buf p.disk
    rw [Act.plain]
    cases hrun : readSectors lba count buf p.disk with
    | ok b d =>
      rw [hrun] at hstate
      rw [zoom_of_ok hrun]
      exact congrArg Disk.capacity hstate
    | error e d =>
      rw [hrun] at hstate
      rw [zoom_of_error hrun]
      exact congrArg Disk.capacity hstate
  | write lba count buf =>
    have hcap := writeSectors_capacity lba count buf p.disk
    rw [Act.plain]
    cases hrun : writeSectors lba count buf p.disk with
    | ok b d =>
      rw [hrun] at hcap
      rw [bind_of_ok (zoom_of_ok hrun)]
      exact hcap
    | error e d =>
      rw [hrun] at hcap
      rw [bind_of_error (zoom_of_error hrun)]
      exact hcap
  | others m => rfl

/-- Whether sectors are on the drive depends on its size. -/
theorem Act.OnDrive.congr {d d' : Disk} {a : Act} (h : a.OnDrive d)
    (hd : d'.capacity = d.capacity) :
    a.OnDrive d' := by
  cases a with
  | read lba count buf | write lba count buf =>
    simp only [Act.OnDrive, hd] at h ⊢
    exact h
  | others m => trivial

/-- Requests that are on the drive stay so while the requests before them are served. -/
theorem guarded_onDrive {acts : List Act} {p : Plain} (h : ∀ a ∈ acts, a.OnDrive p.disk) :
    Run.Guarded (fun p a => (Serve.answer (Act.plain a p)).2) (fun p a => a.OnDrive p.disk) p
      acts := by
  induction acts generalizing p with
  | nil => trivial
  | cons a acts ih =>
    refine ⟨h a List.mem_cons_self, ih fun b hb => ?_⟩
    exact (h b (List.mem_cons_of_mem _ hb)).congr (plain_capacity a p)

/-- The driver is the drive: requests in a row, with other code in between, are answered as the
drive answers them, and the drive is left as it would be. Only the last request may go beyond the
end of the drive. -/
theorem requests_refine (hl : Lawful hba st.port P) (hsh : Shared st fb) (hr : Ready P st fb s)
    (acts : List Act) (last : Act) (hacts : ∀ a ∈ acts, a.OnDrive (P.drive s.hba)) :
    let x := Serve.run (Act.driver hba st fb) s (acts ++ [last])
    let y := Serve.run Act.plain ⟨P.drive s.hba, s.mem⟩ (acts ++ [last])
    x.1 = y.1 ∧ Shows P st fb x.2 y.2 := by
  intro x y
  have hstart : Serving P st fb s ⟨P.drive s.hba, s.mem⟩ := ⟨⟨rfl, fun _ _ => rfl⟩, hr⟩
  have hstep : ∀ (a : Act) (s : State δ σ) p, Serving P st fb s p → a.OnDrive p.disk →
      Serve.Matches (Serving P st fb) (a.driver hba st fb s) (a.plain p) := fun a s p hsp hon =>
    (driver_matches hl hsh hsp.ready hsp.toShows a).mono fun _ _ h => ⟨h.1, h.2 hon⟩
  have hlast : ∀ (s : State δ σ) p, Serving P st fb s p →
      Serve.Matches (Shows P st fb) (last.driver hba st fb s) (last.plain p) := fun s p hsp =>
    (driver_matches hl hsh hsp.ready hsp.toShows last).mono fun _ _ h => h.1
  exact Serve.run_matches_last _ hstep hstart (guarded_onDrive hacts) hlast

end

/-- A driver that is started on port 0, with a drive of sixteen sectors. -/
def startedPort : PortState := ⟨0, 0x1000, 0x3000, 0x4000⟩

/-- Its machine. -/
def startedState : State Device PUnit where
  mem := write (fun _ => 0) 0x1008 (toLe 8 0x3000)
  pages := ⟨⟩
  hba :=
    { drive := smallDrive
      slot := .idle false
      reg := fun off =>
        if off = portReg 0 pxClb then 0x1000
        else if off = portReg 0 pxFb then 0x2000
        else if off = portReg 0 pxCmd then cmdFre ||| cmdSt
        else 0 }
  port := some startedPort

/-- The shared pages of the started port are apart. -/
theorem startedPort_shared : Shared startedPort 0x2000 := by
  refine ⟨fun f hf => ?_, ?_⟩
  · simp [PortState.shared, startedPort] at hf
    omega
  · simp [PortState.shared, startedPort]

/-- The started port may take a request. -/
theorem startedState_ready : Ready (Device.port 0) startedPort 0x2000 startedState where
  port := rfl
  slot := rfl
  started := ⟨by decide, by decide⟩
  clb := by decide
  fb := by decide
  table := by decide

/-- A sector written and read back, with other code in between. -/
theorem requests_refine_started :
    let acts := [.write 2 1 (List.replicate 512 7), .others fun _ => 9]
    let last := .read 2 1 (List.replicate 512 0)
    let x := Serve.run (Act.driver (Device.hba 0) startedPort 0x2000) startedState (acts ++ [last])
    let y := Serve.run Act.plain ⟨startedState.hba.drive, startedState.mem⟩ (acts ++ [last])
    x.1 = y.1 ∧ Shows (Device.port 0) startedPort 0x2000 x.2 y.2 := by
  refine requests_refine (Device.lawful 0) startedPort_shared startedState_ready _ _ fun a ha => ?_
  simp only [List.mem_cons, List.not_mem_nil, or_false] at ha
  rcases ha with rfl | rfl
  · left
    decide
  · trivial

end Ahci

end RossOs
