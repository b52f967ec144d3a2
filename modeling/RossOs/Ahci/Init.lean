import RossOs.Ahci.Requests
import RossOs.Paging.Run

/-!
# Starting the AHCI driver

`init` finds the first port with an active SATA drive and programs it: it takes four pages, tells
the controller where the command list and the area for received FISes are, and starts the port.
`init_outcome` says that this leaves the driver ready for requests, with shared pages of its own, or
else returns an error and leaves it unusable. While the port is stopped nothing is posted to memory
(`Quiet`), which is what keeps the pages as they are filled.
-/

namespace RossOs

open ByteMem Exec Paging

namespace Ahci

/-- What the controller shows of its ports: which there are, and their signature and status. -/
structure Detects {δ : Type} (hba : Hba δ) (pi : ℕ) (sig ssts : ℕ → ℕ) : Prop where
  pi_value : ∀ m h v m' h', hba.mmioRead hbaPi (m, h) = (v, m', h') → v = pi
  sig_value : ∀ p m h v m' h', hba.mmioRead (portReg p pxSig) (m, h) = (v, m', h') → v = sig p
  ssts_value : ∀ p m h v m' h', hba.mmioRead (portReg p pxSsts) (m, h) = (v, m', h') → v = ssts p

/-- An active SATA drive is attached to the port: the device is present, the interface is active,
and the signature is that of a SATA drive. -/
structure Attached (pi : ℕ) (sig ssts : ℕ → ℕ) (p : ℕ) : Prop where
  lt : p < 32
  implemented : pi.testBit p
  present : ssts p &&& 0x0F = 3
  active : ssts p >>> 8 &&& 0x0F = 1
  sata : sig p = sigSata

section
variable {δ σ : Type} {hba : Hba δ} {P : Port δ} {port off : ℕ} {s s' s'' : State δ σ}

/-! ## A stopped port -/

/-- A read of a register, with the value that the controller shows. -/
theorem mmioRead_run (hba : Hba δ) (off : ℕ) (s : State δ σ) : ∃ v s',
    mmioRead hba off s = .ok v s' ∧ hba.mmioRead off (s.mem, s.hba) = (v, s'.mem, s'.hba) ∧
      s'.pages = s.pages ∧ s'.port = s.port := by
  rcases hread : hba.mmioRead off (s.mem, s.hba) with ⟨v, m, h⟩
  refine ⟨v, { s with mem := m, hba := h }, ?_, rfl, rfl, rfl⟩
  unfold mmioRead
  rw [hread]

/-- A read of a register while no command is there. -/
theorem mmioRead_still (hl : Lawful hba port P) (hs : P.slot s.hba = .idle false) {v : ℕ}
    (hread : hba.mmioRead off (s.mem, s.hba) = (v, s'.mem, s'.hba)) (hpages : s'.pages = s.pages)
    (hport : s'.port = s.port) : Still P false s s' := by
  have hp := hl.read_progress _ _ _ _ _ _ hread
  obtain ⟨hmem, hslot, hdrive⟩ := hp.idle false hs
  exact ⟨⟨hpages, hport, hp.reg⟩, hslot, hdrive, hmem⟩

/-- The port has no command and posts nothing. -/
structure Stopped (P : Port δ) (s : State δ σ) : Prop where
  slot : P.slot s.hba = .idle false
  off : (P.reg s.hba pxCmd).testBit 4 = false

/-- Accesses to a stopped port. -/
structure Quiet (P : Port δ) (s s' : State δ σ) : Prop where
  pages : s'.pages = s.pages
  port : s'.port = s.port
  drive : P.drive s'.hba = P.drive s.hba
  mem : s'.mem = s.mem
  stopped : Stopped P s'

/-- Accesses to a stopped port, in sequence. -/
theorem Quiet.trans (h : Quiet P s s') (h' : Quiet P s' s'') : Quiet P s s'' :=
  ⟨h'.pages.trans h.pages, h'.port.trans h.port, h'.drive.trans h.drive, h'.mem.trans h.mem,
    h'.stopped⟩

/-- A stopped port posts nothing. -/
theorem Stopped.not_posts (h : Stopped P s) (a : ℕ) : ¬ P.Posts s.hba a := by
  intro hp
  have hset := hp.1
  rw [h.off] at hset
  cases hset

/-- Where the port is stopped, an access leaves all memory. -/
theorem Still.quiet (h : Still P false s s') (hs : Stopped P s) : Quiet P s s' where
  pages := h.pages
  port := h.port
  drive := h.drive
  mem := funext fun a => h.mem a (hs.not_posts a)
  stopped := ⟨h.slot, by rw [h.reg pxCmd (by decide)]; exact hs.off⟩

/-- Programming a register of a stopped port, other than the one that starts it. -/
theorem portWrite_quiet (hl : Lawful hba port P) (hs : Stopped P s) {off v : ℕ}
    (hoff : Programs port (portReg port off) v) (hcmd : off ≠ pxCmd) :
    ∃ s', portWrite hba port off v s = .ok ⟨⟩ s' ∧ Quiet P s s' ∧
      ∀ r ∈ programmed, P.reg s'.hba r = if off = r then v else P.reg s.hba r := by
  obtain ⟨s', hrun, hpages, hport, hslot, hdrive, hmem, hreg⟩ := portWrite_run hl hoff hs.slot
  have hfre : (P.reg s'.hba pxCmd).testBit 4 = false := by
    rw [hreg pxCmd (by decide), if_neg hcmd]
    exact hs.off
  have hstopped : Stopped P s' := ⟨hslot, hfre⟩
  exact ⟨s', hrun, ⟨hpages, hport, hdrive,
    funext fun a => hmem a (hs.not_posts a) (hstopped.not_posts a), hstopped⟩, hreg⟩

/-! ## The parts of `init_port` -/

/-- The port that has no request under way comes to a stop. -/
theorem stopPort_run (hl : Lawful hba port P) (hs : P.slot s.hba = .idle false) :
    ∃ s', Driver.stopPort hba port s = .ok ⟨⟩ s' ∧ s'.pages = s.pages ∧ s'.port = s.port ∧
      P.drive s'.hba = P.drive s.hba ∧ Stopped P s' ∧
      ∀ a, ¬ P.Posts s.hba a → s'.mem a = s.mem a := by
  obtain ⟨cmd, s₁, hrun₁, -, hstill⟩ := portRead_idle hl pxCmd hs
  obtain ⟨s₂, hrun₂, hpages, hport, hslot, hdrive, hmem, hreg⟩ :=
    portWrite_run (v := cmd &&& (0xFFFFFFFF - (cmdSt ||| cmdFre))) hl
      (.other (r := pxCmd) (by decide)) hstill.slot
  have hstopped : Stopped P s₂ := by
    refine ⟨hslot, ?_⟩
    rw [hreg pxCmd (by decide), if_pos rfl, Nat.testBit_and,
      show (0xFFFFFFFF - (cmdSt ||| cmdFre)).testBit 4 = false by decide, Bool.and_false]
  obtain ⟨s₃, hrun₃, hstill₃⟩ :=
    waitClear_still hl pxCmd (cmdFr ||| cmdCr) Driver.engineRounds hslot
  have hquiet := hstill₃.quiet hstopped
  refine ⟨s₃, ?_, ?_, ?_, ?_, hquiet.stopped, fun a ha => ?_⟩
  · unfold Driver.stopPort
    rw [bind_of_ok hrun₁, bind_of_ok hrun₂, hrun₃]
  · rw [hquiet.pages, hpages, hstill.pages]
  · rw [hquiet.port, hport, hstill.port]
  · rw [hquiet.drive, hdrive, hstill.drive]
  · rw [hquiet.mem, hmem a ((hstill.posts a).not.2 ha) (hstopped.not_posts a), hstill.mem a ha]

/-- Memory with the pages filled. -/
def pagesFilled (st : PortState) (fb : ℕ) (m : Mem) : Mem :=
  let m := clear (clear (clear (clear m st.clbPhys 4096) fb 4096) st.ctPhys 4096) st.dmaPhys 4096
  let m := write m (st.clbPhys + 8) (toLe 4 (st.ctPhys &&& 0xFFFFFFFF))
  write m (st.clbPhys + 12) (toLe 4 (st.ctPhys >>> 32))

/-- The shared pages are zeroed and the command table put into the header. -/
theorem fillPages_run {st : PortState} {fb : ℕ} (h : Shared st fb) (s : State δ σ) :
    Driver.fillPages st fb s = .ok ⟨⟩ { s with mem := pagesFilled st fb s.mem } := by
  have hzero : ∀ a (s : State δ σ), zeroPage a s = .ok ⟨⟩ { s with mem := clear s.mem a 4096 } :=
    fun _ _ => rfl
  unfold Driver.fillPages
  rw [bind_of_ok (h.window_run (by simp [PortState.shared]) s),
    bind_of_ok (h.window_run (by simp [PortState.shared]) s),
    bind_of_ok (h.window_run (by simp [PortState.shared]) s),
    bind_of_ok (h.window_run (by simp [PortState.shared]) s), bind_of_ok (hzero _ _),
    bind_of_ok (hzero _ _), bind_of_ok (hzero _ _), bind_of_ok (hzero _ _),
    bind_of_ok (store_run _ _ _), store_run]
  unfold pagesFilled
  rfl

/-- The filled pages: the header holds the address of the table, and only the pages changed. -/
theorem pagesFilled_table {st : PortState} {fb : ℕ} (h : Shared st fb) (m : Mem) :
    let m' := pagesFilled st fb m
    leNat (read m' (st.clbPhys + 8) 4) + 2 ^ 32 * leNat (read m' (st.clbPhys + 12) 4) =
      st.ctPhys := by
  intro m'
  have hct := h.inWindow st.ctPhys (by simp [PortState.shared])
  have h8 : read m' (st.clbPhys + 8) 4 = toLe 4 (st.ctPhys &&& 0xFFFFFFFF) := by
    simp (disch := (simp only [length_toLe]; omega)) only [m', pagesFilled, read_write_of_disjoint,
      read_write_toLe]
  have h12 : read m' (st.clbPhys + 12) 4 = toLe 4 (st.ctPhys >>> 32) := read_write_toLe _ _ _ _
  rw [h8, h12, leNat_halves (by omega)]

/-- Filling the shared pages changes these only. -/
theorem pagesFilled_apply {st : PortState} {fb a : ℕ} (m : Mem)
    (ha : ∀ f ∈ st.shared fb, ¬ InFrame f a) : pagesFilled st fb m a = m a := by
  simp only [PortState.shared, List.mem_cons, List.not_mem_nil, or_false, forall_eq_or_imp,
    forall_eq, InFrame] at ha
  simp (disch := (simp only [length_toLe]; omega)) only [pagesFilled, write_apply_of_outside]
  simp (disch := omega) only [clear_apply_of_outside]

/-- A port that is stopped is brought up with its two areas, and the drive is as it was. -/
theorem startPort_run (st : PortState) (fb : ℕ) (hl : Lawful hba st.port P) (hs : Stopped P s)
    (hclb : 1024 ∣ st.clbPhys) (hfb : 256 ∣ fb) :
    ∃ s', Driver.startPort hba st fb s = .ok ⟨⟩ s' ∧ s'.pages = s.pages ∧ s'.port = s.port ∧
      P.drive s'.hba = P.drive s.hba ∧ P.slot s'.hba = .idle false ∧ P.Started s'.hba ∧
      P.clb s'.hba = st.clbPhys ∧ P.fb s'.hba = fb ∧
      ∀ a, ¬ P.Posts s'.hba a → s'.mem a = s.mem a := by
  have hlow : ∀ x, x &&& 0xFFFFFFFF = x % 2 ^ 32 := fun x => Bits.and_low_mask x 32
  have hclbLow : 1024 ∣ st.clbPhys &&& 0xFFFFFFFF := by
    rw [hlow]
    omega
  have hfbLow : 256 ∣ fb &&& 0xFFFFFFFF := by
    rw [hlow]
    omega
  obtain ⟨s₁, hrun₁, hq₁, hreg₁⟩ :=
    portWrite_quiet hl hs (.clb hclbLow) (by decide)
  obtain ⟨s₂, hrun₂, hq₂, hreg₂⟩ :=
    portWrite_quiet (v := st.clbPhys >>> 32) hl hq₁.stopped (.other (r := pxClbu) (by decide))
      (by decide)
  obtain ⟨s₃, hrun₃, hq₃, hreg₃⟩ :=
    portWrite_quiet hl hq₂.stopped (.fb hfbLow) (by decide)
  obtain ⟨s₄, hrun₄, hq₄, hreg₄⟩ :=
    portWrite_quiet (v := fb >>> 32) hl hq₃.stopped (.other (r := pxFbu) (by decide)) (by decide)
  obtain ⟨s₅, hrun₅, hq₅, hreg₅⟩ :=
    portWrite_quiet (v := 0xFFFFFFFF) hl hq₄.stopped (.other (r := pxSerr) (by decide)) (by decide)
  obtain ⟨s₆, hrun₆, hq₆, hreg₆⟩ :=
    portWrite_quiet (v := 0xFFFFFFFF) hl hq₅.stopped (.other (r := pxIs) (by decide)) (by decide)
  obtain ⟨s₇, hrun₇, hstill₇⟩ :=
    waitClear_still hl pxCmd cmdCr Driver.engineRounds hq₆.stopped.slot
  have hq₇ := hstill₇.quiet hq₆.stopped
  obtain ⟨cmd, s₈, hrun₈, -, hstill₈⟩ := portRead_idle hl pxCmd hq₇.stopped.slot
  have hq₈ := hstill₈.quiet hq₇.stopped
  obtain ⟨s₉, hrun₉, hpages, hport, hslot, hdrive, hmem, hreg₉⟩ :=
    portWrite_run (v := cmd ||| cmdFre ||| cmdSt) hl (.other (r := pxCmd) (by decide))
      hq₈.stopped.slot
  have hq := hq₁.trans (hq₂.trans (hq₃.trans (hq₄.trans (hq₅.trans (hq₆.trans (hq₇.trans hq₈))))))
  -- what the registers hold in the end: the last write to each
  have hlate : ∀ r ∈ programmed, r ≠ pxCmd → P.reg s₉.hba r = P.reg s₄.hba r := by
    intro r hr hcmd
    have hserr : pxSerr ≠ r := by
      rintro rfl
      revert hr
      decide
    have his : pxIs ≠ r := by
      rintro rfl
      revert hr
      decide
    rw [hreg₉ r hr, if_neg hcmd.symm, hstill₈.reg r hr, hstill₇.reg r hr, hreg₆ r hr, if_neg his,
      hreg₅ r hr, if_neg hserr]
  have hfbu : P.reg s₉.hba pxFbu = fb >>> 32 := by
    rw [hlate _ (by decide) (by decide), hreg₄ _ (by decide), if_pos rfl]
  have hfbReg : P.reg s₉.hba pxFb = fb &&& 0xFFFFFFFF := by
    rw [hlate _ (by decide) (by decide), hreg₄ _ (by decide), if_neg (by decide),
      hreg₃ _ (by decide), if_pos rfl]
  have hclbu : P.reg s₉.hba pxClbu = st.clbPhys >>> 32 := by
    rw [hlate _ (by decide) (by decide), hreg₄ _ (by decide), if_neg (by decide),
      hreg₃ _ (by decide), if_neg (by decide), hreg₂ _ (by decide), if_pos rfl]
  have hclbReg : P.reg s₉.hba pxClb = st.clbPhys &&& 0xFFFFFFFF := by
    rw [hlate _ (by decide) (by decide), hreg₄ _ (by decide), if_neg (by decide),
      hreg₃ _ (by decide), if_neg (by decide), hreg₂ _ (by decide), if_neg (by decide),
      hreg₁ _ (by decide), if_pos rfl]
  have hcmd : P.reg s₉.hba pxCmd = cmd ||| cmdFre ||| cmdSt := by
    rw [hreg₉ pxCmd (by decide), if_pos rfl]
  have hhalves : ∀ x, (x &&& 0xFFFFFFFF) + 2 ^ 32 * (x >>> 32) = x := by
    intro x
    rw [hlow, Nat.shiftRight_eq_div_pow]
    omega
  refine ⟨s₉, ?_, hpages.trans hq.pages, hport.trans hq.port, hdrive.trans hq.drive, hslot,
    ⟨?_, ?_⟩, ?_, ?_, fun a ha => ?_⟩
  · unfold Driver.startPort
    rw [bind_of_ok hrun₁, bind_of_ok hrun₂, bind_of_ok hrun₃, bind_of_ok hrun₄, bind_of_ok hrun₅,
      bind_of_ok hrun₆, bind_of_ok hrun₇, bind_of_ok hrun₈, hrun₉]
  · rw [hcmd, Nat.testBit_or, show cmdSt.testBit 0 = true by decide, Bool.or_true]
  · rw [hcmd, Nat.testBit_or, Nat.testBit_or, show cmdFre.testBit 4 = true by decide, Bool.or_true,
      Bool.true_or]
  · rw [Port.clb, hclbReg, hclbu, hhalves]
  · rw [Port.fb, hfbReg, hfbu, hhalves]
  · rw [hmem a (hq₈.stopped.not_posts a) ha, hq.mem]

/-! ## The pages -/

section
variable [PageAllocator σ]

/-- There is a page to be taken, or none is left and the message is the error. -/
theorem allocPage_cases (msg : String) (s : State δ σ) :
    (PageAllocator.avail s.pages = 0 ∧ Driver.allocPage msg s = .error (.err msg) s) ∨
      ∃ f pages, Driver.allocPage msg s = .ok f { s with pages := pages } ∧
        f ∈ PageAllocator.free s.pages ∧
        PageAllocator.free pages = PageAllocator.free s.pages \ {f} ∧
        PageAllocator.avail s.pages = PageAllocator.avail pages + 1 := by
  unfold Driver.allocPage
  cases h : PageAllocator.allocPage s.pages with
  | none => exact .inl ⟨PageAllocator.avail_none h, rfl⟩
  | some r =>
    obtain ⟨f, pages⟩ := r
    exact .inr ⟨f, pages, rfl, PageAllocator.mem_free h, PageAllocator.free_eq h,
      PageAllocator.avail_some h⟩

/-- Different frames of the allocator do not overlap. -/
theorem frames_apart {pages : σ} {f g : ℕ} (hf : f ∈ PageAllocator.free pages)
    (hg : g ∈ PageAllocator.free pages) (hne : f ≠ g) : f + 4096 ≤ g ∨ g + 4096 ≤ f := by
  obtain ⟨i, rfl⟩ := PageAllocator.aligned hf
  obtain ⟨j, rfl⟩ := PageAllocator.aligned hg
  omega

/-- Four different frames of the allocator may be shared with the controller. -/
theorem shared_of_frames {st : PortState} {fb : ℕ} {pages : σ}
    (h : ∀ f ∈ st.shared fb, f ∈ PageAllocator.free pages) (hnodup : (st.shared fb).Nodup) :
    Shared st fb where
  inWindow := by
    intro f hf
    have hbelow := PageAllocator.below (h f hf)
    have haligned := PageAllocator.aligned (h f hf)
    omega
  apart := hnodup.imp_of_mem fun hf hg hne => frames_apart (h _ hf) (h _ hg) hne

/-- What a successful start of the driver on a port leaves. -/
structure Up (P : Port δ) (port : ℕ) (s s' : State δ σ) : Prop where
  up : ∃ st fb, st.port = port ∧ Shared st fb ∧ Ready P st fb s' ∧
    (∀ f ∈ st.shared fb, f ∈ PageAllocator.free s.pages) ∧
    PageAllocator.free s'.pages = PageAllocator.free s.pages \ {f | f ∈ st.shared fb} ∧
    ∀ a, ¬ P.Posts s.hba a → (∀ f ∈ st.shared fb, ¬ InFrame f a) → s'.mem a = s.mem a
  drive : P.drive s'.hba = P.drive s.hba

/-- The start of a port, with four free pages or without. -/
theorem initPort_outcome (hl : Lawful hba port P) (hs : P.slot s.hba = .idle false) :
    (4 ≤ PageAllocator.avail s.pages ∧
        ∃ s', Driver.initPort hba port s = .ok ⟨⟩ s' ∧ Up P port s s') ∨
      (PageAllocator.avail s.pages < 4 ∧
        ∃ msg s', Driver.initPort hba port s = .error (.err msg) s' ∧ s'.port = s.port) := by
  obtain ⟨s₀, hstop, hpages₀, hport₀, hdrive₀, hstopped₀, hmem₀⟩ := stopPort_run hl hs
  unfold Driver.initPort
  rw [bind_of_ok hstop, ← hpages₀]
  rcases allocPage_cases "OOM: CLB" s₀ with ⟨hnone, hrun⟩ | ⟨f₁, p₁, hrun₁, hf₁, hfree₁, havail₁⟩
  · rw [bind_of_error hrun]
    exact .inr ⟨by omega, _, _, rfl, hport₀⟩
  rw [bind_of_ok hrun₁]
  rcases allocPage_cases "OOM: FB" { s₀ with pages := p₁ } with
    ⟨hnone, hrun⟩ | ⟨f₂, p₂, hrun₂, hf₂, hfree₂, havail₂⟩
  · rw [bind_of_error hrun]
    dsimp only at hnone
    exact .inr ⟨by omega, _, _, rfl, hport₀⟩
  rw [bind_of_ok hrun₂]
  rcases allocPage_cases "OOM: CT" { s₀ with pages := p₂ } with
    ⟨hnone, hrun⟩ | ⟨f₃, p₃, hrun₃, hf₃, hfree₃, havail₃⟩
  · rw [bind_of_error hrun]
    dsimp only at hnone havail₂
    exact .inr ⟨by omega, _, _, rfl, hport₀⟩
  rw [bind_of_ok hrun₃]
  rcases allocPage_cases "OOM: DMA" { s₀ with pages := p₃ } with
    ⟨hnone, hrun⟩ | ⟨f₄, p₄, hrun₄, hf₄, hfree₄, havail₄⟩
  · rw [bind_of_error hrun]
    dsimp only at hnone havail₂ havail₃
    exact .inr ⟨by omega, _, _, rfl, hport₀⟩
  rw [bind_of_ok hrun₄]
  dsimp only at hf₂ hf₃ hf₄ hfree₂ hfree₃ hfree₄ havail₂ havail₃ havail₄
  rw [hfree₃, hfree₂, hfree₁] at hf₄
  rw [hfree₂, hfree₁] at hf₃
  rw [hfree₁] at hf₂
  simp only [Set.mem_sdiff, Set.mem_singleton_iff] at hf₂ hf₃ hf₄
  have hall : ∀ f ∈ (⟨port, f₁, f₃, f₄⟩ : PortState).shared f₂,
      f ∈ PageAllocator.free s₀.pages := by
    intro f hf
    simp only [PortState.shared, List.mem_cons, List.not_mem_nil, or_false] at hf
    rcases hf with rfl | rfl | rfl | rfl
    · exact hf₁
    · exact hf₂.1
    · exact hf₃.1.1
    · exact hf₄.1.1.1
  have hshared : Shared ⟨port, f₁, f₃, f₄⟩ f₂ := by
    refine shared_of_frames hall ?_
    simp only [PortState.shared, List.nodup_cons, List.mem_cons, List.not_mem_nil, or_false, not_or,
      not_false_eq_true, List.nodup_nil, and_true]
    exact ⟨⟨Ne.symm hf₂.2, Ne.symm hf₃.1.2, Ne.symm hf₄.1.1.2⟩, ⟨Ne.symm hf₃.2, Ne.symm hf₄.1.2⟩,
      Ne.symm hf₄.2⟩
  refine .inl ⟨by omega, ?_⟩
  rw [bind_of_ok (fillPages_run hshared _)]
  obtain ⟨s', hrun, hpages, hport, hdrive, hslot, hstarted, hclb, hfb, hmem⟩ :=
    startPort_run ⟨port, f₁, f₃, f₄⟩ f₂
      (s := { s₀ with pages := p₄, mem := pagesFilled ⟨port, f₁, f₃, f₄⟩ f₂ s₀.mem }) hl
      ⟨hstopped₀.slot, hstopped₀.off⟩
      (Nat.dvd_trans (by decide) (PageAllocator.aligned hf₁))
      (Nat.dvd_trans (by decide) (PageAllocator.aligned hf₂.1))
  rw [bind_of_ok hrun, modify_apply]
  have hposts : ∀ a, ¬ InFrame f₂ a → ¬ P.Posts s'.hba a := by
    intro a ha hp
    have hin := hp.2
    rw [hfb] at hin
    exact ha ⟨hin.1, by omega⟩
  have hapart := frames_apart hf₁ hf₂.1 (Ne.symm hf₂.2)
  have hread : ∀ o, o + 4 ≤ 4096 → read s'.mem (f₁ + o) 4 =
      read (pagesFilled ⟨port, f₁, f₃, f₄⟩ f₂ s₀.mem) (f₁ + o) 4 := by
    intro o ho
    refine read_congr fun i hi => hmem _ (hposts _ fun hin => ?_)
    unfold InFrame at hin
    omega
  refine ⟨_, rfl, ⟨⟨port, f₁, f₃, f₄⟩, f₂, rfl, hshared,
    ⟨rfl, hslot, hstarted, hclb, hfb, ?_⟩, ?_, ?_, ?_⟩, hdrive.trans hdrive₀⟩
  · have htable := pagesFilled_table hshared s₀.mem
    dsimp only at htable ⊢
    rw [hread 8 (by omega), hread 12 (by omega), htable]
  · rw [← hpages₀]
    exact hall
  · dsimp only
    rw [hpages, hfree₄, hfree₃, hfree₂, hfree₁, hpages₀]
    ext f
    simp only [PortState.shared, Set.mem_sdiff, Set.mem_singleton_iff, Set.mem_ofPred_eq,
      List.mem_cons, List.not_mem_nil, or_false, not_or]
    tauto
  · intro a ha hnot
    dsimp only
    rw [hmem a (hposts a (hnot f₂ (by simp [PortState.shared])))]
    dsimp only
    rw [pagesFilled_apply _ hnot, hmem₀ a ha]

end

/-! ## Finding the drive -/

/-- The first port of those from `p` on with a drive. -/
def FirstAttached (pi : ℕ) (sig ssts : ℕ → ℕ) (p port : ℕ) : Prop :=
  Attached pi sig ssts port ∧ p ≤ port ∧ ∀ q, p ≤ q → q < port → ¬ Attached pi sig ssts q

variable [PageAllocator σ]

section
variable {pi : ℕ} {sig ssts : ℕ → ℕ} {n p : ℕ}

/-- One turn of the loop: the port is taken when a drive is attached to it. -/
theorem initPorts_succ (hd : Detects hba pi sig ssts) (hp : p < 32) (s : State δ σ) :
    ∃ s', s'.port = s.port ∧ (∀ {port}, Lawful hba port P → P.slot s.hba = .idle false →
        Still P false s s') ∧
      (Attached pi sig ssts p → Driver.initPorts hba pi (n + 1) p s = Driver.initPort hba p s') ∧
      (¬ Attached pi sig ssts p →
        Driver.initPorts hba pi (n + 1) p s = Driver.initPorts hba pi n (p + 1) s') := by
  have hbit : pi &&& 1 <<< p = 0 ↔ pi.testBit p = false := by
    rw [Nat.one_shiftLeft, Bits.and_bit_eq_zero]
  by_cases himpl : pi &&& 1 <<< p = 0
  · refine ⟨s, rfl, fun _ hs => .refl hs, fun h => ?_, fun _ => ?_⟩
    · have hset := h.implemented
      rw [hbit.1 himpl] at hset
      cases hset
    · rw [Driver.initPorts, if_pos himpl]
  · obtain ⟨v, s₁, hrun₁, hread₁, hpages₁, hport₁⟩ := mmioRead_run hba (portReg p pxSig) s
    obtain ⟨w, s₂, hrun₂, hread₂, hpages₂, hport₂⟩ := mmioRead_run hba (portReg p pxSsts) s₁
    have hv : v = sig p := hd.sig_value _ _ _ _ _ _ hread₁
    have hw : w = ssts p := hd.ssts_value _ _ _ _ _ _ hread₂
    have hloop : Driver.initPorts hba pi (n + 1) p s =
        (if w &&& 0x0F = 3 ∧ w >>> 8 &&& 0x0F = 1 ∧ v = sigSata then Driver.initPort hba p
          else Driver.initPorts hba pi n (p + 1)) s₂ := by
      rw [Driver.initPorts, if_neg himpl]
      unfold portRead
      rw [bind_of_ok hrun₁, bind_of_ok hrun₂]
    refine ⟨s₂, hport₂.trans hport₁, fun hl hs => ?_, fun h => ?_, fun h => ?_⟩
    · have hstill := mmioRead_still hl hs hread₁ hpages₁ hport₁
      exact hstill.trans (mmioRead_still hl hstill.slot hread₂ hpages₂ hport₂)
    · rw [hloop, hv, hw, if_pos ⟨h.present, h.active, h.sata⟩]
    · rw [hloop, hv, hw, if_neg]
      intro hall
      refine h ⟨hp, ?_, hall.1, hall.2.1, hall.2.2⟩
      have hset : ¬ pi.testBit p = false := fun hf => himpl (hbit.2 hf)
      simpa using hset

/-- The loop comes to the first port with a drive. -/
theorem initPorts_first (hd : Detects hba pi sig ssts) (hl : Lawful hba port P)
    (hfirst : FirstAttached pi sig ssts p port) (hn : n + p = 32)
    (hs : P.slot s.hba = .idle false) :
    ∃ s', Still P false s s' ∧ Driver.initPorts hba pi n p s = Driver.initPort hba port s' := by
  induction n generalizing p s with
  | zero =>
    have hlt := hfirst.1.lt
    have hle := hfirst.2.1
    omega
  | succ n ih =>
    obtain ⟨hatt, hle, hbefore⟩ := hfirst
    obtain ⟨s₁, -, hstill, htake, hskip⟩ := initPorts_succ (n := n) hd (show p < 32 by omega) s
    rcases Nat.eq_or_lt_of_le hle with rfl | hgt
    · exact ⟨s₁, hstill hl hs, htake hatt⟩
    · have hnot := hbefore p (Nat.le_refl _) hgt
      have hnext : FirstAttached pi sig ssts (p + 1) port :=
        ⟨hatt, hgt, fun q hq hq' => hbefore q (by omega) hq'⟩
      obtain ⟨s', hstill', hrun⟩ := ih hnext (by omega) (hstill hl hs).slot
      exact ⟨s', (hstill hl hs).trans hstill', (hskip hnot).trans hrun⟩

/-- Without a drive the loop comes to its end. -/
theorem initPorts_none (hd : Detects hba pi sig ssts) (hnone : ∀ q, ¬ Attached pi sig ssts q)
    (hn : n + p = 32) (s : State δ σ) :
    ∃ s', Driver.initPorts hba pi n p s = .error (.err "No SATA drive attached") s' ∧
      s'.port = s.port := by
  induction n generalizing p s with
  | zero => exact ⟨s, rfl, rfl⟩
  | succ n ih =>
    obtain ⟨s₁, hport, -, -, hskip⟩ :=
      initPorts_succ (n := n) (P := ⟨fun _ => .idle false, fun _ => emptyDisk, fun _ _ => 0⟩) hd
        (show p < 32 by omega) s
    obtain ⟨s', hrun, hport'⟩ := ih (show n + (p + 1) = 32 by omega) s₁
    exact ⟨s', (hskip (hnone p)).trans hrun, hport'.trans hport⟩

end

/-! ## The whole start -/

/-- There is a controller, and its registers have an address. -/
def Usable (cs : Pci.ConfigSpace) (devices : List Pci.PciDevice) : Prop :=
  ∃ controller bar, Pci.findByClass devices 0x01 0x06 = some controller ∧
    controller.readBar cs 5 = some bar ∧ bar &&& 0xFFFFFFF0 ≠ 0

/-- Where a drive is attached, one port is the first. -/
theorem exists_first {pi : ℕ} {sig ssts : ℕ → ℕ} (h : ∃ p, Attached pi sig ssts p) :
    ∃ port, FirstAttached pi sig ssts 0 port := by
  classical
  refine ⟨Nat.find h, Nat.find_spec h, Nat.zero_le _, fun q _ hq => Nat.find_min h hq⟩

/-- Accesses before the start of the port change nothing of it. -/
theorem Up.of_still (h : Still P false s s') (hup : Up P port s' s'') : Up P port s s'' := by
  obtain ⟨⟨st, fb, hst, hshared, hready, hfree, hrest, hmem⟩, hdrive⟩ := hup
  rw [h.pages] at hfree hrest
  refine ⟨⟨st, fb, hst, hshared, hready, hfree, hrest, fun a ha hnot => ?_⟩,
    hdrive.trans h.drive⟩
  rw [hmem a ((h.posts a).not.2 ha) hnot, h.mem a ha]

omit [PageAllocator σ] in
/-- The accesses of `init` before it looks at the ports. -/
theorem probe_run {pi : ℕ} {sig ssts : ℕ → ℕ} (hba : Hba δ) (hd : Detects hba pi sig ssts)
    (s : State δ σ) : ∃ ghc s₁ s₂ s₃ cap s₄, mmioRead hba hbaGhc s = .ok ghc s₁ ∧
      mmioWrite hba hbaGhc (ghc ||| ghcAe) s₁ = .ok ⟨⟩ s₂ ∧
      mmioRead hba hbaCap s₂ = .ok cap s₃ ∧ mmioRead hba hbaPi s₃ = .ok pi s₄ ∧
      s₄.port = s.port ∧ ∀ (P : Port δ) (port : ℕ), Lawful hba port P →
        P.slot s.hba = .idle false → Still P false s s₄ := by
  obtain ⟨ghc, s₁, hrun₁, hread₁, hpages₁, hport₁⟩ := mmioRead_run hba hbaGhc s
  rcases hwrite : hba.mmioWrite hbaGhc (ghc ||| ghcAe) (s₁.mem, s₁.hba) with ⟨m, h⟩
  obtain ⟨cap, s₃, hrun₃, hread₃, hpages₃, hport₃⟩ :=
    mmioRead_run hba hbaCap { s₁ with mem := m, hba := h }
  obtain ⟨v, s₄, hrun₄, hread₄, hpages₄, hport₄⟩ := mmioRead_run hba hbaPi s₃
  obtain rfl : v = pi := hd.pi_value _ _ _ _ _ hread₄
  refine ⟨ghc, s₁, { s₁ with mem := m, hba := h }, s₃, cap, s₄, hrun₁, ?_, hrun₃, hrun₄,
    hport₄.trans (hport₃.trans hport₁), fun P port hl hs => ?_⟩
  · unfold mmioWrite
    rw [modify_apply, hwrite]
  · have hstill₁ := mmioRead_still hl hs hread₁ hpages₁ hport₁
    have hfar : ∀ r, hbaGhc ≠ portReg port r := fun r => by
      unfold hbaGhc portReg hbaPortBase
      omega
    have hreset : (ghc ||| ghcAe).testBit 0 = false := by
      rw [Nat.testBit_or, hl.ghc_value _ _ _ _ _ hread₁]
      rfl
    obtain ⟨hmem, hslot, hdrive, hreg⟩ :=
      hl.write_reg _ _ _ _ _ _ (.ghc hreset) hstill₁.slot hwrite
    have hkept : Kept P s₁ { s₁ with mem := m, hba := h } := by
      refine ⟨rfl, rfl, fun r hr => ?_⟩
      rw [hreg r hr, if_neg (hfar r)]
    have hstill₂ : Still P false s₁ { s₁ with mem := m, hba := h } :=
      ⟨hkept, hslot, hdrive, fun a ha => hmem a ha ((hkept.posts a).not.2 ha)⟩
    have hstill₃ := mmioRead_still hl hslot hread₃ hpages₃ hport₃
    exact hstill₁.trans (hstill₂.trans (hstill₃.trans
      (mmioRead_still hl hstill₃.slot hread₄ hpages₄ hport₄)))

/-- The start of the driver, on any machine whose controller behaves: it leaves the driver ready on
the first port with an active SATA drive, with four pages of its own, when there are a controller,
such a port and four pages; and otherwise it returns an error and leaves the driver unusable. -/
theorem init_outcome (cs : Pci.ConfigSpace) (devices : List Pci.PciDevice) (ports : ℕ → Port δ)
    {pi : ℕ} {sig ssts : ℕ → ℕ} (hd : Detects hba pi sig ssts)
    (hl : ∀ port, FirstAttached pi sig ssts 0 port →
      Lawful hba port (ports port) ∧ (ports port).slot s.hba = .idle false) :
    (Usable cs devices ∧ 4 ≤ PageAllocator.avail s.pages ∧ ∃ port s',
        FirstAttached pi sig ssts 0 port ∧ Driver.init hba cs devices s = .ok ⟨⟩ s' ∧
          Up (ports port) port s s') ∨
      (¬ (Usable cs devices ∧ 4 ≤ PageAllocator.avail s.pages ∧ ∃ port, Attached pi sig ssts port) ∧
        ∃ msg s', Driver.init hba cs devices s = .error (.err msg) s' ∧ s'.port = s.port) := by
  have hbar : ∀ d : Pci.PciDevice, ∃ bar, d.readBar cs 5 = some bar := fun d => by
    unfold Pci.PciDevice.readBar
    exact ⟨_, if_pos (by decide)⟩
  unfold Driver.init
  cases hfind : Pci.findByClass devices 0x01 0x06 with
  | none =>
    refine .inr ⟨fun h => ?_, _, s, rfl, rfl⟩
    obtain ⟨⟨c, bar, hc, -⟩, -⟩ := h
    rw [hfind] at hc
    cases hc
  | some controller =>
    obtain ⟨bar, hread⟩ := hbar controller
    simp only [hread]
    by_cases hzero : bar &&& 0xFFFFFFF0 = 0
    · rw [if_pos hzero]
      refine .inr ⟨fun h => ?_, _, s, rfl, rfl⟩
      obtain ⟨⟨c, bar', hc, hbar', hne⟩, -⟩ := h
      rw [hfind] at hc
      cases hc
      rw [hread] at hbar'
      cases hbar'
      exact hne hzero
    · have husable : Usable cs devices := ⟨controller, bar, hfind, hread, hzero⟩
      obtain ⟨ghc, s₁, s₂, s₃, cap, s₄, hrun₁, hrun₂, hrun₃, hrun₄, hport, hstill⟩ :=
        probe_run hba hd s
      rw [if_neg hzero, bind_of_ok hrun₁, bind_of_ok hrun₂, bind_of_ok hrun₃, bind_of_ok hrun₄]
      by_cases hany : ∃ port, Attached pi sig ssts port
      · obtain ⟨port, hfirst⟩ := exists_first hany
        obtain ⟨hlaw, hslot⟩ := hl port hfirst
        have hstill₄ := hstill _ _ hlaw hslot
        obtain ⟨s₅, hstill₅, hrun₅⟩ := initPorts_first hd hlaw hfirst rfl hstill₄.slot
        have hstill₅ := hstill₄.trans hstill₅
        rw [hrun₅]
        rcases initPort_outcome hlaw hstill₅.slot with
          ⟨havail, s', hok, hup⟩ | ⟨havail, msg, s', herr, hs'⟩
        · rw [hstill₅.pages] at havail
          exact .inl ⟨husable, havail, port, s', hfirst, hok, hup.of_still hstill₅⟩
        · rw [hstill₅.pages] at havail
          exact .inr ⟨fun h => by omega, msg, s', herr, hs'.trans hstill₅.port⟩
      · obtain ⟨s', hrun, hs'⟩ := initPorts_none (n := 32) (p := 0) hd
          (fun q hq => hany ⟨q, hq⟩) rfl s₄
        exact .inr ⟨fun h => hany h.2.2, _, s', hrun, hs'.trans hport⟩

end

/-- A register address tells the port and the register. -/
theorem portReg_inj {p p' off off' : ℕ} (h : off < 0x80) (h' : off' < 0x80) :
    portReg p off = portReg p' off' ↔ p = p' ∧ off = off' := by
  unfold portReg hbaPortBase hbaPortSize
  omega

/-- The registers of the ports lie behind the list of ports. -/
theorem portReg_ne_hbaPi (p off : ℕ) : portReg p off ≠ hbaPi := by
  unfold portReg hbaPortBase hbaPi
  omega

/-- What the simplest controller shows of its ports. -/
theorem Device.detects (port : ℕ) : Detects (Device.hba port) (1 <<< port)
    (fun p => if p = port then sigSata else 0) (fun p => if p = port then 0x103 else 0) where
  pi_value := by
    intro m h v m' h' hread
    obtain ⟨rfl, -, -⟩ := mmioRead_eq hread
    simp [value, hbaPi, portReg, hbaPortBase, pxSig, pxSsts]
  sig_value := by
    intro p m h v m' h' hread
    obtain ⟨rfl, -, failed, hslot⟩ := mmioRead_eq hread
    cases failed <;> simp [value, hslot, portReg_ne_hbaPi, programmed, portReg_inj, pxIs, pxCi,
      pxSig, pxSsts, pxClb, pxClbu, pxFb, pxFbu, pxCmd]
  ssts_value := by
    intro p m h v m' h' hread
    obtain ⟨rfl, -, failed, hslot⟩ := mmioRead_eq hread
    cases failed <;> simp [value, hslot, portReg_ne_hbaPi, programmed, portReg_inj, pxIs, pxCi,
      pxSig, pxSsts, pxClb, pxClbu, pxFb, pxFbu, pxCmd]

/-- A machine with the simplest controller on port 0, before the driver is started. -/
def bootState : State Device PmmState where
  mem := fun _ => 0
  pages := bootPages
  hba := ⟨smallDrive, .idle false, fun _ => 0⟩
  port := none

/-- The controller on its PCI bus. -/
def bootFunction : Pci.PciDevice := ⟨0, 31, 2, 0x8086, 0x2922, 0x01, 0x06, 0x01, 0⟩

/-- The configuration space, with the address of the registers in BAR 5. -/
def bootSpace : Pci.ConfigSpace := fun _ _ _ => write (fun _ => 0) 0x24 (toLe 4 0xFEBF0000)

/-- The controller on the bus can be used. -/
theorem bootSpace_usable : Usable bootSpace [bootFunction] :=
  ⟨bootFunction, 0xFEBF0000, by decide, by decide, by decide⟩

/-- On this machine the driver comes up. -/
theorem init_outcome_boot :
    ∃ s', Driver.init (Device.hba 0) bootSpace [bootFunction] bootState = .ok ⟨⟩ s' ∧
      Up (Device.port 0) 0 bootState s' := by
  have hattached : Attached (1 <<< 0) (fun p => if p = 0 then sigSata else 0)
      (fun p => if p = 0 then 0x103 else 0) 0 := ⟨by decide, by decide, by decide, by decide, rfl⟩
  have hfirst : ∀ port, FirstAttached (1 <<< 0) (fun p => if p = 0 then sigSata else 0)
      (fun p => if p = 0 then 0x103 else 0) 0 port → port = 0 := by
    intro port h
    by_contra hne
    have hpresent := h.1.present
    simp [hne] at hpresent
  have hlaw : ∀ port, FirstAttached (1 <<< 0) (fun p => if p = 0 then sigSata else 0)
      (fun p => if p = 0 then 0x103 else 0) 0 port →
      Lawful (Device.hba 0) port (Device.port port) ∧
        (Device.port port).slot bootState.hba = .idle false := by
    intro port h
    rw [hfirst port h]
    exact ⟨Device.lawful 0, rfl⟩
  have hpages : 4 ≤ PageAllocator.avail bootState.pages := by
    rw [show bootState.pages = bootPages from rfl, avail_bootPages]
    decide
  rcases init_outcome bootSpace [bootFunction] Device.port (Device.detects 0) hlaw with h | h
  · obtain ⟨-, -, port, s', hport, hrun, hup⟩ := h
    rw [hfirst port hport] at hup
    exact ⟨s', hrun, hup⟩
  · exact absurd ⟨bootSpace_usable, hpages, 0, hattached⟩ h.1

end Ahci

end RossOs
