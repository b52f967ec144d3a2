import Mathlib.Data.Nat.Digits.Defs
import RossOs.Terminal.Drawing
import RossOs.Terminal.Keys

/-!
# The clock and the terminal

The main loop draws the uptime between the keys, and the interrupt handler of the keyboard its
message. `screen_law` says that they do not disturb each other: whatever the order of the steps, the
terminal looks as if the keys alone had been handled, one after the other, and the corner as if the
uptime alone had been drawn. Only the message of the first Enter can come into a drawing of the
uptime; the next one is in order again. The main loop stops only in a command that does not return.
-/

namespace RossOs

open Fat Console

namespace Terminal

/-! ## The shell on two screens -/

section
variable {w h : ℕ} {S : ℕ → Prop} {E : ℕ → ℕ → Prop} {wr wr' : Writer} {font : ℕ → ℕ → ℕ}

/-- A pixel in some rows has a row and a column. -/
theorem Rows.exists_cell {w a b i : ℕ} (hi : Rows w a b i) :
    ∃ row col, i = row * w + col ∧ (a ≤ row ∧ row < b) ∧ col < w := by
  have hw : 0 < w := by
    rcases Nat.eq_zero_or_pos w with rfl | hw
    · exact absurd hi.2 (Nat.not_lt_zero i)
    · exact hw
  exact ⟨i / w, i % w, (Nat.div_add_mod' i w).symm,
    ⟨(Nat.le_div_iff_mul_le hw).2 hi.1, (Nat.div_lt_iff_lt_mul hw).2 hi.2⟩, Nat.mod_lt _ hw⟩

/-- Whatever was on the two screens, the terminals are the same when they are cleared. -/
theorem Alike.clearTerminal (ha : Alike w h S E wr wr') (font : ℕ → ℕ → ℕ) :
    Option.Rel (Agree w h (Rows w termY h) E) (clearTerminal font wr)
      (Terminal.clearTerminal font wr') := by
  rw [Terminal.clearTerminal, Terminal.clearTerminal, ha.h, ha.h', ha.w, ha.w']
  split
  case isTrue => exact .none
  case isFalse =>
    have hfill : Alike w h (Rows w termY h) E (wr.fillRect 0 termY w (h - termY) bgColor)
        (wr'.fillRect 0 termY w (h - termY) bgColor) := by
      refine ha.covers fun i hi => ?_
      obtain ⟨row, col, hcell, hrow, hcol⟩ := hi.exists_cell
      exact ⟨row, col, hcell, by omega, by omega⟩
    refine Pair.bind ((hfill.setPos leftMargin (termY + 6)).putStr font _ _ _) fun _ _ h₁ => ?_
    exact .some (h₁.toAlike.setPos leftMargin (termY + 20))

/-- The terminal is shown on both screens. -/
theorem Alike.activate (ha : Alike w h S E wr wr') (font : ℕ → ℕ → ℕ) :
    Option.Rel (Agree w h (Rows w termY h) Eq) (activate font wr)
      (Terminal.activate font wr') := by
  rw [Terminal.activate, Terminal.activate]
  refine Pair.bind (((ha.fillRect 20 44 200 10 bgColor).setPos 20 44).putStr font _ _ _)
    fun wr₁ wr₁' h₁ => ?_
  rw [h₁.w, h₁.w']
  exact Pair.bind ((h₁.toAlike.fillRect _ _ _ _ _).clearTerminal font) fun _ _ h₂ => h₂.prompt font

/-- A command draws the same on both screens. -/
theorem Agree.draw (ha : Agree w h (Rows w termY h) E wr wr') (font : ℕ → ℕ → ℕ) (d : Draw) :
    Option.Rel (Agree w h (Rows w termY h) E) (draw font wr d) (Terminal.draw font wr' d) := by
  cases d with
  | str s color => exact ha.putStr font s color scale1
  | char ch color => exact ha.putChar font ch color scale1
  | clear => exact ha.toAlike.clearTerminal font

/-- A key in the line editor. -/
theorem Agree.handleByte (e e' : Editor) (ha : Agree w h S Eq e.wr e'.wr)
    (hline : e'.line = e.line) {run : List Char → Writer → Option Writer}
    (hrun : ∀ c wr wr', Agree w h S Eq wr wr' → Option.Rel (Agree w h S Eq) (run c wr) (run c wr'))
    (ch : UInt8) : Option.Rel (fun e e' => Agree w h S Eq e.wr e'.wr ∧ e'.line = e.line)
      (Console.handleByte font run ch e) (Console.handleByte font run ch e') := by
  rw [Console.handleByte, Console.handleByte, hline]
  split
  · refine Pair.bind (ha.putChar font _ _ _) fun wr₁ wr₁' h₁ => ?_
    refine Pair.bind (hrun _ _ _ h₁) fun wr₂ wr₂' h₂ => ?_
    exact Pair.bind (h₂.prompt font) fun wr₃ wr₃' h₃ => .some ⟨h₃, rfl⟩
  · split
    · split
      · exact .some ⟨ha.backspace scale1, rfl⟩
      · exact .some ⟨ha, hline⟩
    · split
      · split
        · exact Pair.bind (ha.putChar font ch _ _) fun wr₁ wr₁' h₁ => .some ⟨h₁, rfl⟩
        · exact .some ⟨ha, hline⟩
      · exact .some ⟨ha, hline⟩

end

section
variable {K : Type} {w h : ℕ} {font : ℕ → ℕ → ℕ}
  {execute : ℕ → List Char → K → Option (List Draw × K)} {r s : Shell K}

/-- The same shell on two screens of one size. Once it is active, the terminals are the same. -/
structure Same (width height : ℕ) (r s : Shell K) : Prop where
  state : s.state = r.state
  line : s.editor.line = r.editor.line
  kernel : s.kernel = r.kernel
  log : s.log = r.log
  size : Alike width height (fun _ => False) (fun _ _ => True) r.editor.wr s.editor.wr
  screen : s.state = .active →
    Agree width height (Rows width termY height) Eq r.editor.wr s.editor.wr

/-- The screens have one size, whatever is on them. -/
theorem Agree.size {S : ℕ → Prop} {E : ℕ → ℕ → Prop} {wr wr' : Writer}
    (ha : Agree w h S E wr wr') : Alike w h (fun _ => False) (fun _ _ => True) wr wr' :=
  ⟨ha.w, ha.h, ha.w', ha.h', trivial, fun _ hi => hi.elim⟩

/-- A byte does the same to both shells. -/
theorem Same.handleByte (hs : Same w h r s) (font : ℕ → ℕ → ℕ)
    (execute : ℕ → List Char → K → Option (List Draw × K)) (ticks : ℕ) (ch : UInt8) :
    Option.Rel (Same w h) (handleByte font execute ticks ch r)
      (handleByte font execute ticks ch s) := by
  obtain ⟨state, ⟨wr, line⟩, kernel, log⟩ := r
  obtain ⟨state', ⟨wr', line'⟩, kernel', log'⟩ := s
  obtain ⟨rfl, rfl, rfl, rfl, hsize, hscreen⟩ := hs
  cases state' with
  | splash =>
    simp only [Terminal.handleByte]
    split
    · refine Pair.bind (hsize.activate font) fun wr₁ wr₁' h₁ => ?_
      exact .some ⟨rfl, rfl, rfl, rfl, h₁.size, fun _ => h₁⟩
    · exact .some ⟨rfl, rfl, rfl, rfl, hsize, hscreen⟩
  | active =>
    have ha := hscreen rfl
    simp only [Terminal.handleByte, command]
    split
    · cases execute ticks _ kernel' with
      | none => exact .none
      | some result =>
        simp only [Option.bind_eq_bind, Option.bind_some]
        refine Pair.bind (Agree.handleByte ⟨wr, line'⟩ ⟨wr', line'⟩ ha rfl
          (fun _ _ _ h₁ => Pair.foldlM h₁ (fun _ _ d h₂ => h₂.draw font d) result.1) ch)
          fun e e' h₁ => ?_
        exact .some ⟨rfl, h₁.2, rfl, rfl, h₁.1.size, fun _ => h₁.1⟩
    · refine Pair.bind (Agree.handleByte ⟨wr, line'⟩ ⟨wr', line'⟩ ha rfl
        (fun _ _ _ h₁ => .some h₁) ch) fun e e' h₁ => ?_
      exact .some ⟨rfl, h₁.2, rfl, rfl, h₁.1.size, fun _ => h₁.1⟩

end

/-! ## Where the shell and the messages draw -/

section
variable {K : Type} {b : ℕ} {font : ℕ → ℕ → ℕ} {wr wr' : Writer} {e : Editor} {s : Shell K}

/-- The message of the first Enter is in the lower half. -/
theorem prints_showReady (font : ℕ → ℕ → ℕ) (wr : Writer) (hh : termY + 20 ≤ wr.h) :
    Prints 40 wr (showReady font wr) := by
  have hhalf : 40 ≤ wr.h / 2 := (Nat.le_div_iff_mul_le Nat.two_pos).2 hh
  have hstart := draws_fillRect_setPos wr 0 (wr.h / 2 + 20) wr.w 100 bgColor
    (wr.w / 2 - ((text "R.O.S.S. Ready.").length * (8 * 3 + 3) - 3) / 2)
    (y := wr.h / 2 + 20 + 20) (b := 40) (by omega) (by omega)
  exact .from hstart (prints_putStr (by rwa [hstart.h]) (by decide) font _ fgColor 3 hstart.y)

/-- A key in the line editor draws from the row of the cursor on. -/
theorem prints_handleByte (font : ℕ → ℕ → ℕ) (run : List Char → Writer → Option Writer)
    (hh : termY + 20 ≤ e.wr.h) (hb : b ≤ termY + 20) (hy : b ≤ e.wr.y)
    (hrun : ∀ c wr, termY + 20 ≤ wr.h → b ≤ wr.y → Prints b wr (run c wr)) (ch : UInt8) :
    ∃ e', Console.handleByte font run ch e = some e' ∧ Draws b e.wr e'.wr := by
  rw [Console.handleByte]
  split
  · have hprints : Prints b e.wr (do
        let wr ← e.wr.putChar font 0x0A fgColor scale1
        let wr ← run (trimWhiteSpace ((fromUtf8 (e.line.buf.take e.line.len)).getD [])) wr
        prompt font wr) := by
      refine (prints_putChar hh hb font _ _ _ hy).bind fun wr₁ h₁ => ?_
      refine (hrun _ wr₁ (by rwa [h₁.h]) h₁.y).bind fun wr₂ h₂ => ?_
      exact prints_prompt (by rwa [h₂.h, h₁.h]) hb font h₂.y
    obtain ⟨wr', hwr, hdraws⟩ := hprints
    obtain ⟨wr₁, h₁, hwr⟩ := Option.bind_eq_some_iff.1 hwr
    obtain ⟨wr₂, h₂, hwr⟩ := Option.bind_eq_some_iff.1 hwr
    refine ⟨⟨wr', e.line.reset⟩, ?_, hdraws⟩
    simp only [h₁, h₂, hwr, Option.bind_eq_bind, Option.bind_some]
  · split
    · split
      · exact ⟨_, rfl, draws_backspace scale1 hy⟩
      · exact ⟨e, rfl, .refl hy⟩
    · split
      · split
        · obtain ⟨wr', hwr, hdraws⟩ := prints_putChar hh hb font ch fgColor scale1 hy
          refine ⟨⟨wr', e.line.push ch⟩, ?_, hdraws⟩
          simp only [hwr, Option.bind_eq_bind, Option.bind_some]
        · exact ⟨e, rfl, .refl hy⟩
      · exact ⟨e, rfl, .refl hy⟩

/-- A step of the shell draws below the uptime, and the cursor of an active shell is there. -/
structure Below (s s' : Shell K) : Prop where
  w : s'.editor.wr.w = s.editor.wr.w
  h : s'.editor.wr.h = s.editor.wr.h
  y : s'.state = .active → 40 ≤ s'.editor.wr.y
  pixels : ∀ i, ¬ Rows s.editor.wr.w 40 s.editor.wr.h i →
    s'.editor.wr.framebuffer i = s.editor.wr.framebuffer i

/-- The letter is the Enter of a command that does not return. -/
structure Stuck (execute : ℕ → List Char → K → Option (List Draw × K)) (ticks : ℕ) (ch : UInt8)
    (s : Shell K) : Prop where
  active : s.state = .active
  enter : ch = 0x0A
  command : execute ticks (command s.editor) s.kernel = none

/-- Only a command that does not return stops the shell. -/
theorem handleByte_outcome (font : ℕ → ℕ → ℕ)
    (execute : ℕ → List Char → K → Option (List Draw × K)) (hh : termY + 20 ≤ s.editor.wr.h)
    (hy : s.state = .active → 40 ≤ s.editor.wr.y) (ticks : ℕ) (ch : UInt8) :
    (∃ s', handleByte font execute ticks ch s = some s' ∧ Below s s') ∨
      handleByte font execute ticks ch s = none ∧ Stuck execute ticks ch s := by
  obtain ⟨state, editor, kernel, log⟩ := s
  cases state with
  | splash =>
    simp only [handleByte]
    split
    · obtain ⟨wr', hrun, hdraws⟩ := prints_activate font hh
      refine .inl ⟨⟨.active, { editor with wr := wr' }, kernel, log⟩, ?_, hdraws.w, hdraws.h,
        fun _ => hdraws.y, hdraws.pixels⟩
      simp only [hrun, Option.bind_eq_bind, Option.bind_some]
    · exact .inl ⟨_, rfl, rfl, rfl, hy, fun _ _ => rfl⟩
  | active =>
    have hy := hy rfl
    simp only [handleByte]
    split
    case isTrue hch =>
      cases hexec : execute ticks (command editor) kernel with
      | none => exact .inr ⟨rfl, rfl, hch, hexec⟩
      | some result =>
        obtain ⟨e', hrun, hdraws⟩ := prints_handleByte font
          (fun _ wr => result.1.foldlM (draw font) wr) hh (by decide) hy (fun _ wr hh hy =>
            prints_foldlM _ hy fun wr' d h' => prints_draw (by rwa [h'.h]) font d (by decide) h'.y)
          ch
        refine .inl ⟨⟨.active, e', result.2, log ++ [(ticks, command editor)]⟩, ?_, hdraws.w,
          hdraws.h, fun _ => hdraws.y, hdraws.pixels⟩
        simp only [hrun, Option.bind_eq_bind, Option.bind_some]
    case isFalse =>
      obtain ⟨e', hrun, hdraws⟩ := prints_handleByte font (fun _ wr => some wr) hh (by decide) hy
        (fun _ wr _ hy => .some (.refl hy)) ch
      refine .inl ⟨⟨.active, e', kernel, log⟩, ?_, hdraws.w, hdraws.h, fun _ => hdraws.y,
        hdraws.pixels⟩
      simp only [hrun, Option.bind_eq_bind, Option.bind_some]

end

/-! ## Where the uptime is drawn -/

section
variable {font : ℕ → ℕ → ℕ} {wr wr' : Writer} {n i : ℕ} {b : UInt8}

/-- The corner of the uptime. -/
def Corner (w i : ℕ) : Prop :=
  ∃ row col, i = row * w + col ∧ (20 ≤ row ∧ row < 40) ∧ w - 180 ≤ col ∧ col < w

/-- The clock's corner is in the first 40 rows. -/
theorem Corner.lt {w : ℕ} (h : Corner w i) : i < 40 * w := by
  obtain ⟨row, col, rfl, hrow, hcol⟩ := h
  exact (rows_cell (a := 0) hcol.2 (Nat.zero_le row) hrow.2).2

/-- As many letters of the uptime are left as the cursor has room for, in one row or in two. -/
def Fits (wr : Writer) (left : ℕ) : Prop :=
  wr.y = 20 ∧ wr.x + 9 * left ≤ wr.w + 153 ∨ wr.y = 32 ∧ wr.x + 9 * left ≤ wr.w

/-- The rows of the uptime may change, and nothing else but the cursor. -/
structure InClock (wr wr' : Writer) : Prop where
  w : wr'.w = wr.w
  h : wr'.h = wr.h
  inputX : wr'.inputX = wr.inputX
  pixels : ∀ i, ¬ Rows wr.w 20 40 i → wr'.framebuffer i = wr.framebuffer i

/-- Setting the cursor changes no pixel. -/
theorem inClock_setPos (wr : Writer) (x y : ℕ) : InClock wr (wr.setPos x y) :=
  ⟨rfl, rfl, rfl, fun _ _ => rfl⟩

/-- Two steps that change pixels of the clock only do so together. -/
theorem InClock.trans {wr'' : Writer} (h : InClock wr wr') (h' : InClock wr' wr'') :
    InClock wr wr'' := by
  refine ⟨h'.w.trans h.w, h'.h.trans h.h, h'.inputX.trans h.inputX, fun i hi => ?_⟩
  rw [h'.pixels i (by rwa [h.w]), h.pixels i hi]

/-- The strip behind the clock is part of its corner. -/
theorem inClock_fillRect (wr : Writer) (x w color : ℕ) :
    InClock wr (wr.fillRect x 20 w 20 color) := by
  have hfill := paints_fillRect wr x 20 w 20 color
  exact ⟨hfill.moved.w, hfill.moved.h, hfill.moved.inputX,
    (hfill.mono le_rfl (Nat.min_le_left _ _)).pixels⟩

/-- A letter in the clock's rows is drawn in its corner. -/
theorem inClock_drawChar (ch color : ℕ) (hy : 20 ≤ wr.y ∧ wr.y ≤ 32) :
    InClock wr (wr.drawChar font ch color scale1) := by
  have hglyph := (paints_drawGlyph font wr ch color scale1).mono hy.1
    ((Nat.min_le_left _ _).trans (show wr.y + 8 * scale1 ≤ 40 from Nat.add_le_add_right hy.2 8))
  exact ⟨hglyph.moved.w, hglyph.moved.h, hglyph.moved.inputX, hglyph.pixels⟩

/-- A letter of the uptime that fits into the corner changes pixels of the clock only. -/
theorem Fits.putChar (font : ℕ → ℕ → ℕ) (hf : Fits wr (n + 1)) (hh : termY + 20 ≤ wr.h)
    (hw : 180 ≤ wr.w) (hb : b ≠ 0x0A) (hascii : b.toNat < 128) :
    ∃ wr', wr.putChar font b fgColor scale1 = some wr' ∧ Fits wr' n ∧ InClock wr wr' := by
  have hl : Large wr := ⟨le_trans (by decide) hw, hh⟩
  rw [termY] at hh
  rw [Fits] at hf
  obtain ⟨wr', hrun, hmoved⟩ := putChar_run font fgColor hl hb hascii
  refine ⟨wr', hrun, ?_, ?_⟩
  · have hx : wr'.x = _ := congrArg Prod.fst hmoved.cursor
    have hy : wr'.y = _ := congrArg Prod.snd hmoved.cursor
    rw [Fits, hx, hy, hmoved.w, advance, nextRow, Writer.cursor, leftMargin, termY]
    split
    · simp only
      split <;> omega
    · simp only
      omega
  · rw [Writer.putChar, if_neg hb, if_neg (Nat.not_le.2 hascii)] at hrun
    simp only at hrun
    split at hrun
    case isTrue hwrap =>
      have hy : wr.y = 20 := by
        rw [scale1] at hwrap
        omega
      have hstay : ¬ wr.h ≤ 20 + (8 * scale1 + 4) + 8 * scale1 := by
        rw [scale1]
        omega
      simp only [Writer.newline, hy, if_neg hstay] at hrun
      cases hrun
      have hrow : 20 ≤ (wr.setPos leftMargin 32).y ∧ (wr.setPos leftMargin 32).y ≤ 32 :=
        ⟨Nat.le_add_right 20 12, le_rfl⟩
      exact (inClock_setPos wr leftMargin 32).trans (inClock_drawChar _ _ hrow)
    case isFalse =>
      cases hrun
      exact inClock_drawChar _ _ (by omega)

/-- The text of the uptime has no control characters. -/
theorem uptimeText_ascii (seconds : ℕ) : ∀ b ∈ uptimeText seconds, b ≠ 0x0A ∧ b.toNat < 128 := by
  have hlabel : ∀ b ∈ text "UPTIME: ", b ≠ 0x0A ∧ b.toNat < 128 := by decide +kernel
  have hunit : ∀ b ∈ text "s", b ≠ 0x0A ∧ b.toNat < 128 := by decide +kernel
  intro b hb
  rcases List.mem_append.1 hb with hb | hb
  · rcases List.mem_append.1 hb with hb | hb
    · exact hlabel b hb
    · obtain ⟨c, hc, rfl⟩ := List.mem_map.1 hb
      have hdigit := Nat.isDigit_of_mem_toDigits (by decide) le_rfl hc
      simp only [Char.isDigit, Bool.and_eq_true, decide_eq_true_eq] at hdigit
      have hlow : 48 ≤ c.toNat := hdigit.1
      have hhigh : c.toNat ≤ 57 := hdigit.2
      have hbyte : (UInt8.ofNat c.toNat).toNat = c.toNat := by
        rw [UInt8.toNat_ofNat', Nat.mod_eq_of_lt (by omega)]
      refine ⟨fun h => ?_, by omega⟩
      rw [h] at hbyte
      have hten : (0x0A : UInt8).toNat = 10 := rfl
      omega
  · exact hunit b hb

/-- There is room for the text as long as the tick counter does not overflow. -/
theorem length_uptimeText {ticks : ℕ} (h : ticks < 2 ^ 64) :
    (uptimeText (ticks / 100)).length ≤ 27 := by
  have hdigits : (Nat.toDigits 10 (ticks / 100)).length ≤ 18 :=
    Nat.toDigits_length 10 _ 18 (by decide) (by omega)
  have hlabel : (text "UPTIME: ").length = 8 := by decide +kernel
  have hunit : (text "s").length = 1 := by decide +kernel
  rw [uptimeText, List.length_append, List.length_append, decimal, List.length_map, hlabel, hunit]
  omega

end

/-! ## The shell among the messages -/

section
variable {K : Type} {font : ℕ → ℕ → ℕ} {execute : ℕ → List Char → K → Option (List Draw × K)}
  {start t t' : Shell K} {keys : List (ℕ × UInt8)} {ticks : ℕ} {ch : UInt8} {wr wr' : Writer}

/-- The shell with another writer. -/
def Shell.setWriter (t : Shell K) (wr : Writer) : Shell K :=
  { t with editor := { t.editor with wr := wr } }

/-- The cursor is set on both sides. -/
theorem InClock.setPos (h : InClock wr wr') (x y : ℕ) :
    InClock (wr.setPos x y) (wr'.setPos x y) := ⟨h.w, h.h, h.inputX, h.pixels⟩

/-- The shell looks as if the keys alone had been handled, from `start` on. -/
structure Shown (font : ℕ → ℕ → ℕ) (execute : ℕ → List Char → K → Option (List Draw × K))
    (start : Shell K) (keys : List (ℕ × UInt8)) (t : Shell K) : Prop where
  replay : ∃ r, handleAll font execute start keys = some r ∧
    Same start.editor.wr.w start.editor.wr.h r t
  outside : ∀ i, start.editor.wr.h * start.editor.wr.w ≤ i →
    t.editor.wr.framebuffer i = start.editor.wr.framebuffer i
  below : t.state = .active → 40 ≤ t.editor.wr.y

/-- No key changes the width. -/
theorem Shown.w (h : Shown font execute start keys t) : t.editor.wr.w = start.editor.wr.w := by
  obtain ⟨r, -, hs⟩ := h.replay
  exact hs.size.w'

/-- No key changes the height. -/
theorem Shown.h (h : Shown font execute start keys t) : t.editor.wr.h = start.editor.wr.h := by
  obtain ⟨r, -, hs⟩ := h.replay
  exact hs.size.h'

/-- The terminal before the first key is shown by no keys. -/
theorem shown_start (font : ℕ → ℕ → ℕ) (execute : ℕ → List Char → K → Option (List Draw × K))
    (hsplash : start.state = .splash) : Shown font execute start [] start := by
  refine ⟨⟨start, rfl, rfl, rfl, rfl, rfl, ?_, ?_⟩, fun _ _ => rfl, ?_⟩
  · exact ⟨rfl, rfl, rfl, rfl, trivial, fun _ _ => rfl⟩
  · rw [hsplash]
    exact State.noConfusion
  · rw [hsplash]
    exact State.noConfusion

/-- The uptime is drawn above the terminal. -/
theorem Shown.inClock (h : Shown font execute start keys t) (hh : termY ≤ start.editor.wr.h)
    (hc : InClock t.editor.wr wr') (hcursor : wr'.cursor = t.editor.wr.cursor) :
    Shown font execute start keys (t.setWriter wr') := by
  have hx : wr'.x = t.editor.wr.x := congrArg Prod.fst hcursor
  have hy : wr'.y = t.editor.wr.y := congrArg Prod.snd hcursor
  have hfree : ∀ i, termY * start.editor.wr.w ≤ i →
      wr'.framebuffer i = t.editor.wr.framebuffer i := by
    intro i hi
    refine hc.pixels i fun hrows => ?_
    rw [h.w] at hrows
    have hle : 40 * start.editor.wr.w ≤ termY * start.editor.wr.w :=
      Nat.mul_le_mul_right _ (by decide)
    exact absurd (hle.trans hi) (Nat.not_le.2 hrows.2)
  refine ⟨?_, fun i hi => ?_, fun hactive => hy ▸ h.below hactive⟩
  · obtain ⟨r, hr, hs⟩ := h.replay
    have hw := hc.w.trans hs.size.w'
    have hh' := hc.h.trans hs.size.h'
    refine ⟨r, hr, hs.state, hs.line, hs.kernel, hs.log, ?_, fun hactive => ?_⟩
    · exact ⟨hs.size.w, hs.size.h, hw, hh', trivial, fun _ hi => hi.elim⟩
    · have ha := hs.screen hactive
      exact ⟨⟨ha.w, ha.h, hw, hh', ha.inputX.trans hc.inputX.symm,
        fun i hi => (hfree i hi.1).trans (ha.pixels i hi)⟩, hx.trans ha.x, hy.trans ha.y⟩
  · exact (hfree i ((Nat.mul_le_mul_right _ hh).trans hi)).trans (h.outside i hi)

/-- In front of the splash screen, messages may be drawn anywhere. -/
theorem Shown.splash (h : Shown font execute start keys t) (wr' : Writer)
    (hsplash : t.state = .splash) (hw : wr'.w = t.editor.wr.w) (hh : wr'.h = t.editor.wr.h)
    (hout : ∀ i, t.editor.wr.h * t.editor.wr.w ≤ i →
      wr'.framebuffer i = t.editor.wr.framebuffer i) :
    Shown font execute start keys (t.setWriter wr') := by
  have hnot : ¬ t.state = .active := by
    rw [hsplash]
    exact State.noConfusion
  refine ⟨?_, fun i hi => ?_, fun hactive => absurd hactive hnot⟩
  · obtain ⟨r, hr, hs⟩ := h.replay
    refine ⟨r, hr, hs.state, hs.line, hs.kernel, hs.log, ?_, fun hactive => absurd hactive hnot⟩
    exact ⟨hs.size.w, hs.size.h, hw.trans hs.size.w', hh.trans hs.size.h', trivial,
      fun _ hi => hi.elim⟩
  · exact (hout i (by rwa [h.w, h.h])).trans (h.outside i hi)

/-- Handling one more key shows one more key. -/
theorem Shown.key (h : Shown font execute start keys t)
    (hrun : handleByte font execute ticks ch t = some t') (hbelow : Below t t') :
    Shown font execute start (keys ++ [(ticks, ch)]) t' := by
  obtain ⟨r, hr, hs⟩ := h.replay
  have hrel := hs.handleByte font execute ticks ch
  rw [hrun] at hrel
  generalize hr' : handleByte font execute ticks ch r = result at hrel
  cases hrel with
  | some hs' =>
    refine ⟨⟨_, ?_, hs'⟩, fun i hi => ?_, hbelow.y⟩
    · rw [handleAll, List.foldlM_append]
      rw [handleAll] at hr
      simp [hr, hr']
    · refine (hbelow.pixels i fun hrows => ?_).trans (h.outside i hi)
      rw [h.w, h.h] at hrows
      exact absurd hi (Nat.not_le.2 hrows.2)

end

/-! ## The system -/

/-- The cursor that the main loop has saved. -/
def Place.saved : Place → Option (ℕ × ℕ)
  | .clearing _ x y | .placing _ x y | .printing _ x y _ => some (x, y)
  | .clock | .popping | .got _ => none

/-- The clock is not at work, so it has no step to go on with. -/
theorem drawing_of_idle {p q : Prop} {place : Place} (hidle : place.saved = none) :
    p → place.saved ≠ none → q := fun _ hsaved => absurd hidle hsaved

/-- The writer with the saved cursor. -/
def Place.restore (place : Place) (wr : Writer) : Writer :=
  match place.saved with
  | some c => wr.setPos c.1 c.2
  | none => wr

/-- The cursor put back leaves the width. -/
theorem Place.restore_w (place : Place) (wr : Writer) : (place.restore wr).w = wr.w := by
  cases place with
  | clearing | placing | printing | clock | popping | got => rfl

/-- The cursor put back leaves the height. -/
theorem Place.restore_h (place : Place) (wr : Writer) : (place.restore wr).h = wr.h := by
  cases place with
  | clearing | placing | printing | clock | popping | got => rfl

/-- The cursor put back leaves the pixels. -/
theorem Place.restore_framebuffer (place : Place) (wr : Writer) :
    (place.restore wr).framebuffer = wr.framebuffer := by
  cases place with
  | clearing | placing | printing | clock | popping | got => rfl

/-- The ticks that the main loop draws. -/
def Place.drawn : Place → ℕ
  | .clearing ticks .. | .placing ticks .. | .printing ticks .. => ticks
  | .clock | .popping | .got _ => 0

section
variable {K : Type} {font : ℕ → ℕ → ℕ} {execute : ℕ → List Char → K → Option (List Draw × K)}
  {wr₀ : Writer} {line : Line} {k₀ : K} {s s' : System K}

/-- The shell with its own cursor, also while the uptime is drawn. -/
def System.terminal (s : System K) : Shell K :=
  s.shell.setWriter (s.place.restore s.shell.editor.wr)

/-- The uptime in the corner: what is drawn of it at this place, as if nothing else had been
drawn from `start` on. -/
def ClockShown (font : ℕ → ℕ → ℕ) (start : Writer) (lastTicks : ℕ) (wr : Writer) : Place → Prop
  | .clearing .. => True
  | .placing .. => Alike start.w start.h (Corner start.w) (fun _ _ => True)
      (start.fillRect (start.w - 180) 20 180 20 bgColor) wr
  | .printing ticks _ _ rest => Fits wr rest.length ∧
      ∃ done drawn, uptimeText (ticks / 100) = done ++ rest ∧
        ((start.fillRect (start.w - 180) 20 180 20 bgColor).setPos (start.w - 180) 20).putStr font
          done fgColor scale1 = some drawn ∧
        Agree start.w start.h (Corner start.w) (fun _ _ => True) drawn wr
  | .clock | .popping | .got _ => lastTicks ≠ 0 → ∃ drawn,
      showUptime font lastTicks start = some drawn ∧
        Alike start.w start.h (Corner start.w) (fun _ _ => True) drawn wr

/-- What the system keeps. -/
structure ScreenInv (font : ℕ → ℕ → ℕ) (execute : ℕ → List Char → K → Option (List Draw × K))
    (wr₀ : Writer) (line : Line) (k₀ : K) (s : System K) : Prop where
  keys : KeysInv execute k₀ s
  shown : Shown font execute (.start wr₀ line k₀) s.timed s.terminal
  ready : 0x1C ∈ s.ring.accepted → s.readyShown = true
  begun : s.clockReady = true → s.readyShown = true
  drawing : s.shell.state = .active → s.place.saved ≠ none → s.clockReady = true
  drawn : s.place.drawn ≤ s.ticks
  clock : s.clockReady = s.readyShown →
    ClockShown font wr₀ s.lastTicks s.shell.editor.wr s.place

/-- Enter is the only key that makes a line feed. -/
theorem enter_of_lineFeed {sc : UInt8} (h : scancodeToAscii sc = some 0x0A) : sc = 0x1C := by
  have hall : ∀ n < 256, scancodeToAscii (UInt8.ofNat n) = some 0x0A → n = 0x1C := by
    decide +kernel
  have hn := hall sc.toNat sc.toNat_lt (by rwa [UInt8.ofNat_toNat])
  rw [← UInt8.ofNat_toNat (x := sc), hn]
  rfl

/-- The shell gets active behind the message. -/
theorem ScreenInv.readyShown (h : ScreenInv font execute wr₀ line k₀ s)
    (hactive : s.shell.state = .active) : s.readyShown = true := by
  obtain ⟨w, hw, -⟩ := h.keys.ran.line
  rw [hactive] at hw
  cases hw with
  | active p w hkeys hnot =>
    have hmem : 0x0A ∈ s.timed.map Prod.snd := by
      rw [hkeys]
      exact List.mem_append_right p List.mem_cons_self
    obtain ⟨key, hkey, hch⟩ := List.mem_map.1 hmem
    obtain ⟨⟨ticks, sc⟩, hsc, hletter⟩ := List.mem_filterMap.1 hkey
    obtain ⟨ch, hfeed, rfl⟩ := Option.map_eq_some_iff.1 hletter
    rw [show ch = 0x0A from hch] at hfeed
    have hpopped : 0x1C ∈ s.ring.popped := by
      rw [h.keys.popped, ← enter_of_lineFeed hfeed]
      exact List.mem_append_left _ (List.mem_map_of_mem (f := Prod.snd) hsc)
    exact h.ready (h.keys.ring.order.subset hpopped)

/-- The width is that of the start. -/
theorem ScreenInv.w (h : ScreenInv font execute wr₀ line k₀ s) : s.shell.editor.wr.w = wr₀.w :=
  (s.place.restore_w _).symm.trans h.shown.w

/-- The height is that of the start. -/
theorem ScreenInv.h (h : ScreenInv font execute wr₀ line k₀ s) : s.shell.editor.wr.h = wr₀.h :=
  (s.place.restore_h _).symm.trans h.shown.h

/-- Output in front of the splash screen. -/
theorem ScreenInv.splash {b : ℕ} {wr' : Writer} (h : ScreenInv font execute wr₀ line k₀ s)
    (hsplash : s.shell.state = .splash) (hdraws : Draws b s.shell.editor.wr wr') (place : Place) :
    Shown font execute (.start wr₀ line k₀) s.timed (s.shell.setWriter (place.restore wr')) := by
  refine h.shown.splash (place.restore wr') hsplash ?_ ?_ fun i hi => ?_
  · exact (place.restore_w _).trans (hdraws.w.trans (s.place.restore_w _).symm)
  · exact (place.restore_h _).trans (hdraws.h.trans (s.place.restore_h _).symm)
  · have hi' : s.shell.editor.wr.h * s.shell.editor.wr.w ≤ i := by
      rw [← s.place.restore_w s.shell.editor.wr, ← s.place.restore_h s.shell.editor.wr]
      exact hi
    have hpixel := hdraws.pixels i fun hrows => absurd hi' (Nat.not_le.2 hrows.2)
    rw [place.restore_framebuffer, hpixel]
    exact (congrFun (s.place.restore_framebuffer _) i).symm

/-- A return in the ring was there before, or is the one just pushed. -/
theorem mem_accepted_pushStep {sc : UInt8} {ring : Kbuf.State UInt8}
    (h : 0x1C ∈ (Kbuf.pushStep sc ring).accepted) :
    0x1C ∈ ring.accepted ∨ returning ring = some 0x1C := by
  rw [Kbuf.pushStep] at h
  cases hproducer : ring.producer with
  | idle =>
    rw [hproducer] at h
    exact .inl h
  | loaded byte head =>
    rw [hproducer] at h
    simp only at h
    split at h
    · exact .inl h
    · exact .inl h
  | checked byte head =>
    rw [hproducer] at h
    exact .inl h
  | stored byte head =>
    rw [hproducer] at h
    simp only [returning, hproducer]
    rcases List.mem_append.1 h with h | h
    · exact .inl h
    · exact .inr (congrArg some (List.mem_singleton.1 h).symm)

/-- A step of the keyboard's interrupt handler. -/
theorem ScreenInv.keyStep (h : ScreenInv font execute wr₀ line k₀ s)
    (hh : termY + 20 ≤ wr₀.h) (sc : UInt8) :
    ∃ s', keyStep font sc s = some s' ∧ ScreenInv font execute wr₀ line k₀ s' := by
  rw [Terminal.keyStep]
  split
  case isTrue hready =>
    have hsplash : s.shell.state = .splash := by
      cases hstate : s.shell.state with
      | splash => rfl
      | active => exact absurd (h.readyShown hstate) (by rw [hready.2]; exact Bool.false_ne_true)
    have hclock : s.clockReady = false := by
      cases hc : s.clockReady with
      | false => rfl
      | true => exact absurd (h.begun hc) (by rw [hready.2]; exact Bool.false_ne_true)
    obtain ⟨wr', hrun, hdraws⟩ := prints_showReady font s.shell.editor.wr (by rwa [h.h])
    have hkey : Terminal.keyStep font sc s = some { ({ s with ring := Kbuf.pushStep sc s.ring } :
        System K).setWriter wr' with readyShown := true } := by
      rw [Terminal.keyStep, if_pos hready, hrun]
      rfl
    rw [hrun]
    refine ⟨_, rfl, h.keys.keyStep hkey, h.splash hsplash hdraws s.place, fun _ => rfl,
      fun _ => rfl, fun hactive => ?_, h.drawn, fun heq => ?_⟩
    · exact State.noConfusion (hsplash.symm.trans hactive)
    · exact absurd (hclock.symm.trans heq) Bool.false_ne_true
  case isFalse hready =>
    have hkey : Terminal.keyStep font sc s =
        some { s with ring := Kbuf.pushStep sc s.ring } := if_neg hready
    refine ⟨_, rfl, h.keys.keyStep hkey, h.shown, fun hmem => ?_, h.begun, h.drawing, h.drawn,
      h.clock⟩
    rcases mem_accepted_pushStep hmem with hmem | hreturn
    · exact h.ready hmem
    · by_contra hnot
      exact hready ⟨hreturn, Bool.eq_false_iff.2 hnot⟩

/-- The main loop reads the tick counter. -/
theorem ScreenInv.clockStep (h : ScreenInv font execute wr₀ line k₀ s) (hw : 180 ≤ wr₀.w)
    (hplace : s.place = .clock) :
    ∃ s', mainStep font execute s = some s' ∧ ScreenInv font execute wr₀ line k₀ s' := by
  have hkeys : ∀ s', mainStep font execute s = some s' → KeysInv execute k₀ s' :=
    fun _ => h.keys.mainStep
  have hwide : ¬ s.shell.editor.wr.w < 180 := by
    rw [h.w]
    exact Nat.not_lt.2 hw
  obtain ⟨ticks, ring, readyShown, lastTicks, place, shell, clockReady, handled⟩ := s
  cases hplace
  simp only [mainStep, if_neg hwide] at hkeys ⊢
  split
  case isTrue hne =>
    rw [if_pos hne] at hkeys
    exact ⟨_, rfl, hkeys _ rfl, h.shown, h.ready, id, fun hactive _ => h.readyShown hactive, le_rfl,
      fun _ => trivial⟩
  case isFalse heq =>
    rw [if_neg heq] at hkeys
    exact ⟨_, rfl, hkeys _ rfl, h.shown, h.ready, h.begun,
      drawing_of_idle rfl, Nat.zero_le _, h.clock⟩

/-- The main loop clears the corner. -/
theorem ScreenInv.clearingStep {ticks x y : ℕ} (h : ScreenInv font execute wr₀ line k₀ s)
    (hh : termY + 20 ≤ wr₀.h) (hplace : s.place = .clearing ticks x y) :
    ∃ s', mainStep font execute s = some s' ∧ ScreenInv font execute wr₀ line k₀ s' := by
  have hkeys : ∀ s', mainStep font execute s = some s' → KeysInv execute k₀ s' :=
    fun _ => h.keys.mainStep
  have hw' := h.w
  have hh' := h.h
  obtain ⟨ticks', ring, readyShown, lastTicks, place, shell, clockReady, handled⟩ := s
  cases hplace
  simp only [mainStep] at hkeys hw' hh' ⊢
  have hfill := inClock_fillRect shell.editor.wr (shell.editor.wr.w - 180) 180 bgColor
  have hshown := h.shown.inClock (le_of_add_le_left hh) (hfill.setPos x y) rfl
  refine ⟨_, rfl, hkeys _ rfl, hshown, h.ready, h.begun, h.drawing, h.drawn, fun _ => ?_⟩
  rw [hw']
  have hsize : Alike wr₀.w wr₀.h (fun _ => False) (fun _ _ => True) wr₀ shell.editor.wr :=
    ⟨rfl, rfl, hw', hh', trivial, fun _ hi => hi.elim⟩
  refine hsize.covers fun i hi => ?_
  obtain ⟨row, col, hcell, hrow, hcol⟩ := hi
  rw [termY] at hh
  exact ⟨row, col, hcell, by omega, by omega⟩

/-- The main loop moves the cursor to the corner. -/
theorem ScreenInv.placingStep {ticks x y : ℕ} (h : ScreenInv font execute wr₀ line k₀ s)
    (hw : 180 ≤ wr₀.w) (hplace : s.place = .placing ticks x y) (hticks : s.ticks < 2 ^ 64) :
    ∃ s', mainStep font execute s = some s' ∧ ScreenInv font execute wr₀ line k₀ s' := by
  have hkeys : ∀ s', mainStep font execute s = some s' → KeysInv execute k₀ s' :=
    fun _ => h.keys.mainStep
  have hw' := h.w
  have hclock := h.clock
  have hdrawn : s.place.drawn < 2 ^ 64 := Nat.lt_of_le_of_lt h.drawn hticks
  obtain ⟨ticks', ring, readyShown, lastTicks, place, shell, clockReady, handled⟩ := s
  cases hplace
  simp only [mainStep, Place.drawn] at hkeys hw' hclock hdrawn ⊢
  generalize hcol : shell.editor.wr.w - 180 = col at hkeys ⊢
  refine ⟨_, rfl, hkeys _ rfl, h.shown, h.ready, h.begun, h.drawing, h.drawn, fun heq => ?_⟩
  have hlen := length_uptimeText hdrawn
  refine ⟨.inl ⟨rfl, ?_⟩, [], _, rfl, rfl, ?_⟩
  · show col + 9 * _ ≤ shell.editor.wr.w + 153
    omega
  · have ha : Alike wr₀.w wr₀.h (Corner wr₀.w) (fun _ _ => True)
        (wr₀.fillRect (wr₀.w - 180) 20 180 20 bgColor) shell.editor.wr := hclock heq
    rw [← hw', hcol] at ha ⊢
    exact ha.setPos col 20

/-- The main loop prints a letter of the uptime. -/
theorem ScreenInv.letterStep {ticks x y : ℕ} {b : UInt8} {rest : List UInt8}
    (h : ScreenInv font execute wr₀ line k₀ s) (hh : termY + 20 ≤ wr₀.h) (hw : 180 ≤ wr₀.w)
    (hplace : s.place = .printing ticks x y (b :: rest)) :
    ∃ s', mainStep font execute s = some s' ∧ ScreenInv font execute wr₀ line k₀ s' := by
  have hkeys : ∀ s', mainStep font execute s = some s' → KeysInv execute k₀ s' :=
    fun _ => h.keys.mainStep
  have hw' := h.w
  have hh' := h.h
  have hclock := h.clock
  have hbegun := h.readyShown
  have hdrawing := h.drawing
  have hsplash := fun hs wr' (hd : Draws 0 s.shell.editor.wr wr') => h.splash hs hd s.place
  obtain ⟨ticks', ring, readyShown, lastTicks, place, shell, clockReady, handled⟩ := s
  cases hplace
  simp only [mainStep] at hkeys hw' hh' hclock hbegun hdrawing hsplash ⊢
  by_cases heq : clockReady = readyShown
  · -- The message does not come into this drawing.
    obtain ⟨hfits, done, drawn, hdone, hrun, ha⟩ := hclock heq
    obtain ⟨hb, hascii⟩ := uptimeText_ascii (ticks / 100) b (by rw [hdone]; simp)
    obtain ⟨wr', hchar, hfits', hin⟩ := hfits.putChar font (hh'.symm ▸ hh) (hw'.symm ▸ hw) hb
      hascii
    simp only [hchar, Option.bind_eq_bind, Option.bind_some] at hkeys ⊢
    have hshown := h.shown.inClock (le_of_add_le_left hh) (hin.setPos x y) rfl
    refine ⟨_, rfl, hkeys _ rfl, hshown, h.ready, h.begun, h.drawing, h.drawn, fun _ => ?_⟩
    have hrel := ha.putChar font b fgColor scale1
    rw [hchar] at hrel
    generalize hdrawn' : drawn.putChar font b fgColor scale1 = result at hrel
    cases hrel with
    | some ha' =>
      refine ⟨hfits', done ++ [b], _, by rw [hdone]; simp, ?_, ha'⟩
      rw [Writer.putStr, List.foldlM_append]
      rw [Writer.putStr] at hrun
      simp [hrun, hdrawn']
  · -- It does, so the shell is not active yet.
    have hstate : shell.state = .splash := by
      cases hs : shell.state with
      | splash => rfl
      | active => exact absurd ((hdrawing hs (Option.some_ne_none _)).trans (hbegun hs).symm) heq
    obtain ⟨wr', hchar, hdraws⟩ := prints_putChar (b := 0) (hh'.symm ▸ hh) (Nat.zero_le _) font b
      fgColor scale1 (Nat.zero_le shell.editor.wr.y)
    simp only [hchar, Option.bind_eq_bind, Option.bind_some] at hkeys ⊢
    exact ⟨_, rfl, hkeys _ rfl, hsplash hstate wr' hdraws, h.ready, h.begun, h.drawing, h.drawn,
      fun h' => absurd h' heq⟩

/-- The main loop takes its cursor back. -/
theorem ScreenInv.doneStep {ticks x y : ℕ} (h : ScreenInv font execute wr₀ line k₀ s)
    (hw : 180 ≤ wr₀.w) (hplace : s.place = .printing ticks x y []) :
    ∃ s', mainStep font execute s = some s' ∧ ScreenInv font execute wr₀ line k₀ s' := by
  have hkeys : ∀ s', mainStep font execute s = some s' → KeysInv execute k₀ s' :=
    fun _ => h.keys.mainStep
  have hclock := h.clock
  obtain ⟨ticks', ring, readyShown, lastTicks, place, shell, clockReady, handled⟩ := s
  cases hplace
  simp only [mainStep] at hkeys hclock ⊢
  refine ⟨_, rfl, hkeys _ rfl, h.shown, h.ready, h.begun,
    drawing_of_idle rfl, Nat.zero_le _, fun heq _ => ?_⟩
  obtain ⟨-, done, drawn, hdone, hrun, ha⟩ := hclock heq
  rw [List.append_nil] at hdone
  refine ⟨drawn.setPos wr₀.x wr₀.y, ?_, ha.w, ha.h, ha.w', ha.h', trivial, ha.pixels⟩
  rw [showUptime, if_neg (Nat.not_lt.2 hw), hdone]
  simp only [hrun, Option.bind_eq_bind, Option.bind_some]

/-- What the ring took stays when it is popped. -/
theorem accepted_popStep (ring : Kbuf.State UInt8) :
    (Kbuf.popStep ring).accepted = ring.accepted := by
  rw [Kbuf.popStep]
  cases ring.consumer with
  | loaded =>
    simp only
    split <;> rfl
  | idle | checked | taken => rfl

/-- The main loop goes on in `pop`. -/
theorem ScreenInv.poppingStep (h : ScreenInv font execute wr₀ line k₀ s)
    (hplace : s.place = .popping) :
    ∃ s', mainStep font execute s = some s' ∧ ScreenInv font execute wr₀ line k₀ s' := by
  have hkeys : ∀ s', mainStep font execute s = some s' → KeysInv execute k₀ s' :=
    fun _ => h.keys.mainStep
  obtain ⟨ticks, ring, readyShown, lastTicks, place, shell, clockReady, handled⟩ := s
  cases hplace
  have hready : 0x1C ∈ (Kbuf.popStep ring).accepted → readyShown = true := by
    rw [accepted_popStep]
    exact h.ready
  simp only [mainStep] at hkeys ⊢
  split
  case h_1 tail hconsumer =>
    simp only [hconsumer] at hkeys
    by_cases htail : tail = ring.head
    · simp only [if_pos htail] at hkeys ⊢
      exact ⟨_, rfl, hkeys _ rfl, h.shown, hready, h.begun,
        drawing_of_idle rfl, Nat.zero_le _, h.clock⟩
    · simp only [if_neg htail] at hkeys ⊢
      exact ⟨_, rfl, hkeys _ rfl, h.shown, hready, h.begun,
        drawing_of_idle rfl, Nat.zero_le _, h.clock⟩
  case h_2 tail byte hconsumer =>
    simp only [hconsumer] at hkeys
    exact ⟨_, rfl, hkeys _ rfl, h.shown, hready, h.begun,
      drawing_of_idle rfl, Nat.zero_le _, h.clock⟩
  case h_3 hloaded htaken =>
    refine ⟨_, rfl, hkeys _ ?_, h.shown, hready, h.begun,
      drawing_of_idle rfl, Nat.zero_le _, h.clock⟩
    split
    · exact absurd ‹_› (hloaded _)
    · exact absurd ‹_› (htaken _ _)
    · rfl

/-- The main loop has the Enter of a command in its hands that does not return. -/
structure Halts (execute : ℕ → List Char → K → Option (List Draw × K)) (s : System K) : Prop where
  enter : s.place = .got 0x1C
  active : s.shell.state = .active
  command : execute s.ticks (command s.shell.editor) s.shell.kernel = none

/-- The main loop handles a scancode. -/
theorem ScreenInv.gotStep {sc : UInt8} (h : ScreenInv font execute wr₀ line k₀ s)
    (hh : termY + 20 ≤ wr₀.h) (hplace : s.place = .got sc) :
    (∃ s', mainStep font execute s = some s' ∧ ScreenInv font execute wr₀ line k₀ s') ∨
      mainStep font execute s = none ∧ Halts execute s := by
  have hkeys : ∀ s', mainStep font execute s = some s' → KeysInv execute k₀ s' :=
    fun _ => h.keys.mainStep
  have hw' := h.w
  have hh' := h.h
  have hclock := h.clock
  have hshown := h.shown
  obtain ⟨ticks, ring, readyShown, lastTicks, place, shell, clockReady, handled⟩ := s
  cases hplace
  simp only [System.timed] at hshown
  simp only [mainStep] at hkeys hw' hh' hclock ⊢
  cases hsc : scancodeToAscii sc with
  | none =>
    simp only [hsc] at hkeys ⊢
    refine .inl ⟨_, rfl, hkeys _ rfl, ?_, h.ready, h.begun,
      drawing_of_idle rfl, Nat.zero_le _, h.clock⟩
    show Shown font execute _ (timedOf (handled ++ [(ticks, sc)])) shell
    rw [timedOf_none hsc]
    exact hshown
  | some ch =>
    simp only [hsc] at hkeys ⊢
    obtain ⟨shell', hrun, hbelow⟩ | ⟨hrun, hstuck⟩ :=
      handleByte_outcome (s := shell) font execute (hh'.symm ▸ hh) hshown.below ticks ch
    · simp only [hrun, Option.bind_eq_bind, Option.bind_some] at hkeys ⊢
      have hkey := hshown.key hrun hbelow
      refine .inl ⟨_, rfl, hkeys _ rfl, ?_, h.ready, h.begun,
        drawing_of_idle rfl, Nat.zero_le _, ?_⟩
      · show Shown font execute _ (timedOf (handled ++ [(ticks, sc)])) shell'
        rw [timedOf_some hsc]
        exact hkey
      · intro heq hlast
        obtain ⟨drawn, hdrawn, ha⟩ := hclock heq hlast
        refine ⟨drawn, hdrawn, ha.w, ha.h, hbelow.w.trans hw', hbelow.h.trans hh', trivial, ?_⟩
        intro i hi
        refine (hbelow.pixels i fun hrows => ?_).trans (ha.pixels i hi)
        rw [hw'] at hrows
        exact absurd hrows.1 (Nat.not_le.2 hi.lt)
    · rw [hrun]
      rw [hstuck.enter] at hsc
      exact .inr ⟨rfl, congrArg Place.got (enter_of_lineFeed hsc), hstuck.active, hstuck.command⟩

/-- One step of the main loop: only a command that does not return stops it. -/
theorem ScreenInv.mainStep (h : ScreenInv font execute wr₀ line k₀ s) (hh : termY + 20 ≤ wr₀.h)
    (hw : 180 ≤ wr₀.w) (hticks : s.ticks < 2 ^ 64) :
    (∃ s', mainStep font execute s = some s' ∧ ScreenInv font execute wr₀ line k₀ s') ∨
      Terminal.mainStep font execute s = none ∧ Halts execute s := by
  cases hplace : s.place with
  | clock => exact .inl (h.clockStep hw hplace)
  | clearing => exact .inl (h.clearingStep hh hplace)
  | placing => exact .inl (h.placingStep hw hplace hticks)
  | printing _ _ _ rest =>
    cases rest with
    | nil => exact .inl (h.doneStep hw hplace)
    | cons b rest => exact .inl (h.letterStep hh hw hplace)
  | popping => exact .inl (h.poppingStep hplace)
  | got => exact h.gotStep hh hplace

/-- A turn keeps the invariant, or the main loop stops in a command that does not return. -/
theorem ScreenInv.turn (h : ScreenInv font execute wr₀ line k₀ s) (hh : termY + 20 ≤ wr₀.h)
    (hw : 180 ≤ wr₀.w) (hticks : s.ticks < 2 ^ 64) (t : Turn) :
    (∃ s', s.turn font execute t = some s' ∧ ScreenInv font execute wr₀ line k₀ s') ∨
      t = .main ∧ s.turn font execute t = none ∧ Halts execute s := by
  cases t with
  | key sc => exact .inl (h.keyStep hh sc)
  | main => exact (h.mainStep hh hw hticks).imp_right fun hnone => ⟨rfl, hnone⟩
  | timer =>
    have hkeys := h.keys
    exact .inl ⟨_, rfl, ⟨hkeys.ring, hkeys.popped, hkeys.ran⟩, h.shown, h.ready, h.begun, h.drawing,
      h.drawn.trans (Nat.le_succ _), h.clock⟩

/-- The main loop does not count ticks. -/
theorem ticks_mainStep (hrun : Terminal.mainStep font execute s = some s') :
    s'.ticks = s.ticks := by
  rw [Terminal.mainStep] at hrun
  simp only at hrun
  split at hrun
  · split at hrun
    · split at hrun
      · cases hrun
      · cases hrun
        rfl
    · cases hrun
      rfl
  · simp only [← Option.some.inj hrun, System.setWriter]
  · simp only [← Option.some.inj hrun, System.setWriter]
  · obtain ⟨wr, -, hs⟩ := Option.bind_eq_some_iff.1 hrun
    cases hs
    rfl
  · simp only [← Option.some.inj hrun, System.setWriter]
  · split at hrun
    · cases hrun
      rfl
    · cases hrun
      rfl
    · cases hrun
      rfl
  · split at hrun
    · obtain ⟨shell, -, hs⟩ := Option.bind_eq_some_iff.1 hrun
      cases hs
      rfl
    · cases hrun
      rfl

/-- The keyboard's interrupt does not count ticks. -/
theorem ticks_keyStep {sc : UInt8} (hrun : Terminal.keyStep font sc s = some s') :
    s'.ticks = s.ticks := by
  rw [Terminal.keyStep] at hrun
  split at hrun
  · obtain ⟨wr, -, hs⟩ := Option.bind_eq_some_iff.1 hrun
    cases hs
    rfl
  · cases hrun
    rfl

/-- Only the timer counts. -/
theorem ticks_turn {t : Turn} (hrun : s.turn font execute t = some s') :
    s'.ticks = s.ticks + [t].count .timer := by
  cases t with
  | key => exact ticks_keyStep hrun
  | main => exact ticks_mainStep hrun
  | timer =>
    cases hrun
    rfl

/-- The run stops in a command that does not return: these turns came before it. -/
def HaltsIn (font : ℕ → ℕ → ℕ) (execute : ℕ → List Char → K → Option (List Draw × K))
    (s : System K) (turns : List Turn) : Prop :=
  ∃ before after s₁, turns = before ++ .main :: after ∧ s.run font execute before = some s₁ ∧
    Halts execute s₁

/-- A run that stops after one more turn stops. -/
theorem HaltsIn.cons {t : Turn} {turns : List Turn} (h : HaltsIn font execute s' turns)
    (hturn : s.turn font execute t = some s') : HaltsIn font execute s (t :: turns) := by
  obtain ⟨before, after, s₁, rfl, hrun, hhalts⟩ := h
  refine ⟨t :: before, after, s₁, rfl, ?_, hhalts⟩
  rw [System.run, List.foldlM_cons, hturn]
  exact hrun

/-- A run: only a command that does not return stops it. -/
theorem ScreenInv.run (h : ScreenInv font execute wr₀ line k₀ s) (hh : termY + 20 ≤ wr₀.h)
    (hw : 180 ≤ wr₀.w) {turns : List Turn} (hticks : s.ticks + turns.count .timer < 2 ^ 64) :
    (∃ s', s.run font execute turns = some s' ∧ ScreenInv font execute wr₀ line k₀ s') ∨
      s.run font execute turns = none ∧ HaltsIn font execute s turns := by
  induction turns generalizing s with
  | nil => exact .inl ⟨s, rfl, h⟩
  | cons t turns ih =>
    rw [System.run, List.foldlM_cons]
    rw [← List.singleton_append, List.count_append] at hticks
    obtain ⟨s₁, hturn, h₁⟩ | ⟨rfl, hturn, hhalts⟩ := h.turn hh hw (by omega) t
    · rw [hturn]
      have hrest := ih h₁ (by rw [ticks_turn hturn]; omega)
      exact hrest.imp_right fun hnone => ⟨hnone.1, hnone.2.cons hturn⟩
    · rw [hturn]
      exact .inr ⟨rfl, [], turns, s, rfl, rfl, hhalts⟩

/-- The screen. The terminal shows what the typed keys show when they are handled one after the
other, each at its time, and nothing else is drawn (`Same`: the shell is the same, and, once it is
active, so are the cursor and all pixels of the terminal); the corner shows the uptime, unless the
message of the first Enter came since the drawing of it began; and nothing is written beyond the
frame buffer. -/
structure ScreenLaw (font : ℕ → ℕ → ℕ) (execute : ℕ → List Char → K → Option (List Draw × K))
    (start : Shell K) (s : System K) : Prop where
  terminal : ∃ r, handleAll font execute start s.timed = some r ∧
    Same start.editor.wr.w start.editor.wr.h r s.terminal
  clock : s.clockReady = s.readyShown → s.place.saved = none → s.lastTicks ≠ 0 →
    ∃ drawn, showUptime font s.lastTicks start.editor.wr = some drawn ∧
      ∀ i, Corner start.editor.wr.w i →
        s.shell.editor.wr.framebuffer i = drawn.framebuffer i
  outside : ∀ i, start.editor.wr.h * start.editor.wr.w ≤ i →
    s.shell.editor.wr.framebuffer i = start.editor.wr.framebuffer i

/-- The law of the screen, for every order of interrupts and steps of the main loop; and the main
loop stops only when it has handed a command to `execute` that does not return. -/
theorem screen_law (font : ℕ → ℕ → ℕ) (execute : ℕ → List Char → K → Option (List Draw × K))
    (ticks : ℕ) (buffer : ℕ → UInt8) (wr : Writer) (line : Line) (k₀ : K) (hh : termY + 20 ≤ wr.h)
    (hw : 180 ≤ wr.w) (turns : List Turn) (hticks : ticks + turns.count .timer < 2 ^ 64) :
    (∃ s, (System.start ticks buffer wr line k₀).run font execute turns = some s ∧
      ScreenLaw font execute (.start wr line k₀) s) ∨
    (System.start ticks buffer wr line k₀).run font execute turns = none ∧
      HaltsIn font execute (System.start ticks buffer wr line k₀) turns := by
  have hstart : ScreenInv font execute wr line k₀ (System.start ticks buffer wr line k₀) :=
    ⟨⟨.start buffer, rfl, ran_start wr line⟩, shown_start font execute rfl,
      fun hmem => absurd hmem List.not_mem_nil, fun h => absurd h Bool.false_ne_true,
      drawing_of_idle rfl, Nat.zero_le _, fun _ hlast => absurd rfl hlast⟩
  obtain ⟨s, hrun, h⟩ | hnone := hstart.run hh hw hticks
  · refine .inl ⟨s, hrun, h.shown.replay, fun hready hsaved hlast => ?_, fun i hi => ?_⟩
    · have hclock := h.clock hready
      cases hplace : s.place with
      | clock | popping | got =>
        rw [hplace] at hclock
        obtain ⟨drawn, hdrawn, ha⟩ := hclock hlast
        exact ⟨drawn, hdrawn, ha.pixels⟩
      | clearing | placing | printing =>
        rw [hplace] at hsaved
        exact absurd hsaved (Option.some_ne_none _)
    · have houtside := h.shown.outside i hi
      exact (congrFun (s.place.restore_framebuffer _) i).symm.trans houtside
  · exact .inr hnone

/-- A screen. -/
def vga : Writer := ⟨fun _ => 0, 640, 480, 20, 50, 20⟩

/-- A timer interrupt, an Enter while the uptime is drawn, and the main loop behind it. -/
def enterTurns : List Turn :=
  .timer :: List.replicate 5 .main ++ List.replicate 4 (.key 0x1C) ++ List.replicate 40 .main

/-- A run with a command: its screen is the one of the keys alone. -/
theorem screen_law_enter : ∃ s, (System.start 0 (fun _ => 0) vga emptyLine ()).run blankFont
    (fun _ _ k => some ([], k)) enterTurns = some s ∧
    ScreenLaw blankFont (fun _ _ k => some ([], k)) (.start vga emptyLine ()) s := by
  have hlaw := screen_law blankFont (fun _ _ k => some ([], k)) 0 (fun _ => 0) vga emptyLine ()
    (by decide) (by decide) enterTurns (by decide)
  refine hlaw.resolve_right ?_
  rintro ⟨-, before, after, s₁, -, -, hhalts⟩
  exact Option.some_ne_none _ hhalts.command

end

end Terminal

end RossOs
