import RossOs.Lib.Run
import RossOs.Ramfs

/-!
# The line editor on the screen

`Writer` in `ross-kernel/src/writer.rs` draws characters at a cursor, and `handle_byte` in
`shell.rs` edits the line buffer and draws what it does. A backspace takes a byte off the line
whatever the screen looks like, and the cursor back only as far as the column where the input
started, which is wrong on a row that the line has wrapped to. `screen_shows_line_iff`: the cursor
stays where the line would leave it, exactly when every backspace finds room on its row.
-/

namespace RossOs

namespace Console

/-! ## The writer -/

/-- `BG`, `FG`, `DIM` and `ACCENT`. -/
def bgColor : ℕ := 0x00180702
def fgColor : ℕ := 0x00FFFFFF
def dimColor : ℕ := 0x00999999
def accentColor : ℕ := 0x0000FF99

/-- `LEFT_MARGIN`. -/
def leftMargin : ℕ := 20

/-- `TERM_Y`. -/
def termY : ℕ := 60

/-- `SCALE`. -/
def scale1 : ℕ := 1

/-- `Writer`. The frame buffer is a color for each index. -/
structure Writer where
  framebuffer : ℕ → ℕ
  w : ℕ
  h : ℕ
  x : ℕ
  y : ℕ
  inputX : ℕ

namespace Writer

/-- `*self.framebuffer.add(py * self.w + px) = color`. -/
def plot (wr : Writer) (px py color : ℕ) : Writer :=
  { wr with framebuffer := Function.update wr.framebuffer (py * wr.w + px) color }

/-- `set_pos`. -/
def setPos (wr : Writer) (x y : ℕ) : Writer := { wr with x := x, y := y }

/-- `fill_rect`. -/
def fillRect (wr : Writer) (x y w h color : ℕ) : Writer :=
  (List.range' y (min (y + h) wr.h - y)).foldl (fun wr row =>
    (List.range' x (min (x + w) wr.w - x)).foldl (fun wr col => wr.plot col row color) wr) wr

/-- `newline`. There is no result where `self.h - self.y` overflows. -/
def newline (wr : Writer) (scale : ℕ) : Option Writer :=
  let wr := { wr with x := leftMargin, y := wr.y + (8 * scale + 4) }
  if wr.h ≤ wr.y + 8 * scale then
    let wr := { wr with y := termY + 20 }
    if wr.y ≤ wr.h then some (wr.fillRect 0 wr.y wr.w (wr.h - wr.y) bgColor) else none
  else some wr

/-- The pixels of a glyph, of `8 * scale` columns and rows, at the cursor. -/
def drawGlyph (font : ℕ → ℕ → ℕ) (wr : Writer) (ch color scale : ℕ) : Writer :=
  (List.range 8).foldl (fun wr gy => (List.range 8).foldl (fun wr gx =>
    if font ch gy >>> (7 - gx) &&& 1 = 1 then
      (List.range scale).foldl (fun wr sy => (List.range scale).foldl (fun wr sx =>
        let px := wr.x + gx * scale + sx
        let py := wr.y + gy * scale + sy
        if px < wr.w ∧ py < wr.h then wr.plot px py color else wr) wr) wr
    else wr) wr) wr

/-- A glyph, and the cursor behind it. -/
def drawChar (font : ℕ → ℕ → ℕ) (wr : Writer) (ch color scale : ℕ) : Writer :=
  let drawn := wr.drawGlyph font ch color scale
  { drawn with x := drawn.x + (8 * scale + scale) }

/-- `put_char`. -/
def putChar (font : ℕ → ℕ → ℕ) (wr : Writer) (ch : UInt8) (color scale : ℕ) : Option Writer :=
  if ch = 0x0A then wr.newline scale
  else if 128 ≤ ch.toNat then some wr
  else do
    let wr ← if wr.w < wr.x + (8 * scale + scale) then wr.newline scale else some wr
    some (wr.drawChar font ch.toNat color scale)

/-- `put_str`. -/
def putStr (font : ℕ → ℕ → ℕ) (wr : Writer) (s : List UInt8) (color scale : ℕ) : Option Writer :=
  s.foldlM (fun wr b => wr.putChar font b color scale) wr

/-- `backspace`. -/
def backspace (wr : Writer) (scale : ℕ) : Writer :=
  let charW := 8 * scale + scale
  if wr.inputX + charW ≤ wr.x then
    let wr := { wr with x := wr.x - charW }
    wr.fillRect wr.x wr.y charW (8 * scale) bgColor
  else wr

/-- `mark_input_start`. -/
def markInputStart (wr : Writer) : Writer := { wr with inputX := wr.x }

end Writer

/-! ## The shell -/

/-- `MAX_LINE`. -/
def maxLine : ℕ := 128

/-- `ross`. -/
def rossBytes : List UInt8 := [0x72, 0x6F, 0x73, 0x73]

/-- `prompt`. -/
def prompt (font : ℕ → ℕ → ℕ) (wr : Writer) : Option Writer := do
  let wr ← wr.putStr font rossBytes accentColor scale1
  let wr ← wr.putStr font [0x3E, 0x20] dimColor scale1
  some wr.markInputStart

/-- `LINE_BUF` and `LINE_LEN`. -/
structure Line where
  buf : List UInt8
  len : ℕ
  length_buf : buf.length = maxLine

/-- `LINE_BUF[len] = ch; LINE_LEN += 1`. -/
def Line.push (l : Line) (ch : UInt8) : Line where
  buf := l.buf.set l.len ch
  len := l.len + 1
  length_buf := List.length_set.trans l.length_buf

/-- `LINE_LEN -= 1`. -/
def Line.pop (l : Line) : Line := { l with len := l.len - 1 }

/-- `LINE_LEN = 0`. -/
def Line.reset (l : Line) : Line := { l with len := 0 }

/-- The writer and the line. -/
structure Editor where
  wr : Writer
  line : Line

/-- `handle_byte` in the state `Active`, where `execute` runs a command. -/
def handleByte (font : ℕ → ℕ → ℕ) (execute : List Char → Writer → Option Writer) (ch : UInt8)
    (e : Editor) : Option Editor :=
  if ch = 0x0A then do
    let wr ← e.wr.putChar font 0x0A fgColor scale1
    let wr ← execute (trimWhiteSpace ((fromUtf8 (e.line.buf.take e.line.len)).getD [])) wr
    let wr ← prompt font wr
    some ⟨wr, e.line.reset⟩
  else if ch = 0x08 then
    if 0 < e.line.len then some ⟨e.wr.backspace scale1, e.line.pop⟩ else some e
  else if 0x20 ≤ ch ∧ ch ≤ 0x7E then
    if e.line.len < maxLine then do
      let wr ← e.wr.putChar font ch fgColor scale1
      some ⟨wr, e.line.push ch⟩
    else some e
  else some e

/-! ## The cursor -/

/-- The row below `y`, or the first row of the terminal when that is off the screen. -/
def nextRow (h y : ℕ) : ℕ := if h ≤ y + 12 + 8 then termY + 20 else y + 12

/-- Where a character leaves the cursor. -/
def advance (w h : ℕ) (c : ℕ × ℕ) : ℕ × ℕ :=
  if w < c.1 + 9 then (leftMargin + 9, nextRow h c.2) else (c.1 + 9, c.2)

/-- The cursor. -/
def Writer.cursor (wr : Writer) : ℕ × ℕ := (wr.x, wr.y)

/-- The writer `wr'` is `wr` but for its pixels, with the cursor at `c`. -/
structure Moved (wr : Writer) (c : ℕ × ℕ) (wr' : Writer) : Prop where
  w : wr'.w = wr.w
  h : wr'.h = wr.h
  inputX : wr'.inputX = wr.inputX
  cursor : wr'.cursor = c

/-- Two characters fit beside the margin, and the first row of the terminal is on the screen. -/
structure Large (wr : Writer) : Prop where
  wide : leftMargin + 18 ≤ wr.w
  high : termY + 20 ≤ wr.h

section
variable {font : ℕ → ℕ → ℕ} {execute : List Char → Writer → Option Writer}
  {wr wr' wr'' : Writer} {c c' : ℕ × ℕ} {b : UInt8} {color : ℕ}

namespace Moved

/-- A writer that did not change has moved nowhere. -/
theorem refl (wr : Writer) : Moved wr wr.cursor wr := ⟨rfl, rfl, rfl, rfl⟩

/-- A step after a step moves the cursor to where the second one does. -/
theorem trans (h : Moved wr c wr') (h' : Moved wr' c' wr'') : Moved wr c' wr'' :=
  ⟨h'.w.trans h.w, h'.h.trans h.h, h'.inputX.trans h.inputX, h'.cursor⟩

/-- A screen that is large enough stays so. -/
theorem large (h : Moved wr c wr') (hl : Large wr) : Large wr' :=
  ⟨h.w.symm ▸ hl.wide, h.h.symm ▸ hl.high⟩

/-- A loop whose turns draw and do nothing else. -/
theorem foldl {α : Type} {f : Writer → α → Writer} (hf : ∀ wr a, Moved wr wr.cursor (f wr a))
    (l : List α) (wr : Writer) : Moved wr wr.cursor (l.foldl f wr) := by
  induction l generalizing wr with
  | nil => exact refl wr
  | cons a l ih =>
    have h := (hf wr a).trans (ih (f wr a))
    rwa [(hf wr a).cursor] at h

/-- A step that may be left out leaves the cursor if it does where it is taken. -/
theorem ite {p : Prop} [Decidable p] (h : Moved wr wr.cursor wr') :
    Moved wr wr.cursor (if p then wr' else wr) := by
  split
  · exact h
  · exact refl wr

end Moved

/-- A pixel leaves the cursor. -/
theorem moved_plot (wr : Writer) (px py color : ℕ) : Moved wr wr.cursor (wr.plot px py color) :=
  ⟨rfl, rfl, rfl, rfl⟩

/-- A rectangle leaves the cursor. -/
theorem moved_fillRect (wr : Writer) (x y w h color : ℕ) :
    Moved wr wr.cursor (wr.fillRect x y w h color) :=
  .foldl (fun wr _ => .foldl (fun wr _ => moved_plot wr _ _ _) _ wr) _ wr

/-- A glyph leaves the cursor. -/
theorem moved_drawGlyph (font : ℕ → ℕ → ℕ) (wr : Writer) (ch color scale : ℕ) :
    Moved wr wr.cursor (wr.drawGlyph font ch color scale) :=
  .foldl (fun wr _ => .foldl (fun wr _ => .ite (.foldl (fun wr _ =>
    .foldl (fun wr _ => .ite (moved_plot wr _ _ _)) _ wr) _ wr)) _ wr) _ wr

/-- A new line on a large screen goes to the next row, with a scroll at the bottom. -/
theorem newline_run (hl : Large wr) :
    ∃ wr', wr.newline scale1 = some wr' ∧ Moved wr (leftMargin, nextRow wr.h wr.y) wr' := by
  have hhigh := hl.high
  simp only [Writer.newline, scale1, Nat.mul_one, nextRow]
  by_cases hend : wr.h ≤ wr.y + 12 + 8
  · rw [if_pos hend, if_pos hhigh, if_pos hend]
    have hfill := moved_fillRect { wr with x := leftMargin, y := termY + 20 } 0 (termY + 20) wr.w
      (wr.h - (termY + 20)) bgColor
    exact ⟨_, rfl, hfill.w, hfill.h, hfill.inputX, hfill.cursor⟩
  · rw [if_neg hend, if_neg hend]
    exact ⟨_, rfl, rfl, rfl, rfl, rfl⟩

/-- A character, with the cursor behind it. -/
theorem moved_drawChar (font : ℕ → ℕ → ℕ) (wr : Writer) (ch color : ℕ) :
    Moved wr (wr.x + 9, wr.y) (wr.drawChar font ch color scale1) := by
  have hglyph := moved_drawGlyph font wr ch color scale1
  have hx := congrArg Prod.fst hglyph.cursor
  have hy := congrArg Prod.snd hglyph.cursor
  exact ⟨hglyph.w, hglyph.h, hglyph.inputX, congrArg₂ Prod.mk (congrArg (· + 9) hx) hy⟩

/-- A character moves the cursor on. -/
theorem putChar_run (font : ℕ → ℕ → ℕ) (color : ℕ) (hl : Large wr) (hb : b ≠ 0x0A)
    (hascii : b.toNat < 128) : ∃ wr', wr.putChar font b color scale1 = some wr' ∧
      Moved wr (advance wr.w wr.h wr.cursor) wr' := by
  have hnine : wr.x + (8 * scale1 + scale1) = wr.x + 9 := rfl
  rw [Writer.putChar, if_neg hb, if_neg (Nat.not_le.2 hascii), hnine, advance]
  by_cases hwrap : wr.w < wr.x + 9
  · obtain ⟨wr₁, hrun, hmoved⟩ := newline_run hl
    have hdraw := moved_drawChar font wr₁ b.toNat color
    have hx : wr₁.x = leftMargin := congrArg Prod.fst hmoved.cursor
    have hy : wr₁.y = nextRow wr.h wr.y := congrArg Prod.snd hmoved.cursor
    rw [hx, hy] at hdraw
    rw [if_pos hwrap, hrun, if_pos (show wr.w < wr.cursor.1 + 9 from hwrap)]
    exact ⟨_, rfl, hmoved.trans hdraw⟩
  · rw [if_neg hwrap, if_neg (show ¬ wr.w < wr.cursor.1 + 9 from hwrap)]
    exact ⟨_, rfl, moved_drawChar font wr b.toNat color⟩

/-- A text without control characters moves the cursor on by its length. -/
theorem putStr_run (font : ℕ → ℕ → ℕ) (color : ℕ) (hl : Large wr) {s : List UInt8}
    (hs : ∀ b ∈ s, b ≠ 0x0A ∧ b.toNat < 128) :
    ∃ wr', wr.putStr font s color scale1 = some wr' ∧
      Moved wr ((advance wr.w wr.h)^[s.length] wr.cursor) wr' := by
  induction s generalizing wr with
  | nil => exact ⟨wr, rfl, .refl wr⟩
  | cons b s ih =>
    obtain ⟨hb, hrest⟩ := List.forall_mem_cons.1 hs
    obtain ⟨wr₁, hrun, hmoved⟩ := putChar_run font color hl hb.1 hb.2
    obtain ⟨wr', hrun', hmoved'⟩ := ih (hmoved.large hl) hrest
    refine ⟨wr', ?_, ?_⟩
    · rw [Writer.putStr, List.foldlM_cons, hrun]
      exact hrun'
    · rw [hmoved.w, hmoved.h, hmoved.cursor] at hmoved'
      exact hmoved.trans hmoved'

end

/-- Where the prompt leaves the cursor. -/
def promptEnd (start : Writer) : ℕ × ℕ := (advance start.w start.h)^[6] start.cursor

section
variable {font : ℕ → ℕ → ℕ} {start : Writer}

/-- The prompt is printed on a large screen, and the input starts behind it. -/
theorem prompt_run (font : ℕ → ℕ → ℕ) (hl : Large start) :
    ∃ wr', prompt font start = some wr' ∧ wr'.w = start.w ∧ wr'.h = start.h ∧
      wr'.inputX = (promptEnd start).1 ∧ wr'.cursor = promptEnd start := by
  obtain ⟨wr₁, hrun₁, hmoved₁⟩ := putStr_run font accentColor hl
    (s := rossBytes) (by decide +kernel)
  obtain ⟨wr₂, hrun₂, hmoved₂⟩ := putStr_run font dimColor
    (hmoved₁.large hl) (s := [0x3E, 0x20]) (by decide +kernel)
  have hend : wr₂.cursor = promptEnd start := by
    rw [hmoved₂.cursor, hmoved₁.w, hmoved₁.h, hmoved₁.cursor, ← Function.iterate_add_apply]
    rfl
  have hmoved := hmoved₁.trans hmoved₂
  refine ⟨wr₂.markInputStart, ?_, hmoved.w, hmoved.h, congrArg Prod.fst hend, hend⟩
  rw [prompt, hrun₁]
  simp only [Option.bind_eq_bind, Option.bind_some, hrun₂]

/-- The input starts two columns behind the margin or further right. -/
theorem le_promptEnd (start : Writer) : leftMargin + 9 ≤ (promptEnd start).1 := by
  have hstep : ∀ n, leftMargin + 9 ≤ ((advance start.w start.h)^[n] start.cursor).1 ∨
      ((advance start.w start.h)^[n] start.cursor).1 = start.x + 9 * n := by
    intro n
    induction n with
    | zero => exact .inr rfl
    | succ n ih =>
      rw [Function.iterate_succ_apply', advance]
      split
      · exact .inl le_rfl
      · simp only
        omega
  have h6 := hstep 6
  rw [← promptEnd, leftMargin] at h6
  rw [leftMargin]
  omega

/-- A step back from further right than the first input column undoes a character. -/
theorem eq_of_advance {w h : ℕ} {c : ℕ × ℕ} {inputX : ℕ} (hinput : leftMargin + 9 ≤ inputX)
    (hback : inputX + 9 ≤ (advance w h c).1) : ((advance w h c).1 - 9, (advance w h c).2) = c := by
  rw [advance] at hback ⊢
  split
  case isTrue hwrap =>
    rw [if_pos hwrap] at hback
    simp only at hback
    omega
  case isFalse => exact Prod.ext (Nat.add_sub_cancel _ _) rfl

/-- A character always moves the cursor. -/
theorem advance_ne {w h : ℕ} (c : ℕ × ℕ) (hw : leftMargin + 18 ≤ w) : advance w h c ≠ c := by
  intro heq
  have hx := congrArg Prod.fst heq
  rw [advance] at hx
  split at hx
  · simp only at hx
    omega
  · simp only at hx
    omega

end


/-! ## Editing a line -/

/-- A printable byte or a backspace. -/
structure Key where
  byte : UInt8
  edits : byte = 0x08 ∨ 0x20 ≤ byte ∧ byte ≤ 0x7E

/-- The line after a key. -/
def edit (line : List UInt8) (k : Key) : List UInt8 :=
  if k.byte = 0x08 then line.dropLast
  else if line.length < maxLine then line ++ [k.byte] else line

/-- The editor, unless it panicked, and the line that the keys so far make. -/
structure Session where
  editor : Option Editor
  line : List UInt8

section
variable (font : ℕ → ℕ → ℕ) (execute : List Char → Writer → Option Writer) (start : Writer)

/-- The session behind the prompt that is printed from `start` on. -/
def afterPrompt (l : Line) : Session := ⟨(prompt font start).map fun wr => ⟨wr, l.reset⟩, []⟩

/-- A key is pressed. -/
def press (s : Session) (k : Key) : Session :=
  ⟨s.editor.bind (handleByte font execute k.byte), edit s.line k⟩

/-- The buffer holds the line, and the cursor is where printing the prompt and the line leaves
it. -/
structure Shows (e : Editor) (line : List UInt8) : Prop where
  len_le : e.line.len ≤ maxLine
  buf : e.line.buf.take e.line.len = line
  cursor : ∃ wr, (do let wr ← prompt font start; wr.putStr font line fgColor scale1) = some wr ∧
    e.wr.cursor = wr.cursor

/-- The editor runs and shows the line. -/
def ShowsLine (s : Session) : Prop := ∃ e, s.editor = some e ∧ Shows font start e s.line

/-- A backspace that takes a byte off the line finds it to the right of the first input column. -/
def HasRoom (s : Session) (k : Key) : Prop :=
  ∀ e, s.editor = some e → k.byte = 0x08 → 0 < e.line.len → e.wr.inputX + 9 ≤ e.wr.x

/-- What a session keeps while it shows the line. -/
structure InStep (e : Editor) (line : List UInt8) : Prop where
  len_le : e.line.len ≤ maxLine
  buf : e.line.buf.take e.line.len = line
  printable : ∀ b ∈ line, b ≠ 0x0A ∧ b.toNat < 128
  w : e.wr.w = start.w
  h : e.wr.h = start.h
  inputX : e.wr.inputX = (promptEnd start).1
  cursor : e.wr.cursor = (advance start.w start.h)^[line.length] (promptEnd start)

end

section
variable {font : ℕ → ℕ → ℕ} {execute : List Char → Writer → Option Writer} {start : Writer}
  {e : Editor} {line : List UInt8} {s : Session} {k : Key} {b : UInt8}

/-- The prompt and a line on a large screen. -/
theorem printLine_run (font : ℕ → ℕ → ℕ) (hl : Large start)
    (hline : ∀ b ∈ line, b ≠ 0x0A ∧ b.toNat < 128) :
    ∃ wr, (do let wr ← prompt font start; wr.putStr font line fgColor scale1) = some wr ∧
      wr.cursor = (advance start.w start.h)^[line.length] (promptEnd start) := by
  obtain ⟨wr₁, hrun₁, hw, hh, -, hcursor⟩ := prompt_run font hl
  have hl₁ : Large wr₁ := ⟨hw.symm ▸ hl.wide, hh.symm ▸ hl.high⟩
  obtain ⟨wr, hrun, hmoved⟩ := putStr_run font fgColor hl₁ hline
  refine ⟨wr, ?_, ?_⟩
  · rw [hrun₁]
    exact hrun
  · rw [hmoved.cursor, hw, hh, hcursor]

/-- The cursor of a session that shows its line. -/
theorem shows_iff (hl : Large start) (hline : ∀ b ∈ line, b ≠ 0x0A ∧ b.toNat < 128) :
    Shows font start e line ↔ e.line.len ≤ maxLine ∧ e.line.buf.take e.line.len = line ∧
      e.wr.cursor = (advance start.w start.h)^[line.length] (promptEnd start) := by
  obtain ⟨wr, hrun, hcursor⟩ := printLine_run font hl hline
  constructor
  · rintro ⟨hlen, hbuf, wr', hrun', hcursor'⟩
    cases hrun.symm.trans hrun'
    exact ⟨hlen, hbuf, hcursor'.trans hcursor⟩
  · rintro ⟨hlen, hbuf, hcursor'⟩
    exact ⟨hlen, hbuf, wr, hrun, hcursor'.trans hcursor.symm⟩

/-- A session in step shows its line. -/
theorem InStep.shows (h : InStep start e line) (hl : Large start) : Shows font start e line :=
  (shows_iff hl h.printable).2 ⟨h.len_le, h.buf, h.cursor⟩

/-- The line is as long as its counter says. -/
theorem InStep.length (h : InStep start e line) : line.length = e.line.len := by
  have hlen := h.len_le
  rw [← h.buf, List.length_take, e.line.length_buf, Nat.min_eq_left hlen]

/-- A byte pushed is the last of the line. -/
theorem Line.take_push (l : Line) (ch : UInt8) (h : l.len < maxLine) :
    (l.push ch).buf.take (l.push ch).len = l.buf.take l.len ++ [ch] := by
  have hlen : l.len < (l.buf.set l.len ch).length := by rwa [List.length_set, l.length_buf]
  rw [Line.push, List.take_succ_eq_append_getElem hlen, List.getElem_set_self,
    List.take_set_of_le le_rfl]

/-- A pop removes the last byte. -/
theorem Line.take_pop (l : Line) (h : l.len ≤ maxLine) :
    l.pop.buf.take l.pop.len = (l.buf.take l.len).dropLast := by
  rw [Line.pop, List.dropLast_eq_take, List.length_take, l.length_buf, Nat.min_eq_left h,
    List.take_take, Nat.min_eq_left (Nat.sub_le _ _)]

/-- A printable byte, while there is room in the buffer. -/
theorem InStep.push (font : ℕ → ℕ → ℕ) (execute : List Char → Writer → Option Writer)
    (h : InStep start e line) (hl : Large start) (hb : 0x20 ≤ b ∧ b ≤ 0x7E)
    (hlen : e.line.len < maxLine) :
    ∃ e', handleByte font execute b e = some e' ∧ InStep start e' (line ++ [b]) := by
  have h1 : 0x20 ≤ b.toNat := UInt8.le_iff_toNat_le.1 hb.1
  have h2 : b.toNat ≤ 0x7E := UInt8.le_iff_toNat_le.1 hb.2
  have hnewline : b ≠ 0x0A := fun hne => by rw [hne] at h1; exact absurd h1 (by decide)
  have hbackspace : b ≠ 0x08 := fun hne => by rw [hne] at h1; exact absurd h1 (by decide)
  have hlarge : Large e.wr := ⟨h.w.symm ▸ hl.wide, h.h.symm ▸ hl.high⟩
  obtain ⟨wr', hrun, hmoved⟩ := putChar_run font fgColor hlarge hnewline
    (Nat.lt_of_le_of_lt h2 (by decide))
  refine ⟨⟨wr', e.line.push b⟩, ?_, ?_⟩
  · rw [handleByte, if_neg hnewline, if_neg hbackspace, if_pos hb, if_pos hlen, hrun]
    rfl
  · refine ⟨hlen, ?_, ?_, hmoved.w.trans h.w, hmoved.h.trans h.h, hmoved.inputX.trans h.inputX, ?_⟩
    · rw [e.line.take_push b hlen, h.buf]
    · intro b' hb'
      rcases List.mem_append.1 hb' with hb' | hb'
      · exact h.printable b' hb'
      · rw [List.mem_singleton.1 hb']
        exact ⟨hnewline, Nat.lt_of_le_of_lt h2 (by decide)⟩
    · rw [hmoved.cursor, h.w, h.h, h.cursor, List.length_append, List.length_singleton,
        Function.iterate_succ_apply']

/-- The cursor is one character behind the end of the line without its last byte. -/
theorem InStep.cursor_dropLast (h : InStep start e line) (hpos : 0 < e.line.len) :
    e.wr.cursor = advance start.w start.h
      ((advance start.w start.h)^[line.dropLast.length] (promptEnd start)) := by
  have hlen : line.length = line.dropLast.length + 1 := by
    rw [List.length_dropLast, h.length]
    omega
  rw [h.cursor, hlen, Function.iterate_succ_apply']

/-- A backspace that has room to step back takes the last byte from line and screen. -/
theorem InStep.pop (h : InStep start e line) (hpos : 0 < e.line.len)
    (hroom : e.wr.inputX + 9 ≤ e.wr.x) :
    InStep start ⟨e.wr.backspace scale1, e.line.pop⟩ line.dropLast := by
  have hback := moved_fillRect { e.wr with x := e.wr.x - 9 } (e.wr.x - 9) e.wr.y 9 8 bgColor
  have hrun : e.wr.backspace scale1 =
      ({ e.wr with x := e.wr.x - 9 } : Writer).fillRect (e.wr.x - 9) e.wr.y 9 8 bgColor :=
    if_pos hroom
  refine ⟨(Nat.sub_le _ _).trans h.len_le, ?_, ?_, ?_, ?_, ?_, ?_⟩
  · rw [e.line.take_pop h.len_le, h.buf]
  · exact fun b hb => h.printable b (List.mem_of_mem_dropLast hb)
  · exact (hrun ▸ hback.w).trans h.w
  · exact (hrun ▸ hback.h).trans h.h
  · exact (hrun ▸ hback.inputX).trans h.inputX
  · have hcursor := h.cursor_dropLast hpos
    have hx : e.wr.x = _ := congrArg Prod.fst hcursor
    have hy : e.wr.y = _ := congrArg Prod.snd hcursor
    have hinput : leftMargin + 9 ≤ e.wr.inputX := h.inputX ▸ le_promptEnd start
    rw [hx] at hroom
    refine Eq.trans ?_ (eq_of_advance hinput hroom)
    rw [← hx, ← hy]
    simp only
    rw [hrun]
    exact hback.cursor

/-- A backspace that has none leaves the cursor where the longer line ends. -/
theorem InStep.not_shows (h : InStep start e line) (hl : Large start) (hpos : 0 < e.line.len)
    (hroom : ¬ e.wr.inputX + 9 ≤ e.wr.x) :
    ¬ Shows font start ⟨e.wr.backspace scale1, e.line.pop⟩ line.dropLast := by
  have hstay : e.wr.backspace scale1 = e.wr := if_neg hroom
  have hline : ∀ b ∈ line.dropLast, b ≠ 0x0A ∧ b.toNat < 128 := fun b hb =>
    h.printable b (List.mem_of_mem_dropLast hb)
  rw [shows_iff hl hline, hstay]
  rintro ⟨-, -, hcursor⟩
  exact advance_ne _ hl.wide ((h.cursor_dropLast hpos).symm.trans hcursor)

/-! ## One key -/

/-- The session is in step with its line. -/
def Synced (start : Writer) (s : Session) : Prop :=
  ∃ e, s.editor = some e ∧ InStep start e s.line

/-- A session in step shows its line. -/
theorem Synced.showsLine (h : Synced start s) (hl : Large start) : ShowsLine font start s := by
  obtain ⟨e, he, hstep⟩ := h
  exact ⟨e, he, hstep.shows hl⟩

/-- A session is in step after the prompt. -/
theorem synced_afterPrompt (font : ℕ → ℕ → ℕ) (hl : Large start) (l : Line) :
    Synced start (afterPrompt font start l) := by
  obtain ⟨wr, hrun, hw, hh, hinput, hcursor⟩ := prompt_run font hl
  refine ⟨⟨wr, l.reset⟩, ?_, Nat.zero_le _, List.take_zero, nofun, hw, hh, hinput, hcursor⟩
  rw [afterPrompt, hrun]
  rfl

/-- A key that is no backspace, or that has room or nothing to take off. -/
theorem Synced.afterKey (font : ℕ → ℕ → ℕ) (execute : List Char → Writer → Option Writer)
    (h : Synced start s) (hl : Large start) (hroom : HasRoom s k) :
    Synced start (press font execute s k) := by
  obtain ⟨e, he, hstep⟩ := h
  have hpress : (press font execute s k).editor = handleByte font execute k.byte e := by
    rw [press, he, Option.bind_some]
  rcases k.edits with hk | hk
  · have hnewline : k.byte ≠ 0x0A := by rw [hk]; decide
    have hedit : (press font execute s k).line = s.line.dropLast := if_pos hk
    by_cases hpos : 0 < e.line.len
    · refine ⟨_, ?_, hedit ▸ hstep.pop hpos (hroom e he hk hpos)⟩
      rw [hpress, handleByte, if_neg hnewline, if_pos hk, if_pos hpos]
    · have hnil : s.line = [] := List.eq_nil_of_length_eq_zero (by rw [hstep.length]; omega)
      have hline : (press font execute s k).line = s.line := by rw [hedit, hnil]; rfl
      refine ⟨e, ?_, hline ▸ hstep⟩
      rw [hpress, handleByte, if_neg hnewline, if_pos hk, if_neg hpos]
  · have h1 : 0x20 ≤ k.byte.toNat := UInt8.le_iff_toNat_le.1 hk.1
    have hback : k.byte ≠ 0x08 := fun hne => by rw [hne] at h1; exact absurd h1 (by decide)
    have hnewline : k.byte ≠ 0x0A := fun hne => by rw [hne] at h1; exact absurd h1 (by decide)
    by_cases hlen : e.line.len < maxLine
    · obtain ⟨e', hrun, hstep'⟩ := hstep.push font execute hl hk hlen
      have hline : (press font execute s k).line = s.line ++ [k.byte] := by
        rw [press, edit, if_neg hback, if_pos (by rwa [hstep.length])]
      exact ⟨e', hpress.trans hrun, hline ▸ hstep'⟩
    · have hline : (press font execute s k).line = s.line := by
        rw [press, edit, if_neg hback, if_neg (by rwa [hstep.length])]
      refine ⟨e, ?_, hline ▸ hstep⟩
      rw [hpress, handleByte, if_neg hnewline, if_neg hback, if_pos hk, if_neg hlen]

/-- The line is shown after a key exactly when the key has room. -/
theorem Synced.afterKey_iff (h : Synced start s) (hl : Large start) :
    ShowsLine font start (press font execute s k) ↔ HasRoom s k := by
  refine ⟨fun hshows e he hk hpos => ?_, fun hroom => ?_⟩
  swap
  · exact (h.afterKey font execute hl hroom).showsLine hl
  obtain ⟨e₀, he₀, hstep⟩ := h
  cases he₀.symm.trans he
  obtain ⟨e', he', hshows⟩ := hshows
  have hnewline : k.byte ≠ 0x0A := by rw [hk]; decide
  rw [press, he, Option.bind_some, handleByte, if_neg hnewline, if_pos hk,
    if_pos hpos] at he'
  cases he'
  have hedit : (press font execute s k).line = s.line.dropLast := if_pos hk
  rw [hedit] at hshows
  by_contra hroom
  exact hstep.not_shows hl hpos hroom hshows

end

/-! ## A session of keys -/

/-- Behind a prompt, the screen shows the line after every key exactly when every backspace that
takes a byte off the line finds the cursor to the right of the first input column. -/
theorem screen_shows_line_iff (font : ℕ → ℕ → ℕ) (execute : List Char → Writer → Option Writer)
    (start : Writer) (hl : Large start) (l : Line) (keys : List Key) :
    (ShowsLine font start (afterPrompt font start l) ∧
      Run.Guarded (press font execute) (fun s k => ShowsLine font start (press font execute s k))
        (afterPrompt font start l) keys) ↔
      Run.Guarded (press font execute) HasRoom (afterPrompt font start l) keys := by
  have hstart := synced_afterPrompt font hl l
  rw [and_iff_right (hstart.showsLine hl)]
  exact Run.guarded_congr (fun s k hs => hs.afterKey_iff hl)
    (fun s k hs hshows => hs.afterKey font execute hl ((hs.afterKey_iff hl).1 hshows)) hstart

/-- A screen with room for the prompt on a row, and for nothing behind it. -/
def narrow : Writer := ⟨fun _ => 0, 80, 120, 20, 80, 20⟩

/-- A font without pixels. -/
def blankFont : ℕ → ℕ → ℕ := fun _ _ => 0

/-- Commands that do nothing. -/
def noCommands : List Char → Writer → Option Writer := fun _ wr => some wr

/-- An empty line. -/
def emptyLine : Line := ⟨List.replicate 128 0, 0, List.length_replicate⟩

/-- The letter `a`. -/
def keyA : Key := ⟨0x61, by decide⟩

/-- A backspace. -/
def keyBackspace : Key := ⟨0x08, by decide⟩

/-- The narrow screen is large enough. -/
theorem large_narrow : Large narrow := ⟨by decide, by decide⟩

/-- A screen with room for a line behind the prompt. -/
def wide : Writer := ⟨fun _ => 0, 640, 480, 20, 80, 20⟩

/-- The wide screen is large enough. -/
theorem large_wide : Large wide := ⟨by decide, by decide⟩

/-- On a wide screen, the backspace behind a letter finds room. -/
theorem hasRoom_wide : Run.Guarded (press blankFont noCommands) HasRoom
    (afterPrompt blankFont wide emptyLine) [keyA, keyBackspace] := by
  have hstart := synced_afterPrompt blankFont large_wide emptyLine
  have hletter : HasRoom (afterPrompt blankFont wide emptyLine) keyA :=
    fun _ _ hk => absurd hk (by decide)
  obtain ⟨e, he, hstep⟩ := hstart.afterKey blankFont noCommands large_wide hletter
  refine ⟨hletter, fun e' he' _ _ => ?_, trivial⟩
  cases he.symm.trans he'
  have hx : e.wr.x = 83 := (congrArg Prod.fst hstep.cursor).trans (by decide)
  have hinput : e.wr.inputX = 74 := hstep.inputX.trans (by decide)
  omega

/-- The letter is shown, and gone from the screen after the backspace. -/
theorem screen_shows_line_wide :
    (ShowsLine blankFont wide (afterPrompt blankFont wide emptyLine) ∧
      Run.Guarded (press blankFont noCommands)
        (fun s k => ShowsLine blankFont wide (press blankFont noCommands s k))
        (afterPrompt blankFont wide emptyLine) [keyA, keyBackspace]) ∧
      Run.Guarded (press blankFont noCommands) HasRoom (afterPrompt blankFont wide emptyLine)
        [keyA, keyBackspace] :=
  ⟨(screen_shows_line_iff blankFont noCommands wide large_wide emptyLine
    [keyA, keyBackspace]).2 hasRoom_wide, hasRoom_wide⟩

/-- A letter that wraps is taken off the line, and the cursor stays behind it. -/
theorem screen_keeps_letter : ¬ ∀ (font : ℕ → ℕ → ℕ)
    (execute : List Char → Writer → Option Writer) (start : Writer), Large start →
    ∀ (l : Line) (keys : List Key), Run.Guarded (press font execute)
      (fun s k => ShowsLine font start (press font execute s k)) (afterPrompt font start l)
      keys := by
  intro h
  have hrun := h blankFont noCommands narrow large_narrow emptyLine [keyA, keyBackspace]
  have hstart := synced_afterPrompt blankFont large_narrow emptyLine
  have hnext := hstart.afterKey blankFont noCommands large_narrow
    ((hstart.afterKey_iff large_narrow).1 hrun.1)
  have hroom := (hnext.afterKey_iff large_narrow).1 hrun.2.1
  obtain ⟨e, he, hstep⟩ := hnext
  have hback := hroom e he rfl (by rw [← hstep.length]; exact Nat.one_pos)
  have hx : e.wr.x = 29 := (congrArg Prod.fst hstep.cursor).trans (by decide)
  have hinput : e.wr.inputX = 74 := hstep.inputX.trans (by decide)
  omega

end Console

end RossOs
