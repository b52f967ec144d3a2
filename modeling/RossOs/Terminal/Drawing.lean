import RossOs.Lib.Pair
import RossOs.Terminal.Model

/-!
# Where the writer draws

Three things about the operations of the writer. They draw inside the frame buffer, in the rows from
the cursor on (`Paints`, `Draws`); on a screen with room for the terminal none of them panics; and
two writers that differ in some pixels only go on to differ in these (`Agree`).
-/

namespace RossOs

open Console

namespace Terminal

/-! ## Rows -/

/-- The cells of the frame buffer in the rows from `a` on up to `b`. -/
def Rows (w a b i : ℕ) : Prop := a * w ≤ i ∧ i < b * w

/-- A pixel by its row and column lies among the rows that its row is among. -/
theorem rows_cell {w a b row col : ℕ} (hcol : col < w) (ha : a ≤ row) (hb : row < b) :
    Rows w a b (row * w + col) := by
  have hlow : a * w ≤ row * w := Nat.mul_le_mul_right w ha
  have hhigh : (row + 1) * w ≤ b * w := Nat.mul_le_mul_right w hb
  rw [Nat.succ_mul] at hhigh
  exact ⟨by omega, by omega⟩

/-- A pixel of some rows is one of more rows. -/
theorem Rows.mono {w a b a' b' i : ℕ} (h : Rows w a b i) (ha : a' ≤ a) (hb : b ≤ b') :
    Rows w a' b' i :=
  ⟨(Nat.mul_le_mul_right w ha).trans h.1, h.2.trans_le (Nat.mul_le_mul_right w hb)⟩

/-- Only pixels in these rows change. -/
structure Paints (a b : ℕ) (wr wr' : Writer) : Prop where
  moved : Moved wr wr.cursor wr'
  pixels : ∀ i, ¬ Rows wr.w a b i → wr'.framebuffer i = wr.framebuffer i

namespace Paints

variable {a b a' b' : ℕ} {wr wr' wr'' : Writer}

/-- A writer that did not change has painted nothing. -/
theorem refl (a b : ℕ) (wr : Writer) : Paints a b wr wr := ⟨.refl wr, fun _ _ => rfl⟩

/-- Two steps that paint in the rows do so together. -/
theorem trans (h : Paints a b wr wr') (h' : Paints a b wr' wr'') : Paints a b wr wr'' := by
  refine ⟨?_, fun i hi => ?_⟩
  · have hmoved := h.moved.trans h'.moved
    rwa [h.moved.cursor] at hmoved
  · rw [h'.pixels i (h.moved.w ▸ hi), h.pixels i hi]

/-- What paints in some rows paints in more. -/
theorem mono (h : Paints a b wr wr') (ha : a' ≤ a) (hb : b ≤ b') : Paints a' b' wr wr' :=
  ⟨h.moved, fun i hi => h.pixels i fun hr => hi (hr.mono ha hb)⟩

/-- A loop paints in the rows if each of its turns does. -/
theorem foldl {α : Type} {f : Writer → α → Writer} {l : List α}
    (hf : ∀ wr₁, Moved wr wr.cursor wr₁ → ∀ x ∈ l, Paints a b wr₁ (f wr₁ x)) :
    Paints a b wr (l.foldl f wr) :=
  List.foldlRecOn l f (motive := Paints a b wr) (.refl a b wr)
    fun wr₁ h x hx => h.trans (hf wr₁ h.moved x hx)

/-- A step that may be left out paints in the rows if it does where it is taken. -/
theorem ite {p : Prop} [Decidable p] (h : p → Paints a b wr wr') :
    Paints a b wr (if p then wr' else wr) := by
  split
  case isTrue hp => exact h hp
  case isFalse => exact .refl a b wr

end Paints

section
variable {a b : ℕ} {wr wr₁ : Writer}

/-- Where the cursor stays, its column stays. -/
theorem Paints.x_eq (h : Moved wr wr.cursor wr₁) : wr₁.x = wr.x := congrArg Prod.fst h.cursor

/-- Where the cursor stays, its row stays. -/
theorem Paints.y_eq (h : Moved wr wr.cursor wr₁) : wr₁.y = wr.y := congrArg Prod.snd h.cursor

/-- A pixel in one of the rows is painted. -/
theorem paints_plot {px py : ℕ} (color : ℕ) (hx : px < wr.w) (ha : a ≤ py) (hb : py < b) :
    Paints a b wr (wr.plot px py color) := by
  refine ⟨moved_plot wr px py color, fun i hi => Function.update_of_ne ?_ _ _⟩
  rintro rfl
  exact hi (rows_cell hx ha hb)

/-- A rectangle is cut at the bottom of the screen. -/
theorem paints_fillRect (wr : Writer) (x y w h color : ℕ) :
    Paints y (min (y + h) wr.h) wr (wr.fillRect x y w h color) := by
  refine .foldl fun wr₁ h₁ row hrow => .foldl fun wr₂ h₂ col hcol => ?_
  rw [List.mem_range'_1] at hrow hcol
  have hw : wr₂.w = wr₁.w := h₂.w
  exact paints_plot color (by omega) hrow.1 (by omega)

/-- A glyph is painted in the eight rows from the cursor on, scaled. -/
theorem paints_drawGlyph (font : ℕ → ℕ → ℕ) (wr : Writer) (ch color scale : ℕ) :
    Paints wr.y (min (wr.y + 8 * scale) wr.h) wr (wr.drawGlyph font ch color scale) := by
  refine .foldl fun wr₁ h₁ gy hgy => .foldl fun wr₂ h₂ gx hgx => .ite fun _ => ?_
  refine .foldl fun wr₃ h₃ sy hsy => .foldl fun wr₄ h₄ sx hsx => .ite fun hin => ?_
  rw [List.mem_range] at hgy hsy
  have hy : wr₄.y = wr.y := by
    rw [Paints.y_eq h₄, Paints.y_eq h₃, Paints.y_eq h₂, Paints.y_eq h₁]
  have hh : wr₄.h = wr.h := by rw [h₄.h, h₃.h, h₂.h, h₁.h]
  have hscale : gy * scale + sy < 8 * scale := by
    have hle : (gy + 1) * scale ≤ 8 * scale := Nat.mul_le_mul_right scale hgy
    rw [Nat.succ_mul] at hle
    omega
  exact paints_plot color hin.1 (by omega) (by omega)

end

/-! ## Output in the terminal -/

/-- The rows from `b` on may change, and the cursor is there. -/
structure Draws (b : ℕ) (wr wr' : Writer) : Prop where
  w : wr'.w = wr.w
  h : wr'.h = wr.h
  y : b ≤ wr'.y
  pixels : ∀ i, ¬ Rows wr.w b wr.h i → wr'.framebuffer i = wr.framebuffer i

/-- The output does not panic, and is in the rows from `b` on. -/
def Prints (b : ℕ) (wr : Writer) (o : Option Writer) : Prop := ∃ wr', o = some wr' ∧ Draws b wr wr'

section
variable {b : ℕ} {wr wr' wr'' : Writer} {o : Option Writer}

/-- A writer that did not change has drawn nothing above the line. -/
theorem Draws.refl (hy : b ≤ wr.y) : Draws b wr wr := ⟨rfl, rfl, hy, fun _ _ => rfl⟩

/-- Two steps that draw below the line do so together. -/
theorem Draws.trans (h : Draws b wr wr') (h' : Draws b wr' wr'') : Draws b wr wr'' := by
  refine ⟨h'.w.trans h.w, h'.h.trans h.h, h'.y, fun i hi => ?_⟩
  rw [h'.pixels i (by rwa [h.w, h.h]), h.pixels i hi]

/-- What is painted below the line is drawn there. -/
theorem Paints.draws {a c : ℕ} (h : Paints a c wr wr') (ha : b ≤ a) (hc : c ≤ wr.h)
    (hy : b ≤ wr.y) : Draws b wr wr' :=
  ⟨h.moved.w, h.moved.h, by rwa [Paints.y_eq h.moved], (h.mono ha hc).pixels⟩

/-- What is drawn is printed, without a scroll that panics. -/
theorem Prints.some (h : Draws b wr wr') : Prints b wr (some wr') := ⟨wr', rfl, h⟩

/-- A print that draws below the line, and then another. -/
theorem Prints.bind {f : Writer → Option Writer} (h : Prints b wr o)
    (hf : ∀ wr', Draws b wr wr' → Prints b wr' (f wr')) : Prints b wr (o.bind f) := by
  obtain ⟨wr', rfl, hdraws⟩ := h
  obtain ⟨wr'', hrun, hdraws'⟩ := hf wr' hdraws
  exact ⟨wr'', hrun, hdraws.trans hdraws'⟩

/-- Output that goes on from another place of the rows. -/
theorem Prints.from (h : Draws b wr wr') (hp : Prints b wr' o) : Prints b wr o := by
  obtain ⟨wr'', hrun, hdraws⟩ := hp
  exact ⟨wr'', hrun, h.trans hdraws⟩

/-- A loop of prints that each draw below the line. -/
theorem prints_foldlM {α : Type} {f : Writer → α → Option Writer} (l : List α) (hy : b ≤ wr.y)
    (hf : ∀ wr' a, Draws b wr wr' → Prints b wr' (f wr' a)) : Prints b wr (l.foldlM f wr) := by
  induction l generalizing wr with
  | nil => exact .some (.refl hy)
  | cons a l ih =>
    rw [List.foldlM_cons]
    refine (hf wr a (.refl hy)).bind fun wr₁ h₁ => ih h₁.y fun wr' a' h' => ?_
    exact hf wr' a' (h₁.trans h')

/-- The cursor is set below the line. -/
theorem draws_setPos (wr : Writer) (x : ℕ) {y : ℕ} (hy : b ≤ y) : Draws b wr (wr.setPos x y) :=
  ⟨rfl, rfl, hy, fun _ _ => rfl⟩

/-- A character whose cursor is below the line is drawn there. -/
theorem draws_drawChar (font : ℕ → ℕ → ℕ) (ch color scale : ℕ) (hy : b ≤ wr.y) :
    Draws b wr (wr.drawChar font ch color scale) := by
  have hglyph := (paints_drawGlyph font wr ch color scale).draws hy (Nat.min_le_right _ _) hy
  exact ⟨hglyph.w, hglyph.h, hglyph.y, hglyph.pixels⟩

section
variable (hh : termY + 20 ≤ wr.h) (hb : b ≤ termY + 20)

include hh hb

/-- A new line, which may scroll the terminal, stays below the line. -/
theorem prints_newline (scale : ℕ) (hy : b ≤ wr.y) : Prints b wr (wr.newline scale) := by
  rw [Writer.newline]
  simp only
  split
  case isTrue =>
    have hpos : Draws b wr (wr.setPos leftMargin (termY + 20)) := draws_setPos wr leftMargin hb
    refine .some (hpos.trans ?_)
    refine (paints_fillRect (wr.setPos leftMargin (termY + 20)) 0 (termY + 20) wr.w
      (wr.h - (termY + 20)) bgColor).draws hb (Nat.min_le_right _ _) hb
  case isFalse => exact .some (draws_setPos wr leftMargin (hy.trans (Nat.le_add_right _ _)))

/-- A byte of output stays below the line, a new line among them. -/
theorem prints_putChar (font : ℕ → ℕ → ℕ) (ch : UInt8) (color scale : ℕ) (hy : b ≤ wr.y) :
    Prints b wr (wr.putChar font ch color scale) := by
  rw [Writer.putChar]
  split
  · exact prints_newline hh hb scale hy
  · split
    · exact .some (.refl hy)
    · simp only
      split
      · exact (prints_newline hh hb scale hy).bind fun wr₁ h₁ =>
          .some (draws_drawChar font ch.toNat color scale h₁.y)
      · exact .some (draws_drawChar font ch.toNat color scale hy)

/-- A text stays below the line. -/
theorem prints_putStr (font : ℕ → ℕ → ℕ) (s : List UInt8) (color scale : ℕ) (hy : b ≤ wr.y) :
    Prints b wr (wr.putStr font s color scale) :=
  prints_foldlM s hy fun wr₁ ch h₁ => prints_putChar (by rwa [h₁.h]) hb font ch color scale h₁.y

omit hh hb in
/-- A backspace stays below the line. -/
theorem draws_backspace (scale : ℕ) (hy : b ≤ wr.y) : Draws b wr (wr.backspace scale) := by
  rw [Writer.backspace]
  split
  · have hback : Draws b wr (wr.setPos (wr.x - (8 * scale + scale)) wr.y) := draws_setPos wr _ hy
    exact hback.trans ((paints_fillRect _ _ wr.y _ _ bgColor).draws hy (Nat.min_le_right _ _) hy)
  · exact .refl hy

/-- The prompt stays below the line. -/
theorem prints_prompt (font : ℕ → ℕ → ℕ) (hy : b ≤ wr.y) : Prints b wr (prompt font wr) := by
  refine (prints_putStr hh hb font rossBytes accentColor scale1 hy).bind fun wr₁ h₁ => ?_
  refine (prints_putStr (h₁.h ▸ hh) hb font _ dimColor scale1 h₁.y).bind fun wr₂ h₂ => ?_
  exact .some ⟨rfl, rfl, h₂.y, fun _ _ => rfl⟩

omit hb in
/-- Clearing the terminal stays below the line that is above it. -/
theorem prints_clearTerminal (font : ℕ → ℕ → ℕ) (hb : b ≤ termY) (hy : b ≤ wr.y) :
    Prints b wr (clearTerminal font wr) := by
  have hb' : b ≤ termY + 20 := hb.trans (Nat.le_add_right _ _)
  have htop : termY ≤ wr.h := le_of_add_le_left hh
  rw [clearTerminal, if_neg (Nat.not_lt.2 htop)]
  have hfill := (paints_fillRect wr 0 termY wr.w (wr.h - termY) bgColor).draws hb
    (Nat.min_le_right _ _) hy
  have hpos := hfill.trans (draws_setPos _ leftMargin (hb.trans (Nat.le_add_right _ 6)))
  refine .from hpos ((prints_putStr (by rwa [hpos.h]) hb' font _ dimColor scale1 hpos.y).bind
    fun wr₁ _ => .some (draws_setPos wr₁ leftMargin hb'))

omit hb in
/-- Whatever a command draws stays below the line above the terminal. -/
theorem prints_draw (font : ℕ → ℕ → ℕ) (d : Draw) (hb : b ≤ termY) (hy : b ≤ wr.y) :
    Prints b wr (draw font wr d) := by
  have hb' : b ≤ termY + 20 := hb.trans (Nat.le_add_right _ _)
  cases d with
  | str s color => exact prints_putStr hh hb' font s color scale1 hy
  | char ch color => exact prints_putChar hh hb' font ch color scale1 hy
  | clear => exact prints_clearTerminal hh font hb hy

end

/-- A rectangle, and then the cursor in these rows. -/
theorem draws_fillRect_setPos (wr : Writer) (x₀ y₀ w₀ h₀ color x : ℕ) {y : ℕ} (hy₀ : b ≤ y₀)
    (hy : b ≤ y) : Draws b wr ((wr.fillRect x₀ y₀ w₀ h₀ color).setPos x y) := by
  have hfill := paints_fillRect wr x₀ y₀ w₀ h₀ color
  exact ⟨hfill.moved.w, hfill.moved.h, hy, (hfill.mono hy₀ (Nat.min_le_right _ _)).pixels⟩

/-- Wherever the cursor was, the message of `activate` and the terminal are below the uptime. -/
theorem prints_activate (font : ℕ → ℕ → ℕ) (hh : termY + 20 ≤ wr.h) :
    Prints 40 wr (activate font wr) := by
  have hstart := draws_fillRect_setPos wr 20 44 200 10 bgColor 20 (b := 40) (by decide)
    (y := 44) (by decide)
  refine .from hstart ((prints_putStr (by rwa [hstart.h]) (by decide) font _ _ _ hstart.y).bind
    fun wr₁ h₁ => ?_)
  have hfill := (paints_fillRect wr₁ 0 (termY - 2) wr₁.w 2 0x00333333).draws (b := 40) (by decide)
    (Nat.min_le_right _ _) h₁.y
  have hh₂ : termY + 20 ≤ (wr₁.fillRect 0 (termY - 2) wr₁.w 2 0x00333333).h := by
    rwa [hfill.h, h₁.h, hstart.h]
  refine .from hfill ((prints_clearTerminal hh₂ font (by decide) hfill.y).bind fun wr₃ h₃ => ?_)
  exact prints_prompt (by rwa [h₃.h]) (by decide) font h₃.y

end

/-! ## Two writers -/

/-- Two writers of one size, with the same pixels in `S`. -/
structure Alike (width height : ℕ) (S : ℕ → Prop) (E : ℕ → ℕ → Prop) (wr wr' : Writer) : Prop where
  w : wr.w = width
  h : wr.h = height
  w' : wr'.w = width
  h' : wr'.h = height
  inputX : E wr.inputX wr'.inputX
  pixels : ∀ i, S i → wr'.framebuffer i = wr.framebuffer i

/-- They have the same cursor, too. -/
structure Agree (width height : ℕ) (S : ℕ → Prop) (E : ℕ → ℕ → Prop) (wr wr' : Writer) : Prop
    extends Alike width height S E wr wr' where
  x : wr'.x = wr.x
  y : wr'.y = wr.y

section
variable {w h : ℕ} {S : ℕ → Prop} {E : ℕ → ℕ → Prop} {wr wr' : Writer}

/-- The same pixel leaves two screens alike. -/
theorem Alike.plot (ha : Alike w h S E wr wr') (px py color : ℕ) :
    Alike w h S E (wr.plot px py color) (wr'.plot px py color) := by
  refine ⟨ha.w, ha.h, ha.w', ha.h', ha.inputX, fun i hi => ?_⟩
  simp only [Writer.plot, ha.w, ha.w', Function.update_apply, ha.pixels i hi]

/-- The same pixel leaves two screens alike, and their cursors together. -/
theorem Agree.plot (ha : Agree w h S E wr wr') (px py color : ℕ) :
    Agree w h S E (wr.plot px py color) (wr'.plot px py color) :=
  ⟨ha.toAlike.plot px py color, ha.x, ha.y⟩

/-- The same rectangle leaves two screens alike. -/
theorem Alike.fillRect (ha : Alike w h S E wr wr') (x y w₀ h₀ color : ℕ) :
    Alike w h S E (wr.fillRect x y w₀ h₀ color) (wr'.fillRect x y w₀ h₀ color) := by
  rw [Writer.fillRect, Writer.fillRect, ha.h, ha.h']
  refine List.foldl_rel ha fun row _ wr₁ wr₁' h₁ => ?_
  rw [h₁.w, h₁.w']
  exact List.foldl_rel h₁ fun col _ wr₂ wr₂' h₂ => h₂.plot col row color

/-- The same rectangle leaves two screens alike, and their cursors together. -/
theorem Agree.fillRect (ha : Agree w h S E wr wr') (x y w₀ h₀ color : ℕ) :
    Agree w h S E (wr.fillRect x y w₀ h₀ color) (wr'.fillRect x y w₀ h₀ color) := by
  have hm := moved_fillRect wr x y w₀ h₀ color
  have hm' := moved_fillRect wr' x y w₀ h₀ color
  exact ⟨ha.toAlike.fillRect x y w₀ h₀ color, by rw [Paints.x_eq hm, Paints.x_eq hm', ha.x],
    by rw [Paints.y_eq hm, Paints.y_eq hm', ha.y]⟩

/-- Set to one place, the cursors are together. -/
theorem Alike.setPos (ha : Alike w h S E wr wr') (x y : ℕ) :
    Agree w h S E (wr.setPos x y) (wr'.setPos x y) :=
  ⟨⟨ha.w, ha.h, ha.w', ha.h', ha.inputX, ha.pixels⟩, rfl, rfl⟩

/-- Where cursors are together, the same glyph leaves the screens alike. -/
theorem Agree.drawGlyph (ha : Agree w h S E wr wr') (font : ℕ → ℕ → ℕ) (ch color scale : ℕ) :
    Agree w h S E (wr.drawGlyph font ch color scale) (wr'.drawGlyph font ch color scale) := by
  refine List.foldl_rel ha fun gy _ wr₁ wr₁' h₁ => List.foldl_rel h₁ fun gx _ wr₂ wr₂' h₂ => ?_
  split
  case isFalse => exact h₂
  case isTrue =>
    refine List.foldl_rel h₂ fun sy _ wr₃ wr₃' h₃ => List.foldl_rel h₃ fun sx _ wr₄ wr₄' h₄ => ?_
    simp only [h₄.x, h₄.y, h₄.w, h₄.h, h₄.w', h₄.h']
    split
    · exact h₄.plot _ _ color
    · exact h₄

/-- Where cursors are together, so does the same character, and they stay together. -/
theorem Agree.drawChar (ha : Agree w h S E wr wr') (font : ℕ → ℕ → ℕ) (ch color scale : ℕ) :
    Agree w h S E (wr.drawChar font ch color scale) (wr'.drawChar font ch color scale) := by
  have hg := ha.drawGlyph font ch color scale
  refine ⟨⟨hg.w, hg.h, hg.w', hg.h', hg.inputX, hg.pixels⟩, ?_, hg.y⟩
  exact congrArg (· + (8 * scale + scale)) hg.x

/-- Both screens scroll for a new line or neither does. -/
theorem Agree.newline (ha : Agree w h S E wr wr') (scale : ℕ) :
    Option.Rel (Agree w h S E) (wr.newline scale) (wr'.newline scale) := by
  rw [Writer.newline, Writer.newline]
  simp only [ha.w, ha.h, ha.w', ha.h', ha.y]
  split
  · split
    · refine .some (Agree.fillRect ?_ _ _ _ _ _)
      exact ⟨⟨rfl, rfl, rfl, rfl, ha.inputX, ha.pixels⟩, rfl, rfl⟩
    · exact .none
  · exact .some ⟨⟨rfl, rfl, rfl, rfl, ha.inputX, ha.pixels⟩, rfl, rfl⟩

/-- The same byte of output leaves the screens alike. -/
theorem Agree.putChar (ha : Agree w h S E wr wr') (font : ℕ → ℕ → ℕ) (ch : UInt8)
    (color scale : ℕ) : Option.Rel (Agree w h S E) (wr.putChar font ch color scale)
      (wr'.putChar font ch color scale) := by
  rw [Writer.putChar, Writer.putChar]
  split
  · exact ha.newline scale
  · split
    · exact .some ha
    · simp only [ha.w, ha.w', ha.x]
      split
      · exact Pair.bind (ha.newline scale) fun wr₁ wr₁' h₁ => .some (h₁.drawChar font _ color scale)
      · exact .some (ha.drawChar font _ color scale)

/-- The same text leaves the screens alike. -/
theorem Agree.putStr (ha : Agree w h S E wr wr') (font : ℕ → ℕ → ℕ) (s : List UInt8)
    (color scale : ℕ) : Option.Rel (Agree w h S E) (wr.putStr font s color scale)
      (wr'.putStr font s color scale) :=
  Pair.foldlM ha (fun _ _ ch h₁ => h₁.putChar font ch color scale) s

/-- Only the step back reads where the input started. -/
theorem Agree.backspace (ha : Agree w h S Eq wr wr') (scale : ℕ) :
    Agree w h S Eq (wr.backspace scale) (wr'.backspace scale) := by
  rw [Writer.backspace, Writer.backspace]
  simp only [ha.x, ha.y, ← ha.inputX]
  split
  · refine Agree.fillRect ?_ _ _ _ _ _
    exact ⟨⟨ha.w, ha.h, ha.w', ha.h', rfl, ha.pixels⟩, rfl, rfl⟩
  · exact ha

/-- The prompt leaves the screens alike, with the same start of the input. -/
theorem Agree.prompt (ha : Agree w h S E wr wr') (font : ℕ → ℕ → ℕ) :
    Option.Rel (Agree w h S Eq) (Console.prompt font wr) (Console.prompt font wr') :=
  Pair.bind (ha.putStr font rossBytes accentColor scale1) fun _ _ h₁ =>
    Pair.bind (h₁.putStr font [0x3E, 0x20] dimColor scale1) fun _ _ h₂ =>
      .some ⟨⟨h₂.w, h₂.h, h₂.w', h₂.h', h₂.x.symm, h₂.pixels⟩, h₂.x, h₂.y⟩

/-! ## What a rectangle covers -/

/-- A pixel inside has the color of the rectangle. -/
theorem framebuffer_fillRect (wr : Writer) (color : ℕ) {x y w₀ h₀ row col : ℕ}
    (hrow : y ≤ row ∧ row < min (y + h₀) wr.h) (hcol : x ≤ col ∧ col < min (x + w₀) wr.w) :
    (wr.fillRect x y w₀ h₀ color).framebuffer (row * wr.w + col) = color := by
  have hkeep : ∀ (wr₁ : Writer) (px py : ℕ), wr₁.framebuffer (row * wr.w + col) = color →
      (wr₁.plot px py color).framebuffer (row * wr.w + col) = color := by
    intro wr₁ px py h₁
    simp [Writer.plot, Function.update_apply, h₁]
  have hloop : ∀ (wr₁ : Writer) (row₁ : ℕ) (cols : List ℕ),
      Moved wr₁ wr₁.cursor (cols.foldl (fun wr col => wr.plot col row₁ color) wr₁) :=
    fun wr₁ row₁ cols => .foldl (fun wr _ => moved_plot wr _ _ _) cols wr₁
  have hmem : row ∈ List.range' y (min (y + h₀) wr.h - y) := List.mem_range'_1.2 (by omega)
  refine Pair.foldl_of_mem (I := fun wr₁ : Writer => wr₁.w = wr.w)
    (P := fun wr₁ : Writer => wr₁.framebuffer (row * wr.w + col) = color) rfl hmem ?_ ?_ ?_
  · exact fun wr₁ row₁ h₁ => (hloop wr₁ row₁ _).w.trans h₁
  · intro wr₁ h₁
    have hmem₁ : col ∈ List.range' x (min (x + w₀) wr₁.w - x) := List.mem_range'_1.2 (by omega)
    refine Pair.foldl_of_mem (I := fun wr₂ : Writer => wr₂.w = wr.w)
      (P := fun wr₂ : Writer => wr₂.framebuffer (row * wr.w + col) = color) h₁ hmem₁
      (fun _ _ h₂ => h₂) ?_ ?_
    · intro wr₂ h₂
      simp [Writer.plot, h₂]
    · exact fun wr₂ col₂ _ => hkeep wr₂ col₂ row
  · exact fun wr₁ row₁ _ h₁ => List.foldlRecOn _ _
      (motive := fun wr₂ : Writer => wr₂.framebuffer (row * wr.w + col) = color) h₁
      fun wr₂ h₂ col₂ _ => hkeep wr₂ col₂ row₁ h₂

/-- In a rectangle, the two writers are the same. -/
theorem Alike.covers {S' : ℕ → Prop} (ha : Alike w h S E wr wr') {x y w₀ h₀ color : ℕ}
    (hS : ∀ i, S' i → ∃ row col, i = row * w + col ∧ (y ≤ row ∧ row < min (y + h₀) h) ∧
      x ≤ col ∧ col < min (x + w₀) w) :
    Alike w h S' E (wr.fillRect x y w₀ h₀ color) (wr'.fillRect x y w₀ h₀ color) := by
  have hfill := ha.fillRect x y w₀ h₀ color
  refine ⟨hfill.w, hfill.h, hfill.w', hfill.h', hfill.inputX, fun i hi => ?_⟩
  obtain ⟨row, col, rfl, hrow, hcol⟩ := hS i hi
  have hpixel := framebuffer_fillRect wr color (by rwa [ha.h]) (by rwa [ha.w])
  have hpixel' := framebuffer_fillRect wr' color (by rwa [ha.h']) (by rwa [ha.w'])
  rw [ha.w] at hpixel
  rw [ha.w'] at hpixel'
  exact hpixel'.trans hpixel.symm

end

end Terminal

end RossOs
