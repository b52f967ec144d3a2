import RossOs.Console
import RossOs.Kbuf

/-!
# The main loop

The loop of `kernel_main` in `ross-kernel/src/main.rs`: it shows the uptime when the tick counter
has changed, and takes scancodes from the keyboard buffer until that is empty. `handle_byte` in
`shell.rs` gets the letters. The interrupt handler of `keyboard.rs` fills the buffer, and draws a
message when the first Enter comes. What the commands do is a parameter: the kernel state they work
on, and the texts they print. They read the tick counter, as `cmd_uptime` does.
-/

namespace RossOs

open Fat Console

namespace Terminal

/-! ## Scancodes -/

/-- `MAP`. -/
def scancodeMap : List UInt8 :=
  [0, 0x1B, 0x31, 0x32, 0x33, 0x34, 0x35, 0x36,
    0x37, 0x38, 0x39, 0x30, 0x2D, 0x3D, 0x08, 0x09,
    0x71, 0x77, 0x65, 0x72, 0x74, 0x79, 0x75, 0x69,
    0x6F, 0x70, 0x5B, 0x5D, 0x0A, 0, 0x61, 0x73,
    0x64, 0x66, 0x67, 0x68, 0x6A, 0x6B, 0x6C, 0x3B,
    0x27, 0x60, 0, 0x5C, 0x7A, 0x78, 0x63, 0x76,
    0x62, 0x6E, 0x6D, 0x2C, 0x2E, 0x2F, 0, 0x2A,
    0, 0x20]

/-- `scancode_to_ascii`. -/
def scancodeToAscii (sc : UInt8) : Option UInt8 :=
  if sc &&& 0x80 ≠ 0 then none
  else if sc.toNat < scancodeMap.length ∧ scancodeMap.getD sc.toNat 0 ≠ 0 then
    some (scancodeMap.getD sc.toNat 0)
  else none

/-! ## What is printed -/

/-- The bytes of a text. -/
def text (s : String) : List UInt8 := utf8 s.toList

/-- The terminal area with the banner only: the lines that `activate` and `cmd_clear` share. There
is no result where `h - TERM_Y` overflows. -/
def clearTerminal (font : ℕ → ℕ → ℕ) (wr : Writer) : Option Writer :=
  if wr.h < termY then none
  else do
    let wr := wr.fillRect 0 termY wr.w (wr.h - termY) bgColor
    let wr ← (wr.setPos leftMargin (termY + 6)).putStr font
      (text "ROSS Shell v0.4  |  Type 'help' for commands") dimColor scale1
    some (wr.setPos leftMargin (termY + 20))

/-- What a command does to the screen: `put_str`, `put_char`, or all of `cmd_clear`. -/
inductive Draw
  | str (s : List UInt8) (color : ℕ)
  | char (ch : UInt8) (color : ℕ)
  | clear

/-- One step of a command's output. -/
def draw (font : ℕ → ℕ → ℕ) (wr : Writer) : Draw → Option Writer
  | .str s color => wr.putStr font s color scale1
  | .char ch color => wr.putChar font ch color scale1
  | .clear => clearTerminal font wr

/-! ## The shell -/

/-- `shell::State`. -/
inductive State
  | splash
  | active
deriving DecidableEq

/-- `SHELL_STATE`, the writer and the line, what the commands work on, and the commands so far, each
with the tick counter that it read. -/
structure Shell (K : Type) where
  state : State
  editor : Editor
  kernel : K
  log : List (ℕ × List Char)

/-- `activate`. -/
def activate (font : ℕ → ℕ → ℕ) (wr : Writer) : Option Writer := do
  let wr := wr.fillRect 20 44 200 10 bgColor
  let wr ← (wr.setPos 20 44).putStr font (text "R.O.S.S. Ready.") accentColor scale1
  let wr := wr.fillRect 0 (termY - 2) wr.w 2 0x00333333
  let wr ← clearTerminal font wr
  prompt font wr

/-- The command in the line buffer. -/
def command (e : Editor) : List Char :=
  trimWhiteSpace ((fromUtf8 (e.line.buf.take e.line.len)).getD [])

section
variable {K : Type} (font : ℕ → ℕ → ℕ) (execute : ℕ → List Char → K → Option (List Draw × K))

/-- `handle_byte`, when the tick counter is `ticks`. There is no result where the code panics or a
command does not return. -/
def handleByte (ticks : ℕ) (ch : UInt8) (s : Shell K) : Option (Shell K) :=
  match s.state with
  | .splash =>
    if ch = 0x0A then do
      let wr ← activate font s.editor.wr
      some { s with state := .active, editor := { s.editor with wr := wr } }
    else some s
  | .active =>
    if ch = 0x0A then do
      let (draws, kernel) ← execute ticks (command s.editor) s.kernel
      let editor ← Console.handleByte font (fun _ wr => draws.foldlM (draw font) wr) ch s.editor
      some { s with editor, kernel, log := s.log ++ [(ticks, command s.editor)] }
    else do
      let editor ← Console.handleByte font (fun _ wr => some wr) ch s.editor
      some { s with editor }

/-! ## The uptime -/

/-- A number in decimal. -/
def decimal (n : ℕ) : List UInt8 := (Nat.toDigits 10 n).map fun c => UInt8.ofNat c.toNat

/-- `UPTIME: {}s`. -/
def uptimeText (seconds : ℕ) : List UInt8 := text "UPTIME: " ++ decimal seconds ++ text "s"

/-- The uptime in the corner of the screen, when nothing comes between. There is no result where
`w - 180` overflows. -/
def showUptime (ticks : ℕ) (wr : Writer) : Option Writer :=
  if wr.w < 180 then none
  else do
    let cleared := wr.fillRect (wr.w - 180) 20 180 20 bgColor
    let drawn ← (cleared.setPos (wr.w - 180) 20).putStr font (uptimeText (ticks / 100)) fgColor
      scale1
    some (drawn.setPos wr.x wr.y)

/-- `show_ready`. -/
def showReady (wr : Writer) : Option Writer :=
  let clearY := wr.h / 2 + 20
  let msg := text "R.O.S.S. Ready."
  let msgW := msg.length * (8 * 3 + 3) - 3
  ((wr.fillRect 0 clearY wr.w 100 bgColor).setPos (wr.w / 2 - msgW / 2) (clearY + 20)).putStr font
    msg fgColor 3

/-! ## The loop and the interrupts -/

/-- Where the main loop is: before the uptime; in front of the `fill_rect`, of the `set_pos`, or of
a byte of the text that shows `ticks`, with the cursor that it has saved; in `pop`; or with a
scancode. -/
inductive Place
  | clock
  | clearing (ticks x y : ℕ)
  | placing (ticks x y : ℕ)
  | printing (ticks x y : ℕ) (rest : List UInt8)
  | popping
  | got (sc : UInt8)

/-- The tick counter, the keyboard buffer and `READY_SHOWN`; the main loop with its `last_ticks`;
and two records: what `READY_SHOWN` was when the uptime was drawn last, and the scancodes that were
handled, each with the tick counter of that time. -/
structure System (K : Type) where
  ticks : ℕ
  ring : Kbuf.State UInt8
  readyShown : Bool
  lastTicks : ℕ
  place : Place
  shell : Shell K
  clockReady : Bool
  handled : List (ℕ × UInt8)

/-- The shell with another writer. -/
def System.setWriter (s : System K) (wr : Writer) : System K :=
  { s with shell := { s.shell with editor := { s.shell.editor with wr := wr } } }

/-- The scancode of the `push` that returns in the next step, if one does. -/
def returning (ring : Kbuf.State UInt8) : Option UInt8 :=
  match ring.producer with
  | .loaded byte head => if (head + 1) % Kbuf.bufSize ≠ ring.tail then none else some byte
  | .stored byte _ => some byte
  | _ => none

/-- One step of the keyboard's interrupt handler, which goes on when its `push` returns. -/
def keyStep (sc : UInt8) (s : System K) : Option (System K) :=
  let s' := { s with ring := Kbuf.pushStep sc s.ring }
  if returning s.ring = some 0x1C ∧ s.readyShown = false then do
    let wr ← showReady font s.shell.editor.wr
    some { s'.setWriter wr with readyShown := true }
  else some s'

/-- One step of the main loop. Between two calls of the writer that draw the uptime, the message of
the keyboard's interrupt handler may be drawn. -/
def mainStep (s : System K) : Option (System K) :=
  let wr := s.shell.editor.wr
  match s.place with
  | .clock =>
    if s.ticks ≠ s.lastTicks then
      if wr.w < 180 then none
      else some { s with place := .clearing s.ticks wr.x wr.y, clockReady := s.readyShown }
    else some { s with place := .popping }
  | .clearing ticks x y =>
    some { s.setWriter (wr.fillRect (wr.w - 180) 20 180 20 bgColor) with
      place := .placing ticks x y }
  | .placing ticks x y =>
    some { s.setWriter (wr.setPos (wr.w - 180) 20) with
      place := .printing ticks x y (uptimeText (ticks / 100)) }
  | .printing ticks x y (b :: rest) => do
    let wr ← wr.putChar font b fgColor scale1
    some { s.setWriter wr with place := .printing ticks x y rest }
  | .printing ticks x y [] =>
    some { s.setWriter (wr.setPos x y) with lastTicks := ticks, place := .popping }
  | .popping =>
    let s' := { s with ring := Kbuf.popStep s.ring }
    match s.ring.consumer with
    | .loaded tail => some { s' with place := if tail = s.ring.head then .clock else .popping }
    | .taken _ byte => some { s' with place := .got byte }
    | _ => some s'
  | .got sc =>
    match scancodeToAscii sc with
    | some ch => do
      let shell ← handleByte font execute s.ticks ch s.shell
      some { s with shell, place := .popping, handled := s.handled ++ [(s.ticks, sc)] }
    | none => some { s with place := .popping, handled := s.handled ++ [(s.ticks, sc)] }

/-- A step of the keyboard's interrupt handler, a timer interrupt, or a step of the main loop. -/
inductive Turn
  | key (sc : UInt8)
  | timer
  | main
deriving DecidableEq

/-- One turn. -/
def System.turn (s : System K) : Turn → Option (System K)
  | .key sc => keyStep font sc s
  | .timer => some { s with ticks := s.ticks + 1 }
  | .main => mainStep font execute s

/-- The system after these turns, as long as nothing panics and every command returns. -/
def System.run (s : System K) (turns : List Turn) : Option (System K) :=
  turns.foldlM (System.turn font execute) s

/-- The keys that are handled one after the other, each at its time. -/
def handleAll (s : Shell K) (keys : List (ℕ × UInt8)) : Option (Shell K) :=
  keys.foldlM (fun s key => handleByte font execute key.1 key.2 s) s

end

/-- The shell when the main loop starts, with any splash screen and any bytes in the line buffer. -/
def Shell.start {K : Type} (wr : Writer) (line : Line) (kernel : K) : Shell K :=
  ⟨.splash, ⟨wr, line.reset⟩, kernel, []⟩

/-- The system when the main loop starts. -/
def System.start {K : Type} (ticks : ℕ) (buffer : ℕ → UInt8) (wr : Writer) (line : Line)
    (kernel : K) : System K :=
  ⟨ticks, .start buffer, false, 0, .clock, .start wr line kernel, false, []⟩

end Terminal

end RossOs
