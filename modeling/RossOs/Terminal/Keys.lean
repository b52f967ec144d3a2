import RossOs.Terminal.Model

/-!
# From the keys to the commands

The keys go through the ring buffer, the table of scancodes and the line buffer before a command
runs. `keys_law` says what comes out at the other end, for every order of interrupts and steps of
the main loop: the scancodes are handled in the order in which they were accepted, and the commands
that ran are the lines of the text that they make, edited and trimmed. Each command reads the tick
counter of the time at which its Enter is handled.
-/

namespace RossOs

open Fat Console

namespace Terminal

/-! ## What was typed -/

/-- The line after a letter. -/
def editByte (line : List UInt8) (b : UInt8) : List UInt8 :=
  if b = 0x08 then line.dropLast
  else if (0x20 ≤ b ∧ b ≤ 0x7E) ∧ line.length < maxLine then line ++ [b] else line

/-- The line that letters make. -/
def lineOf (keys : List UInt8) : List UInt8 := keys.foldl editByte []

/-- The command in a line. -/
def commandOf (keys : List UInt8) : List Char := trimWhiteSpace ((lineOf keys).map asChar)

/-- The commands in a text: its lines, without the first one, which ends the splash screen, and
without the last one, which Enter has not ended. -/
def commandsOf (keys : List UInt8) : List (List Char) :=
  (keys.splitOn 0x0A).tail.dropLast.map commandOf

/-- A byte that the line buffer takes. -/
def Printable (b : UInt8) : Prop := 0x20 ≤ b ∧ b ≤ 0x7E

section
variable {keys line : List UInt8} {b : UInt8}

/-- A printable byte is ASCII. -/
theorem Printable.lt (h : Printable b) : b.toNat < 0x80 :=
  Nat.lt_of_le_of_lt (UInt8.le_iff_toNat_le.1 h.2) (by decide)

/-- Printable bytes are a text. -/
theorem fromUtf8_of_printable (h : ∀ c ∈ line, Printable c) :
    fromUtf8 line = some (line.map asChar) := by
  have hascii : ∀ c ∈ line.map asChar, c.toNat < 0x80 := by
    intro c hc
    obtain ⟨b, hb, rfl⟩ := List.mem_map.1 hc
    rw [asChar_toNat]
    exact (h b hb).lt
  rw [fromUtf8_eq_some, utf8_of_ascii hascii, List.map_map]
  refine (List.map_congr_left fun b _ => ?_).trans (List.map_id line)
  rw [Function.comp_apply, asChar_toNat, UInt8.ofNat_toNat]
  rfl

/-- The line buffer holds the line. -/
structure HoldsLine (l : Line) (line : List UInt8) : Prop where
  len_le : l.len ≤ maxLine
  buf : l.buf.take l.len = line
  printable : ∀ b ∈ line, Printable b

/-- The length of the line is the counter. -/
theorem HoldsLine.length {l : Line} (h : HoldsLine l line) : line.length = l.len := by
  rw [← h.buf, List.length_take, l.length_buf, Nat.min_eq_left h.len_le]

/-- A line that was reset is empty. -/
theorem holdsLine_reset (l : Line) : HoldsLine l.reset [] :=
  ⟨Nat.zero_le _, List.take_zero, fun _ hb => absurd hb List.not_mem_nil⟩

/-- A printable byte is added where there is room. -/
theorem HoldsLine.push {l : Line} (h : HoldsLine l line) (hb : Printable b)
    (hlt : l.len < maxLine) : HoldsLine (l.push b) (line ++ [b]) := by
  refine ⟨hlt, by rw [l.take_push b hlt, h.buf], fun c hc => ?_⟩
  rcases List.mem_append.1 hc with hc | hc
  · exact h.printable c hc
  · rw [List.mem_singleton.1 hc]
    exact hb

/-- A line that lost its last byte holds what was before it. -/
theorem HoldsLine.pop {l : Line} (h : HoldsLine l line) : HoldsLine l.pop line.dropLast :=
  ⟨(Nat.sub_le _ _).trans h.len_le, by rw [l.take_pop h.len_le, h.buf],
    fun c hc => h.printable c (List.mem_of_mem_dropLast hc)⟩

variable {font : ℕ → ℕ → ℕ} {run : List Char → Writer → Option Writer} {e e' : Editor}

/-- A letter that does not end the line. -/
theorem HoldsLine.edit (h : HoldsLine e.line line) (hb : b ≠ 0x0A)
    (hrun : Console.handleByte font run b e = some e') : HoldsLine e'.line (editByte line b) := by
  rw [Console.handleByte, if_neg hb] at hrun
  rw [editByte]
  split at hrun
  case isTrue hback =>
    rw [if_pos hback]
    split at hrun
    case isTrue =>
      cases hrun
      exact h.pop
    case isFalse hzero =>
      cases hrun
      have hnil : line = [] := List.eq_nil_of_length_eq_zero (by rw [h.length]; omega)
      subst hnil
      exact h
  case isFalse hback =>
    rw [if_neg hback, h.length]
    split at hrun
    case isTrue hprint =>
      split at hrun
      case isTrue hlt =>
        obtain ⟨wr, -, he⟩ := Option.bind_eq_some_iff.1 hrun
        cases he
        rw [if_pos ⟨hprint, hlt⟩]
        exact h.push hprint hlt
      case isFalse hlt =>
        cases hrun
        rw [if_neg fun hc => hlt hc.2]
        exact h
    case isFalse hprint =>
      cases hrun
      rw [if_neg fun hc => hprint hc.1]
      exact h

/-- Enter empties the line. -/
theorem line_of_enter (hrun : Console.handleByte font run 0x0A e = some e') :
    e'.line = e.line.reset := by
  rw [Console.handleByte, if_pos rfl] at hrun
  obtain ⟨wr₁, -, hrun⟩ := Option.bind_eq_some_iff.1 hrun
  obtain ⟨wr₂, -, hrun⟩ := Option.bind_eq_some_iff.1 hrun
  obtain ⟨wr₃, -, hrun⟩ := Option.bind_eq_some_iff.1 hrun
  cases hrun
  rfl

/-- The command is the line without the space around it. -/
theorem HoldsLine.command_eq (h : HoldsLine e.line line) :
    command e = trimWhiteSpace (line.map asChar) := by
  rw [command, h.buf, fromUtf8_of_printable h.printable, Option.getD_some]

end

/-! ## The shell -/

section
variable {K : Type} {font : ℕ → ℕ → ℕ} {execute : ℕ → List Char → K → Option (List Draw × K)}
  {k₀ : K} {keys : List (ℕ × UInt8)} {letters : List UInt8} {ticks : ℕ} {ch : UInt8}
  {s s' : Shell K}

/-- The kernel state after the commands, each at its time. -/
def runAll (execute : ℕ → List Char → K → Option (List Draw × K)) (k₀ : K)
    (log : List (ℕ × List Char)) : Option K :=
  log.foldlM (fun k c => (execute c.1 c.2 k).map Prod.snd) k₀

/-- The times at which Enter was handled, without the first one, which ends the splash screen. -/
def enterTimes (keys : List (ℕ × UInt8)) : List ℕ :=
  ((keys.filter fun key => key.2 = 0x0A).map Prod.fst).tail

/-- Where the shell is in the text: before the first Enter, or behind it, in the line `w`. -/
inductive Where (letters : List UInt8) : State → List UInt8 → Prop
  | splash : 0x0A ∉ letters → Where letters .splash []
  | active (p w : List UInt8) : letters = p ++ 0x0A :: w → 0x0A ∉ w → Where letters .active w

/-- The shell has handled the keys: their commands ran, each at the time of its Enter, and the
buffer holds the last line. -/
structure Ran (execute : ℕ → List Char → K → Option (List Draw × K)) (k₀ : K)
    (keys : List (ℕ × UInt8)) (s : Shell K) : Prop where
  line : ∃ w, Where (keys.map Prod.snd) s.state w ∧ HoldsLine s.editor.line (lineOf w)
  log : s.log.map Prod.snd = commandsOf (keys.map Prod.snd)
  times : s.log.map Prod.fst = enterTimes keys
  kernel : runAll execute k₀ s.log = some s.kernel

/-- Letters without Enter make no command. -/
theorem commandsOf_of_notMem (h : 0x0A ∉ letters) : commandsOf letters = [] := by
  rw [commandsOf, List.splitOn_eq_singleton h]
  rfl

/-- The keys before the first Enter have no time of an Enter. -/
theorem filter_enter_of_notMem (h : 0x0A ∉ keys.map Prod.snd) :
    (keys.filter fun key => key.2 = 0x0A) = [] := by
  refine List.filter_eq_nil_iff.2 fun key hkey henter => h ?_
  rw [← of_decide_eq_true henter]
  exact List.mem_map_of_mem hkey

/-- Another letter has no time of an Enter. -/
theorem enterTimes_letter (keys : List (ℕ × UInt8)) (ticks : ℕ) (h : ch ≠ 0x0A) :
    enterTimes (keys ++ [(ticks, ch)]) = enterTimes keys := by
  rw [enterTimes, enterTimes, List.filter_append]
  simp [h]

/-- The first Enter ends the splash screen. -/
theorem enterTimes_first (h : 0x0A ∉ keys.map Prod.snd) (ticks : ℕ) :
    enterTimes (keys ++ [(ticks, 0x0A)]) = enterTimes keys := by
  rw [enterTimes, enterTimes, List.filter_append, filter_enter_of_notMem h]
  rfl

/-- A later Enter ends a command. -/
theorem enterTimes_enter (h : 0x0A ∈ keys.map Prod.snd) (ticks : ℕ) :
    enterTimes (keys ++ [(ticks, 0x0A)]) = enterTimes keys ++ [ticks] := by
  obtain ⟨key, hkey, henter⟩ := List.mem_map.1 h
  have hne : ((keys.filter fun key => key.2 = 0x0A).map Prod.fst) ≠ [] := by
    refine List.ne_nil_of_mem (List.mem_map_of_mem (a := key) (List.mem_filter.2 ⟨hkey, ?_⟩))
    exact decide_eq_true henter
  rw [enterTimes, enterTimes, List.filter_append, List.map_append,
    List.tail_append_of_ne_nil hne]
  rfl

/-- The commands are the lines between the first Enter and the last one. -/
theorem commandsOf_of_mem {p w : List UInt8} (h : 0x0A ∉ w) :
    commandsOf (p ++ 0x0A :: w) = (p.splitOn 0x0A).tail.map commandOf := by
  have hne : p.splitOn 0x0A ≠ [] := List.splitOn_ne_nil _ _
  rw [commandsOf, List.splitOn_append_cons_self, List.splitOn_eq_singleton h,
    List.tail_append_of_ne_nil hne, List.dropLast_concat]

/-- Enter ends a line. -/
theorem commandsOf_enter {p w : List UInt8} (h : 0x0A ∉ w) :
    commandsOf (p ++ 0x0A :: w ++ [0x0A]) = commandsOf (p ++ 0x0A :: w) ++ [commandOf w] := by
  have hne : p.splitOn 0x0A ≠ [] := List.splitOn_ne_nil _ _
  rw [commandsOf_of_mem List.not_mem_nil, commandsOf_of_mem h, List.splitOn_append_cons_self,
    List.splitOn_eq_singleton h, List.tail_append_of_ne_nil hne, List.map_append]
  rfl

/-- One more command goes on from the kernel that the others lead to. -/
theorem runAll_concat {log : List (ℕ × List Char)} {c : List Char} {k k' : K} {draws : List Draw}
    (h : runAll execute k₀ log = some k) (hc : execute ticks c k = some (draws, k')) :
    runAll execute k₀ (log ++ [(ticks, c)]) = some k' := by
  rw [runAll, List.foldlM_append]
  rw [runAll] at h
  simp [h, hc]

/-- No key has been handled when the main loop starts. -/
theorem ran_start (wr : Writer) (line : Line) : Ran execute k₀ [] (Shell.start wr line k₀) :=
  ⟨⟨[], .splash List.not_mem_nil, holdsLine_reset line⟩, rfl, rfl, rfl⟩

/-- One key on the splash screen: nothing runs, and the first Enter starts the shell. -/
theorem Ran.splashStep (h : Ran execute k₀ keys s) (hsplash : s.state = .splash)
    (hrun : handleByte font execute ticks ch s = some s') :
    Ran execute k₀ (keys ++ [(ticks, ch)]) s' := by
  obtain ⟨w, hw, hline⟩ := h.line
  have hlog := h.log
  have htimes := h.times
  have hkernel := h.kernel
  have hletters : (keys ++ [(ticks, ch)]).map Prod.snd = keys.map Prod.snd ++ [ch] := by simp
  obtain ⟨state, editor, kernel, log⟩ := s
  cases hsplash
  cases hw with
  | splash hkeys =>
    simp only [handleByte] at hrun
    split at hrun
    case isTrue hch =>
      subst hch
      obtain ⟨wr, -, hs⟩ := Option.bind_eq_some_iff.1 hrun
      cases hs
      refine ⟨⟨[], hletters ▸ .active _ [] rfl List.not_mem_nil, hline⟩, ?_, ?_, hkernel⟩
      · rw [hletters, commandsOf_of_mem List.not_mem_nil, List.splitOn_eq_singleton hkeys]
        rw [commandsOf_of_notMem hkeys] at hlog
        exact hlog
      · rw [enterTimes_first hkeys]
        exact htimes
    case isFalse hch =>
      cases hrun
      have hkeys' : 0x0A ∉ keys.map Prod.snd ++ [ch] := by
        simp [hkeys, Ne.symm hch]
      refine ⟨⟨[], hletters ▸ .splash hkeys', hline⟩, ?_, ?_, hkernel⟩
      · rw [hletters, commandsOf_of_notMem hkeys']
        rwa [commandsOf_of_notMem hkeys] at hlog
      · rw [enterTimes_letter keys ticks hch]
        exact htimes

/-- One key in the shell: Enter runs the line, and any other key edits it. -/
theorem Ran.activeStep (h : Ran execute k₀ keys s) (hactive : s.state = .active)
    (hrun : handleByte font execute ticks ch s = some s') :
    Ran execute k₀ (keys ++ [(ticks, ch)]) s' := by
  obtain ⟨w, hw, hline⟩ := h.line
  have hlog := h.log
  have htimes := h.times
  have hkernel := h.kernel
  have hletters : (keys ++ [(ticks, ch)]).map Prod.snd = keys.map Prod.snd ++ [ch] := by simp
  obtain ⟨state, editor, kernel, log⟩ := s
  cases hactive
  cases hw with
  | active p w hkeys hw =>
    simp only [handleByte] at hrun
    rw [hkeys] at hletters hlog
    split at hrun
    case isTrue hch =>
      subst hch
      obtain ⟨⟨draws, kernel'⟩, hexec, hrun⟩ := Option.bind_eq_some_iff.1 hrun
      obtain ⟨editor', hedit, hs⟩ := Option.bind_eq_some_iff.1 hrun
      cases hs
      have hcommand : command editor = commandOf w := hline.command_eq
      have hmem : 0x0A ∈ keys.map Prod.snd := by
        rw [hkeys]
        exact List.mem_append_right p List.mem_cons_self
      refine ⟨⟨[], hletters ▸ .active (p ++ 0x0A :: w) [] rfl List.not_mem_nil, ?_⟩, ?_, ?_, ?_⟩
      · rw [line_of_enter hedit]
        exact holdsLine_reset _
      · rw [hletters, commandsOf_enter hw, List.map_append, hlog, hcommand]
        rfl
      · rw [enterTimes_enter hmem, List.map_append, htimes]
        rfl
      · exact runAll_concat hkernel hexec
    case isFalse hch =>
      obtain ⟨editor', hedit, hs⟩ := Option.bind_eq_some_iff.1 hrun
      cases hs
      have hw' : 0x0A ∉ w ++ [ch] := by
        simp [hw, Ne.symm hch]
      rw [List.append_assoc, List.cons_append] at hletters
      refine ⟨⟨w ++ [ch], hletters ▸ .active p _ rfl hw', ?_⟩, ?_, ?_, hkernel⟩
      · rw [lineOf, List.foldl_concat]
        exact hline.edit hch hedit
      · rw [hletters, commandsOf_of_mem hw']
        rwa [commandsOf_of_mem hw] at hlog
      · rw [enterTimes_letter keys ticks hch]
        exact htimes

/-- One key keeps the log what the keys make. -/
theorem Ran.step (h : Ran execute k₀ keys s)
    (hrun : handleByte font execute ticks ch s = some s') :
    Ran execute k₀ (keys ++ [(ticks, ch)]) s' := by
  cases hstate : s.state with
  | splash => exact h.splashStep hstate hrun
  | active => exact h.activeStep hstate hrun

end

/-! ## The system -/

/-- The scancode that the main loop has taken from the buffer and not handled yet. -/
def Place.scancodes : Place → List UInt8
  | .got sc => [sc]
  | .clock | .clearing .. | .placing .. | .printing .. | .popping => []

/-- The letters of scancodes, each with its time. -/
def timedOf (handled : List (ℕ × UInt8)) : List (ℕ × UInt8) :=
  handled.filterMap fun key => (scancodeToAscii key.2).map (key.1, ·)

/-- A scancode without a letter adds no key. -/
theorem timedOf_none {handled : List (ℕ × UInt8)} {ticks : ℕ} {sc : UInt8}
    (h : scancodeToAscii sc = none) : timedOf (handled ++ [(ticks, sc)]) = timedOf handled := by
  simp [timedOf, h]

/-- A scancode with a letter adds that letter. -/
theorem timedOf_some {handled : List (ℕ × UInt8)} {ticks : ℕ} {sc ch : UInt8}
    (h : scancodeToAscii sc = some ch) :
    timedOf (handled ++ [(ticks, sc)]) = timedOf handled ++ [(ticks, ch)] := by
  simp [timedOf, h]

/-- The letters that the main loop has handled, each with the tick counter of that time. -/
def System.timed {K : Type} (s : System K) : List (ℕ × UInt8) := timedOf s.handled

/-- The letters that the main loop has handled. -/
def System.typed {K : Type} (s : System K) : List UInt8 := s.timed.map Prod.snd

section
variable {K : Type} {font : ℕ → ℕ → ℕ} {execute : ℕ → List Char → K → Option (List Draw × K)}
  {k₀ : K} {s s' : System K}

/-- What the system keeps. -/
structure KeysInv (execute : ℕ → List Char → K → Option (List Draw × K)) (k₀ : K) (s : System K) :
    Prop where
  ring : Kbuf.Inv s.ring
  popped : s.ring.popped = s.handled.map Prod.snd ++ s.place.scancodes
  ran : Ran execute k₀ s.timed s.shell

/-- `push` takes nothing out of the buffer. -/
theorem popped_pushStep (sc : UInt8) (ring : Kbuf.State UInt8) :
    (Kbuf.pushStep sc ring).popped = ring.popped := by
  rw [Kbuf.pushStep]
  cases ring.producer with
  | loaded =>
    simp only
    split <;> rfl
  | idle | checked | stored => rfl

/-- The shell has handled its keys, whatever is drawn. -/
theorem Ran.withWriter {keys : List (ℕ × UInt8)} {t : Shell K} (h : Ran execute k₀ keys t)
    (wr : Writer) :
    Ran execute k₀ keys { t with editor := { t.editor with wr := wr } } :=
  ⟨h.line, h.log, h.times, h.kernel⟩

/-- The uptime is drawn without a scancode in the hands of the main loop. -/
theorem KeysInv.shows (h : KeysInv execute k₀ s) (wr : Writer) (lastTicks : ℕ) (clockReady : Bool)
    (place : Place) (hplace : place.scancodes = s.place.scancodes) :
    KeysInv execute k₀ { s.setWriter wr with lastTicks, clockReady, place } :=
  ⟨h.ring, hplace ▸ h.popped, h.ran.withWriter wr⟩

/-- A step of the keyboard's interrupt handler. -/
theorem KeysInv.keyStep (h : KeysInv execute k₀ s) {sc : UInt8}
    (hrun : keyStep font sc s = some s') : KeysInv execute k₀ s' := by
  have hring := h.ring.pushStep sc
  have hpopped := (popped_pushStep sc s.ring).trans h.popped
  rw [Terminal.keyStep] at hrun
  split at hrun
  case isTrue =>
    obtain ⟨wr, -, hs⟩ := Option.bind_eq_some_iff.1 hrun
    cases hs
    exact ⟨hring, hpopped, h.ran.withWriter wr⟩
  case isFalse =>
    cases hrun
    exact ⟨hring, hpopped, h.ran⟩

/-- A step inside `pop` keeps the invariant. -/
theorem KeysInv.popping (h : KeysInv execute k₀ s) (hplace : s.place = .popping)
    (hrun : mainStep font execute s = some s') : KeysInv execute k₀ s' := by
  have hring := h.ring.popStep
  have hpopped := h.popped
  rw [hplace] at hpopped
  simp only [mainStep, hplace] at hrun
  cases hconsumer : s.ring.consumer with
  | idle =>
    simp only [hconsumer] at hrun
    cases hrun
    refine ⟨hring, ?_, h.ran⟩
    simp only [Kbuf.popStep, hconsumer]
    exact hpopped
  | checked tail =>
    simp only [hconsumer] at hrun
    cases hrun
    refine ⟨hring, ?_, h.ran⟩
    simp only [Kbuf.popStep, hconsumer]
    exact hpopped
  | loaded tail =>
    simp only [hconsumer] at hrun
    cases hrun
    refine ⟨hring, ?_, h.ran⟩
    simp only [Kbuf.popStep, hconsumer]
    split
    · exact hpopped
    · exact hpopped
  | taken tail byte =>
    simp only [hconsumer] at hrun
    cases hrun
    refine ⟨hring, ?_, h.ran⟩
    rw [Place.scancodes, List.append_nil] at hpopped
    simp only [Kbuf.popStep, hconsumer, hpopped]
    rfl

/-- Handling a scancode keeps the invariant: it is one more that was handled. -/
theorem KeysInv.got {sc : UInt8} (h : KeysInv execute k₀ s) (hplace : s.place = .got sc)
    (hrun : mainStep font execute s = some s') : KeysInv execute k₀ s' := by
  have hpopped := h.popped
  rw [hplace] at hpopped
  have hhandled : s.ring.popped =
      (s.handled ++ [(s.ticks, sc)]).map Prod.snd ++ Place.popping.scancodes := by
    rw [hpopped, Place.scancodes, Place.scancodes, List.append_nil, List.map_append]
    rfl
  have hran := h.ran
  simp only [System.timed] at hran
  simp only [Terminal.mainStep, hplace] at hrun
  cases hsc : scancodeToAscii sc with
  | none =>
    simp only [hsc] at hrun
    cases hrun
    refine ⟨h.ring, hhandled, ?_⟩
    rw [System.timed, timedOf_none hsc]
    exact hran
  | some ch =>
    simp only [hsc] at hrun
    obtain ⟨shell, hbyte, hs⟩ := Option.bind_eq_some_iff.1 hrun
    cases hs
    refine ⟨h.ring, hhandled, ?_⟩
    rw [System.timed, timedOf_some hsc]
    exact hran.step hbyte

/-- A step of the main loop keeps the invariant. -/
theorem KeysInv.mainStep (h : KeysInv execute k₀ s)
    (hrun : mainStep font execute s = some s') : KeysInv execute k₀ s' := by
  cases hplace : s.place with
  | popping => exact h.popping hplace hrun
  | clock =>
    have hshows := fun (last : ℕ) (ready : Bool) (place : Place) (hp : place.scancodes = []) =>
      h.shows s.shell.editor.wr last ready place (by rw [hplace, hp]; rfl)
    simp only [Terminal.mainStep, hplace] at hrun
    split at hrun
    case isTrue =>
      split at hrun
      case isTrue => cases hrun
      case isFalse =>
        cases hrun
        exact hshows s.lastTicks s.readyShown _ rfl
    case isFalse =>
      cases hrun
      exact hshows s.lastTicks s.clockReady _ rfl
  | clearing ticks x y =>
    simp only [Terminal.mainStep, hplace] at hrun
    cases hrun
    exact h.shows _ _ _ _ (by rw [hplace]; rfl)
  | placing ticks x y =>
    simp only [Terminal.mainStep, hplace] at hrun
    cases hrun
    exact h.shows _ _ _ _ (by rw [hplace]; rfl)
  | printing ticks x y rest =>
    cases rest with
    | nil =>
      simp only [Terminal.mainStep, hplace] at hrun
      cases hrun
      exact h.shows _ _ _ _ (by rw [hplace]; rfl)
    | cons b rest =>
      simp only [Terminal.mainStep, hplace] at hrun
      obtain ⟨wr, -, hs⟩ := Option.bind_eq_some_iff.1 hrun
      cases hs
      exact h.shows _ _ _ _ (by rw [hplace]; rfl)
  | got sc => exact h.got hplace hrun

/-- Every turn keeps the invariant. -/
theorem KeysInv.turn (h : KeysInv execute k₀ s) {t : Turn}
    (hrun : s.turn font execute t = some s') : KeysInv execute k₀ s' := by
  cases t with
  | key sc => exact h.keyStep hrun
  | main => exact h.mainStep hrun
  | timer =>
    cases hrun
    exact ⟨h.ring, h.popped, h.ran⟩

/-- Every run keeps the invariant. -/
theorem KeysInv.run (h : KeysInv execute k₀ s) {turns : List Turn}
    (hrun : s.run font execute turns = some s') : KeysInv execute k₀ s' := by
  induction turns generalizing s with
  | nil =>
    cases hrun
    exact h
  | cons t turns ih =>
    rw [System.run, List.foldlM_cons] at hrun
    obtain ⟨s₁, hturn, hrest⟩ := Option.bind_eq_some_iff.1 hrun
    exact ih (h.turn hturn) hrest

/-- The way of the keys. Of the accepted scancodes, the first ones were handled, in order, at most
one is in the hands of the main loop, and the others wait in the buffer; there are at most 255 of
these, and a scancode is dropped only when there are that many. The commands that ran are those of
the text that was typed, each ran at the time at which its Enter was handled, and the kernel is
where they take it. -/
structure KeysLaw (execute : ℕ → List Char → K → Option (List Draw × K)) (k₀ : K) (s : System K) :
    Prop where
  accepted : s.ring.accepted =
    s.handled.map Prod.snd ++ s.place.scancodes ++ Kbuf.contents s.ring
  waiting : (Kbuf.contents s.ring).length ≤ 255
  drops : Kbuf.Drops s.ring → (Kbuf.contents s.ring).length = 255
  commands : s.shell.log.map Prod.snd = commandsOf s.typed
  times : s.shell.log.map Prod.fst = enterTimes s.timed
  kernel : runAll execute k₀ s.shell.log = some s.shell.kernel
  line : ∃ w, Where s.typed s.shell.state w ∧ HoldsLine s.shell.editor.line (lineOf w)

/-- The law of the keys, for every order of interrupts and steps of the main loop. -/
theorem keys_law (font : ℕ → ℕ → ℕ) (execute : ℕ → List Char → K → Option (List Draw × K))
    (ticks : ℕ) (buffer : ℕ → UInt8) (wr : Writer) (line : Line) (k₀ : K) (turns : List Turn) :
    ∀ s ∈ (System.start ticks buffer wr line k₀).run font execute turns, KeysLaw execute k₀ s := by
  intro s hrun
  have hstart : KeysInv execute k₀ (System.start ticks buffer wr line k₀) :=
    ⟨.start buffer, rfl, ran_start wr line⟩
  have h := hstart.run hrun
  have hlen := h.ring.order.length_le
  have hroom := h.ring.room
  have hcontents : (Kbuf.contents s.ring).length =
      s.ring.accepted.length - s.ring.popped.length := by
    rw [h.ring.contents_eq, List.length_drop]
  refine ⟨?_, by omega, ?_, h.ran.log, h.ran.times, h.ran.kernel, h.ran.line⟩
  · obtain ⟨rest, hrest⟩ := h.ring.order
    rw [h.ring.contents_eq, ← h.popped, ← hrest, List.drop_left]
  · rintro ⟨byte, head, hp, hfull⟩
    have hprod := h.ring.producer
    rw [hp] at hprod
    have hfull' : (head + 1) % 256 = s.ring.tail := not_not.1 hfull
    have hhead : s.ring.head = s.ring.accepted.length % 256 := h.ring.head
    have htail : s.ring.tail = s.ring.popped.length % 256 := h.ring.tail
    rw [show head = s.ring.head from hprod] at hfull'
    omega

/-- A screen of one column of letters. -/
def smallScreen : Writer := ⟨fun _ => 0, 8, 80, 20, 50, 20⟩

/-- The turns of the interrupt handler for a key. -/
def keyTurns (sc : UInt8) : List Turn := List.replicate 4 (.key sc)

/-- Someone presses Enter in front of the splash screen, and, five ticks later, L, S and Enter. -/
def listTurns : List Turn :=
  keyTurns 0x1C ++ List.replicate 6 .main ++ List.replicate 5 .timer ++
    keyTurns 0x26 ++ keyTurns 0x1F ++ keyTurns 0x1C ++ List.replicate 16 .main

/-- Commands that only record what they get. -/
def recordCommands (ticks : ℕ) (c : List Char) (k : List (ℕ × List Char)) :
    Option (List Draw × List (ℕ × List Char)) := some ([], k ++ [(ticks, c)])

/-- The law on a run with a command, which gets the line `ls` and the tick counter. -/
theorem keys_law_list : ∃ s, (System.start 0 (fun _ => 0) smallScreen emptyLine []).run blankFont
    recordCommands listTurns = some s ∧ s.shell.kernel = [(5, ['l', 's'])] ∧
    KeysLaw recordCommands [] s := by
  have hkernel : ((System.start 0 (fun _ => 0) smallScreen emptyLine []).run blankFont
      recordCommands listTurns).map (fun s => s.shell.kernel) = some [(5, ['l', 's'])] := by
    decide +kernel
  obtain ⟨s, hrun, hs⟩ := Option.map_eq_some_iff.1 hkernel
  have hlaw := keys_law blankFont recordCommands 0 (fun _ => 0) smallScreen emptyLine [] listTurns s
  exact ⟨s, hrun, hs, hlaw hrun⟩

end

end Terminal

end RossOs
