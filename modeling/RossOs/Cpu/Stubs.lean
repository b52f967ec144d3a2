import RossOs.Lib.Stack
import RossOs.Task.Schedule

/-!
# The assembly stubs

The two entries into the kernel that are written in assembly, instruction by instruction:
`timer_handler_stub` of `ross-kernel/src/idt.rs`, which saves the registers of the interrupted task
on its stack and loads those of the task that the scheduler picks, and `syscall_handler_stub` of
`syscall.rs`. A stub is a list of instructions (`Instr`) that `exec` runs; the function that it
calls is a parameter. `timerHandlerStub_run` says what the first comes to: the registers in the
frame at the stack pointer that the call returns (`frame`).
-/

namespace RossOs

open ByteMem

namespace Cpu

/-! ## The processor -/

/-- The general registers but `rsp`. -/
inductive Reg
  | rax | rcx | rdx | rbx | rbp | rsi | rdi
  | r8 | r9 | r10 | r11 | r12 | r13 | r14 | r15
deriving DecidableEq, Repr

/-- The data segment registers that the stub loads. -/
inductive Seg
  | ds | es | fs | gs
deriving DecidableEq, Repr

/-- What a program sees of the processor. -/
@[ext] structure View where
  reg : Reg → UInt64
  rip : UInt64
  cs : UInt64
  rflags : UInt64
  rsp : UInt64
  ss : UInt64

/-- The processor. The zero flag of the comparisons in a stub is `zf`, apart from `rflags`. -/
structure Core extends View where
  zf : Bool
  seg : Seg → UInt16
  cr3 : UInt64

/-- Code at ring 3 is running. -/
def View.User (v : View) : Prop := v.cs &&& 3 = 3

instance (v : View) : Decidable v.User := inferInstanceAs (Decidable (_ = _))

/-- The processor with memory and the state of the kernel. -/
structure State (κ : Type) where
  core : Core
  mem : Mem
  kernel : κ

/-! ## Instructions -/

/-- The instructions of the stubs. A jump goes over the next `n` of them. -/
inductive Instr
  | push (r : Reg)
  | pop (r : Reg)
  /-- `mov d, s`. -/
  | mov (d s : Reg)
  /-- `mov r, rsp`. -/
  | getRsp (r : Reg)
  /-- `mov rsp, r`. -/
  | setRsp (r : Reg)
  /-- `mov r, cr3`. -/
  | getCr3 (r : Reg)
  /-- `mov cr3, r`. -/
  | setCr3 (r : Reg)
  /-- `cmp a, b`. -/
  | cmp (a b : Reg)
  /-- `mov r, [rsp + off]` on the low 32 bits. -/
  | load32 (r : Reg) (off : UInt64)
  /-- `and r, v` on the low 32 bits. -/
  | and32 (r : Reg) (v : UInt64)
  /-- `cmp r, v` on the low 32 bits. -/
  | cmp32 (r : Reg) (v : UInt64)
  /-- `mov r, v` on the low 16 bits. -/
  | mov16 (r : Reg) (v : UInt64)
  /-- `mov r, v` on the low 8 bits. -/
  | mov8 (r : Reg) (v : UInt64)
  /-- `mov seg, r`. -/
  | setSeg (g : Seg) (r : Reg)
  /-- `out dx, al`, to the debug port. -/
  | out
  | je (n : ℕ)
  | jne (n : ℕ)
  | call
  | iretq
  | sysretq

/-- The processor with another value in a register. -/
def Core.set (c : Core) (r : Reg) (v : UInt64) : Core := { c with reg := Function.update c.reg r v }

/-- The registers that a function of the C calling convention gives back as they were. -/
def calleeSaved : List Reg := [.rbx, .rbp, .r12, .r13, .r14, .r15]

/-- Where a register is in a frame, in words. -/
def Reg.slot : Reg → ℕ
  | .r15 => 0 | .r14 => 1 | .r13 => 2 | .r12 => 3 | .r11 => 4 | .r10 => 5 | .r9 => 6 | .r8 => 7
  | .rdi => 8 | .rsi => 9 | .rbp => 10 | .rbx => 11 | .rdx => 12 | .rcx => 13 | .rax => 14

/-- What the frame at `a` holds: fifteen registers, and above them what `iretq` takes. -/
def frame (m : Mem) (a : ℕ) : View where
  reg := fun r => load m (a + 8 * r.slot)
  rip := load m (a + 120)
  cs := load m (a + 128)
  rflags := load m (a + 136)
  rsp := load m (a + 144)
  ss := load m (a + 152)

section
variable {κ : Type} (call : State κ → State κ)

/-- One instruction, jumps apart. `call` is the function with the stack below `rsp` that it uses. -/
def Instr.step (s : State κ) : Instr → State κ
  | .push r =>
    { s with
      core := { s.core with rsp := s.core.rsp - 8 }
      mem := store s.mem (s.core.rsp - 8).toNat (s.core.reg r) }
  | .pop r =>
    { s with
      core := { s.core.set r (load s.mem s.core.rsp.toNat) with rsp := s.core.rsp + 8 } }
  | .mov d r => { s with core := s.core.set d (s.core.reg r) }
  | .getRsp r => { s with core := s.core.set r s.core.rsp }
  | .setRsp r => { s with core := { s.core with rsp := s.core.reg r } }
  | .getCr3 r => { s with core := s.core.set r s.core.cr3 }
  | .setCr3 r => { s with core := { s.core with cr3 := s.core.reg r } }
  | .cmp a b => { s with core := { s.core with zf := s.core.reg a = s.core.reg b } }
  | .load32 r off =>
    { s with core := s.core.set r (load s.mem (s.core.rsp + off).toNat &&& 0xFFFFFFFF) }
  | .and32 r v => { s with core := s.core.set r (s.core.reg r &&& 0xFFFFFFFF &&& v) }
  | .cmp32 r v => { s with core := { s.core with zf := s.core.reg r &&& 0xFFFFFFFF = v } }
  | .mov16 r v => { s with core := s.core.set r (s.core.reg r &&& 0xFFFFFFFFFFFF0000 ||| v) }
  | .mov8 r v => { s with core := s.core.set r (s.core.reg r &&& 0xFFFFFFFFFFFFFF00 ||| v) }
  | .setSeg g r =>
    { s with
      core := { s.core with seg := Function.update s.core.seg g (s.core.reg r).toUInt16 } }
  | .out => s
  | .je _ | .jne _ => s
  | .call => call s
  | .iretq =>
    let a := s.core.rsp.toNat
    { s with
      core := { s.core with
        rip := load s.mem a
        cs := load s.mem (a + 8)
        rflags := load s.mem (a + 16)
        rsp := load s.mem (a + 24)
        ss := load s.mem (a + 32) } }
  | .sysretq =>
    { s with
      core := { s.core with
        rip := s.core.reg .rcx
        rflags := s.core.reg .r11
        cs := 0x23
        ss := 0x1B } }

/-- How many instructions are jumped over after this one. -/
def Instr.skip (zf : Bool) : Instr → ℕ
  | .je n => if zf then n else 0
  | .jne n => if zf then 0 else n
  | _ => 0

/-- The run of a stub, with the first `n` instructions jumped over. -/
def exec : (n : ℕ) → List Instr → State κ → State κ
  | _, [], s => s
  | n + 1, _ :: is, s => exec n is s
  | 0, i :: is, s => exec (i.skip s.core.zf) is (i.step call s)

end

/-! ## The stubs -/

/-- The registers that `timer_handler_stub` pushes, in its order. -/
def savedRegs : List Reg :=
  [.rax, .rcx, .rdx, .rbx, .rbp, .rsi, .rdi, .r8, .r9, .r10, .r11, .r12, .r13, .r14, .r15]

/-- `timer_handler_stub`. -/
def timerHandlerStub : List Instr :=
  [.push .rax, .push .rcx, .push .rdx, .push .rbx,
    .push .rbp, .push .rsi, .push .rdi,
    .push .r8, .push .r9, .push .r10, .push .r11,
    .push .r12, .push .r13, .push .r14, .push .r15,
    .getRsp .rdi, .call,
    .setRsp .rax, .getCr3 .rcx, .cmp .rcx .rdx, .je 1, .setCr3 .rdx,
    .pop .r15, .pop .r14, .pop .r13, .pop .r12,
    .pop .r11, .pop .r10, .pop .r9, .pop .r8,
    .pop .rdi, .pop .rsi, .pop .rbp, .pop .rbx,
    .pop .rdx, .pop .rcx,
    .load32 .rax 16, .and32 .rax 3, .cmp32 .rax 3, .jne 5,
    .mov16 .rax 0x1B, .setSeg .ds .rax, .setSeg .es .rax, .setSeg .fs .rax, .setSeg .gs .rax,
    .pop .rax, .iretq]

/-- `syscall_handler_stub`. -/
def syscallHandlerStub : List Instr :=
  [.push .rax, .push .rdx,
    .mov8 .rax 0x53, .mov16 .rdx 0x3F8, .out,
    .pop .rdx, .pop .rax,
    .push .r11, .push .rcx,
    .push .rbp, .push .rbx, .push .r12, .push .r13, .push .r14, .push .r15,
    .mov .rcx .rdx, .mov .rdx .rsi, .mov .rsi .rdi, .mov .rdi .rax, .call,
    .pop .r15, .pop .r14, .pop .r13, .pop .r12, .pop .rbx, .pop .rbp,
    .pop .rcx, .pop .r11, .sysretq]

/-- What an interrupt through the IDT does before the stub: the processor takes the stack of the TSS
when it comes from ring 3, aligns it, and pushes what `iretq` takes back. -/
def interrupt {κ : Type} (rsp0 : UInt64) (s : State κ) : State κ :=
  let sp := (if s.core.User then rsp0 else s.core.rsp) &&& 0xFFFFFFFFFFFFFFF0
  { s with
    core := { s.core with
      cs := 0x08
      rflags := s.core.rflags &&& 0xFFFFFFFFFFFFFDFF
      rsp := sp - 40
      ss := if s.core.User then 0 else s.core.ss }
    mem := pushAll s.mem sp.toNat
      [s.core.ss, s.core.rsp, s.core.rflags, s.core.cs, s.core.rip] }

/-! ## Frames -/

/-- The words of a frame in the order in which they are pushed. -/
def View.words (v : View) : List UInt64 :=
  [v.ss, v.rsp, v.rflags, v.cs, v.rip] ++ savedRegs.map v.reg

/-- A frame has twenty words. -/
@[simp] theorem View.length_words (v : View) : v.words.length = 20 := rfl

/-- There are fifteen saved registers. -/
theorem Reg.slot_lt (r : Reg) : r.slot < 15 := by
  cases r <;> decide

/-- Each saved register is a word of the frame. -/
theorem View.words_slot (v : View) (r : Reg) : v.words.getD (19 - r.slot) 0 = v.reg r := by
  cases r <;> rfl

/-- A frame that was pushed holds what was pushed. -/
theorem frame_pushAll (m : Mem) (v : View) {sp : ℕ} (h : 160 ≤ sp) :
    frame (pushAll m sp v.words) (sp - 160) = v := by
  have hword : ∀ i, i < 20 → ∀ a, a + 8 * (i + 1) = sp →
      load (pushAll m sp v.words) a = v.words.getD i 0 := by
    intro i hi a ha
    rw [show a = sp - 8 * (i + 1) by omega,
      load_pushAll (by rw [View.length_words]; omega) (show i < v.words.length from hi),
      List.getD_eq_getElem _ _ (show i < v.words.length from hi)]
  unfold frame
  refine View.ext (funext fun r => ?_) ?_ ?_ ?_ ?_ ?_
  · have hslot := r.slot_lt
    rw [← v.words_slot r]
    exact hword (19 - r.slot) (by omega) (sp - 160 + 8 * r.slot) (by omega)
  · exact hword 4 (by decide) (sp - 160 + 120) (by omega)
  · exact hword 3 (by decide) (sp - 160 + 128) (by omega)
  · exact hword 2 (by decide) (sp - 160 + 136) (by omega)
  · exact hword 1 (by decide) (sp - 160 + 144) (by omega)
  · exact hword 0 (by decide) (sp - 160 + 152) (by omega)

/-- A frame that nothing was written to is the same. -/
theorem frame_congr {m m' : Mem} {a : ℕ} (h : Intact m m' a (a + 160)) :
    frame m' a = frame m a := by
  have hload : ∀ x, a ≤ x → x + 8 ≤ a + 160 → load m' x = load m x := fun x => h.load
  unfold frame
  refine View.ext (funext fun r => ?_) ?_ ?_ ?_ ?_ ?_
  · have hslot := r.slot_lt
    exact hload (a + 8 * r.slot) (by omega) (by omega)
  · exact hload (a + 120) (by omega) (by omega)
  · exact hload (a + 128) (by omega) (by omega)
  · exact hload (a + 136) (by omega) (by omega)
  · exact hload (a + 144) (by omega) (by omega)
  · exact hload (a + 152) (by omega) (by omega)

/-! ## Runs of instructions -/

/-- A difference that does not wrap is that of the numbers. -/
theorem toNat_sub {x k : UInt64} (h : k.toNat ≤ x.toNat) : (x - k).toNat = x.toNat - k.toNat :=
  UInt64.toNat_sub_of_le x k (UInt64.le_iff_toNat_le.2 h)

/-- A sum that does not wrap is that of the numbers. -/
theorem toNat_add {x k : UInt64} (h : x.toNat + k.toNat < 2 ^ 64) :
    (x + k).toNat = x.toNat + k.toNat := by
  rw [UInt64.toNat_add, Nat.mod_eq_of_lt h]

section
variable {κ : Type} (call : State κ → State κ)

/-- Pushes store the registers below the stack pointer, the last one lowest. -/
theorem exec_push (rs : List Reg) (is : List Instr) (s : State κ)
    (h : 8 * rs.length ≤ s.core.rsp.toNat) : ∃ rsp : UInt64,
    rsp.toNat = s.core.rsp.toNat - 8 * rs.length ∧
      exec call 0 (rs.map .push ++ is) s = exec call 0 is
        { s with
          core := { s.core with rsp := rsp }
          mem := pushAll s.mem s.core.rsp.toNat (rs.map s.core.reg) } := by
  induction rs generalizing s with
  | nil => exact ⟨s.core.rsp, rfl, rfl⟩
  | cons r rs ih =>
    simp only [List.length_cons] at h
    have hsub : (s.core.rsp - 8).toNat = s.core.rsp.toNat - 8 :=
      toNat_sub (show 8 ≤ s.core.rsp.toNat by omega)
    obtain ⟨rsp, hrsp, hrun⟩ := ih ((Instr.push r).step call s)
      (show 8 * rs.length ≤ (s.core.rsp - 8).toNat by omega)
    refine ⟨rsp, ?_, ?_⟩
    · rw [hrsp, List.length_cons, show ((Instr.push r).step call s).core.rsp.toNat = _ from hsub]
      omega
    · rw [List.map_cons, List.cons_append, exec, List.map_cons, pushAll, ← hsub]
      exact hrun

/-- The registers once `rs` were popped from `a` on. -/
def popped (m : Mem) (a : ℕ) (rs : List Reg) (reg : Reg → UInt64) : Reg → UInt64 := fun r =>
  if r ∈ rs then load m (a + 8 * rs.idxOf r) else reg r

/-- Registers are popped one after another. -/
theorem popped_cons {m : Mem} {a : ℕ} {r : Reg} {rs : List Reg} (hr : r ∉ rs)
    (reg : Reg → UInt64) :
    popped m (a + 8) rs (Function.update reg r (load m a)) = popped m a (r :: rs) reg := by
  funext r'
  unfold popped
  rcases eq_or_ne r' r with rfl | hne
  · simp [hr]
  · have hidx : (r :: rs).idxOf r' = rs.idxOf r' + 1 := List.idxOf_cons_ne _ hne.symm
    simp only [List.mem_cons, hne, false_or, Function.update_of_ne hne, hidx]
    rw [show a + 8 + 8 * rs.idxOf r' = a + 8 * (rs.idxOf r' + 1) by omega]

/-- Popping registers, each at most once. -/
theorem exec_pop (rs : List Reg) (is : List Instr) (s : State κ) (hnd : rs.Nodup)
    (h : s.core.rsp.toNat + 8 * rs.length < 2 ^ 64) : ∃ rsp : UInt64,
    rsp.toNat = s.core.rsp.toNat + 8 * rs.length ∧
      exec call 0 (rs.map .pop ++ is) s = exec call 0 is
        { s with
          core := { s.core with
            reg := popped s.mem s.core.rsp.toNat rs s.core.reg
            rsp := rsp } } := by
  induction rs generalizing s with
  | nil =>
    have hreg : popped s.mem s.core.rsp.toNat [] s.core.reg = s.core.reg := by
      funext r
      simp [popped]
    rw [hreg]
    exact ⟨s.core.rsp, rfl, rfl⟩
  | cons r rs ih =>
    simp only [List.length_cons] at h
    obtain ⟨hr, hnd⟩ := List.nodup_cons.1 hnd
    have hadd : (s.core.rsp + 8).toNat = s.core.rsp.toNat + 8 :=
      toNat_add (show s.core.rsp.toNat + 8 < 2 ^ 64 by omega)
    obtain ⟨rsp, hrsp, hrun⟩ := ih ((Instr.pop r).step call s) hnd
      (show (s.core.rsp + 8).toNat + 8 * rs.length < 2 ^ 64 by omega)
    rw [show ((Instr.pop r).step call s).core.rsp.toNat = _ from hadd] at hrsp hrun
    refine ⟨rsp, ?_, ?_⟩
    · rw [hrsp, List.length_cons]
      omega
    · rw [List.map_cons, List.cons_append, exec, ← popped_cons hr]
      exact hrun

/-- The call, with the stack pointer as its argument. -/
theorem exec_call (is : List Instr) (s : State κ) : exec call 0 (.getRsp .rdi :: .call :: is) s =
    exec call 0 is (call { s with core := s.core.set .rdi s.core.rsp }) := rfl

/-- The switch to the stack and the address space that the call returned. The second is written
only when it is another. -/
theorem exec_enter (is : List Instr) (s : State κ) : ∃ zf,
    exec call 0
        (.setRsp .rax :: .getCr3 .rcx :: .cmp .rcx .rdx :: .je 1 :: .setCr3 .rdx :: is) s =
      exec call 0 is
        { s with
          core := { s.core with
            reg := Function.update s.core.reg .rcx s.core.cr3
            rsp := s.core.reg .rax
            zf := zf
            cr3 := s.core.reg .rdx } } := by
  refine ⟨decide (s.core.cr3 = s.core.reg .rdx), ?_⟩
  simp only [exec, Instr.step, Instr.skip, Core.set, Function.update_self,
    Function.update_of_ne (show Reg.rdx ≠ Reg.rcx by decide)]
  by_cases heq : s.core.cr3 = s.core.reg .rdx
  · simp only [heq, decide_true, if_true, exec]
  · simp only [heq, decide_false, exec, Instr.step, Instr.skip, Bool.false_eq_true, if_false,
      Function.update_of_ne (show Reg.rdx ≠ Reg.rcx by decide)]

/-- The low two bits survive the masks. -/
theorem low_mask (x : UInt64) : x &&& 0xFFFFFFFF &&& 0xFFFFFFFF &&& 3 &&& 0xFFFFFFFF = x &&& 3 := by
  simp only [UInt64.and_assoc]
  rfl

/-- The selector loaded for user data is 0x1B. -/
theorem userSelector (x : UInt64) : (x &&& 0xFFFFFFFFFFFF0000 ||| 0x1B).toUInt16 = 0x1B := by
  rw [UInt64.toUInt16_or, UInt64.toUInt16_and,
    show (0xFFFFFFFFFFFF0000 : UInt64).toUInt16 = 0 by decide, UInt16.and_zero, UInt16.zero_or]
  rfl

/-- The end of `timer_handler_stub`. -/
def leaveCode : List Instr :=
  [.load32 .rax 16, .and32 .rax 3, .cmp32 .rax 3, .jne 5,
    .mov16 .rax 0x1B, .setSeg .ds .rax, .setSeg .es .rax, .setSeg .fs .rax, .setSeg .gs .rax,
    .pop .rax, .iretq]

/-- It sets the data segments of ring 3, pops `rax`, and returns. -/
theorem exec_leave (s : State κ) (h : s.core.rsp.toNat + 48 < 2 ^ 64) :
    let a := s.core.rsp.toNat
    let cs := load s.mem (a + 16)
    exec call 0 leaveCode s =
      { s with
        core := { s.core with
          reg := Function.update s.core.reg .rax (load s.mem a)
          rip := load s.mem (a + 8)
          cs := cs
          rflags := load s.mem (a + 24)
          rsp := load s.mem (a + 32)
          ss := load s.mem (a + 40)
          zf := decide (cs &&& 3 = 3)
          seg := if cs &&& 3 = 3 then fun _ => 0x1B else s.core.seg } } := by
  intro a cs
  have hpeek : (s.core.rsp + 16).toNat = a + 16 := toNat_add (show a + 16 < 2 ^ 64 by omega)
  have hpop : (s.core.rsp + 8).toNat = a + 8 := toNat_add (show a + 8 < 2 ^ 64 by omega)
  simp only [leaveCode, exec, Instr.step, Instr.skip, Core.set, Function.update_self,
    Function.update_idem, hpeek, low_mask]
  by_cases huser : cs &&& 3 = 3
  · have hseg : Function.update (Function.update (Function.update (Function.update s.core.seg .ds
        0x1B) .es 0x1B) .fs 0x1B) .gs (0x1B : UInt16) = fun _ => 0x1B := by
      funext g
      cases g <;> rfl
    rw [show load s.mem (a + 16) = cs from rfl]
    simp only [huser, decide_true, if_true, exec, Instr.step, Instr.skip, Core.set,
      Function.update_self, Function.update_idem, userSelector, hseg, hpop,
      Nat.add_assoc, Nat.reduceAdd]
    rfl
  · rw [show load s.mem (a + 16) = cs from rfl]
    simp only [huser, decide_false, exec, Instr.step, Instr.skip, Core.set, Bool.false_eq_true,
      if_false, Function.update_idem, hpop, Nat.add_assoc, Nat.reduceAdd]
    rfl

/-- The registers that the stub pops before it looks at `cs`. -/
def restoredRegs : List Reg :=
  [.r15, .r14, .r13, .r12, .r11, .r10, .r9, .r8, .rdi, .rsi, .rbp, .rbx, .rdx, .rcx]

/-- The stub: it saves, calls, switches the stack and the space, and restores. -/
theorem timerHandlerStub_eq : timerHandlerStub = savedRegs.map .push ++ .getRsp .rdi :: .call ::
    .setRsp .rax :: .getCr3 .rcx :: .cmp .rcx .rdx :: .je 1 :: .setCr3 .rdx ::
      (restoredRegs.map .pop ++ leaveCode) := rfl

/-- Popping all of them and `rax` takes the registers of the frame. -/
theorem popped_restored (m : Mem) (a : ℕ) (reg : Reg → UInt64) :
    Function.update (popped m a restoredRegs reg) .rax (load m (a + 112)) = (frame m a).reg := by
  funext r
  cases r <;> rfl

/-- The way out of the stub takes the frame at the stack pointer. -/
theorem exec_restore (s : State κ) (h : s.core.rsp.toNat + 160 < 2 ^ 64) :
    let v := frame s.mem s.core.rsp.toNat
    exec call 0 (restoredRegs.map .pop ++ leaveCode) s =
      { s with
        core :=
          { v with
            zf := decide v.User
            seg := if v.User then fun _ => 0x1B else s.core.seg
            cr3 := s.core.cr3 } } := by
  intro v
  have hlen : restoredRegs.length = 14 := rfl
  obtain ⟨rsp, hrsp, hpop⟩ := exec_pop call restoredRegs leaveCode s (by decide)
    (by rw [hlen]; omega)
  rw [hlen] at hrsp
  have hleave := exec_leave call
    { s with core := { s.core with
        reg := popped s.mem s.core.rsp.toNat restoredRegs s.core.reg
        rsp := rsp } } (show rsp.toNat + 48 < 2 ^ 64 by omega)
  simp only [hrsp] at hleave
  rw [popped_restored] at hleave
  rw [hpop, hleave]
  rfl

/-- On the way into the call the fifteen registers are saved, and their address is passed on. -/
theorem exec_save (is : List Instr) (s : State κ) (h : 120 ≤ s.core.rsp.toNat) :
    ∃ rsp : UInt64, rsp.toNat = s.core.rsp.toNat - 120 ∧
      exec call 0 (savedRegs.map .push ++ .getRsp .rdi :: .call :: is) s =
        exec call 0 is (call
          { s with
            core := { s.core with reg := Function.update s.core.reg .rdi rsp, rsp := rsp }
            mem := pushAll s.mem s.core.rsp.toNat (savedRegs.map s.core.reg) }) := by
  obtain ⟨rsp, hrsp, hpush⟩ := exec_push call savedRegs (.getRsp .rdi :: .call :: is) s h
  refine ⟨rsp, hrsp, ?_⟩
  rw [hpush, exec_call]
  simp only [Core.set]

/-- The stub: it calls with the registers on the stack, and what runs after it has the registers of
the frame at the stack pointer that the call returned in `rax`, the address space that it returned
in `rdx`, and at ring 3 the data segments of ring 3. -/
theorem timerHandlerStub_run (s : State κ) (h : 120 ≤ s.core.rsp.toNat) : ∃ rsp : UInt64,
    rsp.toNat = s.core.rsp.toNat - 120 ∧ ∀ s₁, s₁ = call
        { s with
          core := { s.core with reg := Function.update s.core.reg .rdi rsp, rsp := rsp }
          mem := pushAll s.mem s.core.rsp.toNat (savedRegs.map s.core.reg) } →
      (s₁.core.reg .rax).toNat + 160 < 2 ^ 64 →
      let v := frame s₁.mem (s₁.core.reg .rax).toNat
      exec call 0 timerHandlerStub s =
        { s₁ with
          core :=
            { v with
              zf := decide v.User
              seg := if v.User then fun _ => 0x1B else s₁.core.seg
              cr3 := s₁.core.reg .rdx } } := by
  obtain ⟨rsp, hrsp, hsave⟩ := exec_save call
    (.setRsp .rax :: .getCr3 .rcx :: .cmp .rcx .rdx :: .je 1 :: .setCr3 .rdx ::
      (restoredRegs.map .pop ++ leaveCode)) s h
  refine ⟨rsp, hrsp, ?_⟩
  intro s₁ hs₁ hroom v
  obtain ⟨zf, henter⟩ := exec_enter call (restoredRegs.map .pop ++ leaveCode) s₁
  have hrestore := exec_restore call
    { s₁ with
      core := { s₁.core with
        reg := Function.update s₁.core.reg .rcx s₁.core.cr3
        rsp := s₁.core.reg .rax
        zf := zf
        cr3 := s₁.core.reg .rdx } } hroom
  rw [timerHandlerStub_eq, hsave, ← hs₁, henter, hrestore]

/-! ## The timer interrupt -/

/-- Where the frame of an interrupt ends. -/
def entryTop (rsp0 : UInt64) (v : View) : ℕ := (if v.User then rsp0 else v.rsp).toNat / 16 * 16

/-- The stack pointer is cut to 16 bytes. -/
theorem toNat_align (x : UInt64) : (x &&& 0xFFFFFFFFFFFFFFF0).toNat = x.toNat / 16 * 16 := by
  have hmask := Bits.and_high_mask (show 4 ≤ 64 by decide) (UInt64.toNat_lt x)
  rw [UInt64.toNat_and]
  exact hmask

/-- A timer interrupt: the call finds all that the interrupted code sees of the processor in a frame
on its stack, with the address of the frame as its argument. -/
theorem timer_run (rsp0 : UInt64) (s : State κ) (h : 160 ≤ entryTop rsp0 s.core.toView) :
    ∃ s₀ : State κ, (s₀.core.reg .rdi).toNat = entryTop rsp0 s.core.toView - 160 ∧
      s₀.mem = pushAll s.mem (entryTop rsp0 s.core.toView) s.core.words ∧
      s₀.kernel = s.kernel ∧ s₀.core.cr3 = s.core.cr3 ∧ s₀.core.seg = s.core.seg ∧
      ∀ s₁, s₁ = call s₀ → (s₁.core.reg .rax).toNat + 160 < 2 ^ 64 →
        let v := frame s₁.mem (s₁.core.reg .rax).toNat
        exec call 0 timerHandlerStub (interrupt rsp0 s) =
          { s₁ with
            core :=
              { v with
                zf := decide v.User
                seg := if v.User then fun _ => 0x1B else s₁.core.seg
                cr3 := s₁.core.reg .rdx } } := by
  have halign := toNat_align (if s.core.User then rsp0 else s.core.rsp)
  have htop : ((if s.core.User then rsp0 else s.core.rsp) &&& 0xFFFFFFFFFFFFFFF0).toNat =
    entryTop rsp0 s.core.toView := halign
  have hsp : (interrupt rsp0 s).core.rsp.toNat = entryTop rsp0 s.core.toView - 40 := by
    rw [← htop]
    exact toNat_sub (show 40 ≤ _ by omega)
  obtain ⟨rsp, hrsp, hrun⟩ := timerHandlerStub_run call (interrupt rsp0 s) (by omega)
  have hmem : (interrupt rsp0 s).mem = pushAll s.mem (entryTop rsp0 s.core.toView)
      [s.core.ss, s.core.rsp, s.core.rflags, s.core.cs, s.core.rip] := by
    rw [← htop]
    rfl
  have hlen : entryTop rsp0 s.core.toView -
      8 * [s.core.ss, s.core.rsp, s.core.rflags, s.core.cs, s.core.rip].length =
      (interrupt rsp0 s).core.rsp.toNat := hsp.symm
  refine ⟨_, ?_, ?_, ?_, ?_, ?_, hrun⟩
  · simp only [Function.update_self, hrsp, hsp]
    omega
  · have hreg : (interrupt rsp0 s).core.reg = s.core.reg := rfl
    rw [View.words, pushAll_append, ← hmem, hlen, ← hreg]
  · rfl
  · rfl
  · rfl

end

end Cpu

end RossOs
