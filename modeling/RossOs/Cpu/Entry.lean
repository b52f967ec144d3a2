import RossOs.Cpu.Stubs

/-!
# The system call entry

`syscall_handler_stub` of `ross-kernel/src/syscall.rs` between `syscall` and `sysretq`. It runs on
the stack of the program, tells the debug port, moves the arguments to where the dispatcher expects
them, and keeps on the stack what `sysretq` and the program need (`syscall_returns`).
-/

namespace RossOs

open ByteMem

namespace Cpu

section
variable {κ : Type} (call : State κ → State κ)

/-- What `syscall` does, with the selectors and the mask that `init` writes to `STAR` and `SFMASK`:
the stack stays. -/
def syscallEntry (s : State κ) : State κ :=
  { s with
    core :=
      { (s.core.set .rcx s.core.rip).set .r11 s.core.rflags with
        rflags := s.core.rflags &&& 0xFFFFFFFFFFFFFDFF
        cs := 0x08
        ss := 0x10 } }

/-- The registers that the stub keeps on the stack. -/
def keptRegs : List Reg := [.r11, .rcx, .rbp, .rbx, .r12, .r13, .r14, .r15]

/-- The start of the stub, which tells the debug port. -/
def debugCode : List Instr :=
  [.push .rax, .push .rdx, .mov8 .rax 0x53, .mov16 .rdx 0x3F8, .out, .pop .rdx, .pop .rax]

/-- The stub: it saves, shifts the arguments, calls, restores and returns. -/
theorem syscallHandlerStub_eq : syscallHandlerStub = debugCode ++ (keptRegs.map .push ++
    .mov .rcx .rdx :: .mov .rdx .rsi :: .mov .rsi .rdi :: .mov .rdi .rax :: .call ::
      (keptRegs.reverse.map .pop ++ [.sysretq])) := rfl

/-- The registers as the dispatcher gets them: the number of the call and its three arguments. -/
def arguments (reg : Reg → UInt64) : Reg → UInt64
  | .rdi => reg .rax
  | .rsi => reg .rdi
  | .rdx => reg .rsi
  | .rcx => reg .rdx
  | r => reg r

/-- The call gets its arguments in the C registers. -/
theorem exec_dispatch (is : List Instr) (s : State κ) :
    exec call 0
        (.mov .rcx .rdx :: .mov .rdx .rsi :: .mov .rsi .rdi :: .mov .rdi .rax :: .call :: is)
        s =
      exec call 0 is (call { s with core := { s.core with reg := arguments s.core.reg } }) := by
  have hreg : Function.update (Function.update (Function.update (Function.update s.core.reg .rcx
      (s.core.reg .rdx)) .rdx (s.core.reg .rsi)) .rsi (s.core.reg .rdi)) .rdi (s.core.reg .rax) =
      arguments s.core.reg := by
    funext r
    cases r <;> rfl
  rw [← hreg]
  rfl

/-- The debug port costs nothing but two words below the stack pointer. -/
theorem exec_debug (is : List Instr) (s : State κ) (h : 16 ≤ s.core.rsp.toNat) : ∃ m : Mem,
    (∀ x, s.core.rsp.toNat ≤ x ∨ x < s.core.rsp.toNat - 16 → m x = s.mem x) ∧
      exec call 0 (debugCode ++ is) s = exec call 0 is { s with mem := m } := by
  have h8 : (s.core.rsp - 8).toNat = s.core.rsp.toNat - 8 :=
    toNat_sub (show 8 ≤ s.core.rsp.toNat by omega)
  have h16 : (s.core.rsp - 8 - 8).toNat = s.core.rsp.toNat - 16 := by
    have hsub : (s.core.rsp - 8 - 8).toNat = (s.core.rsp - 8).toNat - 8 :=
      toNat_sub (show 8 ≤ (s.core.rsp - 8).toNat by omega)
    omega
  refine ⟨store (store s.mem (s.core.rsp - 8).toNat (s.core.reg .rax)) (s.core.rsp - 8 - 8).toNat
    (s.core.reg .rdx), fun x hx => ?_, ?_⟩
  · rw [store_apply_of_outside (by omega), store_apply_of_outside (by omega)]
  · have hrdx : load (store (store s.mem (s.core.rsp - 8).toNat (s.core.reg .rax))
        (s.core.rsp - 8 - 8).toNat (s.core.reg .rdx)) (s.core.rsp - 8).toNat = s.core.reg .rax := by
      rw [load_store_of_disjoint (by omega), load_store_self]
    simp only [debugCode, List.cons_append, List.nil_append, exec, Instr.skip, Instr.step, Core.set,
      UInt64.sub_add_cancel, load_store_self, hrdx]
    have hreg : ∀ x y, Function.update (Function.update (Function.update (Function.update s.core.reg
        .rax x) .rdx y) .rdx (s.core.reg .rdx)) .rax (s.core.reg .rax) = s.core.reg := by
      intro x y
      funext r
      cases r <;> rfl
    rw [hreg]

end

/-- Popping the registers that were pushed, in the other order, gives them back. -/
theorem popped_pushAll {m m' : Mem} {sp : ℕ} {rs : List Reg}
    (hsp : 8 * rs.length ≤ sp) (reg reg' : Reg → UInt64)
    (hm : Intact (pushAll m sp (rs.map reg)) m' (sp - 8 * rs.length) sp) :
    popped m' (sp - 8 * rs.length) rs.reverse reg' = fun r => if r ∈ rs then reg r else reg' r := by
  funext r
  unfold popped
  by_cases hr : r ∈ rs
  · have hr' : r ∈ rs.reverse := List.mem_reverse.2 hr
    have hlt := List.idxOf_lt_length_of_mem hr'
    have hget := List.getElem_idxOf hlt
    rw [List.getElem_reverse] at hget
    rw [List.length_reverse] at hlt
    rw [if_pos hr', if_pos hr, hm.load (by omega) (by omega),
      show sp - 8 * rs.length + 8 * rs.reverse.idxOf r =
        sp - 8 * (rs.length - 1 - rs.reverse.idxOf r + 1) by omega,
      load_pushAll (by rw [List.length_map]; exact hsp) (by rw [List.length_map]; omega),
      List.getElem_map, hget]
  · rw [if_neg (by rw [List.mem_reverse]; exact hr), if_neg hr]

section
variable {κ : Type} {call : State κ → State κ}

/-- What the compiled dispatcher keeps, called in the state `s`: the stack pointer, and the words of
the stub above it. -/
structure Keeps (s s' : State κ) : Prop where
  rsp : s'.core.rsp = s.core.rsp
  mem : Intact s.mem s'.mem s.core.rsp.toNat (s.core.rsp.toNat + 64)

/-- The stub from the end of the debug output on. -/
theorem exec_kept (s : State κ) (h : 64 ≤ s.core.rsp.toNat) (hkeeps : ∀ s₀, Keeps s₀ (call s₀)) :
    ∃ s₀ : State κ, s₀.core.reg = arguments s.core.reg ∧ s₀.kernel = s.kernel ∧
      (∀ x, s.core.rsp.toNat ≤ x ∨ x < s.core.rsp.toNat - 64 → s₀.mem x = s.mem x) ∧
      exec call 0 (keptRegs.map .push ++
          .mov .rcx .rdx :: .mov .rdx .rsi :: .mov .rsi .rdi :: .mov .rdi .rax :: .call ::
            (keptRegs.reverse.map .pop ++ [.sysretq])) s =
        { call s₀ with
          core := { (call s₀).core with
            reg := fun r => if r ∈ keptRegs then s.core.reg r else (call s₀).core.reg r
            rip := s.core.reg .rcx
            rflags := s.core.reg .r11
            rsp := s.core.rsp
            cs := 0x23
            ss := 0x1B } } := by
  have hlen : keptRegs.length = 8 := rfl
  obtain ⟨rsp, hrsp, hpush⟩ := exec_push call keptRegs
    (.mov .rcx .rdx :: .mov .rdx .rsi :: .mov .rsi .rdi :: .mov .rdi .rax :: .call ::
      (keptRegs.reverse.map .pop ++ [.sysretq])) s (by rw [hlen]; omega)
  obtain ⟨s₀, hs₀⟩ : ∃ s₀ : State κ, s₀ =
      { s with
        core := { s.core with reg := arguments s.core.reg, rsp := rsp }
        mem := pushAll s.mem s.core.rsp.toNat (keptRegs.map s.core.reg) } := ⟨_, rfl⟩
  have hk := hkeeps s₀
  have hrsp₀ : s₀.core.rsp = rsp := by rw [hs₀]
  have hmem₀ : s₀.mem = pushAll s.mem s.core.rsp.toNat (keptRegs.map s.core.reg) := by rw [hs₀]
  have hrsp₁ : (call s₀).core.rsp.toNat = s.core.rsp.toNat - 8 * keptRegs.length := by
    rw [hk.rsp, hrsp₀, hrsp]
  obtain ⟨rsp', hrsp', hpop⟩ := exec_pop call keptRegs.reverse [.sysretq] (call s₀) (by decide) (by
    have hlt := UInt64.toNat_lt s.core.rsp
    rw [List.length_reverse, hrsp₁, hlen]
    omega)
  have hback : rsp' = s.core.rsp := by
    apply UInt64.toNat_inj.1
    rw [hrsp', hrsp₁, List.length_reverse, hlen]
    omega
  have hintact : Intact (pushAll s.mem s.core.rsp.toNat (keptRegs.map s.core.reg)) (call s₀).mem
      (s.core.rsp.toNat - 8 * keptRegs.length) s.core.rsp.toNat := by
    have hmem := hk.mem
    rw [hmem₀, hrsp₀, hrsp, hlen] at hmem
    exact hmem.mono (by rw [hlen]) (by omega)
  rw [hrsp₁, popped_pushAll (by rw [hlen]; omega) s.core.reg (call s₀).core.reg hintact,
    hback] at hpop
  refine ⟨s₀, by rw [hs₀], by rw [hs₀], fun x hx => ?_, ?_⟩
  · rw [hmem₀]
    exact pushAll_apply_of_outside (by rw [List.length_map, hlen]; omega)
      (by rw [List.length_map, hlen]; omega)
  · rw [hpush, exec_dispatch, ← hs₀, hpop]
    rfl

/-- What the dispatcher gets from a program that made a system call in the state `s`: the number of
the call and its arguments, and all of memory but eight words below the stack pointer. -/
structure Called (s s₀ : State κ) : Prop where
  id : s₀.core.reg .rdi = s.core.reg .rax
  arg1 : s₀.core.reg .rsi = s.core.reg .rdi
  arg2 : s₀.core.reg .rdx = s.core.reg .rsi
  arg3 : s₀.core.reg .rcx = s.core.reg .rdx
  kernel : s₀.kernel = s.kernel
  mem : ∀ x, s.core.rsp.toNat ≤ x ∨ x < s.core.rsp.toNat - 64 → s₀.mem x = s.mem x

/-- What the program gets when the dispatcher left `s₁`: its result, and behind the call the flags,
the stack, and the registers that the C calling convention keeps. -/
structure Returned (s s₁ s' : State κ) : Prop where
  result : s'.core.reg .rax = s₁.core.reg .rax
  kernel : s'.kernel = s₁.kernel
  mem : s'.mem = s₁.mem
  rip : s'.core.rip = s.core.rip
  rflags : s'.core.rflags = s.core.rflags
  rsp : s'.core.rsp = s.core.rsp
  user : s'.core.User
  reg : ∀ r ∈ calleeSaved, s'.core.reg r = s.core.reg r

/-- A system call from ring 3, on a stack with room for eight words. -/
theorem syscall_returns (s : State κ) (h : 64 ≤ s.core.rsp.toNat)
    (hkeeps : ∀ s₀, Keeps s₀ (call s₀)) : ∃ s₀, Called s s₀ ∧
      Returned s (call s₀) (exec call 0 syscallHandlerStub (syscallEntry s)) := by
  obtain ⟨m, hm, hdebug⟩ := exec_debug call (keptRegs.map .push ++
    .mov .rcx .rdx :: .mov .rdx .rsi :: .mov .rsi .rdi :: .mov .rdi .rax :: .call ::
      (keptRegs.reverse.map .pop ++ [.sysretq])) (syscallEntry s)
      (show 16 ≤ s.core.rsp.toNat by omega)
  obtain ⟨s₀, hreg, hkernel, hmem, hrun⟩ := exec_kept { syscallEntry s with mem := m } h hkeeps
  have hall := hdebug.trans hrun
  rw [← syscallHandlerStub_eq] at hall
  have hreg : s₀.core.reg = arguments (syscallEntry s).core.reg := hreg
  have hm : ∀ x, s.core.rsp.toNat ≤ x ∨ x < s.core.rsp.toNat - 16 → m x = s.mem x := hm
  have hmem : ∀ x, s.core.rsp.toNat ≤ x ∨ x < s.core.rsp.toNat - 64 → s₀.mem x = m x := hmem
  have hkept : ∀ r ∈ calleeSaved, r ∈ keptRegs ∧ r ≠ .rcx ∧ r ≠ .r11 := by decide
  refine ⟨s₀, ⟨?_, ?_, ?_, ?_, hkernel, fun x hx => ?_⟩, ?_⟩
  · rw [hreg]
    rfl
  · rw [hreg]
    rfl
  · rw [hreg]
    rfl
  · rw [hreg]
    rfl
  · rw [hmem x hx, hm x (by omega)]
  · rw [hall]
    refine ⟨rfl, rfl, rfl, rfl, rfl, rfl, ?_, fun r hr => ?_⟩
    · change (0x23 : UInt64) &&& 3 = 3
      decide
    · obtain ⟨hmem, hrcx, hr11⟩ := hkept r hr
      simp only [if_pos hmem, syscallEntry, Core.set, Function.update_of_ne hrcx,
        Function.update_of_ne hr11]

end

/-- A program that asks for the uptime, and a dispatcher that answers 5. -/
def askUptime : State PUnit where
  core :=
    { reg := fun r => if r = .rax then 2 else 0
      rip := 0x400010
      cs := 0x23
      rflags := 0x202
      rsp := 0x507FF0
      ss := 0x1B
      zf := false
      seg := fun _ => 0x1B
      cr3 := 0x2000 }
  mem := fun _ => 0
  kernel := ⟨⟩

/-- A task asks for the time: it gets the answer and keeps its registers. -/
theorem syscall_returns_uptime :
    let call := fun s : State PUnit => { s with core := s.core.set .rax 5 }
    ∃ s₀, Called askUptime s₀ ∧
      Returned askUptime (call s₀) (exec call 0 syscallHandlerStub (syscallEntry askUptime)) :=
  syscall_returns askUptime (by decide) fun _ => ⟨rfl, Intact.refl _ _ _⟩

end Cpu

end RossOs
