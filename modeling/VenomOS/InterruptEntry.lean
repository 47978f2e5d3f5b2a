/-
Entry into and return from the interrupt handler: the stubs of
kernel/interrupts.asm and the InterruptFrame of kernel/interrupts.hpp.  What
the processor itself does when it delivers an interrupt is `deliver`.  A task
that is interrupted goes on as if nothing had happened, also when other tasks
run before the handler returns.
-/
import VenomOS.ContextSwitch

namespace VenomOS

namespace Interrupts

open ByteMemory StackMachine

/-- The vectors for which the processor pushes an error code. -/
def pushesErrorCode (vector : Nat) : Bool :=
  [8, 10, 11, 12, 13, 14, 17, 21, 29, 30].contains vector

/-- The address of the stub goes to rip, and interrupt gates clear the flag for
interrupts and for single steps.  The new stack pointer is aligned to 16. -/
def deliver (c : Cpu) (rsp0 handler : UInt64) (vector : Nat)
    (errorCode : UInt64) : Cpu :=
  let user := c.cs &&& 3 != 0
  let stack := (if user then rsp0 else c.sp) &&& ~~~0xF
  let words := [c.ss, c.sp, c.rflags, c.cs, c.rip] ++
    if pushesErrorCode vector then [errorCode] else []
  { c with
    toMachine := { c.toMachine with sp := stack }.pushAll words
    rip := handler
    rflags := c.rflags &&& ~~~0x300
    cs := 0x18
    ss := if user then 0 else c.ss }

/-- ISR_ERROR for the vectors of the `%if`, ISR_NO_ERROR for the others. -/
def isrStub (vector : Nat) : List Instr :=
  if vector = 8 || vector = 10 || vector = 11 || vector = 12 || vector = 13 ||
      vector = 14 || vector = 17 || vector = 21 || vector = 29 || vector = 30
  then [.pushImm (UInt64.ofNat vector)]
  else [.pushImm 0, .pushImm (UInt64.ofNat vector)]

/-- isr_common up to the call of interrupt_dispatch. -/
def isrEntry : List Instr :=
  [.push .rax, .push .rbx, .push .rcx, .push .rdx, .push .rbp, .push .rdi,
    .push .rsi, .push .r8, .push .r9, .push .r10, .push .r11, .push .r12,
    .push .r13, .push .r14, .push .r15,
    .subRsp 8,
    .leaRsp .rdi 8]

/-- isr_common after the call. -/
def isrExit : List Instr :=
  [.addRsp 8,
    .pop .r15, .pop .r14, .pop .r13, .pop .r12, .pop .r11, .pop .r10, .pop .r9,
    .pop .r8, .pop .rsi, .pop .rdi, .pop .rbp, .pop .rdx, .pop .rcx, .pop .rbx,
    .pop .rax,
    .addRsp 16,
    .iretq]

/-- The state in which interrupt_dispatch is called. -/
def enter (c : Cpu) (rsp0 handler : UInt64) (vector : Nat)
    (errorCode : UInt64) : Cpu :=
  (deliver c rsp0 handler vector errorCode).run (isrStub vector ++ isrEntry)

structure InterruptFrame where
  r15 : UInt64
  r14 : UInt64
  r13 : UInt64
  r12 : UInt64
  r11 : UInt64
  r10 : UInt64
  r9 : UInt64
  r8 : UInt64
  rsi : UInt64
  rdi : UInt64
  rbp : UInt64
  rdx : UInt64
  rcx : UInt64
  rbx : UInt64
  rax : UInt64
  vector : UInt64
  errorCode : UInt64
  rip : UInt64
  cs : UInt64
  rflags : UInt64
  rsp : UInt64
  ss : UInt64

namespace InterruptFrame

variable (frame : InterruptFrame)

/-- The general registers in the order of the struct. -/
def registers : List Reg :=
  [.r15, .r14, .r13, .r12, .r11, .r10, .r9, .r8, .rsi, .rdi, .rbp, .rdx, .rcx,
    .rbx, .rax]

def reg : Reg → UInt64
  | .rax => frame.rax
  | .rbx => frame.rbx
  | .rcx => frame.rcx
  | .rdx => frame.rdx
  | .rbp => frame.rbp
  | .rdi => frame.rdi
  | .rsi => frame.rsi
  | .r8 => frame.r8
  | .r9 => frame.r9
  | .r10 => frame.r10
  | .r11 => frame.r11
  | .r12 => frame.r12
  | .r13 => frame.r13
  | .r14 => frame.r14
  | .r15 => frame.r15

/-- The struct in memory; all its fields are words. -/
def words : List UInt64 :=
  registers.map frame.reg ++
    [frame.vector, frame.errorCode, frame.rip, frame.cs, frame.rflags,
      frame.rsp, frame.ss]

/-- The fields describe an interrupted processor. -/
def ofCpu (c : Cpu) (vector : Nat) (errorCode : UInt64) : InterruptFrame where
  r15 := c.regs .r15
  r14 := c.regs .r14
  r13 := c.regs .r13
  r12 := c.regs .r12
  r11 := c.regs .r11
  r10 := c.regs .r10
  r9 := c.regs .r9
  r8 := c.regs .r8
  rsi := c.regs .rsi
  rdi := c.regs .rdi
  rbp := c.regs .rbp
  rdx := c.regs .rdx
  rcx := c.regs .rcx
  rbx := c.regs .rbx
  rax := c.regs .rax
  vector := UInt64.ofNat vector
  errorCode := if pushesErrorCode vector then errorCode else 0
  rip := c.rip
  cs := c.cs
  rflags := c.rflags
  rsp := c.sp
  ss := c.ss

end InterruptFrame

/-- The processor goes on as the frame says. -/
structure Returns (frame : InterruptFrame) (c : Cpu) : Prop where
  regs : c.regs = frame.reg
  rip : c.rip = frame.rip
  cs : c.cs = frame.cs
  rflags : c.rflags = frame.rflags
  rsp : c.sp = frame.rsp
  ss : c.ss = frame.ss

section Code

variable {c : Cpu} {rsp0 handler errorCode : UInt64} {vector top : Nat}
  {frame : InterruptFrame}

/-- The stack on which an interrupt arrives. -/
def stackTop (c : Cpu) (rsp0 : UInt64) : UInt64 :=
  (if c.cs &&& 3 != 0 then rsp0 else c.sp) &&& ~~~0xF

/-- All words in the order in which they are pushed, by the processor and by
the stubs. -/
def pushedWords (c : Cpu) (vector : Nat) (errorCode : UInt64) : List UInt64 :=
  (InterruptFrame.ofCpu c vector errorCode).words.reverse

/-- The words that a stub pushes. -/
def stubWords (vector : Nat) : List UInt64 :=
  (if pushesErrorCode vector then [] else [0]) ++ [UInt64.ofNat vector]

theorem isrStub_eq : isrStub vector = (stubWords vector).map .pushImm := by
  have hsame : (vector = 8 || vector = 10 || vector = 11 || vector = 12 ||
      vector = 13 || vector = 14 || vector = 17 || vector = 21 || vector = 29 ||
      vector = 30) = pushesErrorCode vector := by
    simp only [pushesErrorCode, List.contains_cons, List.contains_nil,
      Bool.or_false, Bool.or_assoc]
    rfl
  rw [isrStub, hsame, stubWords]
  cases pushesErrorCode vector <;> rfl

/-- Processor and stubs together push the words of the frame, whether there is
an error code or not. -/
theorem pushedWords_eq :
    pushedWords c vector errorCode =
      [c.ss, c.sp, c.rflags, c.cs, c.rip] ++
        (if pushesErrorCode vector then [errorCode] else []) ++
        stubWords vector ++ InterruptFrame.registers.reverse.map c.regs := by
  rw [pushedWords, stubWords, InterruptFrame.ofCpu]
  cases pushesErrorCode vector <;> rfl

/-- The machine after all pushes. -/
def saveMachine (c : Cpu) (rsp0 : UInt64) (vector : Nat) (errorCode : UInt64) :
    Machine Reg :=
  { c.toMachine with sp := stackTop c rsp0 }.pushAll
    (pushedWords c vector errorCode)

theorem isrEntry_eq :
    isrEntry = InterruptFrame.registers.reverse.map .push ++
      [.subRsp 8, .leaRsp .rdi 8] := rfl

theorem enter_eq :
    (enter c rsp0 handler vector errorCode).toMachine =
      { saveMachine c rsp0 vector errorCode with
        sp := (saveMachine c rsp0 vector errorCode).sp - 8
        regs := Function.update c.regs .rdi
          ((saveMachine c rsp0 vector errorCode).sp - 8 + 8) } := by
  have hregs : (saveMachine c rsp0 vector errorCode).regs = c.regs := by
    rw [saveMachine, Machine.regs_pushAll]
  have hsave : ((deliver c rsp0 handler vector errorCode).run
      (isrStub vector ++ InterruptFrame.registers.reverse.map .push)).toMachine =
      saveMachine c rsp0 vector errorCode := by
    rw [Cpu.run_append, isrStub_eq, Cpu.run_pushImm, Cpu.run_push, saveMachine,
      pushedWords_eq, Machine.pushAll_append, Machine.pushAll_append, deliver]
    dsimp only
    rw [Machine.regs_pushAll, Machine.regs_pushAll]
    rfl
  rw [enter, isrEntry_eq, ← List.append_assoc, Cpu.run_append, ← hregs, ← hsave]
  rfl

/-- The state of the stack when interrupt_dispatch is called. -/
structure Entered (c : Cpu) (rsp0 : UInt64) (frame : InterruptFrame)
    (c' : Cpu) : Prop where
  sp : c'.sp.toNat + 184 = (stackTop c rsp0).toNat
  rdi : (c'.regs .rdi).toNat = c'.sp.toNat + 8
  frame : Words c'.mem (c'.sp.toNat + 8) frame.words
  outside : ∀ x, x < c'.sp.toNat + 8 ∨ (stackTop c rsp0).toNat ≤ x →
    c'.mem x = c.mem x

theorem entered_enter (hroom : 184 ≤ (stackTop c rsp0).toNat) :
    Entered c rsp0 (.ofCpu c vector errorCode)
      (enter c rsp0 handler vector errorCode) := by
  have hlength : (pushedWords c vector errorCode).length = 22 := by
    rw [pushedWords, List.length_reverse]
    rfl
  obtain ⟨_, hsp, hstored, houtside⟩ := @Machine.pushed_pushAll Reg
    { c.toMachine with sp := stackTop c rsp0 }
    (pushedWords c vector errorCode) (by
      rw [hlength]
      dsimp only
      omega)
  have heq := @enter_eq c rsp0 handler errorCode vector
  rw [saveMachine] at heq
  generalize Machine.pushAll _ (pushedWords c vector errorCode) = m
    at hsp hstored houtside heq
  dsimp only at hsp houtside heq
  rw [hlength] at hsp
  have hlow : (m.sp - 8).toNat = m.sp.toNat - 8 :=
    UInt64.toNat_sub_of_le m.sp 8 (UInt64.le_iff_toNat_le.2 (by
      show 8 ≤ m.sp.toNat
      omega))
  have hhigh : m.sp - 8 + 8 = m.sp := by
    rw [UInt64.sub_add_cancel]
  rw [pushedWords, List.reverse_reverse] at hstored
  generalize enter c rsp0 handler vector errorCode = c' at heq ⊢
  have hc' : c'.sp = m.sp - 8 := by rw [heq]
  have hmem : c'.mem = m.mem := by rw [heq]
  have hsp' : c'.sp.toNat + 8 = m.sp.toNat := by
    rw [hc', hlow]
    omega
  refine ⟨by omega, ?_, ?_, fun x hx => ?_⟩
  · rw [heq]
    dsimp only
    rw [Function.update_self, hhigh, hlow]
    omega
  · rw [hsp', hmem]
    exact hstored
  · rw [hmem]
    exact houtside x (by omega)

theorem isrExit_eq :
    isrExit = [.addRsp 8] ++ InterruptFrame.registers.map .pop ++
      [.addRsp 16, .iretq] := rfl

theorem InterruptFrame.mem_registers (r : Reg) : r ∈ registers := by
  cases r <;> decide

/-- The return pops what the frame holds by then. -/
theorem returns_isrExit (hframe : Words c.mem (c.sp.toNat + 8) frame.words)
    (hroom : c.sp.toNat + 184 < 2 ^ 64) : Returns frame (c.run isrExit) := by
  obtain ⟨hregs, hrest⟩ := words_append.1 hframe
  have hfifteen : InterruptFrame.registers.length = 15 := rfl
  let start : Machine Reg := c.toMachine.drop 1
  have hsp : start.sp.toNat = c.sp.toNat + 8 := by
    apply Machine.toNat_sp_drop
    omega
  have hpopped := @Machine.popped_popAll Reg start
    (InterruptFrame.registers.map frame.reg) _ InterruptFrame.registers
    (by decide) (List.length_map _).symm (by rw [hsp]; exact hregs) (by omega)
  generalize hm : start.popAll InterruptFrame.registers = m at hpopped
  have hrun : c.run isrExit =
      Cpu.exec { c with toMachine := m.drop 2 } .iretq := by
    rw [isrExit_eq, Cpu.run_append, Cpu.run_append, Cpu.run_pop, ← hm]
    rfl
  have hhigh : (m.drop 2).sp.toNat = c.sp.toNat + 144 := by
    have hmsp := hpopped.sp
    rw [hsp, hfifteen] at hmsp
    rw [Machine.toNat_sp_drop (by omega)]
    omega
  have hmem : (m.drop 2).mem = c.mem := hpopped.mem
  rw [List.length_map, hfifteen] at hrest
  obtain ⟨_, _, hrip, hcs, hrflags, hrsp, hss, _⟩ := hrest
  rw [hrun, Cpu.exec]
  dsimp only
  rw [hmem, hhigh]
  refine ⟨?_, hrip, hcs, hrflags, hrsp, hss⟩
  funext r
  exact hpopped.restores r (InterruptFrame.mem_registers r)

/-- An interrupt and its return, for every vector and from every state: the
handler is given the frame of the interrupted processor, and the processor goes
on with what the handler has left there. -/
theorem interrupt_round_trip (hroom : 184 ≤ (stackTop c rsp0).toNat) :
    Entered c rsp0 (.ofCpu c vector errorCode)
        (enter c rsp0 handler vector errorCode) ∧
      ∀ (after : Cpu) (frame : InterruptFrame),
        after.sp = (enter c rsp0 handler vector errorCode).sp →
        Words after.mem (after.sp.toNat + 8) frame.words →
        Returns frame (after.run isrExit) := by
  have hentered := @entered_enter c rsp0 handler errorCode vector hroom
  refine ⟨hentered, fun after frame hsp hframe => returns_isrExit hframe ?_⟩
  have htop := (stackTop c rsp0).toNat_lt
  have hlow := hentered.sp
  rw [hsp]
  omega

end Code

open ContextSwitch ContextSwitch.Threads
open Tasks (Slot taskStackSize)

/-- What happens while interrupt_dispatch works for task `i`, which keeps its
hands off the frame and calls switch_context below it; in between other tasks
may run. -/
inductive Handled (i : Slot) (frameAt : Nat) : Threads → Threads → Prop
  | refl (s : Threads) : Handled i frameAt s s
  | step {s s' s'' : Threads} {label : Label} (hrun : Handled i frameAt s s')
      (hstep : Step s' label s'') (hlive : label ≠ .release i)
      (hwork : s'.current = i → label = .work →
        ∀ x, frameAt ≤ x → x < frameAt + 176 → s''.cpu.mem x = s'.cpu.mem x)
      (hswitch : s'.current = i → ∀ next, label = .switch next →
        s'.cpu.sp.toNat ≤ frameAt) :
      Handled i frameAt s s''

section Preemption

variable {s s' s'' : Threads} {i : Slot} {base frameAt : Nat} {label : Label}
  {c : Cpu} {rsp0 handler errorCode : UInt64} {vector : Nat}

/-- The stack of task `i` holds the frame. -/
structure Holds (s : Threads) (i : Slot) (base frameAt : Nat) (mem : Memory) :
    Prop where
  sound : s.Sound
  live : s.stackBase i = some base
  kept : ∀ x, frameAt ≤ x → x < frameAt + 176 → s.cpu.mem x = mem x

theorem Holds.step {mem : Memory} (hholds : Holds s i base frameAt mem)
    (hlow : base ≤ frameAt) (hhigh : frameAt + 176 ≤ base + taskStackSize)
    (hstep : Step s label s') (hlive : label ≠ .release i)
    (hwork : s.current = i → label = .work →
      ∀ x, frameAt ≤ x → x < frameAt + 176 → s'.cpu.mem x = s.cpu.mem x)
    (hswitch : s.current = i → ∀ next, label = .switch next →
      s.cpu.sp.toNat ≤ frameAt) : Holds s' i base frameAt mem := by
  obtain ⟨hsound, hbase, hkept⟩ := hholds
  refine ⟨hstep.sound hsound, hstep.stackBase hbase hlive, ?_⟩
  have hsame : ∀ x, frameAt ≤ x → x < frameAt + 176 →
      s'.cpu.mem x = s.cpu.mem x := by
    intro x hx hlt
    obtain ⟨_, htasks⟩ := hsound.fits _ _ hbase
    by_cases hcurrent : i = s.current
    · subst hcurrent
      cases hstep with
      | work => exact hwork rfl rfl x hx hlt
      | @create slot place _ _ hfree =>
          have hfield := @rspField_bounds s slot
          have hapart := hfree.apart _ _ hbase
          exact (initCommonSlot_spec hfree).2 x (by omega) (by omega)
      | release => rfl
      | @switch next place hne hother hplace hroom hcall =>
          have hfield := @rspField_bounds s s.current
          have hbelow := hswitch rfl next rfl
          obtain ⟨other, hother⟩ := Option.ne_none_iff_exists'.1 hother
          obtain ⟨context, hnext⟩ := hsound.suspended _ _ hne hother
          exact (switchTo_spec hsound hne hother hplace hroom hcall hnext).2.2 x
            (by omega) (by omega)
    · exact (hstep.kept hsound hcurrent hbase).2 x (by omega) (by omega)
  intro x hx hlt
  rw [hsame x hx hlt, hkept x hx hlt]

theorem Holds.handled {mem : Memory} (hholds : Holds s i base frameAt mem)
    (hlow : base ≤ frameAt) (hhigh : frameAt + 176 ≤ base + taskStackSize)
    (hhandled : Handled i frameAt s s') : Holds s' i base frameAt mem := by
  induction hhandled with
  | refl => exact hholds
  | step _ hstep hlive hwork hswitch ih =>
      exact ih.step hlow hhigh hstep hlive hwork hswitch

/-- A task that is interrupted at any point goes on with its general registers
and flags as they were, whatever runs between the entry of the handler and its
return, as long as the handler leaves the frame alone. -/
theorem preemption_transparent (hreached : Reached s)
    (hbase : s.stackBase s.current = some base)
    (hentry : s.cpu = enter c rsp0 handler vector errorCode)
    (hroom : base + 184 ≤ (stackTop c rsp0).toNat)
    (htop : (stackTop c rsp0).toNat ≤ base + taskStackSize)
    (hhandled : Handled s.current (s.cpu.sp.toNat + 8) s s')
    (hreturn : s'.cpu.sp = s.cpu.sp) :
    Returns (.ofCpu c vector errorCode) (s'.cpu.run isrExit) := by
  have hentered := @entered_enter c rsp0 handler errorCode vector (by omega)
  rw [← hentry] at hentered
  have hsp := hentered.sp
  have hholds : Holds s s.current base (s.cpu.sp.toNat + 8) s.cpu.mem :=
    ⟨hreached.sound, hbase, fun _ _ _ => rfl⟩
  have hkept := (hholds.handled (by omega) (by omega) hhandled).kept
  have hlength : (InterruptFrame.ofCpu c vector errorCode).words.length = 22 :=
    rfl
  have hlt := (stackTop c rsp0).toNat_lt
  refine returns_isrExit ?_ (by rw [hreturn]; omega)
  rw [hreturn]
  refine hentered.frame.congr fun x hx hlt => hkept x hx ?_
  rw [hlength] at hlt
  omega

end Preemption

/-- The timer interrupts a task that is alone. -/
def preempted : Threads :=
  { oneTask with cpu := enter oneTask.cpu 0 0x102000 32 0 }

theorem interrupt_round_trip_timer :
    184 ≤ (stackTop oneTask.cpu 0).toNat ∧
      Entered oneTask.cpu 0 (.ofCpu oneTask.cpu 32 0) preempted.cpu ∧
      Returns (.ofCpu oneTask.cpu 32 0) (preempted.cpu.run isrExit) := by
  have hroom : 184 ≤ (stackTop oneTask.cpu 0).toNat := by decide +kernel
  obtain ⟨hentered, hreturns⟩ :=
    @interrupt_round_trip oneTask.cpu 0 0x102000 0 32 hroom
  exact ⟨hroom, hentered, hreturns preempted.cpu _ rfl hentered.frame⟩

theorem reached_preempted : Reached preempted := by
  refine ⟨preempted, [], ⟨rfl, boot_oneTask.alone, ⟨0x200000, rfl, ?_, ?_, ?_⟩,
    boot_oneTask.bound⟩, .nil _⟩
  · decide +kernel
  · decide +kernel
  · exact ⟨by decide, by decide⟩

/-- The handler has called switch_context. -/
def switching : Threads :=
  { preempted with cpu := { preempted.cpu with sp := preempted.cpu.sp - 8 } }

/-- By then there is a second task. -/
def joined : Threads := switching.initCommonSlot 1 0x300000 0x101000

/-- The second task runs, and is about to switch back. -/
def elsewhere : Threads :=
  { joined.switchTo 1 with
    cpu := { (joined.switchTo 1).cpu with sp := 0x303000 } }

theorem handled_preempted :
    Handled preempted.current (preempted.cpu.sp.toNat + 8) preempted
      (elsewhere.switchTo 0) := by
  have hcalls : Step preempted .work switching :=
    .work (fun _ _ => rfl)
      (show preempted.stackBase preempted.current = some 0x200000 from rfl)
      (by decide +kernel) (by decide +kernel)
  have hcreates : Step switching (.create 1 0x300000 0x101000) joined :=
    .create rfl ⟨free_oneTask.bound, free_oneTask.apart, free_oneTask.tasks⟩
  have hleaves : Step joined (.switch 1) (joined.switchTo 1) :=
    .switch (by decide) (by decide)
      (show joined.stackBase joined.current = some 0x200000 from rfl)
      (by decide +kernel) (by decide +kernel)
  have hruns : Step (joined.switchTo 1) .work elsewhere :=
    .work (fun _ _ => rfl)
      (show (joined.switchTo 1).stackBase 1 = some 0x300000 from rfl)
      (by decide) (by decide)
  have hback : Step elsewhere (.switch 0) (elsewhere.switchTo 0) :=
    .switch (by decide) (by decide)
      (show elsewhere.stackBase elsewhere.current = some 0x300000 from rfl)
      (by decide) (by decide)
  refine .step (.step (.step (.step (.step (.refl _) hcalls (by simp) ?_ ?_)
    hcreates (by simp) ?_ ?_) hleaves (by simp) ?_ ?_) hruns (by simp) ?_ ?_)
    hback (by simp) ?_ ?_
  · exact fun _ _ _ _ _ => rfl
  · exact fun _ next hlabel => by cases hlabel
  · exact fun _ hlabel => by cases hlabel
  · exact fun _ next hlabel => by cases hlabel
  · exact fun _ hlabel => by cases hlabel
  · exact fun _ _ _ => by decide +kernel
  · exact fun hcurrent => absurd hcurrent (by decide)
  · exact fun hcurrent => absurd hcurrent (by decide)
  · exact fun hcurrent => absurd hcurrent (by decide)
  · exact fun hcurrent => absurd hcurrent (by decide)

theorem preempted_shell_goes_on :
    Reached preempted ∧
      Returns (.ofCpu oneTask.cpu 32 0)
        ((elsewhere.switchTo 0).cpu.run isrExit) :=
  ⟨reached_preempted, preemption_transparent reached_preempted
    (show preempted.stackBase preempted.current = some 0x200000 from rfl)
    rfl (by decide +kernel) (by decide +kernel) handled_preempted
    (by decide +kernel)⟩

end Interrupts

end VenomOS
