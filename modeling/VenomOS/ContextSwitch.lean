/-
The context switch of kernel/task_switch.asm, with the stacks that
init_common_slot of kernel/task.cpp prepares for it.  The running task is any
code that keeps to its own stack; tasks are started, left, resumed and freed in
any order.
-/
import VenomOS.Processor
import VenomOS.Task

namespace VenomOS

namespace ContextSwitch

open ByteMemory StackMachine
open Tasks (Slot maxTasks taskStackSize)

/-- The System V registers that a function must leave as they were. -/
def calleeSaved : List Reg := [.rbx, .rbp, .r12, .r13, .r14, .r15]

def switchContext : List Instr :=
  [.push .rbx, .push .rbp, .push .r12, .push .r13, .push .r14, .push .r15,
    .pushfq,
    .storeRsp .rdi,
    .loadRsp .rsi,
    .popfq,
    .pop .r15, .pop .r14, .pop .r13, .pop .r12, .pop .rbp, .pop .rbx,
    .ret]

/-- What a task finds when it is resumed; `rsp` is its stack pointer after the
return. -/
structure Context where
  regs : Reg → UInt64
  rflags : UInt64
  rip : UInt64
  rsp : Nat

/-- The words below the stack pointer of a task that does not run. -/
def Context.words (context : Context) : List UInt64 :=
  context.rflags :: calleeSaved.reverse.map context.regs ++ [context.rip]

/-- The words that init_common_slot puts on a new stack. -/
def newContext (trampoline : UInt64) (base : Nat) : Context :=
  ⟨fun _ => 0, 0x202, trampoline, base + taskStackSize⟩

/-- The context in which a call of switch_context returns. -/
def contextOf (c : Cpu) : Context :=
  ⟨c.regs, c.rflags, c.top, c.sp.toNat + 8⟩

/-- The function writes only its frame and the place for rsp. -/
structure Leaves (c : Cpu) (mem : Memory) : Prop where
  saved : wordAt mem (c.regs .rdi).toNat = UInt64.ofNat (c.sp.toNat - 56)
  frame : Words mem (c.sp.toNat - 56) (contextOf c).words
  outside : ∀ x, x < c.sp.toNat - 56 ∨ c.sp.toNat ≤ x →
    x < (c.regs .rdi).toNat ∨ (c.regs .rdi).toNat + 8 ≤ x → mem x = c.mem x

structure Resumes (context : Context) (c : Cpu) : Prop where
  regs : ∀ r ∈ calleeSaved, c.regs r = context.regs r
  rflags : c.rflags = context.rflags
  rip : c.rip = context.rip
  rsp : c.sp.toNat = context.rsp

section Code

variable {c : Cpu} {context : Context}

/-- The first half of switch_context. -/
def leaveCode : List Instr :=
  calleeSaved.map .push ++ [.pushfq, .storeRsp .rdi]

/-- The second half. -/
def resumeCode : List Instr :=
  [.loadRsp .rsi, .popfq] ++ calleeSaved.reverse.map .pop ++ [.ret]

theorem switchContext_eq : switchContext = leaveCode ++ resumeCode := rfl

theorem leaves_run (hroom : 56 ≤ c.sp.toNat)
    (hapart : (c.regs .rdi).toNat + 8 ≤ c.sp.toNat - 56 ∨
      c.sp.toNat + 8 ≤ (c.regs .rdi).toNat) :
    Leaves c (c.run leaveCode).mem ∧ (c.run leaveCode).regs = c.regs := by
  obtain ⟨hregs, hsp, hstored, houtside⟩ := @Machine.pushed_pushAll Reg
    c.toMachine (calleeSaved.map c.regs ++ [c.rflags]) hroom
  generalize hm : c.toMachine.pushAll (calleeSaved.map c.regs ++ [c.rflags]) = m
    at hregs hsp hstored houtside
  have hrun : c.run leaveCode =
      { c with
        toMachine := { m with mem := putWord m.mem (m.regs .rdi).toNat m.sp } } := by
    rw [← hm]
    rfl
  have hlength : (calleeSaved.map c.regs ++ [c.rflags]).length = 7 := rfl
  have hlow : m.sp.toNat = c.sp.toNat - 56 := by
    rw [hlength] at hsp
    omega
  rw [hrun]
  dsimp only
  rw [hregs]
  refine ⟨⟨?_, ?_, fun x hx hx' => ?_⟩, rfl⟩
  · rw [wordAt_putWord, ← hlow, UInt64.ofNat_toNat]
  · rw [Context.words, words_append]
    refine ⟨?_, ?_, trivial⟩
    · rw [← hlow]
      refine hstored.congr fun x hx hlt => putWord_outside ?_
      rw [List.length_reverse, hlength] at hlt
      omega
    · have hat : c.sp.toNat - 56 + 8 * (c.rflags :: calleeSaved.reverse.map
          c.regs).length = c.sp.toNat := by
        have hseven : (c.rflags :: calleeSaved.reverse.map c.regs).length = 7 :=
          rfl
        omega
      have htop : wordAt m.mem c.sp.toNat = c.top := by
        apply wordAt_congr
        intro i _
        exact houtside _ (Or.inr (Nat.le_add_right _ _))
      rw [contextOf]
      dsimp only
      rw [hat, wordAt_putWord_apart (by omega), htop]
  · rw [putWord_outside hx']
    exact houtside x (by omega)

theorem resumes_run (hnext : Words c.mem (c.regs .rsi).toNat context.words)
    (hrsp : (c.regs .rsi).toNat + 64 = context.rsp)
    (hroom : context.rsp < 2 ^ 64) :
    Resumes context (c.run resumeCode) ∧ (c.run resumeCode).mem = c.mem := by
  obtain ⟨hflags, hrest⟩ := hnext
  obtain ⟨hregs, hlast, _⟩ := words_append.1 hrest
  have hsix : calleeSaved.reverse.length = 6 := rfl
  let start : Machine Reg := { c.toMachine with sp := c.regs .rsi }.drop 1
  have hsp : start.sp.toNat = (c.regs .rsi).toNat + 8 := by
    apply Machine.toNat_sp_drop
    dsimp only
    omega
  have hpopped := @Machine.popped_popAll Reg start
    (calleeSaved.reverse.map context.regs) _ calleeSaved.reverse (by decide)
    (List.length_map _).symm (by rw [hsp]; exact hregs) (by omega)
  generalize hm : start.popAll calleeSaved.reverse = m at hpopped
  have hrun : c.run resumeCode =
      { c with
        toMachine := m.drop 1
        rflags := wordAt c.mem (c.regs .rsi).toNat
        rip := m.top } := by
    rw [← hm]
    rfl
  have hhigh : m.sp.toNat = (c.regs .rsi).toNat + 56 := by
    rw [hpopped.sp, hsp, hsix]
  rw [hrun]
  refine ⟨⟨fun r hr => ?_, hflags, ?_, ?_⟩, hpopped.mem⟩
  · exact hpopped.restores r (List.mem_reverse.2 hr)
  · rw [List.length_map, hsix] at hlast
    rw [← hlast]
    dsimp only
    rw [Machine.top, hpopped.mem, hhigh]
    rfl
  · rw [← hrsp]
    dsimp only
    rw [Machine.toNat_sp_drop (by omega), hhigh]

/-- A whole switch from one stack to another. -/
theorem run_switchContext (hroom : 56 ≤ c.sp.toNat)
    (hapart : (c.regs .rdi).toNat + 8 ≤ c.sp.toNat - 56 ∨
      c.sp.toNat + 8 ≤ (c.regs .rdi).toNat)
    (hnext : Words c.mem (c.regs .rsi).toNat context.words)
    (hrsp : (c.regs .rsi).toNat + 64 = context.rsp)
    (hend : context.rsp < 2 ^ 64)
    (hkept : ∀ x, (c.regs .rsi).toNat ≤ x → x < context.rsp →
      (x < c.sp.toNat - 56 ∨ c.sp.toNat ≤ x) ∧
      (x < (c.regs .rdi).toNat ∨ (c.regs .rdi).toNat + 8 ≤ x)) :
    Leaves c (c.run switchContext).mem ∧
      Resumes context (c.run switchContext) := by
  obtain ⟨hleaves, hregs⟩ := leaves_run hroom hapart
  have hlength : context.words.length = 8 := rfl
  have hframe : Words (c.run leaveCode).mem ((c.run leaveCode).regs .rsi).toNat
      context.words := by
    rw [hregs]
    refine hnext.congr fun x hx hlt => ?_
    obtain ⟨hstack, hfield⟩ := hkept x hx (by omega)
    exact hleaves.outside x hstack hfield
  obtain ⟨hresumes, hmem⟩ := resumes_run hframe (by rw [hregs, hrsp]) hend
  rw [switchContext_eq, Cpu.run_append, hmem]
  exact ⟨hleaves, hresumes⟩

end Code

/-- sizeof(Task) -/
def taskSize : Nat := 120

/-- The tasks with their stacks; the array `tasks` is at `tasksAt`.  `stackBase`
says where the stack of a task is, for as long as the task may run on it.  The
field stack_base says less: it is null for the kernel's own stack, and
exit_current clears it before it leaves the stack. -/
structure Threads where
  tasksAt : Nat
  cpu : Cpu
  current : Slot
  stackBase : Slot → Option Nat

namespace Threads

section Definitions

variable (s : Threads)

/-- &tasks[i].rsp; rsp is the first field. -/
def rspField (i : Slot) : Nat := s.tasksAt + taskSize * i.val

/-- The pushes of init_common_slot, from the top of the new stack down. -/
def newStack (base : Nat) (trampoline : UInt64) : Machine Reg :=
  { s.cpu.toMachine with sp := UInt64.ofNat (base + taskStackSize) }.pushAll
    [trampoline, 0, 0, 0, 0, 0, 0, 0x202]

def initCommonSlot (slot : Slot) (base : Nat) (trampoline : UInt64) :
    Threads :=
  let stack := s.newStack base trampoline
  { s with
    cpu := { s.cpu with mem := putWord stack.mem (s.rspField slot) stack.sp }
    stackBase := Function.update s.stackBase slot (some base) }

/-- The call switch_context(&prev->rsp, next->rsp). -/
def callSwitch (next : Slot) : Cpu :=
  { s.cpu with
    regs := Function.update (Function.update s.cpu.regs .rdi
      (UInt64.ofNat (s.rspField s.current)))
      .rsi (wordAt s.cpu.mem (s.rspField next)) }

def switchTo (next : Slot) : Threads :=
  { s with cpu := (s.callSwitch next).run switchContext, current := next }

/-- A byte that the running task leaves alone: one on the stack of another
task, or one of a saved stack pointer. -/
def Guarded (x : Nat) : Prop :=
  (∃ i base, i ≠ s.current ∧ s.stackBase i = some base ∧ base ≤ x ∧
    x < base + taskStackSize) ∨
  ∃ i, s.rspField i ≤ x ∧ x < s.rspField i + 8

/-- A place for a new stack. -/
structure Free (base : Nat) : Prop where
  bound : base + taskStackSize < 2 ^ 64
  apart : ∀ i other, s.stackBase i = some other →
    base + taskStackSize ≤ other ∨ other + taskStackSize ≤ base
  tasks : base + taskStackSize ≤ s.tasksAt ∨
    s.tasksAt + taskSize * maxTasks ≤ base

end Definitions

inductive Label where
  | work
  | create (slot : Slot) (base : Nat) (trampoline : UInt64)
  | release (slot : Slot)
  | switch (next : Slot)

/-- The running task does anything that leaves the guarded bytes alone, makes
a new task, frees the stack of a task that has ended, or switches to another
task with room for the frame of switch_context on its stack. -/
inductive Step : Threads → Label → Threads → Prop
  | work {s : Threads} {c : Cpu} {base : Nat}
      (hmem : ∀ x, s.Guarded x → c.mem x = s.cpu.mem x)
      (hbase : s.stackBase s.current = some base)
      (hlow : base ≤ c.sp.toNat) (hhigh : c.sp.toNat ≤ base + taskStackSize) :
      Step s .work { s with cpu := c }
  | create {s : Threads} {slot : Slot} {base : Nat} {trampoline : UInt64}
      (hdead : s.stackBase slot = none) (hfree : s.Free base) :
      Step s (.create slot base trampoline)
        (s.initCommonSlot slot base trampoline)
  | release {s : Threads} {slot : Slot} (hne : slot ≠ s.current) :
      Step s (.release slot)
        { s with stackBase := Function.update s.stackBase slot none }
  | switch {s : Threads} {next : Slot} {base : Nat} (hne : next ≠ s.current)
      (hlive : s.stackBase next ≠ none) (hbase : s.stackBase s.current = some base)
      (hroom : base + 56 ≤ s.cpu.sp.toNat)
      (hcall : s.cpu.sp.toNat + 8 ≤ base + taskStackSize) :
      Step s (.switch next) (s.switchTo next)

inductive Run : Threads → List Label → Threads → Prop
  | nil (s : Threads) : Run s [] s
  | snoc {s s' s'' : Threads} {labels : List Label} {label : Label}
      (hrun : Run s labels s') (hstep : Step s' label s'') :
      Run s (labels ++ [label]) s''

/-- After the start of task::init: slot 0 runs on the stack of the kernel. -/
structure Boot (s : Threads) : Prop where
  current : s.current = 0
  alone : ∀ i, i ≠ 0 → s.stackBase i = none
  running : ∃ base, s.stackBase 0 = some base ∧ base ≤ s.cpu.sp.toNat ∧
    s.cpu.sp.toNat ≤ base + taskStackSize ∧ base + taskStackSize < 2 ^ 64 ∧
    (base + taskStackSize ≤ s.tasksAt ∨
      s.tasksAt + taskSize * maxTasks ≤ base)
  bound : s.tasksAt + taskSize * maxTasks < 2 ^ 64

def Reached (s : Threads) : Prop :=
  ∃ start labels, Boot start ∧ Run start labels s

/-- Task `i` waits on its stack to go on in `context`. -/
structure Suspended (s : Threads) (i : Slot) (base : Nat) (context : Context) :
    Prop where
  saved : wordAt s.cpu.mem (s.rspField i) = UInt64.ofNat (context.rsp - 64)
  low : base + 64 ≤ context.rsp
  high : context.rsp ≤ base + taskStackSize
  frame : Words s.cpu.mem (context.rsp - 64) context.words

structure Sound (s : Threads) : Prop where
  running : ∃ base, s.stackBase s.current = some base ∧ base ≤ s.cpu.sp.toNat ∧
    s.cpu.sp.toNat ≤ base + taskStackSize
  fits : ∀ i base, s.stackBase i = some base → base + taskStackSize < 2 ^ 64 ∧
    (base + taskStackSize ≤ s.tasksAt ∨
      s.tasksAt + taskSize * maxTasks ≤ base)
  apart : ∀ i j base other, i ≠ j → s.stackBase i = some base →
    s.stackBase j = some other →
    base + taskStackSize ≤ other ∨ other + taskStackSize ≤ base
  bound : s.tasksAt + taskSize * maxTasks < 2 ^ 64
  suspended : ∀ i base, i ≠ s.current → s.stackBase i = some base →
    ∃ context, s.Suspended i base context

variable {s s' : Threads} {i j next : Slot} {base other x : Nat}
  {label : Label} {context : Context}

theorem rspField_bounds : s.tasksAt ≤ s.rspField i ∧
    s.rspField i + 8 ≤ s.tasksAt + taskSize * maxTasks := by
  have hi := i.isLt
  simp only [rspField, taskSize, maxTasks] at *
  omega

theorem rspField_apart (hne : i ≠ j) :
    s.rspField i + 8 ≤ s.rspField j ∨ s.rspField j + 8 ≤ s.rspField i := by
  have hval : i.val ≠ j.val := fun heq => hne (Fin.ext heq)
  simp only [rspField, taskSize] at *
  omega

theorem ne_of_dead (hdead : s.stackBase j = none)
    (hlive : s.stackBase i = some base) : i ≠ j := by
  rintro rfl
  rw [hdead] at hlive
  cases hlive

/-- The saved pointer and the whole stack of task `i`. -/
def Kept (s : Threads) (i : Slot) (base : Nat) (mem : Memory) : Prop :=
  (∀ x, s.rspField i ≤ x → x < s.rspField i + 8 → mem x = s.cpu.mem x) ∧
    ∀ x, base ≤ x → x < base + taskStackSize → mem x = s.cpu.mem x

theorem Suspended.of_kept (hsuspended : s.Suspended i base context)
    (hkept : s.Kept i base s'.cpu.mem) (htasks : s'.tasksAt = s.tasksAt) :
    s'.Suspended i base context := by
  obtain ⟨hsaved, hlow, hhigh, hframe⟩ := hsuspended
  have hfield : s'.rspField i = s.rspField i := by
    rw [rspField, rspField, htasks]
  refine ⟨?_, hlow, hhigh, ?_⟩
  · rw [hfield, ← hsaved]
    apply wordAt_congr
    intro k hk
    exact hkept.1 _ (by omega) (by omega)
  · have hlength : context.words.length = 8 := rfl
    refine hframe.congr fun x hx hlt => hkept.2 x (by omega) (by omega)

variable {trampoline : UInt64} {labels : List Label} {slot : Slot}

/-- A new task waits to enter task_trampoline; nothing else is touched. -/
theorem initCommonSlot_spec (hfree : s.Free base) :
    (s.initCommonSlot slot base trampoline).Suspended slot base
        (newContext trampoline base) ∧
      ∀ x, x < base ∨ base + taskStackSize ≤ x →
        x < s.rspField slot ∨ s.rspField slot + 8 ≤ x →
        (s.initCommonSlot slot base trampoline).cpu.mem x = s.cpu.mem x := by
  have hfield := @rspField_bounds s slot
  have hend := hfree.bound
  have htasks := hfree.tasks
  have htop : (UInt64.ofNat (base + taskStackSize)).toNat =
      base + taskStackSize := by
    rw [UInt64.toNat_ofNat', Nat.mod_eq_of_lt hend]
  have hsize : taskStackSize = 16384 := rfl
  have hpushed := @Machine.pushed_pushAll Reg
    { s.cpu.toMachine with sp := UInt64.ofNat (base + taskStackSize) }
    [trampoline, 0, 0, 0, 0, 0, 0, 0x202] (by
      dsimp only
      rw [htop]
      simp only [List.length_cons, List.length_nil]
      omega)
  generalize hm : s.newStack base trampoline = m
  rw [newStack] at hm
  rw [hm] at hpushed
  obtain ⟨_, hsp, hstored, houtside⟩ := hpushed
  dsimp only at hsp houtside
  rw [htop] at hsp houtside
  simp only [List.length_cons, List.length_nil] at hsp
  have hmem : (s.initCommonSlot slot base trampoline).cpu.mem =
      putWord m.mem (s.rspField slot) m.sp := by
    rw [initCommonSlot, newStack, hm]
  have hlow : m.sp.toNat = base + taskStackSize - 64 := by omega
  refine ⟨⟨?_, ?_, le_rfl, ?_⟩, fun x hx hx' => ?_⟩
  · rw [hmem]
    refine wordAt_putWord.trans ?_
    rw [newContext, ← hlow, UInt64.ofNat_toNat]
  · rw [newContext]
    dsimp only
    omega
  · rw [hmem, newContext]
    dsimp only
    rw [← hlow]
    refine hstored.congr fun x hx hlt => putWord_outside ?_
    simp only [List.length_reverse, List.length_cons, List.length_nil] at hlt
    omega
  · rw [hmem, putWord_outside hx']
    exact houtside x (by omega)

/-- A switch: the task that leaves waits to return from its call, the other
one goes on, and only the unused part of a stack has been written. -/
theorem switchTo_spec (hsound : s.Sound) (hne : next ≠ s.current)
    (hnext : s.stackBase next = some other)
    (hbase : s.stackBase s.current = some base)
    (hroom : base + 56 ≤ s.cpu.sp.toNat)
    (hcall : s.cpu.sp.toNat + 8 ≤ base + taskStackSize)
    (hsuspended : s.Suspended next other context) :
    Resumes context (s.switchTo next).cpu ∧
      (s.switchTo next).Suspended s.current base (contextOf s.cpu) ∧
      ∀ x, x < s.cpu.sp.toNat - 56 ∨ s.cpu.sp.toNat ≤ x →
        x < s.rspField s.current ∨ s.rspField s.current + 8 ≤ x →
        (s.switchTo next).cpu.mem x = s.cpu.mem x := by
  have hfield := @rspField_bounds s s.current
  have hbound := hsound.bound
  obtain ⟨hend, htasks⟩ := hsound.fits _ _ hbase
  obtain ⟨hend', htasks'⟩ := hsound.fits _ _ hnext
  have hapart := hsound.apart _ _ _ _ hne hnext hbase
  obtain ⟨hsaved, hlow, hhigh, hframe⟩ := hsuspended
  have hrdi : ((s.callSwitch next).regs .rdi).toNat = s.rspField s.current := by
    have hvalue : (s.callSwitch next).regs .rdi =
        UInt64.ofNat (s.rspField s.current) := rfl
    rw [hvalue, UInt64.toNat_ofNat', Nat.mod_eq_of_lt (by omega)]
  have hrsi : ((s.callSwitch next).regs .rsi).toNat = context.rsp - 64 := by
    have hvalue : (s.callSwitch next).regs .rsi =
        wordAt s.cpu.mem (s.rspField next) := rfl
    rw [hvalue, hsaved, UInt64.toNat_ofNat', Nat.mod_eq_of_lt (by omega)]
  have hsp : (s.callSwitch next).sp = s.cpu.sp := rfl
  have hmem : (s.callSwitch next).mem = s.cpu.mem := rfl
  obtain ⟨⟨hleft, hleftFrame, houtside⟩, hresumes⟩ :=
    @run_switchContext (s.callSwitch next) context (by rw [hsp]; omega)
      (by rw [hrdi, hsp]; omega) (by rw [hrsi]; exact hframe)
      (by rw [hrsi]; omega) (by omega) (by
        intro x hx hlt
        rw [hrsi] at hx
        rw [hrdi, hsp]
        omega)
  rw [hrdi, hsp] at hleft
  rw [hsp] at hleftFrame
  rw [hrdi, hsp, hmem] at houtside
  refine ⟨hresumes, ⟨?_, ?_, ?_, ?_⟩, houtside⟩
  · rw [contextOf]
    dsimp only
    rw [show s.cpu.sp.toNat + 8 - 64 = s.cpu.sp.toNat - 56 by omega]
    exact hleft
  · rw [contextOf]
    dsimp only
    omega
  · exact hcall
  · rw [contextOf]
    dsimp only
    rw [show s.cpu.sp.toNat + 8 - 64 = s.cpu.sp.toNat - 56 by omega]
    exact hleftFrame

/-- No step touches the stack or the saved pointer of a task that waits. -/
theorem Step.kept (hstep : Step s label s') (hsound : s.Sound)
    (hne : i ≠ s.current) (hbase : s.stackBase i = some base) :
    s.Kept i base s'.cpu.mem := by
  have hfield := @rspField_bounds s i
  obtain ⟨_, htasks⟩ := hsound.fits _ _ hbase
  cases hstep with
  | work hmem _ _ _ =>
      exact ⟨fun x hx hlt => hmem x (Or.inr ⟨i, hx, hlt⟩),
        fun x hx hlt => hmem x (Or.inl ⟨i, base, hne, hbase, hx, hlt⟩)⟩
  | @create slot place trampoline hdead hfree =>
      have hslot := ne_of_dead hdead hbase
      have hother := @rspField_bounds s slot
      have hfields := @rspField_apart s _ _ hslot
      have hplace := hfree.tasks
      have hapart := hfree.apart _ _ hbase
      have houtside := (@initCommonSlot_spec s place trampoline slot hfree).2
      exact ⟨fun x hx hlt => houtside x (by omega) (by omega),
        fun x hx hlt => houtside x (by omega) (by omega)⟩
  | release _ => exact ⟨fun _ _ _ => rfl, fun _ _ _ => rfl⟩
  | @switch next place hnext hlive hcurrent hroom hcall =>
      obtain ⟨other, hother⟩ := Option.ne_none_iff_exists'.1 hlive
      obtain ⟨context, hsuspended⟩ := hsound.suspended _ _ hnext hother
      have houtside := (switchTo_spec hsound hnext hother hcurrent hroom hcall
        hsuspended).2.2
      have hlast := @rspField_bounds s s.current
      have hfields := @rspField_apart s _ _ hne
      have hapart := hsound.apart _ _ _ _ hne hbase hcurrent
      obtain ⟨_, hplace⟩ := hsound.fits _ _ hcurrent
      exact ⟨fun x hx hlt => houtside x (by omega) (by omega),
        fun x hx hlt => houtside x (by omega) (by omega)⟩

theorem Step.tasksAt_eq (hstep : Step s label s') : s'.tasksAt = s.tasksAt := by
  cases hstep <;> rfl

theorem Step.suspended (hstep : Step s label s') (hsound : s.Sound)
    (hne : i ≠ s.current) (hbase : s.stackBase i = some base)
    (hsuspended : s.Suspended i base context) :
    s'.Suspended i base context :=
  hsuspended.of_kept (hstep.kept hsound hne hbase) hstep.tasksAt_eq

theorem Sound.suspended_after (hsound : s.Sound) (hstep : Step s label s')
    (hne : i ≠ s.current) (hbase : s.stackBase i = some base) :
    ∃ context, s'.Suspended i base context := by
  obtain ⟨context, hsuspended⟩ := hsound.suspended i base hne hbase
  exact ⟨context, hstep.suspended hsound hne hbase hsuspended⟩

theorem Sound.create (hsound : s.Sound) (hdead : s.stackBase slot = none)
    (hfree : s.Free base) :
    (s.initCommonSlot slot base trampoline).Sound := by
  have hstep := @Step.create s slot base trampoline hdead hfree
  have hvalue : ∀ i place, (s.initCommonSlot slot base trampoline).stackBase i =
      some place → (i = slot ∧ place = base) ∨
        (i ≠ slot ∧ s.stackBase i = some place) := by
    intro i place hplace
    by_cases hi : i = slot
    · subst hi
      simp only [initCommonSlot, Function.update_self, Option.some.injEq]
        at hplace
      exact Or.inl ⟨rfl, hplace.symm⟩
    · simp only [initCommonSlot, Function.update_of_ne hi] at hplace
      exact Or.inr ⟨hi, hplace⟩
  refine ⟨?_, fun i place hplace => ?_, fun i j place place' hij hi hj => ?_,
    hsound.bound, fun i place hi hplace => ?_⟩
  · obtain ⟨running, hrunning, hin⟩ := hsound.running
    have hother := ne_of_dead hdead hrunning
    refine ⟨running, ?_, hin⟩
    simp only [initCommonSlot, Function.update_of_ne hother]
    exact hrunning
  · rcases hvalue i place hplace with ⟨_, rfl⟩ | ⟨_, hold⟩
    · exact ⟨hfree.bound, hfree.tasks⟩
    · exact hsound.fits i place hold
  · rcases hvalue i place hi with ⟨rfl, rfl⟩ | ⟨_, hold⟩
    · rcases hvalue j place' hj with ⟨rfl, _⟩ | ⟨_, hold'⟩
      · exact absurd rfl hij
      · exact hfree.apart j place' hold'
    · rcases hvalue j place' hj with ⟨_, rfl⟩ | ⟨_, hold'⟩
      · exact (hfree.apart i place hold).symm
      · exact hsound.apart i j place place' hij hold hold'
  · rcases hvalue i place hplace with ⟨rfl, rfl⟩ | ⟨_, hold⟩
    · exact ⟨_, (initCommonSlot_spec hfree).1⟩
    · exact hsound.suspended_after hstep hi hold

theorem Sound.release (hsound : s.Sound) (hne : slot ≠ s.current) :
    Sound { s with stackBase := Function.update s.stackBase slot none } := by
  have hvalue : ∀ i place, Function.update s.stackBase slot none i = some place →
      s.stackBase i = some place := by
    intro i place hplace
    by_cases hi : i = slot
    · subst hi
      rw [Function.update_self] at hplace
      cases hplace
    · rwa [Function.update_of_ne hi] at hplace
  refine ⟨?_, fun i place hplace => hsound.fits i place (hvalue i place hplace),
    fun i j place place' hij hi hj => hsound.apart i j place place' hij
      (hvalue i place hi) (hvalue j place' hj), hsound.bound,
    fun i place hi hplace => ?_⟩
  · obtain ⟨running, hrunning, hin⟩ := hsound.running
    refine ⟨running, ?_, hin⟩
    dsimp only
    rw [Function.update_of_ne hne.symm]
    exact hrunning
  · exact hsound.suspended_after (.release hne) hi (hvalue i place hplace)

theorem Step.sound (hstep : Step s label s') (hsound : s.Sound) : s'.Sound := by
  have hkept := hstep
  cases hstep with
  | work hmem hbase hlow hhigh =>
      exact ⟨⟨_, hbase, hlow, hhigh⟩, hsound.fits, hsound.apart, hsound.bound,
        fun i place hi hplace => hsound.suspended_after hkept hi hplace⟩
  | create hdead hfree => exact hsound.create hdead hfree
  | release hne => exact hsound.release hne
  | @switch next base hne hlive hbase hroom hcall =>
      obtain ⟨other, hother⟩ := Option.ne_none_iff_exists'.1 hlive
      obtain ⟨context, hnext⟩ := hsound.suspended _ _ hne hother
      obtain ⟨hresumes, hleft, _⟩ :=
        switchTo_spec hsound hne hother hbase hroom hcall hnext
      refine ⟨⟨other, hother, ?_, ?_⟩, hsound.fits, hsound.apart, hsound.bound,
        fun i place hi hplace => ?_⟩
      · rw [hresumes.rsp]
        have hlow := hnext.low
        omega
      · rw [hresumes.rsp]
        exact hnext.high
      · by_cases hcurrent : i = s.current
        · subst hcurrent
          obtain rfl : base = place := by
            rw [← Option.some.injEq, ← hbase]
            exact hplace
          exact ⟨_, hleft⟩
        · exact hsound.suspended_after hkept hcurrent hplace

theorem Boot.sound (hboot : Boot s) : s.Sound := by
  obtain ⟨hcurrent, halone, ⟨base, hbase, hlow, hhigh, hend, htasks⟩, hbound⟩ :=
    hboot
  have honly : ∀ i place, s.stackBase i = some place → i = 0 ∧ place = base := by
    intro i place hplace
    have hi : i = 0 := by
      by_contra hne
      rw [halone i hne] at hplace
      cases hplace
    subst hi
    rw [hbase] at hplace
    exact ⟨rfl, (Option.some.inj hplace).symm⟩
  refine ⟨⟨base, by rw [hcurrent, hbase], hlow, hhigh⟩, fun i place hplace => ?_,
    fun i j place other hij hi hj => ?_, hbound, fun i place hi hplace => ?_⟩
  · obtain ⟨_, rfl⟩ := honly i place hplace
    exact ⟨hend, htasks⟩
  · exact absurd ((honly i place hi).1.trans (honly j other hj).1.symm) hij
  · exact absurd ((honly i place hplace).1.trans hcurrent.symm) hi

theorem Run.sound (hrun : Run s labels s') (hsound : s.Sound) : s'.Sound := by
  induction hrun with
  | nil => exact hsound
  | snoc _ hstep ih => exact hstep.sound ih

theorem Reached.sound (hreached : Reached s) : s.Sound := by
  obtain ⟨start, labels, hboot, hrun⟩ := hreached
  exact hrun.sound hboot.sound

/-- Task `i` does not run and goes on in `context` when it is resumed. -/
structure Waits (s : Threads) (i : Slot) (base : Nat) (context : Context) :
    Prop where
  idle : i ≠ s.current
  live : s.stackBase i = some base
  suspended : s.Suspended i base context

theorem Step.stackBase (hstep : Step s label s')
    (hbase : s.stackBase i = some base) (hlive : label ≠ .release i) :
    s'.stackBase i = some base := by
  cases hstep with
  | work => exact hbase
  | create hdead _ =>
      simp only [initCommonSlot, Function.update_of_ne (ne_of_dead hdead hbase)]
      exact hbase
  | @release slot _ =>
      have hslot : i ≠ slot := fun heq => hlive (heq ▸ rfl)
      dsimp only
      rw [Function.update_of_ne hslot]
      exact hbase
  | switch => exact hbase

theorem Waits.step (hwaits : s.Waits i base context) (hstep : Step s label s')
    (hsound : s.Sound) (hswitch : label ≠ .switch i)
    (hrelease : label ≠ .release i) : s'.Waits i base context := by
  obtain ⟨hidle, hlive, hsuspended⟩ := hwaits
  refine ⟨?_, hstep.stackBase hlive hrelease,
    hstep.suspended hsound hidle hlive hsuspended⟩
  cases hstep with
  | switch => exact fun heq => hswitch (heq ▸ rfl)
  | _ => exact hidle

/-- A task that waits is left alone by every run that does not concern it. -/
theorem Waits.run (hwaits : s.Waits i base context) (hrun : Run s labels s')
    (hsound : s.Sound)
    (haway : ∀ label ∈ labels, label ≠ .switch i ∧ label ≠ .release i) :
    s'.Waits i base context ∧ ∀ x, base ≤ x → x < base + taskStackSize →
      s'.cpu.mem x = s.cpu.mem x := by
  induction hrun with
  | nil => exact ⟨hwaits, fun _ _ _ => rfl⟩
  | @snoc middle last labels label hrun hstep ih =>
      obtain ⟨hmiddle, hstack⟩ := ih fun other hother =>
        haway other (List.mem_append_left _ hother)
      obtain ⟨hswitch, hrelease⟩ := haway label
        (List.mem_append_right _ List.mem_cons_self)
      have hsame := hrun.sound hsound
      refine ⟨hmiddle.step hstep hsame hswitch hrelease, fun x hx hlt => ?_⟩
      rw [(hstep.kept hsame hmiddle.idle hmiddle.live).2 x hx hlt]
      exact hstack x hx hlt

/-- A switch to a task that waits. -/
theorem Waits.resumes (hwaits : s.Waits i base context) (hsound : s.Sound)
    (hstep : Step s (.switch i) s') :
    s'.current = i ∧ Resumes context s'.cpu ∧
      ∀ x, base ≤ x → x < base + taskStackSize →
        s'.cpu.mem x = s.cpu.mem x := by
  have hkept := (hstep.kept hsound hwaits.idle hwaits.live).2
  cases hstep with
  | @switch _ place hne hother hbase hroom hcall =>
      exact ⟨rfl, (switchTo_spec hsound hne hwaits.live hbase hroom hcall
        hwaits.suspended).1, hkept⟩

variable {s₁ s₂ s₃ : Threads} {labels : List Label}

/-- A task resumes as it left: whatever the other tasks do in between, its
call of switch_context returns to where it was made, with the registers a
function must keep, the flags and the whole used stack unchanged. -/
theorem task_resumes_as_left (hreached : Reached s)
    (hbase : s.stackBase s.current = some base)
    (hleave : Step s (.switch next) s₁) (hrun : Run s₁ labels s₂)
    (haway : ∀ label ∈ labels,
      label ≠ .switch s.current ∧ label ≠ .release s.current)
    (hback : Step s₂ (.switch s.current) s₃) :
    s₃.current = s.current ∧ Resumes (contextOf s.cpu) s₃.cpu ∧
      ∀ x, s.cpu.sp.toNat ≤ x → x < base + taskStackSize →
        s₃.cpu.mem x = s.cpu.mem x := by
  have hsound := hreached.sound
  have hsound₁ := hleave.sound hsound
  have hsound₂ := hrun.sound hsound₁
  obtain ⟨hwaits, hsame⟩ : s₁.Waits s.current base (contextOf s.cpu) ∧
      ∀ x, s.cpu.sp.toNat ≤ x → x < base + taskStackSize →
        s₁.cpu.mem x = s.cpu.mem x := by
    cases hleave with
    | @switch _ place hne hlive hplace hroom hcall =>
        obtain rfl := Option.some.inj (hplace.symm.trans hbase)
        obtain ⟨other, hother⟩ := Option.ne_none_iff_exists'.1 hlive
        obtain ⟨context, hnext⟩ := hsound.suspended _ _ hne hother
        obtain ⟨_, hleft, houtside⟩ :=
          switchTo_spec hsound hne hother hbase hroom hcall hnext
        refine ⟨⟨hne.symm, hbase, hleft⟩, fun x hx hlt => ?_⟩
        have hfield := @rspField_bounds s s.current
        obtain ⟨_, htasks⟩ := hsound.fits _ _ hbase
        exact houtside x (Or.inr hx) (by omega)
  obtain ⟨hwaits₂, hsame₂⟩ := hwaits.run hrun hsound₁ haway
  obtain ⟨hcurrent, hresumes, hsame₃⟩ := hwaits₂.resumes hsound₂ hback
  refine ⟨hcurrent, hresumes, fun x hx hlt => ?_⟩
  have hlow : base ≤ s.cpu.sp.toNat := by
    obtain ⟨place, hplace, hle, _⟩ := hsound.running
    obtain rfl := Option.some.inj (hplace.symm.trans hbase)
    exact hle
  rw [hsame₃ x (by omega) hlt, hsame₂ x (by omega) hlt, hsame x hx hlt]

/-- A new task starts at the trampoline, with interrupts on, zero registers
and an empty stack. -/
theorem task_starts_at_trampoline {slot : Slot} {trampoline : UInt64}
    (hreached : Reached s) (hcreate : Step s (.create slot base trampoline) s₁)
    (hrun : Run s₁ labels s₂)
    (haway : ∀ label ∈ labels, label ≠ .switch slot ∧ label ≠ .release slot)
    (hfirst : Step s₂ (.switch slot) s₃) :
    s₃.current = slot ∧ Resumes (newContext trampoline base) s₃.cpu := by
  have hsound := hreached.sound
  have hsound₁ := hcreate.sound hsound
  have hwaits : s₁.Waits slot base (newContext trampoline base) := by
    cases hcreate with
    | create hdead hfree =>
        refine ⟨?_, ?_, (initCommonSlot_spec hfree).1⟩
        · obtain ⟨place, hplace, _⟩ := hsound.running
          exact (ne_of_dead hdead hplace).symm
        · simp only [initCommonSlot, Function.update_self]
  obtain ⟨hwaits₂, _⟩ := hwaits.run hrun hsound₁ haway
  obtain ⟨hcurrent, hresumes, _⟩ :=
    hwaits₂.resumes (hrun.sound hsound₁) hfirst
  exact ⟨hcurrent, hresumes⟩

/-- Slot 0 runs alone. -/
def oneTask : Threads where
  tasksAt := 0x100000
  cpu :=
    { regs := fun _ => 7
      sp := 0x203000
      mem := fun _ => 0
      rip := 0
      rflags := 2
      cs := 0x18
      ss := 0 }
  current := 0
  stackBase := fun i => if i = 0 then some 0x200000 else none

theorem boot_oneTask : Boot oneTask where
  current := rfl
  alone := fun _ hi => if_neg hi
  running := ⟨0x200000, rfl, by decide, by decide, by decide, by decide⟩
  bound := by decide

theorem free_oneTask : oneTask.Free 0x300000 where
  bound := by decide
  apart := by
    intro i other hother
    have hi : i = 0 := by
      by_contra hne
      rw [show oneTask.stackBase i = none from if_neg hne] at hother
      cases hother
    subst hi
    obtain rfl : 0x200000 = other := Option.some.inj hother
    exact Or.inr (by decide)
  tasks := by decide

/-- With a second task in slot 1. -/
def twoTasks : Threads := oneTask.initCommonSlot 1 0x300000 0x101000

theorem create_twoTasks : Step oneTask (.create 1 0x300000 0x101000) twoTasks :=
  .create rfl free_oneTask

theorem reached_twoTasks : Reached twoTasks :=
  ⟨oneTask, _, boot_oneTask, .snoc (.nil _) create_twoTasks⟩

theorem switch_twoTasks : Step twoTasks (.switch 1) (twoTasks.switchTo 1) :=
  .switch (by decide) (by decide)
    (show twoTasks.stackBase twoTasks.current = some 0x200000 from rfl)
    (by decide) (by decide)

/-- The second task has made some calls. -/
def busyTask : Threads :=
  { twoTasks.switchTo 1 with
    cpu := { (twoTasks.switchTo 1).cpu with sp := 0x303000 } }

theorem run_busyTask : Run (twoTasks.switchTo 1) [.work] busyTask :=
  .snoc (.nil _) (.work (fun _ _ => rfl)
    (show (twoTasks.switchTo 1).stackBase 1 = some 0x300000 from rfl)
    (by decide) (by decide))

theorem switch_busyTask : Step busyTask (.switch 0) (busyTask.switchTo 0) :=
  .switch (by decide) (by decide)
    (show busyTask.stackBase busyTask.current = some 0x300000 from rfl)
    (by decide) (by decide)

theorem shell_resumes_as_left :
    ∃ s₁ s₂ s₃, Reached twoTasks ∧ Step twoTasks (.switch 1) s₁ ∧
      Run s₁ [.work] s₂ ∧ Step s₂ (.switch 0) s₃ ∧
      Resumes (contextOf twoTasks.cpu) s₃.cpu := by
  refine ⟨_, _, _, reached_twoTasks, switch_twoTasks, run_busyTask,
    switch_busyTask, ?_⟩
  exact (task_resumes_as_left reached_twoTasks
    (show twoTasks.stackBase twoTasks.current = some 0x200000 from rfl)
    switch_twoTasks run_busyTask (by simp) switch_busyTask).2.1

theorem second_task_starts :
    Reached oneTask ∧ Step oneTask (.create 1 0x300000 0x101000) twoTasks ∧
      Step twoTasks (.switch 1) (twoTasks.switchTo 1) ∧
      Resumes (newContext 0x101000 0x300000) (twoTasks.switchTo 1).cpu := by
  have hreached : Reached oneTask := ⟨oneTask, [], boot_oneTask, .nil _⟩
  exact ⟨hreached, create_twoTasks, switch_twoTasks,
    (task_starts_at_trampoline hreached create_twoTasks (.nil _) (by simp)
      switch_twoTasks).2⟩

end Threads

end ContextSwitch

end VenomOS
