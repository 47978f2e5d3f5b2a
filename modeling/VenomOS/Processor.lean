/-
The part of the processor that the assembly files of the kernel use: the
general registers, the stack pointer and the instructions of
kernel/task_switch.asm and kernel/interrupts.asm.  Code without jumps is a list
of instructions; the instruction pointer is followed only where it is loaded
from the stack.
-/
import VenomOS.StackMachine

namespace VenomOS

open ByteMemory StackMachine

/-- The general registers.  The kernel saves no other ones: neither those of
the x87 and SSE units nor the data segment registers are here. -/
inductive Reg where
  | rax
  | rbx
  | rcx
  | rdx
  | rbp
  | rdi
  | rsi
  | r8
  | r9
  | r10
  | r11
  | r12
  | r13
  | r14
  | r15
deriving Repr, DecidableEq

/-- The field `sp` of the machine is rsp. -/
structure Cpu extends Machine Reg where
  rip : UInt64
  rflags : UInt64
  cs : UInt64
  ss : UInt64

inductive Instr where
  | push (r : Reg)
  | pushImm (value : UInt64)
  | pop (r : Reg)
  | pushfq
  | popfq
  /-- mov [r], rsp -/
  | storeRsp (r : Reg)
  /-- mov rsp, r -/
  | loadRsp (r : Reg)
  | subRsp (bytes : UInt64)
  | addRsp (bytes : UInt64)
  /-- lea r, [rsp + offset] -/
  | leaRsp (r : Reg) (offset : UInt64)
  | ret
  | iretq

namespace Cpu

def pushWord (c : Cpu) (word : UInt64) : Cpu :=
  { c with toMachine := c.toMachine.push word }

/-- In 64-bit mode iretq always loads rsp and ss as well. -/
def exec (c : Cpu) : Instr → Cpu
  | .push r => c.pushWord (c.regs r)
  | .pushImm value => c.pushWord value
  | .pop r => { c with toMachine := c.toMachine.pop r }
  | .pushfq => c.pushWord c.rflags
  | .popfq => { c with toMachine := c.toMachine.drop 1, rflags := c.top }
  | .storeRsp r => { c with mem := putWord c.mem (c.regs r).toNat c.sp }
  | .loadRsp r => { c with sp := c.regs r }
  | .subRsp bytes => { c with sp := c.sp - bytes }
  | .addRsp bytes => { c with sp := c.sp + bytes }
  | .leaRsp r offset =>
      { c with regs := Function.update c.regs r (c.sp + offset) }
  | .ret => { c with toMachine := c.toMachine.drop 1, rip := c.top }
  | .iretq =>
      { c with
        rip := wordAt c.mem c.sp.toNat
        cs := wordAt c.mem (c.sp.toNat + 8)
        rflags := wordAt c.mem (c.sp.toNat + 16)
        sp := wordAt c.mem (c.sp.toNat + 24)
        ss := wordAt c.mem (c.sp.toNat + 32) }

def run (c : Cpu) (code : List Instr) : Cpu := code.foldl exec c

variable {c : Cpu} {rs : List Reg}

theorem run_append (first second : List Instr) :
    c.run (first ++ second) = (c.run first).run second :=
  List.foldl_append

theorem run_push :
    c.run (rs.map .push) =
      { c with toMachine := c.toMachine.pushAll (rs.map c.regs) } := by
  induction rs generalizing c with
  | nil => rfl
  | cons r rs ih =>
      have hstep : c.run ((r :: rs).map .push) =
          (c.pushWord (c.regs r)).run (rs.map .push) := rfl
      rw [hstep, ih]
      rfl

theorem run_pushImm (words : List UInt64) :
    c.run (words.map .pushImm) =
      { c with toMachine := c.toMachine.pushAll words } := by
  induction words generalizing c with
  | nil => rfl
  | cons word words ih =>
      have hstep : c.run ((word :: words).map .pushImm) =
          (c.pushWord word).run (words.map .pushImm) := rfl
      rw [hstep, ih]
      rfl

theorem run_pop :
    c.run (rs.map .pop) = { c with toMachine := c.toMachine.popAll rs } := by
  induction rs generalizing c with
  | nil => rfl
  | cons r rs ih =>
      have hstep : c.run ((r :: rs).map .pop) =
          (c.exec (.pop r)).run (rs.map .pop) := rfl
      rw [hstep, ih]
      rfl

end Cpu

end VenomOS
