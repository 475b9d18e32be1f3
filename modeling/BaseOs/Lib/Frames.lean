import BaseOs.Lib.Asm

set_option autoImplicit false

/-! # Routines on a stack

The instructions of the glue between programs and C functions: pushes and pops, comparisons with jumps
forward, calls, and the instruction that goes through a gate. The stack is a list of words with its top
first. A C function is known by what the calling convention promises of it (`Cdecl`): where its result is,
and what it may have changed. An interrupt goes through a gate on a stack of its own (`trap`), and comes
back only if the words the processor has put there are on top again. -/

namespace Asm

/-- The registers a program sees, the flags of comparisons, and the stack. -/
structure Regs where
  eax : UInt32
  ebx : UInt32
  ecx : UInt32
  edx : UInt32
  esi : UInt32
  edi : UInt32
  ebp : UInt32
  cf : Bool
  zf : Bool
  stack : List UInt32

/-- The registers, and the rest of the system. -/
structure StackCpu (κ : Type*) extends Regs where
  world : κ

inductive StackReg
  | eax | ebx | ecx | edx | esi | edi | ebp

def Regs.get (c : Regs) : StackReg → UInt32
  | .eax => c.eax
  | .ebx => c.ebx
  | .ecx => c.ecx
  | .edx => c.edx
  | .esi => c.esi
  | .edi => c.edi
  | .ebp => c.ebp

def Regs.set (c : Regs) (v : UInt32) : StackReg → Regs
  | .eax => { c with eax := v }
  | .ebx => { c with ebx := v }
  | .ecx => { c with ecx := v }
  | .edx => { c with edx := v }
  | .esi => { c with esi := v }
  | .edi => { c with edi := v }
  | .ebp => { c with ebp := v }

/-- The stack pointer, with the stack at the end of the address space. -/
def Regs.esp (c : Regs) : UInt32 := -UInt32.ofNat (4 * c.stack.length)

variable {κ α : Type*}

/-- A routine; `none` if it does not come back. -/
abbrev CpuRoutine (κ : Type*) := StackCpu κ → Option (StackCpu κ)

inductive StackInstr (α κ : Type*)
  | label (l : α)
  | push (r : StackReg)
  | pop (r : StackReg)
  | movImm (imm : UInt32) (r : StackReg)
  /-- `movl disp(%esp), %r`, with the displacement in words. -/
  | load (disp : Nat) (r : StackReg)
  /-- `cmpl $imm, %r`. -/
  | cmpImm (imm : UInt32) (r : StackReg)
  | jae (l : α)
  | jbe (l : α)
  | jmp (l : α)
  | pushal
  | popal
  | call (f : CpuRoutine κ)
  /-- `call *table(, %r, 4)`. -/
  | callTable (table : List (CpuRoutine κ)) (r : StackReg)
  /-- `int`, with the routine behind its gate. -/
  | int (gate : CpuRoutine κ)
  | ret

def StackInstr.name : StackInstr α κ → Option α
  | .label l => some l
  | _ => none

/-- Take the top of the stack into a register. -/
def Regs.pop (c : Regs) (r : StackReg) : Option Regs :=
  match c.stack with
  | [] => none
  | v :: stack => some ({ c with stack := stack }.set v r)

/-- `popal`; the stack pointer on the stack is passed over. -/
def Regs.popal (c : Regs) : Option Regs :=
  match c.stack with
  | edi :: esi :: ebp :: _ :: ebx :: edx :: ecx :: eax :: stack => some
      { c with
        edi := edi, esi := esi, ebp := ebp, ebx := ebx, edx := edx, ecx := ecx, eax := eax, stack := stack }
  | _ => none

/-- One instruction, with the label it jumps to. -/
def stackStep (c : StackCpu κ) : StackInstr α κ → Option (StackCpu κ × Option α)
  | .label _ => some (c, none)
  | .push r => some ({ c with stack := c.get r :: c.stack }, none)
  | .pop r => (c.toRegs.pop r).map fun regs => ({ c with toRegs := regs }, none)
  | .movImm imm r => some ({ c with toRegs := c.toRegs.set imm r }, none)
  | .load disp r => c.stack[disp]?.map fun v => ({ c with toRegs := c.toRegs.set v r }, none)
  | .cmpImm imm r => some ({ c with cf := c.get r < imm, zf := c.get r == imm }, none)
  | .jae l => some (c, if c.cf then none else some l)
  | .jbe l => some (c, if c.cf || c.zf then some l else none)
  | .jmp l => some (c, some l)
  | .pushal =>
    some ({ c with
      stack := c.edi :: c.esi :: c.ebp :: c.esp :: c.ebx :: c.edx :: c.ecx :: c.eax :: c.stack }, none)
  | .popal => c.toRegs.popal.map fun regs => ({ c with toRegs := regs }, none)
  | .call f => (f c).map fun c => (c, none)
  | .callTable table r => (table[(c.get r).toNat]?.bind fun f => f c).map fun c => (c, none)
  | .int gate => (gate c).map fun c => (c, none)
  | .ret => (c.stack.tail?).map fun stack => ({ c with stack := stack }, none)

variable [DecidableEq α]

/-- The routine with these instructions. -/
def routine (code : List (StackInstr α κ)) : CpuRoutine κ := runForward StackInstr.name stackStep none code

section Steps

variable {c : StackCpu κ} {rest : List (StackInstr α κ)} {imm : UInt32} {r : StackReg} {l : α}

/-- A comparison and a jump if the register is at least the constant. -/
theorem cmp_jae (h : ¬ c.get r < imm) :
    runForward StackInstr.name stackStep none (.cmpImm imm r :: .jae l :: rest) c
      = runForward StackInstr.name stackStep (some l) rest { c with cf := false, zf := c.get r == imm } := by
  refine (runForward_next rfl).trans (runForward_next ?_)
  simp [stackStep, h]

theorem cmp_jae_not (h : c.get r < imm) :
    runForward StackInstr.name stackStep none (.cmpImm imm r :: .jae l :: rest) c
      = runForward StackInstr.name stackStep none rest { c with cf := true, zf := c.get r == imm } := by
  refine (runForward_next rfl).trans (runForward_next ?_)
  simp [stackStep, h]

/-- A comparison with zero and a jump if the register is not above it. -/
theorem cmp_jbe (h : c.get r = 0) :
    runForward StackInstr.name stackStep none (.cmpImm 0 r :: .jbe l :: rest) c
      = runForward StackInstr.name stackStep (some l) rest { c with cf := false, zf := true } := by
  refine (runForward_next rfl).trans (runForward_next ?_)
  simp [stackStep, h]

theorem cmp_jbe_not (h : c.get r ≠ 0) :
    runForward StackInstr.name stackStep none (.cmpImm 0 r :: .jbe l :: rest) c
      = runForward StackInstr.name stackStep none rest { c with cf := false, zf := false } := by
  refine (runForward_next rfl).trans (runForward_next ?_)
  simp [stackStep, h]

end Steps

/-- Through a gate and back: the routine runs on a stack that holds the frame of the interrupt only, and the
    return from it restores the flags and the stack. -/
def trap (frame : List UInt32) (f : CpuRoutine κ) : CpuRoutine κ := fun c =>
  (f { c with stack := frame }).bind fun c' =>
    if c'.stack = frame then some { c' with cf := c.cf, zf := c.zf, stack := c.stack } else none

/-- A C function with `n` words of parameters that computes `result`: it keeps `ebx`, `esi`, `edi`, `ebp` and
    the stack below its parameters, and may change the other registers and its parameters. -/
structure Cdecl (f : CpuRoutine κ) (n : Nat) (result : List UInt32 → κ → Option (UInt32 × κ)) : Prop where
  returns : ∀ (c : StackCpu κ) (args below : List UInt32) (v : UInt32) (k : κ), c.stack = args ++ below →
    args.length = n → result args c.world = some (v, k) →
    ∃ c' args', f c = some c' ∧ c'.stack = args' ++ below ∧ args'.length = n ∧ c'.eax = v ∧ c'.world = k ∧
      c'.ebx = c.ebx ∧ c'.esi = c.esi ∧ c'.edi = c.edi ∧ c'.ebp = c.ebp
  stays : ∀ (c : StackCpu κ) (args below : List UInt32), c.stack = args ++ below → args.length = n →
    result args c.world = none → f c = none

end Asm
