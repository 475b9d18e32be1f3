import BaseOs.Lib.Runs
import BaseOs.Syscall

set_option autoImplicit false

/-! # The system

One step of the system is one whole operation: a system call, an exception or a terminal switch,
carried through to the point where control is back with a program, or one store to the screen. Its
label holds everything the state does not determine. `none` means that the operation has left defined
behaviour (a wild access, a page fault inside the kernel) and there is no next state. -/

namespace BaseOs

/-- The operations, with their arguments. -/
inductive Op
  | execute (comm : Option Bytes) (loc : Locals)
  | halt (status : UInt8) (loc : Locals)
  | exception (i : Nat) (cr2 : UInt32) (loc : Locals)
  | terminalSwitch (newTerminal : Nat) (esp ebp : Nat) (loc : Locals)
  | openFile (filename : Option Bytes) (dentry : Dentry)
  | read (fd : Int) (buf : Option Bytes) (nbytes : Int) (line : Bytes)
  | write (fd : Int) (buf : Option Bytes) (nbytes : Int)
  | close (fd : Int)
  | getargs (buf : Option Bytes) (nbytes : Int)
  | vidmap (screenStart : Nat)
  /-- Output of the kernel to the current terminal: `putc`, `clear`, `scroll`, `backspace`. -/
  | putc (c : UInt8)
  | clear
  | scroll
  | backspace
  /-- A store by the running program. -/
  | userStore (va : Nat) (b : UInt8)

/-- What an operation hands to the program that gets control. -/
inductive Out
  /-- The return value of a system call, and the buffer it was given. -/
  | ret (v : Int32) (buf : Bytes)
  /-- A new program starts at its entry point. -/
  | entered (entryPoint : UInt32)
  /-- A child has ended: the parent's `execute` returns with this status. -/
  | handedBack (status : UInt32)
  /-- A program goes on where it was. -/
  | resumed

/-- Does the program that made the call, or was interrupted, simply go on? -/
def Out.goesOn : Out → Bool
  | .ret .. | .resumed => true
  | .entered _ | .handedBack _ => false

def emptyBuf : Bytes := fun _ => 0

variable (cfg : Config)

def ExecResult.toStep : ExecResult → Option (Kernel × Out)
  | .failed _ k => some (k, .ret (-1) emptyBuf)
  | .started k entryPoint => some (k, .entered entryPoint)
  | .fault _ => none

def HaltResult.toStep : HaltResult → Option (Kernel × Out)
  | .restarted k entryPoint => some (k, .entered entryPoint)
  | .returned k status _ _ => some (k, .handedBack status)
  | .fault _ => none
  | .wild => none

def SwitchResult.toStep : SwitchResult → Option (Kernel × Out)
  | .returned k _ => some (k, .resumed)
  | .started k entryPoint => some (k, .entered entryPoint)
  | .resumed k _ _ => some (k, .resumed)
  | .fault _ => none
  | .wild => none

/-- One operation of the system. -/
def Kernel.step (k : Kernel) : Op → Option (Kernel × Out)
  | .execute comm loc => (BaseOs.execute cfg k comm loc).toStep
  | .halt status loc => (BaseOs.halt cfg k status loc).toStep
  | .exception i cr2 loc => (exceptionHandler cfg k i cr2 loc).toStep
  | .terminalSwitch newTerminal esp ebp loc => (BaseOs.terminalSwitch cfg k newTerminal esp ebp loc).toStep
  | .openFile filename dentry =>
    (BaseOs.openFile cfg k filename dentry).map fun r => (r.1, .ret r.2 emptyBuf)
  | .read fd buf nbytes line =>
    (readCall cfg k fd buf nbytes line).map fun r => (r.kernel, .ret r.ret r.buf)
  | .write fd buf nbytes => (writeCall cfg k fd buf nbytes).map fun r => (r.1, .ret r.2 emptyBuf)
  | .close fd => (closeCall k fd).map fun r => (r.1, .ret r.2 emptyBuf)
  | .getargs buf nbytes => (BaseOs.getargs k buf nbytes).map fun r => (r.kernel, .ret r.ret r.buf)
  | .vidmap screenStart => (BaseOs.vidmap cfg k screenStart).map fun r => (r.1, .ret r.2 emptyBuf)
  | .putc c => some (k.setConsole (k.console.putc c), .resumed)
  | .clear => some (k.setConsole k.console.clear, .resumed)
  | .scroll => some (k.setConsole k.console.scroll, .resumed)
  | .backspace => some (k.setConsole k.console.backspace, .resumed)
  | .userStore va b =>
    (userAddr cfg.lay k.paging (va % 2 ^ 32)).map fun pa =>
      ({ k with mem := Function.update k.mem pa b }, .resumed)

/-- The state after one operation. -/
def Kernel.next (k : Kernel) (op : Op) : Option Kernel := (k.step cfg op).map Prod.fst

theorem next_execute {cfg : Config} {k k' : Kernel} {comm : Option Bytes} {loc : Locals}
    {entryPoint : UInt32} (h : execute cfg k comm loc = .started k' entryPoint) :
    k.next cfg (.execute comm loc) = some k' := by
  simp only [Kernel.next, Kernel.step, h, ExecResult.toStep, Option.map_some]

/-- One operation, with a log of what every operation so far handed back. -/
def Kernel.logged (s : Kernel × List (Op × Out)) (op : Op) : Option (Kernel × List (Op × Out)) :=
  (s.1.step cfg op).map fun r => (r.1, s.2 ++ [(op, r.2)])

/-- The kernel when the first shell is about to start: after `pc_init`, `terminal_init` and
    `paging_init`. `machine` is the machine as the loader left it. -/
def bootState (machine : Kernel) : Kernel :=
  ({ machine with paging := pagingInit cfg.lay machine.paging }).pcInit.terminalInit

/-- The end of boot: `execute("shell")`. -/
def boot (machine : Kernel) (loc : Locals) : ExecResult :=
  execute cfg (bootState cfg machine) (some shellCommand) loc

/-- The states the kernel can be in from boot on. -/
def Reachable (k : Kernel) : Prop :=
  ∃ machine loc ops,
    Runs.run (Kernel.next cfg) (bootState cfg machine) (.execute (some shellCommand) loc :: ops) = some k

/-- Where a run from a reachable state gets to is reachable. -/
theorem Reachable.run {cfg : Config} {k k' : Kernel} {ops : List Op} (h : Reachable cfg k)
    (hrun : Runs.run (Kernel.next cfg) k ops = some k') : Reachable cfg k' := by
  obtain ⟨machine, loc, before, hbefore⟩ := h
  refine ⟨machine, loc, before ++ ops, ?_⟩
  rw [← List.cons_append, Runs.run_append_eq_some]
  exact ⟨k, hbefore, hrun⟩

end BaseOs
