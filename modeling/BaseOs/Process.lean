import BaseOs.Kernel

set_option autoImplicit false

/-! # Processes (`syscall.c`, `exceptions.c`, `terminal.c`)

`execute`, `halt`, `exception_handler` and `terminal_switch`. Where control leaves the function for
good (a jump to a user program, a return into another process's `execute`, a fault), the outcome says
so and carries the kernel state at that point. Uninitialised locals and register values are inputs
(`Locals`). -/

namespace BaseOs

open Kernel

/-- What a call of `execute` finds on its stack and in its registers: the former contents of its
    local buffers, and `esp`, `ebp` where it stores them. -/
structure Locals where
  command : Bytes
  fileName : Bytes
  dentry : Dentry
  buf : Bytes
  esp : Nat
  ebp : Nat

/-- The exits of `execute` with `-1`, in source order. -/
inductive ExecError
  | nullPointer
  | nameTooLong
  | noSuchFile
  | wrongType
  | unreadable
  | noFreeSlot
  | badMagic
  | reloadNotFound
  | loadFailed
  deriving DecidableEq

/-- How `execute` ends: it returns `-1`, it enters the new program at its entry point, or the copy of
    the program runs into a page that is not mapped. -/
inductive ExecResult
  | failed (e : ExecError) (k : Kernel)
  | started (k : Kernel) (entryPoint : UInt32)
  | fault (k : Kernel)

variable (cfg : Config)

/-! ## Parsing the command -/

/-- `parse_cmd_args`: the command buffer and the row of `cmd_args` after the call. -/
def parseCmdArgs (buf row comm : Bytes) : Bytes × Bytes :=
  let cmdEnd := Scan.scan (fun i => comm i != 32 && comm i != 0) 0 termBuffSize
  let argStart := Scan.scan (fun i => comm i == 32 && comm i != 0) cmdEnd (termBuffSize - cmdEnd)
  let argEnd := Scan.scan (fun i => comm i != 0) argStart (termBuffSize - argStart)
  (fun i => if i < cmdEnd then comm i else if i = cmdEnd then 0 else buf i,
   fun i => if i < argEnd - argStart then comm (argStart + i)
            else if i = argEnd - argStart then 0 else row i)

def fileNameLength : Nat := 32

/-- The loop of `execute` that copies the file name; `none` when it is too long. -/
def copyFileName (command fileName : Bytes) : Option Bytes :=
  let len := Scan.scan (fun i => command i != 32 && command i != 0 && command i != 10) 0
    fileNameLength
  if len ≥ fileNameLength then none
  else some fun i => if i < len then command i else if i = len then 0 else fileName i

/-- The file `execute` goes on with: its name and the 28-byte header buffer. -/
structure ProgramFile where
  fileName : Bytes
  buf : Bytes

def bytesToRead : UInt32 := 28

/-- `execute` from the parsed command up to the first `read_data`. -/
def findProgram (command : Bytes) (loc : Locals) : Except ExecError ProgramFile :=
  match copyFileName command loc.fileName with
  | none => .error .nameTooLong
  | some fileName =>
    match readDentryByName cfg.fs fileName loc.dentry with
    | none => .error .noSuchFile
    | some fileDentry =>
      if fileDentry.fileType ≠ 2 then .error .wrongType
      else
        let r := readData cfg.fs fileDentry.inodeIdx 0 bytesToRead
        if r.ret = -1 then .error .unreadable
        else .ok ⟨fileName, store loc.buf r.data⟩

/-! ## Building the process -/

/-- The search for an unused process slot. -/
def freeSlot (k : Kernel) : Option Slot := Fin.find? fun i => k.inUse i == 0

/-- `in_use[i] = 1`. -/
def reserveSlot (k : Kernel) (i : Slot) : Kernel := { k with inUse := Function.update k.inUse i 1 }

/-- Create the PCB: the pointer, the process id and the parent id. -/
def createPcb (k : Kernel) (i : Slot) : Kernel :=
  { k with
    processArray := Function.update k.processArray i (some i)
    pcb := Function.update k.pcb i
      { k.pcb i with
        processId := UInt8.ofNat i.val
        parentId := if i.val < 3 then -1 else k.currentProcess k.currTerminal } }

/-- `current_process[curr_terminal] = i`. -/
def enterProcess (k : Kernel) (i : Slot) : Kernel :=
  { k with currentProcess := Function.update k.currentProcess k.currTerminal (i.val : Int) }

/-- Copy the arguments and initialise the descriptor table. -/
def initProcess (k : Kernel) (i : Slot) : Kernel :=
  k.setPcb i
    { k.pcb i with
      args := strcpy (k.pcb i).args (k.cmdArgs k.currTerminal) termBuffSize
      fdTable := fdTableInit }

/-- `magic_numbers`. -/
def magicNumbers : List UInt8 := [0x7f, 0x45, 0x4c, 0x46]

/-- The comparison of the header with the magic numbers. -/
def hasMagic (buf : Bytes) : Bool := (List.range 4).map buf == magicNumbers

/-- The entry point: bytes 24 to 27 of the header, lowest first. -/
def entryPointOf (buf : Bytes) : UInt32 :=
  (List.range 4).foldl (fun e j => e ||| ((buf (24 + j)).toUInt32 <<< UInt32.ofNat (8 * j))) 0

/-- `K_STACK_BOTTOM - PROCESS_SIZE * p - BYTE_SIZE / 2` in 32 bits. -/
def stackTop (p : Int) : Nat := (((kStackBottom : Int) - processSize * p - 4) % 2 ^ 32).toNat

/-- `execute` from the magic number check on, for the process in slot `i`. -/
def loadProgram (k : Kernel) (i : Slot) (file : ProgramFile) (loc : Locals) : ExecResult :=
  if hasMagic file.buf then
    let k := { k with paging := addProcess k.paging (UInt32.ofNat i.val) }
    match readDentryByName cfg.fs file.fileName loc.dentry with
    | none => .failed .reloadNotFound k
    | some dentry =>
      let r := readData cfg.fs dentry.inodeIdx 0 (cfg.fs.inodes dentry.inodeIdx.toNat).fileSize
      let loaded := storeVirt (kernelAddr cfg.lay k.paging) programStart r.data k.mem
      if loaded.2 then .fault { k with mem := loaded.1 }
      else if r.ret = -1 then .failed .loadFailed { k with mem := loaded.1 }
      else
        .started
          { k with
            mem := loaded.1
            esp0 := stackTop i.val
            pcb := Function.update k.pcb i
              { k.pcb i with currentEsp := loc.esp, currentEbp := loc.ebp } }
          (entryPointOf file.buf)
  else .failed .badMagic k

/-- `execute`; `none` is the NULL pointer. -/
def execute (k : Kernel) (comm : Option Bytes) (loc : Locals) : ExecResult :=
  match comm with
  | none => .failed .nullPointer k
  | some comm =>
    let parsed := parseCmdArgs loc.command (k.cmdArgs k.currTerminal) comm
    let k := { k with cmdArgs := Function.update k.cmdArgs k.currTerminal parsed.2 }
    match findProgram cfg parsed.1 loc with
    | .error e => .failed e k
    | .ok file =>
      match freeSlot k with
      | none =>
        .failed .noFreeSlot (k.printf (ascii "Maximum Possible Processes. Stop and Reconsider.\n"))
      | some i =>
        loadProgram cfg (initProcess (enterProcess (createPcb (reserveSlot k i) i) i) i) i file loc

/-- The command `"shell"`. -/
def shellCommand : Bytes := cstr (ascii "shell")

/-! ## Halting -/

/-- How `halt` ends: the base shell starts again, or control returns into the parent's `execute` with
    a status and the stack frame saved when the halting process was started. `wild` is an access
    through an index outside `process_array` or through a NULL pointer. -/
inductive HaltResult
  | restarted (k : Kernel) (entryPoint : UInt32)
  | returned (k : Kernel) (status : UInt32) (esp ebp : Nat)
  | fault (k : Kernel)
  | wild

/-- `halt` from `extended_status` on. -/
def haltReturn (k : Kernel) (status : UInt8) : HaltResult :=
  let k := { k with extendedStatus := status.toUInt32 + k.exceptionFlag, exceptionFlag := 0 }
  match slot? (k.currentProcess k.currTerminal), k.currentPcb? with
  | some i, some p =>
    let esp := (k.pcb p).currentEsp
    let ebp := (k.pcb p).currentEbp
    let k := { k with inUse := Function.update k.inUse i 0 }
    let k := { k with
      currentProcess := Function.update k.currentProcess k.currTerminal (k.pcb p).parentId }
    let k := { k with
      paging := addProcess k.paging (UInt32.ofInt (k.currentProcess k.currTerminal)) }
    match k.currentPcb? with
    | some q => .returned { k with esp0 := (k.pcb q).currentEsp } k.extendedStatus esp ebp
    | none => .wild
  | _, _ => .wild

/-- `halt`. -/
def halt (k : Kernel) (status : UInt8) (loc : Locals) : HaltResult :=
  match k.currentPcb? with
  | none => .wild
  | some p =>
    let k := k.setFdTable p closeAllFd
    if h : (k.pcb p).processId.toNat < 3 then
      let k := { k with inUse := Function.update k.inUse ⟨(k.pcb p).processId.toNat, by omega⟩ 0 }
      match execute cfg k (some shellCommand) loc with
      | .started k entryPoint => .restarted k entryPoint
      | .fault k => .fault k
      | .failed _ k => haltReturn k status
    else haltReturn k status

/-! ## Exceptions -/

/-- The text `exception_handler` prints for an exception number. -/
def exceptionText : Nat → List UInt8
  | 0 => ascii "Divide Error Exception\n"
  | 1 => ascii "Debug Exception\n"
  | 2 => ascii "NMI Interrupt\n"
  | 3 => ascii "Breakpoint Exception\n"
  | 4 => ascii "Overflow Exception\n"
  | 5 => ascii "BOUND Range Exceeded Exception\n"
  | 6 => ascii "Invalid Opcode Exception\n"
  | 7 => ascii "Device Not Available Exception\n"
  | 8 => ascii "Double Fault Exception\n"
  | 9 => ascii "Coprocessor Segment Overrun\n"
  | 10 => ascii "Invalid TSS Exception\n"
  | 11 => ascii "Segment Not Present\n"
  | 12 => ascii "Stack Fault Exception\n"
  | 13 => ascii "General Protection Exception\n"
  | 14 => ascii "Page-Fault Exception\n"
  | 16 => ascii "x87 FPU Floating-Point Error\n"
  | 17 => ascii "Alignment Check Exception\n"
  | 18 => ascii "Machine-Check Exception\n"
  | 19 => ascii "SIMD Floating-Point Exception\n"
  | n => if n ≤ 31 then ascii "Reserved\n" else []

/-- The line `print_cr2` adds for a page fault. -/
def cr2Text (cr2 : UInt32) : List UInt8 :=
  ascii "Suspected Address in CR2: " ++ itoa cr2 16 ++ ascii "\n"

/-- `exception_handler(i)`; `cr2` is the fault address register. -/
def exceptionHandler (k : Kernel) (i : Nat) (cr2 : UInt32) (loc : Locals) : HaltResult :=
  let k := k.setConsole k.console.clear
  let k := k.printf (exceptionText i ++ if i = 14 then cr2Text cr2 else [])
  halt cfg { k with exceptionFlag := 1 } 255 loc

/-! ## Terminal switches -/

/-- How `terminal_switch` ends: it returns at once, it starts the new terminal's first shell, or it
    goes on where the new terminal's process was interrupted. -/
inductive SwitchResult
  | returned (k : Kernel) (ret : Int32)
  | started (k : Kernel) (entryPoint : UInt32)
  | resumed (k : Kernel) (esp ebp : Nat)
  | fault (k : Kernel)
  | wild

/-- The four lines of `terminal_switch` that exchange the screens: map the old terminal's page to its
    backup, save the screen there, fetch the new terminal's screen, map its page to the screen. -/
def switchScreens (k : Kernel) : Option Kernel :=
  let oldPage := virtVidTerm1 + k.oldTerminal.val * fourKiB
  let newPage := virtVidTerm1 + k.currTerminal.val * fourKiB
  let k := { k with
    paging := mapVirtToPhys cfg.lay k.paging oldPage
      (userBack1 + UInt32.ofNat (k.oldTerminal.val * fourKiB)) }
  match memcpy (kernelAddr cfg.lay k.paging) oldPage videoAddr fourKiB k.mem with
  | none => none
  | some mem1 =>
    match memcpy (kernelAddr cfg.lay k.paging) videoAddr newPage fourKiB mem1 with
    | none => none
    | some mem2 =>
      some { k with mem := mem2, paging := mapVirtToPhys cfg.lay k.paging newPage userVideo }

/-- `terminal_switch` after the screens: map the new terminal's process, set its kernel stack, go back
    to where it was interrupted. -/
def resumeTerminal (k : Kernel) : SwitchResult :=
  let k := { k with
    paging := addProcess k.paging (UInt32.ofInt (k.currentProcess k.currTerminal))
    esp0 := stackTop (k.currentProcess k.currTerminal) }
  match k.currentPcb? with
  | some p => .resumed k (k.pcb p).returnEsp (k.pcb p).returnEbp
  | none => .wild

/-- `terminal_switch`; `esp`, `ebp` are the registers it saves, `loc` what a first shell finds. -/
def terminalSwitch (k : Kernel) (newTerminal : Nat) (esp ebp : Nat) (loc : Locals) : SwitchResult :=
  if newTerminal = k.currTerminal.val then .returned k 0
  else if h : newTerminal ≥ 3 then .returned k (-1)
  else
    match k.currentPcb? with
    | none => .wild
    | some p =>
      let k := k.setPcb p { k.pcb p with returnEsp := esp, returnEbp := ebp }
      let k := { k with oldTerminal := k.currTerminal, currTerminal := ⟨newTerminal, terminal_lt h⟩ }
      match switchScreens cfg k with
      | none => .wild
      | some k =>
        if k.currentProcess k.currTerminal = -1 then
          let slot : Slot := ⟨k.currTerminal.val, k.currTerminal_lt⟩
          let k := { k with inUse := Function.update k.inUse slot 0 }
          match execute cfg k (some shellCommand) loc with
          | .started k entryPoint => .started k entryPoint
          | .fault k => .fault k
          | .failed _ k => resumeTerminal k
        else resumeTerminal k

end BaseOs
