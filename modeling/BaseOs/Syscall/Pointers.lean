import BaseOs.KernelMemory
import BaseOs.System.Frame

set_option autoImplicit false

/-! # The calls that store through a pointer

`read` and `getargs` (`syscall.c`) with the read routines of the five drivers, once more, with the buffer
as the address the program passes. Only NULL is refused. The bytes are stored one by one wherever the
address leads while the call runs, so a buffer in the kernel's frame is a piece of the kernel itself, and
what a routine does after its stores it does on what they have left.

`line` and `rest` are labels: the line that releases `keyboard_read`, and what is in the part of the
kernel's frame that is not kept track of. -/

namespace BaseOs

open Kernel Cells

/-- How a call ends. -/
abbrev CallOutcome := Outcome Kernel Int32

/-- The current terminal's row of `save_buff`, changed. -/
def Kernel.setRow (k : Kernel) (row : Bytes) : Kernel :=
  { k with saveBuff := Function.update k.saveBuff k.currTerminal row }

namespace Pointer

variable (cfg : Config) (map : KernelMap) (rest : Bytes)

/-! ## The read routines -/

/-- `file_read`: the position that is moved is the one the stores have left. -/
def fileRead (k : Kernel) (p : Slot) (fd : FdIndex) (buf : Nat) (nbytes : Int) : CallOutcome :=
  let entry := (k.pcb p).fdTable fd
  let r := readData cfg.fs entry.inodePtr.toUInt32 entry.filePosition (toU32 nbytes)
  let readAmt := r.ret.toUInt32
  ((kernelView cfg map rest).storeBytes k buf r.data).andThen fun k _ =>
    .done (if readAmt > 0 then k.setFdTable p (addOffset (k.pcb p).fdTable fd.val readAmt) else k) r.ret

/-- `dir_read`. -/
def dirRead (k : Kernel) (p : Slot) (fd : FdIndex) (buf : Nat) (nbytes : Int) : CallOutcome :=
  let dentIndex := ((k.pcb p).fdTable fd).filePosition
  if dentIndex ≥ cfg.fs.numEntries then .done k 0
  else
    let name := (cfg.fs.entries dentIndex.toNat).fileName
    let bytesRead := Scan.scan (fun i => name i != 0) 0 (min nbytes.toNat maxNameCharacters)
    ((kernelView cfg map rest).storeBytes k buf ((List.range bytesRead).map name)).andThen fun k _ =>
      .done (k.setFdTable p (addOffset (k.pcb p).fdTable fd.val 1)) (toRet bytesRead)

/-- The second loop of `terminal_read`, from index `i` on, `n` bytes. -/
def fillRow (buf : Nat) : Nat → Nat → Kernel → Outcome Kernel Unit
  | 0, _, k => .done k ()
  | n + 1, i, k =>
    ((kernelView cfg map rest).loadByte k (buf + i)).andThen fun k b =>
      fillRow buf n (i + 1) (k.setRow (Function.update (k.saveBuff k.currTerminal) i b))

/-- The row of `save_buff` after the first loop of `terminal_read`. -/
def cleared (row : Bytes) : Bytes := fun i => if i < termBuffSize then 0 else row i

/-- `terminal_read`: the row is cleared before the buffer is looked at. -/
def terminalRead (k : Kernel) (buf : Nat) (nbytes : Int) : CallOutcome :=
  (fillRow cfg map rest buf (min nbytes.toNat termBuffSize) 0
    (k.setRow (cleared (k.saveBuff k.currTerminal)))).andThen fun k _ => .done k (-1)

/-- The second loop of `terminal_retrieve`, for at most `n` bytes: it looks at the row again after each
    store. -/
def copyLine (buf : Nat) : Nat → Nat → Nat → Kernel → Outcome Kernel Nat
  | 0, _, cmdCnt, k => .done k cmdCnt
  | n + 1, i, cmdCnt, k =>
    ((kernelView cfg map rest).storeByte k (buf + cmdCnt) (k.saveBuff k.currTerminal i)).andThen
      fun k _ =>
        if k.saveBuff k.currTerminal i = 0 then .done k cmdCnt else copyLine buf n (i + 1) (cmdCnt + 1) k

/-- The loop of `strncmp`, against a text without NULs. -/
def beginsWith (buf : Nat) : List UInt8 → Nat → Kernel → Outcome Kernel Bool
  | [], _, k => .done k true
  | c :: cs, j, k =>
    ((kernelView cfg map rest).loadByte k (buf + j)).andThen fun k b =>
      if b = c then beginsWith buf cs (j + 1) k else .done k false

/-- The end of `keyboard_read`: a newline, unless the text begins with `exit`. -/
def newline (k : Kernel) (buf count : Nat) : CallOutcome :=
  (beginsWith cfg map rest buf (ascii "exit") 0 k).andThen fun k isExit =>
    if isExit then .done k (toRet count)
    else
      ((kernelView cfg map rest).storeByte k (buf + count) 10).andThen fun k _ =>
        .done k (toRet (count + 1))

/-- `keyboard_read`, released with `line` in the current terminal's row of `save_buff`. -/
def keyboardRead (k : Kernel) (buf : Nat) (nbytes : Int) (line : Bytes) : CallOutcome :=
  let n := nbytes.toNat
  let first := Scan.scan (fun i => line i == 32) 0 (min n termBuffSize)
  let k := { k with keyboard := { k.keyboard with kbdrFlag := true } }.setRow line
  (copyLine cfg map rest buf (min n (termBuffSize - first)) first 0 k).andThen fun k count =>
    newline cfg map rest k buf count

/-- `read`. -/
def read (k : Kernel) (fd : Int) (buf : Nat) (nbytes : Int) (line : Bytes) : CallOutcome :=
  match fdIndex? fd with
  | none => .done (k.printf (ascii "Invalid FD, sys_read\n")) (-1)
  | some i =>
    match k.currentPcb? with
    | none => .stopped k .wild
    | some p =>
      if checkValidFd (k.pcb p).fdTable fd then
        if buf = 0 then .done k (-1)
        else
          match ((k.pcb p).fdTable i).fdJump with
          | none => .stopped k .wild
          | some (.wild _) => .stopped k .wild
          | some .rtc => .done (rtcRead k emptyBuf).kernel 0
          | some .filesys => fileRead cfg map rest k p i buf nbytes
          | some .dir => dirRead cfg map rest k p i buf nbytes
          | some .term => terminalRead cfg map rest k buf nbytes
          | some .kybd => keyboardRead cfg map rest k buf nbytes line
      else .done (k.printf (ascii "Invalid FD, sys_read\n")) (-1)

/-! ## `getargs` -/

/-- The loop of `getargs` that copies the arguments, from index `i` on. -/
def copyArgs (buf : Nat) : Nat → Nat → Kernel → Outcome Kernel Unit
  | 0, _, k => .done k ()
  | n + 1, i, k =>
    match k.currentPcb? with
    | none => .stopped k .wild
    | some p =>
      ((kernelView cfg map rest).storeByte k (buf + i) ((k.pcb p).args i)).andThen fun k _ =>
        copyArgs buf n (i + 1) k

/-- `backwards--`, in 32 bits. -/
def backwardsPred (backwards : Nat) : Nat := if backwards = 0 then 2 ^ 32 - 1 else backwards - 1

/-- The loop of `getargs` that clears trailing blanks, for at most so many rounds. It does not stop at
    the start of the buffer. -/
def trimBlanks (buf : Nat) : Nat → Nat → Kernel → Outcome Kernel Unit
  | 0, _, k => .stopped k .endless
  | rounds + 1, backwards, k =>
    ((kernelView cfg map rest).loadByte k (buf + backwards)).andThen fun k b =>
      if b = 32 ∨ b = 0 then
        ((kernelView cfg map rest).storeByte k (buf + backwards) 0).andThen fun k _ =>
          trimBlanks buf rounds (backwardsPred backwards) k
      else .done k ()

/-- `getargs`. After `2 ^ 32` rounds the trimming loop has been everywhere and found nothing but
    blanks. -/
def getargs (k : Kernel) (buf : Nat) (nbytes : Int) : CallOutcome :=
  if buf = 0 then .done k (-1)
  else
    let n := (toU32 nbytes).toNat
    ((kernelView cfg map rest).storeBytes k buf (List.replicate n 0)).andThen fun k _ =>
      (copyArgs cfg map rest buf (min n termBuffSize) 0 k).andThen fun k _ =>
        if min n termBuffSize = n then .done k (-1)
        else
          (trimBlanks cfg map rest buf (2 ^ 32) (n - 1) k).andThen fun k _ =>
            ((kernelView cfg map rest).loadByte k buf).andThen fun k b =>
              .done k (if b = 0 then -1 else 0)

/-! ## Where they store -/

/-- The jump table a `read` goes through. -/
def through (k : Kernel) (fd : Int) (buf : Nat) : Option OpsTable :=
  if buf = 0 then none else readsThrough k fd (some emptyBuf)

/-- How many bytes from the buffer's first on a `read` through an entry may store: of a file what is left
    of it, of a directory entry the name, of a line all of it and a newline. -/
def entryReach (entry : Fd) (nbytes : Int) : Nat :=
  match entry.fdJump with
  | some .filesys =>
    min (toU32 nbytes).toNat
      ((cfg.fs.inodes entry.inodePtr.toUInt32.toNat).fileSize.toNat - entry.filePosition.toNat)
  | some .dir => min nbytes.toNat maxNameCharacters
  | some .kybd => min nbytes.toNat termBuffSize + 1
  | _ => 0

def reach (k : Kernel) (fd : Int) (nbytes : Int) : Nat :=
  match fdIndex? fd, k.currentPcb? with
  | some i, some p => entryReach cfg ((k.pcb p).fdTable i) nbytes
  | _, _ => 0

/-- The cells a `read` may store into. -/
def readCells (k : Kernel) (fd : Int) (buf : Nat) (nbytes : Int) : Set Cell :=
  (kernelView cfg map rest).cells k buf (reach cfg k fd nbytes)

/-- The cells from an index of the buffer downwards, as far as they are mapped without a gap. -/
def stretch (k : Kernel) (buf backwards : Nat) : Set Cell :=
  {c | ∃ j, (∀ m < j, (kernelView cfg map rest).cell k (buf + backwardsPred^[m] backwards) ≠ none) ∧
    (kernelView cfg map rest).cell k (buf + backwardsPred^[j] backwards) = some c}

/-- The cells a `getargs` may store into: the buffer, and what is mapped without a gap below it. -/
def getargsCells (k : Kernel) (buf : Nat) (nbytes : Int) : Set Cell :=
  (kernelView cfg map rest).cells k buf (toU32 nbytes).toNat ∪
    stretch cfg map rest k buf ((toU32 nbytes).toNat - 1)

/-- The row `terminal_read` has when it comes to index `i` of the buffer, if it has put back what was there. -/
def restored (row : Bytes) (i : Nat) : Bytes := fun j => if j < i then row j else cleared row j

/-- What `terminal_read` stores at index `i` of the row, if up to there it has put back what was there: the
    byte of the buffer, with the row half cleared, or a NUL past the length or past the first address that
    is not mapped. -/
def filled (k : Kernel) (buf : Nat) (nbytes : Int) (i : Nat) : UInt8 :=
  if (i : Int) < nbytes ∧ ∀ j < i, (kernelView cfg map rest).cell k (buf + j) ≠ none then
    match (kernelView cfg map rest).cell k (buf + i) with
    | some c => (k.setRow (restored (k.saveBuff k.currTerminal) i)).loadCell map rest c
    | none => 0
  else 0

end Pointer

/-- What follows a call: it comes back, or its page fault ends the program (`exception_handler`). After a
    store into what is not kept track of, through a wild pointer or in an endless loop nothing follows. -/
def CallOutcome.toStep (cfg : Config) (o : CallOutcome) (loc : Locals) : Option (Kernel × Out) :=
  match o with
  | .done k v => some (k, .ret v emptyBuf)
  | .stopped k (.fault va) => k.step cfg (.exception 14 (UInt32.ofNat va) loc)
  | .stopped _ .stray | .stopped _ .wild | .stopped _ .endless => none

/-- The state then. -/
def CallOutcome.settle (cfg : Config) (o : CallOutcome) (loc : Locals) : Option Kernel :=
  (o.toStep cfg loc).map Prod.fst

/-- Is the operation one of the calls here, with a buffer that has no address? -/
def Op.storesAnywhere : Op → Bool
  | .read .. | .getargs .. => true
  | _ => false

end BaseOs
