import BaseOs.Process

set_option autoImplicit false

/-! # Descriptor system calls and drivers

`open`, `read`, `write` and `close` (`syscall.c`) with the five drivers behind them (`rtc.c`,
`filesystem.c`, `terminal.c`, `keyboard.c`), `getargs` and `vidmap`. A user buffer is memory of the caller; a
call that stores into it returns its new contents. `none` is an access through a NULL or wild jump table, an
index outside `process_array` or a NULL PCB pointer.

Two reads wait for an interrupt. `keyboard_read` is released by Enter: `line` is the row of
`save_buff` at that moment. `rtc_read` is released by the next clock interrupt. -/

namespace BaseOs

open Kernel

/-- What a system call leaves: the kernel state, the return value, the caller's buffer. -/
structure SysResult where
  kernel : Kernel
  ret : Int32
  buf : Bytes

variable (cfg : Config)

/-! ## Opening -/

/-- The common end of the `open` routines: take a free descriptor and fill it, or complain. -/
def openWith (k : Kernel) (p : Slot) (info : Fd) (message : List UInt8) : Kernel × Int32 :=
  match getFdIndex (k.pcb p).fdTable with
  | none => (k.printf message, -1)
  | some i => (k.setFdTable p (setFdInfo (k.pcb p).fdTable i info), toRet i.val)

/-- `rtc_open`: the rate is reset before a descriptor is looked for. -/
def rtcOpen (k : Kernel) (p : Slot) : Kernel × Int32 :=
  openWith { k with rtc := setFrequency cfg.rtcMemory k.rtc 2 } p
    ⟨some .rtc, -1, 0, fdOn⟩ (ascii "No Available FD, rtc_open\n")

/-- `dir_open`. -/
def dirOpen (k : Kernel) (p : Slot) : Kernel × Int32 :=
  openWith k p ⟨some .dir, -1, 0, fdOn⟩ (ascii "No Available FD, dir_open\n")

/-- `file_open`: it looks the name up again and ignores whether that worked. -/
def fileOpen (k : Kernel) (p : Slot) (filename : Bytes) (myDentry : Dentry) : Kernel × Int32 :=
  let found := (readDentryByName cfg.fs filename myDentry).getD myDentry
  openWith k p ⟨some .filesys, found.inodeIdx.toInt32, 0, fdOn⟩
    (ascii "No Available FD, file_open\n")

/-- `open`; `dentry` is the former contents of the local variable. -/
def openFile (k : Kernel) (filename : Option Bytes) (dentry : Dentry) : Option (Kernel × Int32) :=
  match filename with
  | none => some (k.printf (ascii "invalid pointer, sys_open\n"), -1)
  | some filename =>
    match readDentryByName cfg.fs filename dentry with
    | none => some (k, -1)
    | some found =>
      match k.currentPcb? with
      | none => none
      | some p =>
        if found.fileType = 0 then some (rtcOpen cfg k p)
        else if found.fileType = 1 then some (dirOpen k p)
        else some (fileOpen cfg k p filename dentry)

/-! ## Reading -/

/-- A length passed as `int32_t` and taken as `uint32_t`. -/
def toU32 (n : Int) : UInt32 := UInt32.ofInt n

/-- `file_read`: a failed `read_data` is a positive number for the test that guards `add_offset`. -/
def fileRead (k : Kernel) (p : Slot) (fd : FdIndex) (buf : Bytes) (nbytes : Int) : SysResult :=
  let entry := (k.pcb p).fdTable fd
  let r := readData cfg.fs entry.inodePtr.toUInt32 entry.filePosition (toU32 nbytes)
  let readAmt := r.ret.toUInt32
  let k := if readAmt > 0 then k.setFdTable p (addOffset (k.pcb p).fdTable fd.val readAmt) else k
  ⟨k, r.ret, store buf r.data⟩

/-- `dir_read`. -/
def dirRead (k : Kernel) (p : Slot) (fd : FdIndex) (buf : Bytes) (nbytes : Int) : SysResult :=
  let dentIndex := ((k.pcb p).fdTable fd).filePosition
  if dentIndex ≥ cfg.fs.numEntries then ⟨k, 0, buf⟩
  else
    let name := (cfg.fs.entries dentIndex.toNat).fileName
    let bytesRead := Scan.scan (fun i => name i != 0) 0 (min nbytes.toNat maxNameCharacters)
    ⟨k.setFdTable p (addOffset (k.pcb p).fdTable fd.val 1), toRet bytesRead,
      fun i => if i < bytesRead then name i else buf i⟩

/-- `rtc_read`: it returns after the next interrupt, which sets the flag again. -/
def rtcRead (k : Kernel) (buf : Bytes) : SysResult :=
  ⟨{ k with rtc := { k.rtc with interruptFlag := true } }, 0, buf⟩

/-- `terminal_read` as the read routine of descriptor 1. -/
def terminalReadCall (k : Kernel) (buf : Bytes) (nbytes : Int) : SysResult :=
  let row := terminalRead (k.saveBuff k.currTerminal) buf nbytes
  ⟨{ k with saveBuff := Function.update k.saveBuff k.currTerminal row }, -1, buf⟩

/-- `keyboard_read`, released with `line` in the current terminal's row of `save_buff`. -/
def keyboardRead (k : Kernel) (buf : Bytes) (nbytes : Int) (line : Bytes) : SysResult :=
  let fetched := keyboardReadFetch line buf nbytes
  ⟨{ k with
      keyboard := { k.keyboard with kbdrFlag := true }
      saveBuff := Function.update k.saveBuff k.currTerminal line },
    toRet fetched.1, fetched.2⟩

/-- `read`. -/
def readCall (k : Kernel) (fd : Int) (buf : Option Bytes) (nbytes : Int) (line : Bytes) :
    Option SysResult :=
  match fdIndex? fd with
  | none => some ⟨k.printf (ascii "Invalid FD, sys_read\n"), -1, buf.getD fun _ => 0⟩
  | some i =>
    match k.currentPcb? with
    | none => none
    | some p =>
      if checkValidFd (k.pcb p).fdTable fd then
        match buf with
        | none => some ⟨k, -1, fun _ => 0⟩
        | some buf =>
          match ((k.pcb p).fdTable i).fdJump with
          | none => none
          | some (.wild _) => none
          | some .rtc => some (rtcRead k buf)
          | some .filesys => some (fileRead cfg k p i buf nbytes)
          | some .dir => some (dirRead cfg k p i buf nbytes)
          | some .term => some (terminalReadCall k buf nbytes)
          | some .kybd => some (keyboardRead k buf nbytes line)
      else some ⟨k.printf (ascii "Invalid FD, sys_read\n"), -1, buf.getD fun _ => 0⟩

/-! ## Writing -/

/-- The four bytes at a pointer as a number, lowest first. -/
def word32 (buf : Bytes) : UInt32 :=
  (List.range 4).foldl (fun w j => w ||| ((buf j).toUInt32 <<< UInt32.ofNat (8 * j))) 0

/-- `terminal_write`. -/
def terminalWrite (k : Kernel) (buf : Bytes) (nbytes : Int) : Kernel × Int32 :=
  (k.printf ((List.range nbytes.toNat).map buf), toRet nbytes.toNat)

/-- `rtc_write`. -/
def rtcWrite (k : Kernel) (buf : Bytes) : Kernel × Int32 :=
  ({ k with rtc := setFrequency cfg.rtcMemory k.rtc (word32 buf) }, 0)

/-- `write`. -/
def writeCall (k : Kernel) (fd : Int) (buf : Option Bytes) (nbytes : Int) : Option (Kernel × Int32) :=
  match fdIndex? fd with
  | none => some (k.printf (ascii "Invalid FD, sys_write\n"), -1)
  | some i =>
    match k.currentPcb? with
    | none => none
    | some p =>
      if checkValidFd (k.pcb p).fdTable fd then
        match buf with
        | none => some (k, -1)
        | some buf =>
          match ((k.pcb p).fdTable i).fdJump with
          | none => none
          | some (.wild _) => none
          | some .rtc => some (rtcWrite cfg k buf)
          | some .filesys => some (k.printf (ascii "READ ONLY FILES\n"), -1)
          | some .dir => some (k.printf (ascii "READ ONLY DIRECTORY\n"), -1)
          | some .term => some (terminalWrite k buf nbytes)
          | some .kybd => some (k, -1)
      else some (k.printf (ascii "Invalid FD, sys_write\n"), -1)

/-! ## Closing -/

/-- `rtc_close`, the only close routine with a check of its own. -/
def rtcClose (k : Kernel) (p : Slot) (fd : Int) : Kernel × Int32 :=
  if fd < firstValidIndex ∨ fd > maxOpenFiles then
    (k.printf (ascii "Invalid FD, rtc_close\n"), -1)
  else (k.setFdTable p (closeFd (k.pcb p).fdTable fd), 0)

/-- `dir_close` and `file_close`. -/
def fileClose (k : Kernel) (p : Slot) (fd : Int) : Kernel × Int32 :=
  (k.setFdTable p (closeFd (k.pcb p).fdTable fd), 0)

/-- `close`. -/
def closeCall (k : Kernel) (fd : Int) : Option (Kernel × Int32) :=
  match fdIndex? fd with
  | none => some (k.printf (ascii "Invalid FD, sys_close\n"), -1)
  | some i =>
    match k.currentPcb? with
    | none => none
    | some p =>
      if checkValidFd (k.pcb p).fdTable fd then
        match ((k.pcb p).fdTable i).fdJump with
        | none => none
        | some (.wild _) => none
        | some .rtc => some (rtcClose k p fd)
        | some .filesys => some (fileClose k p fd)
        | some .dir => some (fileClose k p fd)
        | some .term => some (k, -1)
        | some .kybd => some (k, -1)
      else some (k.printf (ascii "Invalid FD, sys_close\n"), -1)

/-! ## `getargs` -/

/-- The backward loop of `getargs`: from index `n - 1` down, blanks become NULs up to the first other
    character. A buffer of blanks only is cleared; what the loop does below its start is not part of the
    model. -/
def trimBlanks (buf : Bytes) : Nat → Bytes
  | 0 => buf
  | n + 1 => if buf n = 32 ∨ buf n = 0 then trimBlanks (Function.update buf n 0) n else buf

/-- The two loops of `getargs` that clear the buffer and copy the arguments. -/
def copyArgs (args buf : Bytes) (n : Nat) : Bytes := fun i =>
  if i < min n termBuffSize then args i else if i < n then 0 else buf i

/-- `getargs`; the length is compared as `uint32_t`. With no length nothing of the PCB is read. -/
def getargs (k : Kernel) (buf : Option Bytes) (nbytes : Int) : Option SysResult :=
  match buf with
  | none => some ⟨k, -1, fun _ => 0⟩
  | some buf =>
    let n := (toU32 nbytes).toNat
    if n = 0 then some ⟨k, -1, buf⟩
    else
      match k.currentPcb? with
      | none => none
      | some p =>
        let copied := copyArgs (k.pcb p).args buf n
        if min n termBuffSize = n then some ⟨k, -1, copied⟩
        else
          let trimmed := trimBlanks copied n
          if trimmed 0 = 0 then some ⟨k, -1, trimmed⟩ else some ⟨k, 0, trimmed⟩

/-! ## `vidmap` -/

/-- The bytes of a 32-bit value, lowest first. -/
def wordBytes (w : Nat) : List UInt8 :=
  (List.range 4).map fun j => UInt8.ofNat (w / 2 ^ (8 * j))

/-- `vidmap`; `none` is a page fault while the address is stored for the caller. -/
def vidmap (k : Kernel) (screenStart : Nat) : Option (Kernel × Int32) :=
  if screenStart = 0 then some (k.printf (ascii "invalid pointer, vidmap\n"), -1)
  else if screenStart < programPage ∨ screenStart ≥ programPage + userPageSize then
    some (k.printf (ascii "pointer out of range, vidmap\n"), -1)
  else
    let page := virtVidTerm1 + k.currTerminal.val * fourKiB
    let stored := storeVirt (kernelAddr cfg.lay k.paging) screenStart (wordBytes page) k.mem
    if stored.2 then none
    else
      some ({ k with mem := stored.1, paging := mapVirtToPhys cfg.lay k.paging page userVideo },
        toRet page)

end BaseOs
