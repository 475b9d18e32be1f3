import BaseOs.Console
import BaseOs.FdTable
import BaseOs.Keyboard
import BaseOs.Rtc

set_option autoImplicit false

/-! # Kernel state

The global variables of the kernel, grouped as the source files declare them, and the physical memory
it writes through page mappings. What is fixed once the kernel is linked and booted (the file system,
the addresses of the page tables) is a `Config` and not part of the state. -/

namespace BaseOs

/-- `MAX_PROCESSES` process slots. -/
abbrev Slot := Fin 8

/-- `K_STACK_BOTTOM`. -/
def kStackBottom : Nat := 0x00800000
/-- `PROCESS_SIZE`: the kernel stack and PCB of one process. -/
def processSize : Nat := 0x00002000
def programPage : Nat := 0x08000000
def programStart : Nat := 0x08048000
def userPageSize : Nat := 0x00400000

/-- What linking and booting fix for good. `rtcMemory` is the memory the clock driver's table lies in. -/
structure Config where
  fs : FileSystem
  lay : Layout
  rtcMemory : Nat → UInt32

/-- `pcb`. -/
structure Pcb where
  processId : UInt8
  parentId : Int
  currentEsp : Nat
  currentEbp : Nat
  returnEsp : Nat
  returnEbp : Nat
  args : Bytes
  fdTable : FdTable

structure Kernel where
  -- lib.h, lib.c
  currTerminal : Terminal
  oldTerminal : Terminal
  screenX : Terminal → Nat
  screenY : Terminal → Nat
  -- terminal.h, terminal.c
  currentProcess : Terminal → Int
  saveBuff : Terminal → Bytes
  -- syscall.h, syscall.c: `processArray` holds NULL or a pointer to the PCB of a slot, and `pcb` is
  -- the memory of the eight PCBs, which is there whether or not a pointer leads to it
  processArray : Slot → Option Slot
  inUse : Slot → Int
  pcb : Slot → Pcb
  extendedStatus : UInt32
  cmdArgs : Terminal → Bytes
  -- exceptions.h
  exceptionFlag : UInt32
  -- the esp0 field of the task state segment
  esp0 : Nat
  -- paging.h, and the memory reached through it
  paging : Paging
  mem : Bytes
  -- keyboard.c, rtc.c
  keyboard : Keyboard
  rtc : Rtc

namespace Kernel

variable (k : Kernel)

/-- The element of an eight-entry array an `int32_t` index names. -/
def slot? (i : Int) : Option Slot :=
  if h : 0 ≤ i ∧ i < 8 then some ⟨i.toNat, toNat_lt_eight h⟩ else none

/-- Each terminal has a slot of its own number. -/
theorem currTerminal_lt : k.currTerminal.val < 8 := by omega

/-- `process_array[current_process[curr_terminal]]`; `none` stands for an index outside the array and
    for the NULL pointer. -/
def currentPcb? : Option Slot :=
  match slot? (k.currentProcess k.currTerminal) with
  | some i => k.processArray i
  | none => none

/-- The PCB of a slot, changed. -/
def setPcb (i : Slot) (p : Pcb) : Kernel := { k with pcb := Function.update k.pcb i p }

/-- The descriptor table of a slot's process, changed. -/
def setFdTable (i : Slot) (table : FdTable) : Kernel := k.setPcb i { k.pcb i with fdTable := table }

/-- The screen as the current terminal sees it. -/
def console : Console where
  video := fun off => k.mem (videoAddr + off)
  x := k.screenX k.currTerminal
  y := k.screenY k.currTerminal

/-- Put back video memory and the current terminal's cursor. -/
def setConsole (con : Console) : Kernel :=
  { k with
    mem := fun a => if videoAddr ≤ a then con.video (a - videoAddr) else k.mem a
    screenX := Function.update k.screenX k.currTerminal con.x
    screenY := Function.update k.screenY k.currTerminal con.y }

/-- `printf` of a text without conversions. -/
def printf (s : List UInt8) : Kernel := k.setConsole (k.console.print s)

theorem slot?_val (i : Slot) : slot? (i.val : Int) = some i := by
  unfold slot?
  rw [dif_pos (by omega)]
  rfl

theorem slot?_eq_some {n : Int} {i : Slot} : slot? n = some i ↔ n = i.val := by
  constructor
  · intro h
    unfold slot? at h
    split_ifs at h with hr
    simp only [Option.some.injEq] at h
    subst h
    simp only
    omega
  · rintro rfl
    exact slot?_val i

@[simp]
theorem slot?_neg_one : slot? (-1) = none := rfl

/-- `pc_init`. -/
def pcInit : Kernel :=
  { k with
    currTerminal := 0
    currentProcess := fun _ => -1
    processArray := fun _ => none
    inUse := fun _ => 0 }

/-- `terminal_init`: the slots of terminals 2 and 3 are kept for their shells. -/
def terminalInit : Kernel :=
  { k with inUse := Function.update (Function.update (Function.update k.inUse 0 0) 1 1) 2 1 }

end Kernel

end BaseOs
