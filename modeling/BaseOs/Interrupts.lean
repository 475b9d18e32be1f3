import BaseOs.Lib.Pic

set_option autoImplicit false

/-! # Interrupts (`i8259.c`, `idt.c`, `x86_desc.h`, `wrapper.S`)

The driver of the two interrupt controllers, the interrupt descriptor table, and the parts of
`keyboard_init`, `rtc_init` and `pit_init` that fill in its entries and enable the lines. The masks are
`uint8_t` and so are what `outb` sends; `1 << irq_num` is computed in 32 bits. -/

namespace BaseOs

/-! ## The driver -/

/-- `master_mask` and `slave_mask`, with the chips behind the ports. -/
structure Pics where
  masterMask : BitVec 8
  slaveMask : BitVec 8
  chips : Pic.Cascade

def master8259Port : Nat := 0x20
def slave8259Port : Nat := 0xA0
/-- `MASTER_MD`: mask and data. -/
def masterMd : Nat := master8259Port + 1
/-- `SLAVE_MD`. -/
def slaveMd : Nat := slave8259Port + 1

def icw1 : BitVec 8 := 0x11
def icw2Master : BitVec 8 := 0x20
def icw2Slave : BitVec 8 := 0x28
def icw3Master : BitVec 8 := 0x04
def icw3Slave : BitVec 8 := 0x02
def icw4 : BitVec 8 := 0x01
def eoi : BitVec 32 := 0x60
def byteMask : BitVec 8 := 0xFF
def slaveIrq : Nat := 2

namespace Pics

variable (p : Pics)

/-- `outb` to the ports of the chips. -/
def outb (data : BitVec 8) (port : Nat) : Pics :=
  if port = master8259Port then
    { p with chips := { p.chips with master := p.chips.master.command data } }
  else if port = masterMd then
    { p with chips := { p.chips with master := p.chips.master.data data } }
  else if port = slave8259Port then
    { p with chips := { p.chips with slave := p.chips.slave.command data } }
  else if port = slaveMd then
    { p with chips := { p.chips with slave := p.chips.slave.data data } }
  else p

/-- `mask &= ~(1 << n)`. -/
def clearBit (mask : BitVec 8) (n : Nat) : BitVec 8 := (mask.setWidth 32 &&& ~~~(1#32 <<< n)).setWidth 8

/-- `mask |= (1 << n)`. -/
def setBit (mask : BitVec 8) (n : Nat) : BitVec 8 := (mask.setWidth 32 ||| (1#32 <<< n)).setWidth 8

/-- `enable_irq`. -/
def enableIrq (irqNum : Nat) : Pics :=
  if irqNum < 8 then
    let mask := clearBit p.masterMask irqNum
    { p with masterMask := mask }.outb mask masterMd
  else
    let mask := clearBit p.slaveMask (irqNum - 8)
    { p with slaveMask := mask }.outb mask slaveMd

/-- `disable_irq`. -/
def disableIrq (irqNum : Nat) : Pics :=
  if irqNum < 8 then
    let mask := setBit p.masterMask irqNum
    { p with masterMask := mask }.outb mask masterMd
  else
    let mask := setBit p.slaveMask (irqNum - 8)
    { p with slaveMask := mask }.outb mask slaveMd

/-- `send_eoi`. -/
def sendEoi (irqNum : Nat) : Pics :=
  if irqNum ≥ 8 then
    (p.outb ((eoi ||| BitVec.ofNat 32 slaveIrq).setWidth 8) master8259Port).outb
      ((eoi ||| BitVec.ofNat 32 (irqNum - 8)).setWidth 8) slave8259Port
  else p.outb ((eoi ||| BitVec.ofNat 32 irqNum).setWidth 8) master8259Port

/-- `i8259_init`. -/
def i8259Init : Pics :=
  let p := (((p.outb icw1 master8259Port).outb icw2Master masterMd).outb icw3Master masterMd).outb icw4 masterMd
  let p := (((p.outb icw1 slave8259Port).outb icw2Slave slaveMd).outb icw3Slave slaveMd).outb icw4 slaveMd
  let p := { p with masterMask := byteMask, slaveMask := byteMask }
  let p := (p.outb byteMask masterMd).outb byteMask slaveMd
  p.enableIrq slaveIrq

end Pics

/-! ## The descriptor table -/

/-- `idt_desc_t`. -/
structure IdtDesc where
  offset15_00 : BitVec 16
  segSelector : BitVec 16
  reserved4 : BitVec 8
  reserved3 : Bool
  reserved2 : Bool
  reserved1 : Bool
  size : Bool
  reserved0 : Bool
  dpl : BitVec 2
  present : Bool
  offset31_16 : BitVec 16

/-- `SET_IDT_ENTRY`. -/
def setIdtEntry (str : IdtDesc) (handler : BitVec 32) : IdtDesc :=
  { str with
    offset31_16 := ((handler &&& 0xFFFF0000) >>> 16).setWidth 16
    offset15_00 := (handler &&& 0xFFFF).setWidth 16 }

/-- The routines the table leads to. -/
inductive Routine
  | exception (i : Fin 32)
  | syscall
  | keyboard
  | rtc
  | pit
  deriving DecidableEq

def Routine.all : List Routine := (List.finRange 32).map .exception ++ [.syscall, .keyboard, .rtc, .pit]

/-- Where the linker put the routines: apart from each other. -/
structure Symbols where
  address : Routine → BitVec 32
  apart : Function.Injective address

def kernelCs : BitVec 16 := 0x10
def numExceptions : Nat := 32
def idtSize : Nat := 256
def rtcVectorNum : Nat := 40
def kbdVectorNum : Nat := 33
def pitVectorNum : Nat := 32
def syscallVectorNum : Nat := 128

/-- The fields `idt_init` gives every entry. -/
def initialEntry (entry : IdtDesc) (present : Bool) : IdtDesc :=
  { entry with
    present := present
    dpl := 0
    reserved0 := false
    size := true
    reserved1 := true
    reserved2 := true
    reserved3 := false
    reserved4 := 0
    segSelector := kernelCs }

/-- `idt_init`. -/
def idtInit (sym : Symbols) (idt : Nat → IdtDesc) : Nat → IdtDesc :=
  let idt : Nat → IdtDesc := fun i =>
    if h : i < numExceptions then setIdtEntry (initialEntry (idt i) true) (sym.address (.exception ⟨i, h⟩))
    else if i < idtSize then setIdtEntry (initialEntry (idt i) false) 0
    else idt i
  Function.update idt syscallVectorNum
    (setIdtEntry { idt syscallVectorNum with reserved3 := true, present := true, dpl := 3 } (sym.address .syscall))

/-- The lines the device drivers use: `PIT_IRQ`, `KBD_IRQ`, `RTC_IRQ`. -/
def pitIrq : Nat := 0
def kbdIrq : Nat := 1
def rtcIrq : Nat := 8

/-- The state interrupts depend on. -/
structure Interrupts where
  idt : Nat → IdtDesc
  pics : Pics

/-- What `keyboard_init`, `rtc_init` and `pit_init` have in common: they make an entry of the table present
    and lead it to their handler, and enable a line. -/
def Interrupts.install (s : Interrupts) (vector : Nat) (handler : BitVec 32) (irqNum : Nat) : Interrupts where
  idt := Function.update s.idt vector (setIdtEntry { s.idt vector with present := true } handler)
  pics := s.pics.enableIrq irqNum

/-- `keyboard_init`. -/
def keyboardInit (sym : Symbols) (s : Interrupts) : Interrupts :=
  s.install kbdVectorNum (sym.address .keyboard) kbdIrq

/-- `rtc_init`. -/
def rtcInit (sym : Symbols) (s : Interrupts) : Interrupts := s.install rtcVectorNum (sym.address .rtc) rtcIrq

/-- `pit_init`. -/
def pitInit (sym : Symbols) (s : Interrupts) : Interrupts := s.install pitVectorNum (sym.address .pit) pitIrq

/-- The calls of `entry` in `kernel.c` that are about interrupts, in their order. -/
def bootInterrupts (sym : Symbols) (s : Interrupts) : Interrupts :=
  let s : Interrupts := { s with idt := idtInit sym s.idt }
  let s : Interrupts := { s with pics := s.pics.i8259Init }
  pitInit sym (rtcInit sym (keyboardInit sym s))

/-! ## The processor -/

/-- The address of an entry. -/
def IdtDesc.offset (d : IdtDesc) : BitVec 32 := d.offset31_16 ++ d.offset15_00

/-- Is the entry a 32-bit interrupt or trap gate that is present? -/
def IdtDesc.isGate (d : IdtDesc) : Bool := d.present && !d.reserved0 && d.size && d.reserved1 && d.reserved2

/-- Where the processor goes for a vector. An `int` instruction needs the privilege the entry asks for,
    which is given as `some cpl`; for interrupts of devices and exceptions it is `none`. -/
def enter (idt : Nat → IdtDesc) (cpl : Option Nat) (vector : Nat) : Option (BitVec 32) :=
  let d := idt vector
  if d.isGate && (cpl.all fun level => level ≤ d.dpl.toNat) then some d.offset else none

/-- The routine at an address. -/
def routineAt (sym : Symbols) (address : BitVec 32) : Option Routine :=
  Routine.all.find? fun r => sym.address r == address

/-- The line a handler sends the end of interrupt for, before it does anything else. -/
def Routine.eoiLine : Routine → Option Nat
  | .pit => some pitIrq
  | .keyboard => some kbdIrq
  | .rtc => some rtcIrq
  | .syscall | .exception _ => none

/-- The device on line `n` raises it, or lowers it again. -/
def Interrupts.ask (s : Interrupts) (n : Nat) : Interrupts :=
  { s with pics := { s.pics with chips := s.pics.chips.ask n } }

def Interrupts.withdraw (s : Interrupts) (n : Nat) : Interrupts :=
  { s with pics := { s.pics with chips := s.pics.chips.withdraw n } }

/-- The processor takes an interrupt, if the chips have one for it, and the handler its vector leads to runs;
    `none` is a vector without one. Handlers run with interrupts off and send the end of interrupt first, so
    no other interrupt comes between the two. -/
def Interrupts.take (sym : Symbols) (s : Interrupts) : Option (Interrupts × Option Routine) :=
  match s.pics.chips.take with
  | none => some (s, none)
  | some (vector, chips) =>
    match (enter s.idt none vector).bind (routineAt sym) with
    | none => none
    | some r =>
      let pics : Pics := { s.pics with chips := chips }
      some ({ s with pics := (r.eoiLine.map pics.sendEoi).getD pics }, some r)

/-- A device asks for service on line `n` while interrupts are on. -/
def Interrupts.raise (sym : Symbols) (s : Interrupts) (n : Nat) : Option (Interrupts × Option Routine) :=
  (s.ask n).take sym

end BaseOs
