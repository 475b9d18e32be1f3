import BaseOs.Str

set_option autoImplicit false

/-! # The keyboard (`keyboard.h`, `keyboard.c`) and the saved line (`terminal.c`)

`keyboardHandler` decodes one scancode for the current terminal. It changes only the keyboard's own
variables; what the rest of the kernel is asked to do (echo a character, save a line, switch
terminals) is returned as a `KeyAction`. `keyboard_read` clears the flag, waits for Enter and then
takes the saved line: the three parts are separate definitions, so that they can be interleaved. -/

namespace BaseOs

/-- `MAX_TERMINAL` terminals. -/
abbrev Terminal := Fin 3

/-- The numerals of `Terminal` rest on this instance. -/
instance terminal_neZero : NeZero (3 : Nat) := ⟨by decide⟩

theorem terminal_lt {newTerminal : Nat} (h : ¬ newTerminal ≥ 3) : newTerminal < 3 := Nat.lt_of_not_ge h

def termBuffSize : Nat := 128
def bufferSize : Nat := 128

/-- The static variables of the keyboard driver. -/
structure Keyboard where
  capsShiftFlag : Terminal → Nat
  ctrlFlag : Bool
  altFlag : Bool
  bufferIndex : Terminal → Nat
  buffer : Terminal → Bytes
  kbdrFlag : Bool

/-- `MAKE` and `BREAK`. -/
inductive Stroke
  | make
  | brk
  deriving DecidableEq

/-- What a keystroke asks of the rest of the kernel. -/
inductive KeyAction
  | ignore
  /-- `putc` of the key's character. -/
  | echo (c : UInt8)
  /-- `backspace`. -/
  | erase
  /-- `scroll`, then `terminal_read` of the line buffer. -/
  | terminalRead (line : Bytes) (nbytes : Nat)
  /-- Ctrl+L: `clear`, the prompt, and the line buffer again. -/
  | redraw (line : Bytes)
  /-- Alt+F1, Alt+F2, Alt+F3. -/
  | terminalSwitch (newTerminal : Nat)
  /-- The test shortcuts Ctrl+3, Ctrl+4 and Ctrl+1. -/
  | testFileData
  | printFreq
  | printFileInfo

/-! ## The key map -/

def keyRowTail : List UInt8 :=
  ascii "\x00\x00\x00\x00\x00\x00\x00\x00\x00\x00\x00\x00\x00\x00\x00-\x00\x00\x00+"

/-- `kbd_ascii_key_map[NONE_MODE]`; entries past the listed ones are NUL. -/
def keyRowNone : List UInt8 :=
  ascii "\x00\x001234567890-=\x00\x00qwertyuiop[]\n\x00asdfghjkl;'`\x00\\zxcvbnm,./\x00*\x00 \x00"
    ++ keyRowTail

/-- `kbd_ascii_key_map[SHIFT_MODE]`. -/
def keyRowShift : List UInt8 :=
  ascii "\x00\x00!@#$%^&*()_+\x00\x00QWERTYUIOP\x7b\x7d\n\x00ASDFGHJKL:\"~\x00|ZXCVBNM<>?\x00*\x00 \x00"
    ++ keyRowTail

/-- `kbd_ascii_key_map[CAPS_MODE]`. -/
def keyRowCaps : List UInt8 :=
  ascii "\x00\x001234567890-=\x00\x00QWERTYUIOP[]\n\x00ASDFGHJKL;'`\x00\\ZXCVBNM,./\x00*\x00 \x00"
    ++ keyRowTail

/-- `kbd_ascii_key_map[SHIFT_CAPS_MODE]`. -/
def keyRowShiftCaps : List UInt8 :=
  ascii "\x00\x00!@#$%^&*()_+\x00\x00qwertyuiop[]\n\x00asdfghjkl:\"~\x00|zxcvbnm<>?\x00*\x00 \x00"
    ++ keyRowTail

def kbdAsciiKeyMap (mode : Nat) (key : UInt8) : UInt8 :=
  match mode with
  | 0 => keyRowNone.getD key.toNat 0
  | 1 => keyRowShift.getD key.toNat 0
  | 2 => keyRowCaps.getD key.toNat 0
  | _ => keyRowShiftCaps.getD key.toNat 0

/-! ## The handler -/

variable (kb : Keyboard) (t : Terminal)

/-- `toggle_caps`. -/
def toggleCaps : Keyboard :=
  let flag := match kb.capsShiftFlag t with
    | 0 => 2
    | 1 => 3
    | 2 => 0
    | _ => 1
  { kb with capsShiftFlag := Function.update kb.capsShiftFlag t flag }

/-- `toggle_shift`. -/
def toggleShift : Stroke → Keyboard
  | .make =>
    let flag := match kb.capsShiftFlag t with
      | 0 => 1
      | 2 => 3
      | f => f
    { kb with capsShiftFlag := Function.update kb.capsShiftFlag t flag }
  | .brk =>
    let flag := match kb.capsShiftFlag t with
      | 1 => 0
      | 3 => 2
      | f => f
    { kb with capsShiftFlag := Function.update kb.capsShiftFlag t flag }

/-- `toggle_ctrl`. -/
def toggleCtrl (type : Stroke) : Keyboard := { kb with ctrlFlag := type == .make }

/-- `toggle_alt`. -/
def toggleAlt (type : Stroke) : Keyboard := { kb with altFlag := type == .make }

/-- `handle_backspace`. -/
def handleBackspace : Keyboard × KeyAction :=
  if kb.bufferIndex t ≥ 1 then
    ({ kb with
        bufferIndex := Function.update kb.bufferIndex t (kb.bufferIndex t - 1)
        buffer := Function.update kb.buffer t
          (Function.update (kb.buffer t) (kb.bufferIndex t - 1) 0) }, .erase)
  else (kb, .ignore)

/-- `clear_buffer`. -/
def clearBuffer : Keyboard :=
  { kb with
    buffer := Function.update kb.buffer t fun i => if i < bufferSize then 0 else kb.buffer t i
    bufferIndex := Function.update kb.bufferIndex t 0 }

/-- `handle_enter`: raise the flag, hand the line over, clear the buffer. -/
def handleEnter : Keyboard × KeyAction :=
  (clearBuffer { kb with kbdrFlag := true } t, .terminalRead (kb.buffer t) (kb.bufferIndex t))

/-- `process_key`. -/
def processKey (key : UInt8) : Keyboard × KeyAction :=
  if key ≥ 0x02 ∧ key ≤ 0x58 then
    if key = 0x26 ∧ kb.ctrlFlag then (kb, .redraw (kb.buffer t))
    else if key = 0x3B ∧ kb.altFlag then (kb, .terminalSwitch 0)
    else if key = 0x3C ∧ kb.altFlag then (kb, .terminalSwitch 1)
    else if key = 0x3D ∧ kb.altFlag then (kb, .terminalSwitch 2)
    else if key = 0x04 ∧ kb.ctrlFlag then (kb, .testFileData)
    else if key = 0x05 ∧ kb.ctrlFlag then (kb, .printFreq)
    else if key = 0x02 ∧ kb.ctrlFlag then (kb, .printFileInfo)
    else if kb.bufferIndex t + 1 < bufferSize then
      let c := kbdAsciiKeyMap (kb.capsShiftFlag t) key
      ({ kb with
          buffer := Function.update kb.buffer t
            (Function.update (kb.buffer t) (kb.bufferIndex t) c)
          bufferIndex := Function.update kb.bufferIndex t (kb.bufferIndex t + 1) }, .echo c)
    else (kb, .ignore)
  else (kb, .ignore)

/-- `keyboard_handler`, after the scancode has been read from the port. -/
def keyboardHandler (key : UInt8) : Keyboard × KeyAction :=
  if key = 0x3A then (toggleCaps kb t, .ignore)
  else if key = 0x2A ∨ key = 0x36 then (toggleShift kb t .make, .ignore)
  else if key = 0xAA ∨ key = 0xB6 then (toggleShift kb t .brk, .ignore)
  else if key = 0x1D then (toggleCtrl kb .make, .ignore)
  else if key = 0x9D then (toggleCtrl kb .brk, .ignore)
  else if key = 0x0E then handleBackspace kb t
  else if key = 0x1C then handleEnter kb t
  else if key = 0x38 then (toggleAlt kb .make, .ignore)
  else processKey kb t key

/-! ## The saved line -/

/-- `terminal_read`: the row of `save_buff` after the buffer has been copied into it. The call then
    returns `-1` whatever happened. -/
def terminalRead (row buf : Bytes) (nbytes : Int) : Bytes := fun i =>
  if i < termBuffSize then (if (i : Int) < nbytes then buf i else 0) else row i

/-- `terminal_retrieve`: the count it returns and the buffer it leaves. -/
def terminalRetrieve (row buf : Bytes) (nbytes : Int) : Nat × Bytes :=
  let n := nbytes.toNat
  let first := Scan.scan (fun i => row i == 32) 0 (min n termBuffSize)
  let last := Scan.scan (fun i => row i != 0) first (min n (termBuffSize - first))
  let count := last - first
  (count, fun i =>
    if i < count then row (first + i)
    else if i = count ∧ count < n ∧ last < termBuffSize then 0
    else buf i)

/-- The part of `keyboard_read` after the wait: fetch the line, and append a newline unless it starts
    with `exit`. -/
def keyboardReadFetch (row buf : Bytes) (nbytes : Int) : Nat × Bytes :=
  let (count, buf') := terminalRetrieve row buf nbytes
  if strncmp buf' (cstr (ascii "exit")) 4 ≠ 0 then (count + 1, Function.update buf' count 10)
  else (count, buf')

end BaseOs
