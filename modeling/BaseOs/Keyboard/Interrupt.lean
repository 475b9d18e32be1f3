import BaseOs.Keyboard.Shortcuts

set_option autoImplicit false

/-! # The keyboard interrupt in the kernel

`keyInterrupt` is `keyboard_handler` with everything it calls, on the whole kernel state.
`keyInterrupt_desk`: what it does to the keyboard, the saved lines and the current terminal is what
`Desk.keystroke` says, so the interleavings of `Readers` are those of the kernel. `fullInterrupt` has the
test shortcuts too. -/

namespace BaseOs

open Kernel

variable {cfg : Config} {k k' : Kernel} {loc : Locals}

/-- Ctrl+L prints the prompt and the line typed so far. -/
def redrawText (line : Bytes) : List UInt8 :=
  ascii "391OS> " ++ (List.range (Scan.scan (fun i => line i != 0) 0 bufferSize)).map line

/-- `keyboard_handler`. The test shortcuts, which print test output, are left out: they have no outcome
    here. `esp`, `ebp` and `loc` are for `terminal_switch`. -/
def keyInterrupt (cfg : Config) (k : Kernel) (key : UInt8) (esp ebp : Nat) (loc : Locals) :
    Option Kernel :=
  let r := keyboardHandler k.keyboard k.currTerminal key
  let k := { k with keyboard := r.1 }
  match r.2 with
  | .ignore => some k
  | .echo c => some (k.setConsole (k.console.putc c))
  | .erase => some (k.setConsole k.console.backspace)
  | .terminalRead line nbytes =>
    let k := k.setConsole k.console.scroll
    some { k with
      saveBuff := Function.update k.saveBuff k.currTerminal
        (terminalRead (k.saveBuff k.currTerminal) line nbytes) }
  | .redraw line => some ((k.setConsole k.console.clear).printf (redrawText line))
  | .terminalSwitch newTerminal => k.next cfg (.terminalSwitch newTerminal esp ebp loc)
  | .testFileData | .printFreq | .printFileInfo => none

/-- The interrupt does to the readers' part of the kernel what a keystroke does to the desk. -/
theorem keyInterrupt_desk {key : UInt8} {esp ebp : Nat}
    (h : keyInterrupt cfg k key esp ebp loc = some k') : k'.desk = k.desk.keystroke key := by
  have hkey : k.desk.keystroke key = { k.desk with
      keyboard := (keyboardHandler k.keyboard k.currTerminal key).1 }.perform
        (keyboardHandler k.keyboard k.currTerminal key).2 := rfl
  rw [hkey]
  unfold keyInterrupt at h
  simp only at h
  split at h
  · next haction => rw [haction]; obtain rfl := Option.some.inj h; rfl
  · next haction => rw [haction]; obtain rfl := Option.some.inj h; rfl
  · next haction => rw [haction]; obtain rfl := Option.some.inj h; rfl
  · next haction => rw [haction]; obtain rfl := Option.some.inj h; rfl
  · next haction => rw [haction]; obtain rfl := Option.some.inj h; rfl
  · next haction =>
      rw [haction]
      obtain ⟨⟨k1, out⟩, hstep, rfl⟩ := Option.map_eq_some_iff.1 h
      exact (terminalSwitch_background hstep).1
  · cases h
  · cases h
  · cases h

/-! ## With the test shortcuts -/

/-- What the test shortcuts find: their counters, and their stack. -/
structure TestLocals where
  ctr3 : Nat
  ctr4 : UInt32
  stack : ShortcutLocals

/-- The shortcut a key asks for. -/
def KeyAction.shortcut? (tests : TestLocals) : KeyAction → Option TestShortcut
  | .testFileData => some (.testFileData tests.ctr3)
  | .printFreq => some (.printFreq tests.ctr4)
  | .printFileInfo => some .printFileInfo
  | _ => none

/-- `keyboard_handler`, with the test shortcuts. -/
def fullInterrupt (cfg : Config) (k : Kernel) (key : UInt8) (esp ebp : Nat) (loc : Locals)
    (tests : TestLocals) : Option Kernel :=
  let r := keyboardHandler k.keyboard k.currTerminal key
  match r.2.shortcut? tests with
  | some shortcut => { k with keyboard := r.1 }.testShortcut cfg shortcut tests.stack
  | none => keyInterrupt cfg k key esp ebp loc

theorem desk_offDevices : OffDevices Kernel.desk where
  setConsole _ _ := rfl
  setFdTable _ _ _ := rfl
  rtc _ _ := rfl
  memory _ _ _ := rfl

/-- The shortcuts type nothing. -/
theorem fullInterrupt_desk {key : UInt8} {esp ebp : Nat} {tests : TestLocals}
    (h : fullInterrupt cfg k key esp ebp loc tests = some k') : k'.desk = k.desk.keystroke key := by
  unfold fullInterrupt at h
  simp only at h
  split at h
  · next shortcut hshortcut =>
      obtain ⟨p, -, hdevice⟩ := testShortcut_byDevice h
      have hperform : ∀ d : Desk, d.perform (keyboardHandler k.keyboard k.currTerminal key).2 = d := by
        intro d
        cases haction : (keyboardHandler k.keyboard k.currTerminal key).2 with
        | terminalRead | terminalSwitch =>
            rw [haction] at hshortcut
            cases hshortcut
        | _ => rfl
      rw [hdevice.offDevices desk_offDevices]
      exact (hperform _).symm
  · exact keyInterrupt_desk h

end BaseOs
