import BaseOs.Keyboard.Readers

set_option autoImplicit false

/-! # The line editor of a terminal

With Ctrl up, the keyboard handler is three line editors that know nothing of each other: a keystroke
changes the mode, the line buffer and the saved line of the current terminal as `Editor.press` says, and
nothing of the others (`keystroke_editor`). -/

namespace BaseOs

/-! ## Kinds of keys -/

/-- How `keyboard_handler` sorts the scancodes. -/
inductive KeyKind
  | caps
  | shift (type : Stroke)
  | ctrl (type : Stroke)
  | alt
  | backspace
  | enter
  /-- `process_key`, in its range. -/
  | plain
  /-- `process_key`, outside its range. -/
  | other
  deriving DecidableEq

def keyKind (key : UInt8) : KeyKind :=
  if key = 0x3A then .caps
  else if key = 0x2A ∨ key = 0x36 then .shift .make
  else if key = 0xAA ∨ key = 0xB6 then .shift .brk
  else if key = 0x1D then .ctrl .make
  else if key = 0x9D then .ctrl .brk
  else if key = 0x0E then .backspace
  else if key = 0x1C then .enter
  else if key = 0x38 then .alt
  else if key ≥ 0x02 ∧ key ≤ 0x58 then .plain
  else .other

/-- The scancodes of each kind. -/
def KeyKind.Has : KeyKind → UInt8 → Prop
  | .caps, key => key = 0x3A
  | .shift .make, key => key = 0x2A ∨ key = 0x36
  | .shift .brk, key => key = 0xAA ∨ key = 0xB6
  | .ctrl .make, key => key = 0x1D
  | .ctrl .brk, key => key = 0x9D
  | .alt, key => key = 0x38
  | .backspace, key => key = 0x0E
  | .enter, key => key = 0x1C
  | .plain, key => key ≥ 0x02 ∧ key ≤ 0x58
  | .other, _ => True

theorem keyKind_has {key : UInt8} {kind : KeyKind} (h : keyKind key = kind) : kind.Has key := by
  subst h
  unfold keyKind
  split_ifs
  all_goals first | assumption | trivial

/-- F1, F2 and F3. -/
def isFunctionKey (key : UInt8) : Bool := key == 0x3B || key == 0x3C || key == 0x3D

/-- The keys of the Ctrl shortcuts: L, 3, 4 and 1. -/
def isShortcutKey (key : UInt8) : Bool := key == 0x26 || key == 0x04 || key == 0x05 || key == 0x02

/-- The Ctrl shortcut of a key. -/
def shortcut (line : Bytes) (key : UInt8) : KeyAction :=
  if key = 0x26 then .redraw line
  else if key = 0x04 then .testFileData
  else if key = 0x05 then .printFreq
  else .printFileInfo

/-- The terminal of a function key. -/
def terminalOf (key : UInt8) : Terminal := if key = 0x3B then 0 else if key = 0x3C then 1 else 2

/-- The end of `process_key`: the key goes into the line buffer if there is room. -/
def typeKey (kb : Keyboard) (t : Terminal) (key : UInt8) : Keyboard × KeyAction :=
  if kb.bufferIndex t + 1 < bufferSize then
    let c := kbdAsciiKeyMap (kb.capsShiftFlag t) key
    ({ kb with
        buffer := Function.update kb.buffer t
          (Function.update (kb.buffer t) (kb.bufferIndex t) c)
        bufferIndex := Function.update kb.bufferIndex t (kb.bufferIndex t + 1) }, .echo c)
  else (kb, .ignore)

section Handler

variable {kb : Keyboard} {t : Terminal} {key : UInt8}

/-- The handler, sorted by kinds. -/
theorem keyboardHandler_eq (kb : Keyboard) (t : Terminal) (key : UInt8) :
    keyboardHandler kb t key = match keyKind key with
      | .caps => (toggleCaps kb t, .ignore)
      | .shift type => (toggleShift kb t type, .ignore)
      | .ctrl type => (toggleCtrl kb type, .ignore)
      | .alt => (toggleAlt kb .make, .ignore)
      | .backspace => handleBackspace kb t
      | .enter => handleEnter kb t
      | .plain => processKey kb t key
      | .other => (kb, .ignore) := by
  unfold keyboardHandler keyKind
  split_ifs with h1 h2 h3 h4 h5 h6 h7 h8 h9
  all_goals try rfl
  unfold processKey
  rw [if_neg h9]

theorem shortcutKey_iff : isShortcutKey key = true ↔ key = 0x26 ∨ key = 0x04 ∨ key = 0x05 ∨ key = 0x02 := by
  simp [isShortcutKey, or_assoc]

theorem functionKey_iff : isFunctionKey key = true ↔ key = 0x3B ∨ key = 0x3C ∨ key = 0x3D := by
  simp [isFunctionKey, or_assoc]

/-- `process_key` in its range: a Ctrl shortcut, a switch, or a key that is typed. -/
theorem processKey_eq (kb : Keyboard) (t : Terminal) (h : keyKind key = .plain) :
    processKey kb t key
      = if isShortcutKey key = true ∧ kb.ctrlFlag = true then (kb, shortcut (kb.buffer t) key)
        else if isFunctionKey key = true ∧ kb.altFlag = true then (kb, .terminalSwitch (terminalOf key).val)
        else typeKey kb t key := by
  have hend : processKey kb t key
      = if key ≥ 0x02 ∧ key ≤ 0x58 then
          if key = 0x26 ∧ kb.ctrlFlag then (kb, .redraw (kb.buffer t))
          else if key = 0x3B ∧ kb.altFlag then (kb, .terminalSwitch 0)
          else if key = 0x3C ∧ kb.altFlag then (kb, .terminalSwitch 1)
          else if key = 0x3D ∧ kb.altFlag then (kb, .terminalSwitch 2)
          else if key = 0x04 ∧ kb.ctrlFlag then (kb, .testFileData)
          else if key = 0x05 ∧ kb.ctrlFlag then (kb, .printFreq)
          else if key = 0x02 ∧ kb.ctrlFlag then (kb, .printFileInfo)
          else typeKey kb t key
        else (kb, .ignore) := rfl
  have hrange : key ≥ 0x02 ∧ key ≤ 0x58 := keyKind_has h
  rw [hend, if_pos hrange]
  generalize typeKey kb t key = typed
  by_cases hs : isShortcutKey key = true
  · rcases shortcutKey_iff.1 hs with rfl | rfl | rfl | rfl
    all_goals
      simp [isShortcutKey, isFunctionKey, shortcut]
  · by_cases hf : isFunctionKey key = true
    · rcases functionKey_iff.1 hf with rfl | rfl | rfl
      all_goals
        simp [isShortcutKey, isFunctionKey, terminalOf]
    · simp only [hs, hf, Bool.false_eq_true, false_and, if_false]
      simp only [shortcutKey_iff, not_or] at hs
      simp only [functionKey_iff, not_or] at hf
      simp only [hs, hf, false_and, if_false]

/-- Without Ctrl for the shortcut keys, and without Alt for the function keys, a plain key is typed. -/
theorem processKey_types (h : keyKind key = .plain)
    (hctrl : isShortcutKey key = true → kb.ctrlFlag = false)
    (halt : isFunctionKey key = true → kb.altFlag = false) :
    processKey kb t key = typeKey kb t key := by
  rw [processKey_eq kb t h, if_neg, if_neg]
  · rintro ⟨hf, hset⟩
    rw [halt hf] at hset
    cases hset
  · rintro ⟨hs, hset⟩
    rw [hctrl hs] at hset
    cases hset

end Handler

/-! ## One terminal -/

/-- What a terminal has of the keyboard driver, and its saved line. -/
structure Editor where
  mode : Nat
  index : Nat
  buffer : Bytes
  saved : Bytes

/-- The next mode on Caps Lock. -/
def capsMode : Nat → Nat
  | 0 => 2
  | 1 => 3
  | 2 => 0
  | _ => 1

/-- The next mode when a Shift key goes down or up. -/
def shiftMode : Stroke → Nat → Nat
  | .make, 0 => 1
  | .make, 2 => 3
  | .make, f => f
  | .brk, 1 => 0
  | .brk, 3 => 2
  | .brk, f => f

theorem toggleShift_eq (kb : Keyboard) (t : Terminal) (type : Stroke) :
    toggleShift kb t type = { kb with
      capsShiftFlag := Function.update kb.capsShiftFlag t (shiftMode type (kb.capsShiftFlag t)) } := by
  unfold toggleShift
  rcases kb.capsShiftFlag t with _ | _ | _ | _ | f <;> cases type <;> rfl

namespace Editor

variable (e : Editor)

def typeChar (c : UInt8) : Editor :=
  if e.index + 1 < bufferSize then
    { e with index := e.index + 1, buffer := Function.update e.buffer e.index c }
  else e

def erase : Editor :=
  if e.index ≥ 1 then
    { e with index := e.index - 1, buffer := Function.update e.buffer (e.index - 1) 0 }
  else e

def enter : Editor :=
  { e with
    index := 0
    buffer := fun i => if i < bufferSize then 0 else e.buffer i
    saved := terminalRead e.saved e.buffer e.index }

/-- One key. -/
def press (key : UInt8) : Editor :=
  match keyKind key with
  | .caps => { e with mode := capsMode e.mode }
  | .shift type => { e with mode := shiftMode type e.mode }
  | .ctrl _ | .alt | .other => e
  | .backspace => e.erase
  | .enter => e.enter
  | .plain => e.typeChar (kbdAsciiKeyMap e.mode key)

end Editor

/-- The editor of a terminal. -/
def Desk.editor (d : Desk) (t : Terminal) : Editor :=
  ⟨d.keyboard.capsShiftFlag t, d.keyboard.bufferIndex t, d.keyboard.buffer t, d.saveBuff t⟩

/-- A keystroke that changes the editor of the current terminal to `e` and no other, and leaves the
    current terminal. -/
structure Desk.Edits (d d' : Desk) (e : Editor) : Prop where
  currTerminal : d'.currTerminal = d.currTerminal
  editor : d'.editor d.currTerminal = e
  others : ∀ t, t ≠ d.currTerminal → d'.editor t = d.editor t

variable {d : Desk} {key : UInt8}

theorem Desk.edits_of {d' : Desk} {e : Editor} (hterm : d'.currTerminal = d.currTerminal)
    (hmode : d'.keyboard.capsShiftFlag
      = Function.update d.keyboard.capsShiftFlag d.currTerminal e.mode)
    (hindex : d'.keyboard.bufferIndex = Function.update d.keyboard.bufferIndex d.currTerminal e.index)
    (hbuffer : d'.keyboard.buffer = Function.update d.keyboard.buffer d.currTerminal e.buffer)
    (hsaved : d'.saveBuff = Function.update d.saveBuff d.currTerminal e.saved) : d.Edits d' e := by
  refine ⟨hterm, ?_, fun t ht => ?_⟩
  · simp only [Desk.editor, hmode, hindex, hbuffer, hsaved, Function.update_self]
  · simp only [Desk.editor, hmode, hindex, hbuffer, hsaved, Function.update_of_ne ht]

/-- A key that is no shortcut and no switch is handled by the current terminal's editor. -/
theorem keystroke_editor (hctrl : isShortcutKey key = true → d.keyboard.ctrlFlag = false)
    (halt : isFunctionKey key = true → d.keyboard.altFlag = false) :
    d.Edits (d.keystroke key) ((d.editor d.currTerminal).press key) := by
  have hself : ∀ {α : Type} (f : Terminal → α), f = Function.update f d.currTerminal (f d.currTerminal) :=
    fun f => (Function.update_eq_self _ f).symm
  unfold Desk.keystroke Editor.press
  rw [keyboardHandler_eq]
  cases hkind : keyKind key with
  | caps => exact Desk.edits_of rfl rfl (hself _) (hself _) (hself _)
  | shift type =>
      simp only [toggleShift_eq]
      exact Desk.edits_of rfl rfl (hself _) (hself _) (hself _)
  | ctrl type => exact Desk.edits_of rfl (hself _) (hself _) (hself _) (hself _)
  | alt => exact Desk.edits_of rfl (hself _) (hself _) (hself _) (hself _)
  | other => exact Desk.edits_of rfl (hself _) (hself _) (hself _) (hself _)
  | backspace =>
      unfold handleBackspace Editor.erase
      by_cases hany : d.keyboard.bufferIndex d.currTerminal ≥ 1
      · rw [if_pos hany, if_pos (by exact hany)]
        exact Desk.edits_of rfl (hself _) rfl rfl (hself _)
      · rw [if_neg hany, if_neg (by exact hany)]
        exact Desk.edits_of rfl (hself _) (hself _) (hself _) (hself _)
  | enter => exact Desk.edits_of rfl (hself _) rfl rfl rfl
  | plain =>
      rw [processKey_types hkind hctrl halt]
      unfold typeKey Editor.typeChar
      by_cases hroom : d.keyboard.bufferIndex d.currTerminal + 1 < bufferSize
      · rw [if_pos hroom, if_pos (by exact hroom)]
        exact Desk.edits_of rfl (hself _) rfl rfl (hself _)
      · rw [if_neg hroom, if_neg (by exact hroom)]
        exact Desk.edits_of rfl (hself _) (hself _) (hself _) (hself _)

/-! ## Modifiers and switches -/

theorem keystroke_keyboard (d : Desk) (key : UInt8) :
    (d.keystroke key).keyboard = (keyboardHandler d.keyboard d.currTerminal key).1 := by
  unfold Desk.keystroke Desk.perform Desk.terminalSwitch
  simp only
  split
  · rfl
  · split_ifs <;> rfl
  · rfl

/-- `process_key` leaves both flags. -/
theorem processKey_flags (kb : Keyboard) (t : Terminal) (h : keyKind key = .plain) :
    (processKey kb t key).1.ctrlFlag = kb.ctrlFlag ∧ (processKey kb t key).1.altFlag = kb.altFlag := by
  rw [processKey_eq kb t h]
  unfold typeKey
  split_ifs <;> exact ⟨rfl, rfl⟩

/-- What a key does to the flags of Ctrl and Alt. -/
theorem keyboardHandler_flags (kb : Keyboard) (t : Terminal) (key : UInt8) :
    (keyboardHandler kb t key).1.ctrlFlag = (match keyKind key with
        | .ctrl type => type == .make
        | _ => kb.ctrlFlag) ∧
      (keyboardHandler kb t key).1.altFlag = (kb.altFlag || keyKind key == .alt) := by
  rw [keyboardHandler_eq]
  cases hkind : keyKind key with
  | shift type => simp [toggleShift_eq]
  | backspace =>
      unfold handleBackspace
      split_ifs <;> simp
  | plain => simp [processKey_flags kb t hkind]
  | _ => simp [toggleCaps, toggleCtrl, toggleAlt, handleEnter, clearBuffer]

theorem keystroke_ctrl (hctrl : d.keyboard.ctrlFlag = false) (hkey : keyKind key ≠ .ctrl .make) :
    (d.keystroke key).keyboard.ctrlFlag = false := by
  rw [keystroke_keyboard, (keyboardHandler_flags _ _ _).1]
  cases hkind : keyKind key with
  | ctrl type =>
      cases type with
      | make => exact absurd hkind hkey
      | brk => rfl
  | _ => exact hctrl

theorem keyKind_functionKey (h : isFunctionKey key = true) : keyKind key = .plain := by
  rcases functionKey_iff.1 h with rfl | rfl | rfl <;> rfl

theorem keyKind_shortcutKey (h : isShortcutKey key = true) : keyKind key = .plain := by
  rcases shortcutKey_iff.1 h with rfl | rfl | rfl | rfl <;> rfl

/-- A function key with Alt down switches terminals and does nothing else. -/
theorem keyboardHandler_switch {kb : Keyboard} {t : Terminal} (hkey : isFunctionKey key = true)
    (halt : kb.altFlag = true) :
    keyboardHandler kb t key = (kb, .terminalSwitch (terminalOf key).val) := by
  have hplain := keyKind_functionKey hkey
  have hnot : ¬ (isShortcutKey key = true ∧ kb.ctrlFlag = true) := by
    rintro ⟨hs, -⟩
    rcases functionKey_iff.1 hkey with rfl | rfl | rfl <;> cases hs
  rw [keyboardHandler_eq, hplain]
  simp only [processKey_eq kb t hplain]
  rw [if_neg hnot, if_pos ⟨hkey, halt⟩]

theorem keystroke_switch (hkey : isFunctionKey key = true) (halt : d.keyboard.altFlag = true)
    (t : Terminal) : (d.keystroke key).editor t = d.editor t := by
  unfold Desk.keystroke
  rw [keyboardHandler_switch hkey halt]
  simp only [Desk.perform, Desk.terminalSwitch, dif_pos (terminalOf key).isLt]
  rfl

/-! ## Three terminals -/

/-- The line buffer is in order: there is room for the last NUL, and past the index there are NULs. -/
structure Editor.Tidy (e : Editor) : Prop where
  index_le : e.index ≤ 127
  nul : ∀ j, e.index ≤ j → j < bufferSize → e.buffer j = 0

theorem Editor.Tidy.press {e : Editor} (h : e.Tidy) (key : UInt8) : (e.press key).Tidy := by
  obtain ⟨hle, hnul⟩ := h
  unfold Editor.press
  split
  · exact ⟨hle, hnul⟩
  · exact ⟨hle, hnul⟩
  · exact ⟨hle, hnul⟩
  · exact ⟨hle, hnul⟩
  · exact ⟨hle, hnul⟩
  · unfold Editor.erase
    split_ifs with hany
    · refine ⟨by simp only; omega, fun j hj hlt => ?_⟩
      simp only at hj ⊢
      by_cases hlast : j = e.index - 1
      · rw [hlast, Function.update_self]
      · rw [Function.update_of_ne hlast]
        exact hnul j (by omega) hlt
    · exact ⟨hle, hnul⟩
  · exact ⟨Nat.zero_le _, fun j _ hlt => if_pos hlt⟩
  · unfold Editor.typeChar
    split_ifs with hroom
    · have hsize : bufferSize = 128 := rfl
      refine ⟨by simp only; omega, fun j hj hlt => ?_⟩
      simp only at hj ⊢
      rw [Function.update_of_ne (by omega)]
      exact hnul j (by omega) hlt
    · exact ⟨hle, hnul⟩

/-- Alt going down or up, and the function keys it is for. -/
def isSwitchKey (key : UInt8) : Bool := key == 0x38 || key == 0xB8 || isFunctionKey key

/-- One keyboard interrupt, as a step. -/
def Desk.next (d : Desk) (key : UInt8) : Option Desk := some (d.keystroke key)

/-- Ctrl is not pressed, and F1 to F3 only with Alt down. -/
def Permitted (d : Desk) (key : UInt8) : Prop :=
  keyKind key ≠ .ctrl .make ∧ (isFunctionKey key = true → d.keyboard.altFlag = true)

/-- The scancodes that arrive while `t` is the current terminal, those for switching left out. -/
def Desk.received (t : Terminal) : Desk → List UInt8 → List UInt8
  | _, [] => []
  | d, key :: keys =>
    if d.currTerminal = t ∧ isSwitchKey key = false then key :: received t (d.keystroke key) keys
    else received t (d.keystroke key) keys

/-- The keys for switching leave the editors alone. -/
theorem keystroke_switchKey (hctrl : d.keyboard.ctrlFlag = false) (hkey : isSwitchKey key = true)
    (hperm : Permitted d key) (t : Terminal) : (d.keystroke key).editor t = d.editor t := by
  by_cases hf : isFunctionKey key = true
  · exact keystroke_switch hf (hperm.2 hf) t
  · have hedits := keystroke_editor (fun _ => hctrl) (fun h => absurd h hf)
    have hid : (d.editor d.currTerminal).press key = d.editor d.currTerminal := by
      have hcases : key = 0x38 ∨ key = 0xB8 := by simpa [isSwitchKey, hf] using hkey
      rcases hcases with rfl | rfl <;> rfl
    by_cases ht : t = d.currTerminal
    · rw [ht, hedits.editor, hid]
    · exact hedits.others t ht

/-- A key that is not for switching, on terminal `t` or on another one. -/
theorem keystroke_otherKey (hctrl : d.keyboard.ctrlFlag = false) (hkey : isSwitchKey key = false) :
    d.Edits (d.keystroke key) ((d.editor d.currTerminal).press key) := by
  refine keystroke_editor (fun _ => hctrl) fun h => ?_
  rw [isSwitchKey, h, Bool.or_true] at hkey
  cases hkey

/-- The run with all three terminals and the run of `t` alone. -/
theorem received_editor {t : Terminal} {keys : List UInt8} :
    ∀ {d d' : Desk}, d.keyboard.ctrlFlag = false → d'.keyboard.ctrlFlag = false →
      d'.currTerminal = t → d'.editor t = d.editor t → Runs.AllSteps Desk.next Permitted d keys →
      (keys.foldl Desk.keystroke d).editor t
        = ((d.received t keys).foldl Desk.keystroke d').editor t := by
  induction keys with
  | nil => exact fun _ _ _ heq _ => heq.symm
  | cons key keys ih =>
      intro d d' hctrl hctrl' hterm heq hkeys
      have hrest := hkeys.2 _ rfl
      have hup := keystroke_ctrl hctrl hkeys.1.1
      rw [List.foldl_cons, Desk.received]
      by_cases hswitch : isSwitchKey key = true
      · rw [if_neg (by simp [hswitch])]
        exact ih hup hctrl' hterm (heq.trans (keystroke_switchKey hctrl hswitch hkeys.1 t).symm) hrest
      · have hplain : isSwitchKey key = false := by simpa using hswitch
        have hedits := keystroke_otherKey hctrl hplain
        by_cases ht : d.currTerminal = t
        · rw [if_pos ⟨ht, hplain⟩, List.foldl_cons]
          have hedits' := keystroke_otherKey hctrl' hplain
          refine ih hup (keystroke_ctrl hctrl' hkeys.1.1) (hedits'.currTerminal.trans hterm) ?_ hrest
          have hall := hedits.editor
          have halone := hedits'.editor
          rw [ht] at hall
          rw [hterm] at halone
          rw [halone, hall, heq]
        · rw [if_neg (fun h => ht h.1)]
          exact ih hup hctrl' hterm (heq.trans (hedits.others t (Ne.symm ht)).symm) hrest

theorem keystroke_tidy (hctrl : d.keyboard.ctrlFlag = false) (hperm : Permitted d key)
    (h : ∀ t, (d.editor t).Tidy) (t : Terminal) : ((d.keystroke key).editor t).Tidy := by
  by_cases hswitch : isSwitchKey key = true
  · rw [keystroke_switchKey hctrl hswitch hperm]
    exact h t
  · have hedits := keystroke_otherKey hctrl (by simpa using hswitch)
    by_cases ht : t = d.currTerminal
    · rw [ht, hedits.editor]
      exact (h _).press key
    · rw [hedits.others t ht]
      exact h t

/-- However a stream of scancodes is split among the terminals by switches, each terminal's line, saved
    line and mode are what its own scancodes alone would have made of them, and the line buffers stay in
    order throughout. -/
theorem editors_apart (d : Desk) (hctrl : d.keyboard.ctrlFlag = false) (htidy : ∀ t, (d.editor t).Tidy)
    (keys : List UInt8) (hkeys : Runs.AllSteps Desk.next Permitted d keys) :
    (∀ t, (keys.foldl Desk.keystroke d).editor t
      = ((d.received t keys).foldl Desk.keystroke { d with currTerminal := t }).editor t) ∧
    Runs.AllStates Desk.next (fun d => ∀ t, (d.editor t).Tidy) d keys := by
  refine ⟨fun t => received_editor hctrl hctrl rfl rfl hkeys, ?_⟩
  have hstep : ∀ d key d', (d.keyboard.ctrlFlag = false ∧ ∀ t, (d.editor t).Tidy) → Permitted d key →
      Desk.next d key = some d' → d'.keyboard.ctrlFlag = false ∧ ∀ t, (d'.editor t).Tidy := by
    rintro d key d' ⟨hctrl, htidy⟩ hperm hd'
    obtain rfl := Option.some.inj hd'
    exact ⟨keystroke_ctrl hctrl hperm.1, keystroke_tidy hctrl hperm htidy⟩
  exact Runs.allStates_of_invariant hstep (fun _ h => h.2) ⟨hctrl, htidy⟩ hkeys

theorem idleDesk_tidy (t : Terminal) : (idleDesk.editor t).Tidy :=
  ⟨Nat.zero_le _, fun _ _ _ => rfl⟩

/-- `a` on terminal 0, `b` on terminal 1, Enter on terminal 0. -/
theorem editors_apart_two :
    idleDesk.received 0 [0x1E, 0x38, 0x3C, 0x30, 0x3B, 0x1C] = [0x1E, 0x1C] ∧
      ∀ t, ([0x1E, 0x38, 0x3C, 0x30, 0x3B, 0x1C].foldl Desk.keystroke idleDesk).editor t
        = ((idleDesk.received t [0x1E, 0x38, 0x3C, 0x30, 0x3B, 0x1C]).foldl Desk.keystroke
          { idleDesk with currTerminal := t }).editor t :=
  ⟨by decide, (editors_apart idleDesk rfl idleDesk_tidy _ (by
    refine (Runs.allSteps_cons rfl).2 ⟨⟨by decide, by decide⟩, ?_⟩
    refine (Runs.allSteps_cons rfl).2 ⟨⟨by decide, by decide⟩, ?_⟩
    refine (Runs.allSteps_cons rfl).2 ⟨⟨by decide, by decide⟩, ?_⟩
    refine (Runs.allSteps_cons rfl).2 ⟨⟨by decide, by decide⟩, ?_⟩
    refine (Runs.allSteps_cons rfl).2 ⟨⟨by decide, by decide⟩, ?_⟩
    exact (Runs.allSteps_cons rfl).2 ⟨⟨by decide, by decide⟩, trivial⟩)).1⟩

end BaseOs
