import BaseOs.Keyboard.Editor

set_option autoImplicit false

/-! # Modifier keys

The driver's flags against the keys on the desk. Ctrl is followed exactly; Alt is never seen to go up,
so that the function keys go on switching terminals (`shortcuts_right_iff`). One flag stands for two
Shift keys, and two cells of the key map are wrong (`decoding_right_iff`). -/

namespace BaseOs

/-! ## Ctrl and Alt -/

/-- Alt going down or up. -/
def altEvent (key : UInt8) : Option Stroke :=
  if key = 0x38 then some .make else if key = 0xB8 then some .brk else none

/-- Ctrl going down or up. -/
def ctrlEvent (key : UInt8) : Option Stroke :=
  if key = 0x1D then some .make else if key = 0x9D then some .brk else none

/-- Does the key call `terminal_switch`? -/
def KeyAction.isSwitch : KeyAction → Bool
  | .terminalSwitch _ => true
  | _ => false

/-- Does the key fire a Ctrl shortcut? -/
def KeyAction.isShortcut : KeyAction → Bool
  | .redraw _ | .testFileData | .printFreq | .printFileInfo => true
  | _ => false

/-- The keyboard and all scancodes so far, the latest first. -/
structure Watched where
  desk : Desk
  past : List UInt8

def Watched.next (s : Watched) (key : UInt8) : Option Watched :=
  some ⟨s.desk.keystroke key, key :: s.past⟩

/-- What a scancode makes the driver do now. -/
def Watched.action (s : Watched) (key : UInt8) : KeyAction :=
  (keyboardHandler s.desk.keyboard s.desk.currTerminal key).2

/-- A function key switches terminals if and only if the latest Alt event is a press, and a shortcut
    fires if and only if the latest Ctrl event is one. -/
def ShortcutsRight (s : Watched) (key : UInt8) : Prop :=
  (isFunctionKey key = true →
    ((s.action key).isSwitch = true ↔ s.past.findSome? altEvent = some .make)) ∧
  (isShortcutKey key = true →
    ((s.action key).isShortcut = true ↔ s.past.findSome? ctrlEvent = some .make))

/-- No function key after Alt has been pressed and let go. -/
def AltStillDown (s : Watched) (key : UInt8) : Prop :=
  isFunctionKey key = true → s.past.findSome? altEvent = some .brk → 0x38 ∉ s.past

theorem typeKey_action (kb : Keyboard) (t : Terminal) (key : UInt8) :
    (typeKey kb t key).2.isSwitch = false ∧ (typeKey kb t key).2.isShortcut = false := by
  unfold typeKey
  split_ifs <;> exact ⟨rfl, rfl⟩

theorem shortcut_action (line : Bytes) (key : UInt8) : (shortcut line key).isShortcut = true := by
  unfold shortcut
  split_ifs <;> rfl

/-- The driver goes by its flag for Alt. -/
theorem functionKey_action {kb : Keyboard} {t : Terminal} {key : UInt8}
    (hkey : isFunctionKey key = true) : (keyboardHandler kb t key).2.isSwitch = kb.altFlag := by
  cases halt : kb.altFlag with
  | true =>
      rw [keyboardHandler_switch hkey halt]
      rfl
  | false =>
      have hplain := keyKind_functionKey hkey
      have hnot : ¬ (isShortcutKey key = true ∧ kb.ctrlFlag = true) := by
        rintro ⟨hs, -⟩
        rcases functionKey_iff.1 hkey with rfl | rfl | rfl <;> cases hs
      rw [keyboardHandler_eq, hplain]
      simp only [processKey_eq kb t hplain]
      rw [if_neg hnot, if_neg (by simp [halt])]
      exact (typeKey_action kb t key).1

/-- And by its flag for Ctrl. -/
theorem shortcutKey_action {kb : Keyboard} {t : Terminal} {key : UInt8}
    (hkey : isShortcutKey key = true) : (keyboardHandler kb t key).2.isShortcut = kb.ctrlFlag := by
  have hplain := keyKind_shortcutKey hkey
  rw [keyboardHandler_eq, hplain]
  simp only [processKey_eq kb t hplain]
  cases hctrl : kb.ctrlFlag with
  | true =>
      rw [if_pos ⟨hkey, rfl⟩]
      exact shortcut_action _ _
  | false =>
      have hnot : ¬ (isFunctionKey key = true ∧ kb.altFlag = true) := by
        rintro ⟨hf, -⟩
        rcases shortcutKey_iff.1 hkey with rfl | rfl | rfl | rfl <;> cases hf
      rw [if_neg (by simp), if_neg hnot]
      exact (typeKey_action kb t key).2

/-- What the flags hold: Ctrl whether its latest event is a press, Alt whether it has ever been
    pressed. -/
structure Watched.Recorded (s : Watched) : Prop where
  ctrl : s.desk.keyboard.ctrlFlag = true ↔ s.past.findSome? ctrlEvent = some .make
  alt : s.desk.keyboard.altFlag = true ↔ 0x38 ∈ s.past

theorem ctrlEvent_some {key : UInt8} {type : Stroke} (h : keyKind key = .ctrl type) :
    ctrlEvent key = some type := by
  cases type with
  | make =>
      obtain rfl : key = 0x1D := keyKind_has h
      rfl
  | brk =>
      obtain rfl : key = 0x9D := keyKind_has h
      rfl

theorem ctrlEvent_none {key : UInt8} (h : ∀ type, keyKind key ≠ .ctrl type) : ctrlEvent key = none := by
  unfold ctrlEvent
  rw [if_neg, if_neg]
  · rintro rfl
    exact h .brk rfl
  · rintro rfl
    exact h .make rfl

theorem Watched.Recorded.next {s : Watched} (h : s.Recorded) (key : UInt8) :
    (⟨s.desk.keystroke key, key :: s.past⟩ : Watched).Recorded := by
  obtain ⟨hflag, haltFlag⟩ := keyboardHandler_flags s.desk.keyboard s.desk.currTerminal key
  rw [← keystroke_keyboard] at hflag haltFlag
  constructor
  · simp only [hflag, List.findSome?_cons]
    cases hkind : keyKind key with
    | ctrl type =>
        rw [ctrlEvent_some hkind]
        simp
    | _ =>
        rw [ctrlEvent_none (by simp [hkind])]
        exact h.ctrl
  · simp only [haltFlag, Bool.or_eq_true, h.alt, beq_iff_eq, List.mem_cons]
    constructor
    · rintro (hpast | hkind)
      · exact Or.inr hpast
      · exact Or.inl (keyKind_has hkind).symm
    · rintro (rfl | hpast)
      · exact Or.inr rfl
      · exact Or.inl hpast

/-- One key: it does right if and only if it is no function key that comes too late. -/
theorem Watched.Recorded.right_iff {s : Watched} (h : s.Recorded) (key : UInt8) :
    ShortcutsRight s key ↔ AltStillDown s key := by
  have hctrl : isShortcutKey key = true →
      ((s.action key).isShortcut = true ↔ s.past.findSome? ctrlEvent = some .make) := by
    intro hkey
    rw [Watched.action, shortcutKey_action hkey]
    exact h.ctrl
  unfold ShortcutsRight AltStillDown
  rw [and_iff_left hctrl]
  refine imp_congr_right fun hkey => ?_
  rw [Watched.action, functionKey_action hkey, h.alt]
  constructor
  · intro hiff hlast hpast
    rw [hiff.1 hpast] at hlast
    cases hlast
  · intro hlate
    constructor
    · intro hpast
      cases hlast : s.past.findSome? altEvent with
      | none => exact absurd (List.findSome?_eq_none_iff.1 hlast _ hpast) (by decide)
      | some type =>
          cases type with
          | make => rfl
          | brk => exact absurd hpast (hlate hlast)
    · intro hlast
      obtain ⟨key', hmem, hkey'⟩ := List.exists_of_findSome?_eq_some hlast
      unfold altEvent at hkey'
      split_ifs at hkey' with heq
      · rwa [← heq]
      · cases hkey'

/-- For every sequence of scancodes, on whatever terminals: every switch and shortcut is right if and
    only if no function key follows an Alt that has been pressed and let go. -/
theorem shortcuts_right_iff (d : Desk) (hctrl : d.keyboard.ctrlFlag = false)
    (halt : d.keyboard.altFlag = false) (keys : List UInt8) :
    Runs.AllSteps Watched.next ShortcutsRight ⟨d, []⟩ keys ↔
      Runs.AllSteps Watched.next AltStillDown ⟨d, []⟩ keys := by
  refine Runs.allSteps_congr (I := Watched.Recorded) ?_ (fun s key h => h.right_iff key) ?_ keys
  · intro s key s' h hnext
    obtain rfl := Option.some.inj hnext
    exact h.next key
  · exact ⟨by simp [hctrl], by simp [halt]⟩

/-- Alt, F2, Alt up; Ctrl, L. -/
theorem shortcuts_right_held :
    Runs.AllSteps Watched.next ShortcutsRight ⟨idleDesk, []⟩ [0x38, 0x3C, 0xB8, 0x1D, 0x26] := by
  refine (shortcuts_right_iff idleDesk rfl rfl _).2 ?_
  refine (Runs.allSteps_cons rfl).2 ⟨fun _ h => absurd h (by decide), ?_⟩
  refine (Runs.allSteps_cons rfl).2 ⟨fun _ h => absurd h (by decide), ?_⟩
  refine (Runs.allSteps_cons rfl).2 ⟨fun h => absurd h (by decide), ?_⟩
  refine (Runs.allSteps_cons rfl).2 ⟨fun h => absurd h (by decide), ?_⟩
  exact (Runs.allSteps_cons rfl).2 ⟨fun h => absurd h (by decide), trivial⟩

/-- Alt, Alt up, F2 switches to terminal 1. -/
theorem shortcuts_not_right : ¬ ∀ (d : Desk) (keys : List UInt8), d.keyboard.ctrlFlag = false →
    d.keyboard.altFlag = false → Runs.AllSteps Watched.next ShortcutsRight ⟨d, []⟩ keys := by
  intro hall
  have hlast := ((hall idleDesk [0x38, 0xB8, 0x3C] rfl rfl).2 _ rfl).2 _ rfl
  exact absurd ((hlast.1.1 (by decide)).1 (by decide)) (by decide)

/-! ## Shift and Caps Lock -/

/-- A row of the US layout from scancode `first` on: each key's symbol without and with Shift. -/
def usRow (first : Nat) (plain shifted : List UInt8) (code : Nat) : Option (UInt8 × UInt8) :=
  if first ≤ code then (plain.zip shifted)[code - first]? else none

/-- The printing keys of the US layout, by scancode. -/
def usKeys (code : Nat) : Option (UInt8 × UInt8) :=
  usRow 0x02 (ascii "1234567890-=") (ascii "!@#$%^&*()_+") code
    <|> usRow 0x10 (ascii "qwertyuiop[]") (ascii "QWERTYUIOP\x7b\x7d") code
    <|> usRow 0x1E (ascii "asdfghjkl;'`") (ascii "ASDFGHJKL:\"~") code
    <|> usRow 0x2B (ascii "\\zxcvbnm,./") (ascii "|ZXCVBNM<>?") code
    <|> usRow 0x37 (ascii "*") (ascii "*") code
    <|> usRow 0x39 (ascii " ") (ascii " ") code
    <|> usRow 0x4A (ascii "-") (ascii "-") code
    <|> usRow 0x4E (ascii "+") (ascii "+") code

def isLetter (c : UInt8) : Bool := 97 ≤ c && c ≤ 122

/-- The character of a printing key: Caps Lock turns Shift round for letters, and for them only. -/
def usChar (shift caps : Bool) (symbols : UInt8 × UInt8) : UInt8 :=
  if (if isLetter symbols.1 then shift != caps else shift) then symbols.2 else symbols.1

/-- The driver on one terminal, and the keys: which Shift keys are down, whether the latest Shift event
    is a press or a release, and whether Caps Lock has been pressed an odd number of times. -/
structure Shifts where
  keyboard : Keyboard
  left : Bool
  right : Bool
  latest : Stroke
  caps : Bool

variable (t : Terminal)

def Shifts.next (s : Shifts) (key : UInt8) : Option Shifts :=
  some
    { keyboard := (keyboardHandler s.keyboard t key).1
      left := if key = 0x2A then true else if key = 0xAA then false else s.left
      right := if key = 0x36 then true else if key = 0xB6 then false else s.right
      latest := if key = 0x2A ∨ key = 0x36 then .make
        else if key = 0xAA ∨ key = 0xB6 then .brk else s.latest
      caps := if key = 0x3A then !s.caps else s.caps }

/-- Some Shift key is down. -/
def Shifts.down (s : Shifts) : Bool := s.left || s.right

/-- The character a key appends to the line buffer. -/
def appended (kb : Keyboard) (key : UInt8) : Option UInt8 :=
  let kb' := (keyboardHandler kb t key).1
  if kb'.bufferIndex t = kb.bufferIndex t + 1 then some (kb'.buffer t (kb.bufferIndex t)) else none

/-- A printing key that appends a character appends the one of the US layout. -/
def DecodingRight (s : Shifts) (key : UInt8) : Prop :=
  ∀ symbols c, usKeys key.toNat = some symbols → appended t s.keyboard key = some c →
    c = usChar s.down s.caps symbols

/-- The key is typed: there is room for it, and it is not taken for a shortcut or a switch. -/
def Typed (kb : Keyboard) (key : UInt8) : Prop :=
  keyKind key = .plain ∧ kb.bufferIndex t + 1 < bufferSize ∧
    ¬ (isShortcutKey key = true ∧ kb.ctrlFlag = true) ∧
    ¬ (isFunctionKey key = true ∧ kb.altFlag = true)

/-- The brackets `[` and `]`. -/
def isBracket (key : UInt8) : Bool := key == 0x1A || key == 0x1B

/-- A key that is typed while a Shift key is down: no Shift key has been let go since the latest press,
    unless Shift makes no difference to the key; and it is no bracket with Caps Lock on. -/
def OneShift (s : Shifts) (key : UInt8) : Prop :=
  Typed t s.keyboard key → s.down = true → ∀ symbols, usKeys key.toNat = some symbols →
    (s.latest = .brk → symbols.1 = symbols.2) ∧ ¬ (isBracket key = true ∧ s.caps = true)

/-- The mode of the driver. -/
def modeOf (shift caps : Bool) : Nat := (if shift then 1 else 0) + if caps then 2 else 0

/-- The key map has the US layout's character in the four cells of a key, but for the brackets with
    Shift and Caps Lock, which come without Shift. -/
def cellsRight (code : Nat) : Bool :=
  match usKeys code with
  | none => true
  | some symbols =>
    [false, true].all fun shift => [false, true].all fun caps =>
      kbdAsciiKeyMap (modeOf shift caps) (UInt8.ofNat code)
        == if isBracket (UInt8.ofNat code) && shift && caps then symbols.1 else usChar shift caps symbols

theorem cells_right : (List.range 0x59).all cellsRight = true := by decide +kernel

variable {t} {s : Shifts} {key : UInt8}

theorem keyMap_us (hkey : key ≤ 0x58) {symbols : UInt8 × UInt8} (h : usKeys key.toNat = some symbols)
    (shift caps : Bool) :
    kbdAsciiKeyMap (modeOf shift caps) key
      = if isBracket key = true ∧ shift = true ∧ caps = true then symbols.1
        else usChar shift caps symbols := by
  have hlt : key.toNat < 0x59 := Nat.lt_succ_of_le (UInt8.le_iff_toNat_le.1 hkey)
  have hcells := List.all_eq_true.1 cells_right key.toNat (List.mem_range.2 hlt)
  simp only [cellsRight, h, UInt8.ofNat_toNat] at hcells
  have hshift := List.all_eq_true.1 hcells shift (by cases shift <;> simp)
  have hcaps := List.all_eq_true.1 hshift caps (by cases caps <;> simp)
  simpa [and_assoc] using hcaps

theorem usChar_eq_iff (caps : Bool) (symbols : UInt8 × UInt8) :
    usChar false caps symbols = usChar true caps symbols ↔ symbols.1 = symbols.2 := by
  unfold usChar
  cases isLetter symbols.1 <;> cases caps <;> simp [eq_comm]

theorem bracket_symbols (hkey : isBracket key = true) {symbols : UInt8 × UInt8}
    (h : usKeys key.toNat = some symbols) (caps : Bool) :
    symbols.1 ≠ usChar true caps symbols ∧ symbols.1 ≠ symbols.2 := by
  have hcases : key = 0x1A ∨ key = 0x1B := by simpa [isBracket] using hkey
  rcases hcases with rfl | rfl
  · obtain rfl : (91, 123) = symbols := Option.some.inj h
    cases caps <;> decide
  · obtain rfl : (93, 125) = symbols := Option.some.inj h
    cases caps <;> decide

theorem appended_typed {kb : Keyboard} (h : Typed t kb key) :
    appended t kb key = some (kbdAsciiKeyMap (kb.capsShiftFlag t) key) := by
  obtain ⟨hplain, hroom, hnoCtrl, hnoAlt⟩ := h
  have heq : keyboardHandler kb t key = typeKey kb t key := by
    rw [keyboardHandler_eq, hplain]
    simp only [processKey_eq kb t hplain]
    rw [if_neg hnoCtrl, if_neg hnoAlt]
  unfold appended
  rw [heq]
  unfold typeKey
  rw [if_pos hroom]
  simp only [Function.update_self, if_true]

theorem appended_not_typed {kb : Keyboard} (h : ¬ Typed t kb key) : appended t kb key = none := by
  have hne : (keyboardHandler kb t key).1.bufferIndex t ≠ kb.bufferIndex t + 1 := by
    rw [keyboardHandler_eq]
    cases hkind : keyKind key with
    | shift type => simp [toggleShift_eq]
    | backspace =>
        unfold handleBackspace
        split_ifs
        · simp only [Function.update_self]
          omega
        · simp
    | enter => simp [handleEnter, clearBuffer]
    | plain =>
        simp only [processKey_eq kb t hkind]
        split_ifs with hctrl halt
        · simp
        · simp
        · unfold typeKey
          rw [if_neg fun hroom => h ⟨hkind, hroom, hctrl, halt⟩]
          simp
    | _ => simp [toggleCaps, toggleCtrl, toggleAlt]
  unfold appended
  exact if_neg hne

/-- What the driver's mode stands for: the latest Shift event, and Caps Lock. -/
structure Shifts.Recorded (t : Terminal) (s : Shifts) : Prop where
  mode : s.keyboard.capsShiftFlag t = modeOf (s.latest == .make) s.caps
  down : s.latest = .make → s.down = true

/-- One key: it is decoded right if and only if it is not caught between two Shift keys, and is no
    bracket with Shift and Caps Lock. -/
theorem Shifts.Recorded.right_iff (h : s.Recorded t) (key : UInt8) :
    DecodingRight t s key ↔ OneShift t s key := by
  by_cases htyped : Typed t s.keyboard key
  · have hrange := (keyKind_has htyped.1).2
    unfold DecodingRight OneShift
    rw [appended_typed htyped, h.mode]
    -- `toggle_shift` keeps the kind of the latest event, not the state of the keys
    cases hlatest : s.latest with
    | make =>
        have hdown := h.down hlatest
        constructor
        · rintro hright - - symbols hsym
          refine ⟨fun hb => (by cases hb), ?_⟩
          rintro ⟨hbracket, hcaps⟩
          have heq := hright symbols _ hsym rfl
          rw [keyMap_us hrange hsym, if_pos ⟨hbracket, rfl, hcaps⟩, hdown] at heq
          exact (bracket_symbols hbracket hsym _).1 heq
        · rintro hone symbols c hsym hc
          obtain rfl := Option.some.inj hc
          have hnot := (hone htyped hdown symbols hsym).2
          rw [keyMap_us hrange hsym, if_neg (fun hb => hnot ⟨hb.1, hb.2.2⟩), hdown]
          rfl
    | brk =>
        have hmap : ∀ symbols, usKeys key.toNat = some symbols →
            kbdAsciiKeyMap (modeOf (Stroke.brk == .make) s.caps) key = usChar false s.caps symbols := by
          intro symbols hsym
          rw [keyMap_us hrange hsym, if_neg (fun hb => by cases hb.2.1)]
          rfl
        constructor
        · rintro hright - hdown symbols hsym
          have heq := hright symbols _ hsym rfl
          rw [hmap symbols hsym, hdown] at heq
          have hsame := (usChar_eq_iff _ _).1 heq
          exact ⟨fun _ => hsame, fun hb => (bracket_symbols hb.1 hsym s.caps).2 hsame⟩
        · rintro hone symbols c hsym hc
          obtain rfl := Option.some.inj hc
          rw [hmap symbols hsym]
          cases hdown : s.down with
          | false => rfl
          | true => exact (usChar_eq_iff _ _).2 ((hone htyped hdown symbols hsym).1 rfl)
  · refine iff_of_true (fun symbols c _ hc => ?_) fun h => absurd h htyped
    rw [appended_not_typed htyped] at hc
    cases hc

theorem keyboardHandler_mode (kb : Keyboard) (t : Terminal) (key : UInt8) :
    (keyboardHandler kb t key).1.capsShiftFlag t = (match keyKind key with
      | .caps => capsMode (kb.capsShiftFlag t)
      | .shift type => shiftMode type (kb.capsShiftFlag t)
      | _ => kb.capsShiftFlag t) := by
  rw [keyboardHandler_eq]
  cases hkind : keyKind key with
  | caps => exact Function.update_self ..
  | shift type =>
      simp only [toggleShift_eq]
      exact Function.update_self ..
  | backspace =>
      unfold handleBackspace
      split_ifs <;> rfl
  | plain =>
      simp only [processKey_eq kb t hkind]
      unfold typeKey
      split_ifs <;> rfl
  | _ => rfl

theorem capsMode_modeOf (shift caps : Bool) : capsMode (modeOf shift caps) = modeOf shift !caps := by
  cases shift <;> cases caps <;> rfl

theorem shiftMode_modeOf (type : Stroke) (shift caps : Bool) :
    shiftMode type (modeOf shift caps) = modeOf (type == .make) caps := by
  cases type <;> cases shift <;> cases caps <;> rfl

theorem Shifts.Recorded.next {s' : Shifts} (h : s.Recorded t) (hnext : s.next t key = some s') :
    s'.Recorded t := by
  obtain rfl := Option.some.inj hnext
  have hmode := keyboardHandler_mode s.keyboard t key
  rw [h.mode] at hmode
  cases hkind : keyKind key with
  | caps =>
      obtain rfl : key = 0x3A := keyKind_has hkind
      rw [hkind] at hmode
      exact ⟨hmode.trans (capsMode_modeOf _ _), h.down⟩
  | shift type =>
      rw [hkind] at hmode
      have hshift := hmode.trans (shiftMode_modeOf type _ _)
      cases type with
      | make =>
          rcases keyKind_has hkind with rfl | rfl
          · exact ⟨hshift, fun _ => rfl⟩
          · exact ⟨hshift, fun _ => Bool.or_true _⟩
      | brk =>
          rcases keyKind_has hkind with rfl | rfl
          · exact ⟨hshift, fun hb => (by cases hb)⟩
          · exact ⟨hshift, fun hb => (by cases hb)⟩
  | _ =>
      have hne : key ≠ 0x2A ∧ key ≠ 0x36 ∧ key ≠ 0xAA ∧ key ≠ 0xB6 ∧ key ≠ 0x3A := by
        refine ⟨?_, ?_, ?_, ?_, ?_⟩ <;> (rintro rfl; cases hkind)
      rw [hkind] at hmode
      obtain ⟨h1, h2, h3, h4, h5⟩ := hne
      refine ⟨?_, fun hlatest => ?_⟩
      · simp only [h1, h2, h3, h4, h5, or_self, if_false]
        exact hmode
      · simp only [h1, h2, h3, h4, or_self, if_false] at hlatest
        simp only [Shifts.down, h1, h2, h3, h4, if_false]
        exact h.down hlatest

/-- For every sequence of scancodes on one terminal, from a state with no Shift key down and Caps Lock
    off: every character is the one of the US layout if and only if the sequence has no key caught
    between two Shift keys and no bracket with Shift and Caps Lock. -/
theorem decoding_right_iff (kb : Keyboard) (t : Terminal) (hmode : kb.capsShiftFlag t = 0)
    (keys : List UInt8) :
    Runs.AllSteps (Shifts.next t) (DecodingRight t) ⟨kb, false, false, .brk, false⟩ keys ↔
      Runs.AllSteps (Shifts.next t) (OneShift t) ⟨kb, false, false, .brk, false⟩ keys :=
  Runs.allSteps_congr (I := Shifts.Recorded t) (fun _ _ _ h hnext => h.next hnext)
    (fun _ key h => h.right_iff key) ⟨hmode, fun h => (by cases h)⟩ keys

/-- Left Shift, `a`, Shift up, Caps Lock, `[`. -/
theorem decoding_right_shift :
    Runs.AllSteps (Shifts.next 0) (DecodingRight 0) ⟨idleDesk.keyboard, false, false, .brk, false⟩
      [0x2A, 0x1E, 0xAA, 0x3A, 0x1A] := by
  refine (decoding_right_iff idleDesk.keyboard 0 rfl _).2 ?_
  refine (Runs.allSteps_cons rfl).2 ⟨fun _ h => absurd h (by decide), ?_⟩
  refine (Runs.allSteps_cons rfl).2 ⟨fun _ _ _ _ => ⟨fun h => absurd h (by decide), by decide⟩, ?_⟩
  refine (Runs.allSteps_cons rfl).2 ⟨fun h => absurd h.1 (by decide), ?_⟩
  refine (Runs.allSteps_cons rfl).2 ⟨fun h => absurd h.1 (by decide), ?_⟩
  exact (Runs.allSteps_cons rfl).2 ⟨fun _ h => absurd h (by decide), trivial⟩

/-- Both Shift keys down, the right one let go, `a`: the line gets `a`, not `A`. -/
theorem decoding_not_right : ¬ ∀ (kb : Keyboard) (t : Terminal) (keys : List UInt8),
    kb.capsShiftFlag t = 0 →
    Runs.AllSteps (Shifts.next t) (DecodingRight t) ⟨kb, false, false, .brk, false⟩ keys := by
  intro hall
  have hlast := (((hall idleDesk.keyboard 0 [0x2A, 0x36, 0xB6, 0x1E] rfl).2 _ rfl).2 _ rfl).2 _ rfl
  exact absurd (hlast.1 (97, 65) 97 (by decide) (by decide)) (by decide)

end BaseOs
