import BaseOs.Console.Layout
import BaseOs.Keyboard.Interrupt
import BaseOs.Keyboard.Lines

set_option autoImplicit false

/-! # The line on the screen

While a line is typed, the screen shows it from where the cursor was: echo, erase and redraw are three
routines, and each keeps the line buffer and the screen in step (`typing_inStep`). -/

namespace BaseOs

open Kernel

/-! ## Typing -/

/-- The kernel while a line is typed: the cell the line starts at, how often the screen has moved up
    since then, and the cells typed into since then, where they are now. -/
structure Echo where
  kernel : Kernel
  start : Nat
  scrolls : Nat
  typed : List Nat

/-- Cells move up by a row, and those of the first row are gone. -/
def movedUp (cells : List Nat) : List Nat :=
  cells.filterMap fun n => if numCols ≤ n then some (n - numCols) else none

/-- The length of the prompt Ctrl+L prints. -/
def promptLength : Nat := 7

/-- The editor of the current terminal. -/
def Kernel.editor (k : Kernel) : Editor := k.desk.editor k.currTerminal

/-- One keyboard interrupt. An echoed character is typed into the cell before the new cursor; Ctrl+L
    starts over behind the prompt. -/
def Echo.press (cfg : Config) (esp ebp : Nat) (loc : Locals) (s : Echo) (key : UInt8) : Option Echo :=
  (keyInterrupt cfg s.kernel key esp ebp loc).map fun k =>
    match (keyboardHandler s.kernel.keyboard s.kernel.currTerminal key).2 with
    | .echo _ =>
      if s.kernel.console.full then ⟨k, s.start, s.scrolls + 1, (k.console.pos - 1) :: movedUp s.typed⟩
      else ⟨k, s.start, s.scrolls, (k.console.pos - 1) :: s.typed⟩
    | .redraw _ =>
      ⟨k, promptLength, 0, (List.range s.kernel.editor.index).map (promptLength + ·)⟩
    | _ => { s with kernel := k }

/-- The keys of a line: keys with a character in the current map, Backspace, Ctrl+L, and keys that are
    not typed at all. With Ctrl down there is only L. -/
def LineKey (s : Echo) (key : UInt8) : Prop :=
  keyKind key ≠ .enter ∧ (keyKind key = .plain →
    if s.kernel.keyboard.ctrlFlag then key = 0x26
    else kbdAsciiKeyMap s.kernel.editor.mode key ≠ 0)

instance (s : Echo) (key : UInt8) : Decidable (LineKey s key) := by
  unfold LineKey
  infer_instance

/-- The line buffer and the screen are in step: the line is on the screen from where it started, less
    the rows the screen has moved up; what was typed past its end is blank; the cursor is at its end. -/
structure InStep (s : Echo) : Prop where
  fits : numCols * s.scrolls ≤ s.start
  line : ∀ i < s.kernel.editor.index,
    Console.cell s.kernel.console.video (s.start - numCols * s.scrolls + i)
      = (s.kernel.editor.buffer i, attrib)
  past : ∀ n ∈ s.typed, s.start - numCols * s.scrolls + s.kernel.editor.index ≤ n →
    Console.cell s.kernel.console.video n = Console.blank
  cursor : s.kernel.console.pos = s.start - numCols * s.scrolls + s.kernel.editor.index

/-! ## The three routines -/

/-- A character that is neither NUL nor a line break. -/
def Visible (c : UInt8) : Prop := c ≠ 0 ∧ ¬ (c = 10 ∨ c = 13)

/-- A line on the screen from cell `first` on, with everything a key relies on. -/
structure LineShown (con : Console) (e : Editor) (first : Nat) (typed : List Nat) : Prop where
  onScreen : con.OnScreen
  tidy : e.Tidy
  chars : ∀ i < e.index, Visible (e.buffer i)
  line : ∀ i < e.index, Console.cell con.video (first + i) = (e.buffer i, attrib)
  inside : ∀ n ∈ typed, n < numRows * numCols
  past : ∀ n ∈ typed, con.pos ≤ n → Console.cell con.video n = Console.blank
  cursor : con.pos = first + e.index

variable {con : Console} {e : Editor} {first : Nat} {typed : List Nat}

theorem typeChar_buffer {c : UInt8} (hroom : e.index < 127) :
    (e.typeChar c).index = e.index + 1 ∧
      ∀ i, (e.typeChar c).buffer i = if i = e.index then c else e.buffer i := by
  have heq : e.typeChar c
      = { e with index := e.index + 1, buffer := Function.update e.buffer e.index c } :=
    if_pos (by unfold bufferSize; omega)
  rw [heq]
  exact ⟨rfl, fun i => Function.update_apply ..⟩

theorem erase_buffer (hany : 1 ≤ e.index) :
    e.erase.index = e.index - 1 ∧ ∀ i, i ≠ e.index - 1 → e.erase.buffer i = e.buffer i := by
  have heq : e.erase
      = { e with index := e.index - 1, buffer := Function.update e.buffer (e.index - 1) 0 } :=
    if_pos hany
  rw [heq]
  exact ⟨rfl, fun i hi => Function.update_of_ne hi _ _⟩

theorem LineShown.type (h : LineShown con e first typed) {c : UInt8} (hc : Visible c)
    (hroom : e.index < 127) (hfull : con.full = false) (tidy : (e.typeChar c).Tidy) :
    LineShown (con.putc c) (e.typeChar c) first (con.pos :: typed) := by
  obtain ⟨hpos, hcells⟩ := Console.putc_room h.onScreen hc.2 hfull
  obtain ⟨hindex, hbuffer⟩ := @typeChar_buffer e c hroom
  have hlt : con.pos < numRows * numCols := by
    have hle := Console.pos_le h.onScreen
    have hne : con.pos ≠ numRows * numCols := by
      rw [ne_eq, ← Console.full_iff h.onScreen, hfull]
      exact Bool.false_ne_true
    omega
  have hcursor := h.cursor
  refine ⟨(Console.putc_keeps h.onScreen c).onScreen, tidy, fun i hi => ?_, fun i hi => ?_,
    fun n hn => ?_, fun n hn hge => ?_, by omega⟩
  · rw [hindex] at hi
    rw [hbuffer]
    split_ifs with hlast
    · exact hc
    · exact h.chars i (by omega)
  · rw [hindex] at hi
    rw [hbuffer, hcells, hcursor]
    split_ifs with h1 h2 h2
    · rfl
    · omega
    · omega
    · exact h.line i (by omega)
  · rcases List.mem_cons.1 hn with rfl | hn
    · exact hlt
    · exact h.inside n hn
  · rw [hcells, if_neg (by omega)]
    rcases List.mem_cons.1 hn with rfl | hn
    · omega
    · exact h.past n hn (by omega)

theorem LineShown.typeScroll (h : LineShown con e first typed) {c : UInt8} (hc : Visible c)
    (hroom : e.index < 127) (hfull : con.full = true) (tidy : (e.typeChar c).Tidy) :
    numCols ≤ first ∧
      LineShown (con.putc c) (e.typeChar c) (first - numCols) ((con.pos - numCols) :: movedUp typed) := by
  obtain ⟨hpos, hcells⟩ := Console.putc_full h.onScreen hc.2 hfull
  obtain ⟨hindex, hbuffer⟩ := @typeChar_buffer e c hroom
  have hend := (Console.full_iff h.onScreen).1 hfull
  have hcursor := h.cursor
  have hscreen : numRows * numCols = 2000 := rfl
  have hcols : numCols = 80 := rfl
  have hfirst : numCols ≤ first := by omega
  -- the screen moves up by a row, and the line with it
  refine ⟨hfirst, (Console.putc_keeps h.onScreen c).onScreen, tidy, fun i hi => ?_, fun i hi => ?_,
    fun n hn => ?_, fun n hn hge => ?_, by omega⟩
  · rw [hindex] at hi
    rw [hbuffer]
    split_ifs with hlast
    · exact hc
    · exact h.chars i (by omega)
  · rw [hindex] at hi
    rw [hbuffer, hcells _ (by omega)]
    have hback : first - numCols + i + numCols = first + i := by omega
    rw [hback, hcursor]
    split_ifs with h1 h2 h3 h2 h3
    · rfl
    · omega
    · omega
    · exact h.line i (by omega)
    · omega
    · omega
  · rcases List.mem_cons.1 hn with rfl | hn
    · omega
    · obtain ⟨m, hm, hmn⟩ := List.mem_filterMap.1 hn
      have hlt := h.inside m hm
      split_ifs at hmn
      have := Option.some.inj hmn
      omega
  · have hn' : n + numCols < con.pos ∨ n + numCols = con.pos := by
      rcases List.mem_cons.1 hn with rfl | hn
      · omega
      · obtain ⟨m, hm, hmn⟩ := List.mem_filterMap.1 hn
        have hlt := h.inside m hm
        split_ifs at hmn
        have := Option.some.inj hmn
        omega
    omega

theorem LineShown.erase (h : LineShown con e first typed) (hany : 1 ≤ e.index) (tidy : e.erase.Tidy) :
    LineShown con.backspace e.erase first typed := by
  have hcursor := h.cursor
  obtain ⟨hpos, hcells⟩ := Console.backspace_cell h.onScreen (by omega)
  obtain ⟨hindex, hbuffer⟩ := erase_buffer hany
  refine ⟨(Console.backspace_keeps h.onScreen).onScreen, tidy, fun i hi => ?_, fun i hi => ?_, h.inside,
    fun n hn hge => ?_, by omega⟩
  · rw [hbuffer i (by omega)]
    exact h.chars i (by omega)
  · rw [hbuffer i (by omega), hcells, if_neg (by omega)]
    exact h.line i (by omega)
  · rw [hcells]
    split_ifs with hlast
    · rfl
    · exact h.past n hn (by omega)

theorem redrawText_eq (h : LineShown con e first typed) :
    redrawText e.buffer = ascii "391OS> " ++ e.line := by
  have hle := h.tidy.index_le
  have hscan : Scan.scan (fun i => e.buffer i != 0) 0 bufferSize = e.index := by
    refine Scan.scan_eq_of _ (Nat.zero_le _) (by unfold bufferSize; omega) (fun i _ hi => ?_) fun hlt => ?_
    · exact bne_iff_ne.2 (h.chars i hi).1
    · simp [h.tidy.nul e.index le_rfl (by omega)]
  rw [redrawText, hscan]
  rfl

theorem prompt_visible : (ascii "391OS> ").all (fun c => !(c == 10 || c == 13)) = true := by decide

theorem LineShown.redraw (h : LineShown con e first typed) :
    LineShown (con.clear.print (redrawText e.buffer)) e promptLength
      ((List.range e.index).map (promptLength + ·)) := by
  have hle := h.tidy.index_le
  have hlen : (redrawText e.buffer).length = promptLength + e.index := by
    rw [redrawText_eq h, List.length_append, Editor.line_length]
    rfl
  have hscreen : numRows * numCols = 2000 := rfl
  have hprompt : promptLength = 7 := rfl
  have hbreaks : ∀ c ∈ redrawText e.buffer, ¬ (c = 10 ∨ c = 13) := by
    intro c hc
    rw [redrawText_eq h] at hc
    rcases List.mem_append.1 hc with hc | hc
    · simpa using List.all_eq_true.1 prompt_visible c hc
    · obtain ⟨i, hi, rfl⟩ := List.mem_map.1 hc
      exact (h.chars i (List.mem_range.1 hi)).2
  have hkeeps := Console.clear_keeps con
  have hzero : con.clear.pos = 0 := rfl
  obtain ⟨hpos, hcells⟩ := Console.print_fits hkeeps.onScreen hbreaks (by omega)
  rw [hzero, Nat.zero_add, hlen] at hpos
  refine ⟨(Console.print_keeps hkeeps.onScreen _).onScreen, h.tidy, h.chars, fun i hi => ?_,
    fun n hn => ?_, fun n hn hge => ?_, hpos⟩
  · have hlength : (ascii "391OS> ").length = promptLength := rfl
    rw [hcells, if_pos (by omega), hzero, Nat.sub_zero, redrawText_eq h,
      List.getD_append_right _ _ _ _ (by omega), hlength, Nat.add_sub_cancel_left,
      Editor.buffer_eq e hi]
  · obtain ⟨i, hi, rfl⟩ := List.mem_map.1 hn
    have := List.mem_range.1 hi
    omega
  · obtain ⟨i, hi, rfl⟩ := List.mem_map.1 hn
    have := List.mem_range.1 hi
    omega

/-! ## Key by key -/

/-- What is kept while a line is typed. -/
structure Echo.Kept (s : Echo) : Prop where
  fits : numCols * s.scrolls ≤ s.start
  shown : LineShown s.kernel.console s.kernel.editor (s.start - numCols * s.scrolls) s.typed

theorem Echo.Kept.inStep {s : Echo} (h : s.Kept) : InStep s where
  fits := h.fits
  line := h.shown.line
  past n hn hge := h.shown.past n hn (by rw [h.shown.cursor]; exact hge)
  cursor := h.shown.cursor

/-- Only the line buffer matters of the editor. -/
theorem LineShown.congr {e' : Editor} (h : LineShown con e first typed) (hindex : e'.index = e.index)
    (hbuffer : e'.buffer = e.buffer) : LineShown con e' first typed where
  onScreen := h.onScreen
  tidy := ⟨by rw [hindex]; exact h.tidy.index_le, by rw [hindex, hbuffer]; exact h.tidy.nul⟩
  chars := by rw [hindex, hbuffer]; exact h.chars
  line := by rw [hindex, hbuffer]; exact h.line
  inside := h.inside
  past := h.past
  cursor := by rw [hindex]; exact h.cursor

/-- A row of the key map has line breaks for Enter only, and nothing for the function keys. -/
def rowInOrder (row : List UInt8) : Bool :=
  (row.take 0x1C).all (fun c => c != 10 && c != 13) &&
    (row.drop 0x1D).all (fun c => c != 10 && c != 13) &&
    ((row.drop 0x3B).take 3).all (· == 0)

theorem rows_inOrder :
    [keyRowNone, keyRowShift, keyRowCaps, keyRowShiftCaps].all rowInOrder = true := by decide +kernel

/-- The row of the key map for a mode. -/
theorem keyRow_exists (mode : Nat) : ∃ row ∈ [keyRowNone, keyRowShift, keyRowCaps, keyRowShiftCaps],
    ∀ key, kbdAsciiKeyMap mode key = row.getD key.toNat 0 := by
  rcases mode with _ | _ | _ | mode
  · exact ⟨keyRowNone, by simp, fun _ => rfl⟩
  · exact ⟨keyRowShift, by simp, fun _ => rfl⟩
  · exact ⟨keyRowCaps, by simp, fun _ => rfl⟩
  · exact ⟨keyRowShiftCaps, by simp, fun _ => rfl⟩

theorem all_getD {l : List UInt8} {p : UInt8 → Bool} (h : l.all p = true) (hzero : p 0 = true) (n : Nat) :
    p (l.getD n 0) = true := by
  rw [List.getD_eq_getElem?_getD]
  cases hn : l[n]? with
  | none => exact hzero
  | some c => exact List.all_eq_true.1 h c (List.mem_of_getElem? hn)

/-- A key of the line has a character that can be seen, and is no function key. -/
theorem keyMap_typed {key : UInt8} {mode : Nat} (hkind : keyKind key = .plain)
    (hc : kbdAsciiKeyMap mode key ≠ 0) :
    Visible (kbdAsciiKeyMap mode key) ∧ isFunctionKey key = false := by
  obtain ⟨row, hrow, hmap⟩ := keyRow_exists mode
  have horder := List.all_eq_true.1 rows_inOrder row hrow
  simp only [rowInOrder, Bool.and_eq_true] at horder
  obtain ⟨⟨hbefore, hafter⟩, hfunction⟩ := horder
  rw [hmap] at hc ⊢
  have hne : key.toNat ≠ 0x1C := by
    intro heq
    have hkey : key = 0x1C := UInt8.toNat_inj.1 heq
    rw [hkey] at hkind
    cases hkind
  have hplain : (row.getD key.toNat 0 != 10 && row.getD key.toNat 0 != 13) = true := by
    rcases Nat.lt_or_gt_of_ne hne with hlt | hgt
    · have h := all_getD hbefore (by decide) key.toNat
      rwa [List.getD_eq_getElem?_getD, List.getElem?_take_of_lt hlt, ← List.getD_eq_getElem?_getD] at h
    · have h := all_getD hafter (by decide) (key.toNat - 0x1D)
      rwa [List.getD_eq_getElem?_getD, List.getElem?_drop,
        show 0x1D + (key.toNat - 0x1D) = key.toNat by omega, ← List.getD_eq_getElem?_getD] at h
  refine ⟨⟨hc, by simpa using hplain⟩, ?_⟩
  by_contra hf
  have hcode : 0x3B ≤ key.toNat ∧ key.toNat < 0x3B + 3 := by
    rcases functionKey_iff.1 (by simpa using hf) with rfl | rfl | rfl <;> decide
  have h := all_getD hfunction (by decide) (key.toNat - 0x3B)
  rw [List.getD_eq_getElem?_getD, List.getElem?_take_of_lt (by omega), List.getElem?_drop,
    show 0x3B + (key.toNat - 0x3B) = key.toNat by omega, ← List.getD_eq_getElem?_getD] at h
  exact hc (by simpa using h)

variable {cfg : Config} {loc : Locals} {s : Echo} {key : UInt8} {esp ebp : Nat}

/-- A key that is no shortcut and no switch goes to the editor. -/
theorem keyInterrupt_editor {k k' : Kernel} (h : keyInterrupt cfg k key esp ebp loc = some k')
    (hctrl : isShortcutKey key = true → k.keyboard.ctrlFlag = false)
    (halt : isFunctionKey key = true → k.keyboard.altFlag = false) :
    k'.editor = k.editor.press key := by
  have hedits := @keystroke_editor k.desk key hctrl halt
  have hdesk := keyInterrupt_desk h
  have hterm : k'.currTerminal = k.currTerminal := by
    have := congrArg Desk.currTerminal hdesk
    exact this.trans hedits.currTerminal
  unfold Kernel.editor
  rw [hterm, hdesk]
  exact hedits.editor

theorem Echo.Kept.quiet (h : s.Kept) (kb : Keyboard)
    (hr : keyboardHandler s.kernel.keyboard s.kernel.currTerminal key = (kb, .ignore))
    (hindex : kb.bufferIndex = s.kernel.keyboard.bufferIndex)
    (hbuffer : kb.buffer = s.kernel.keyboard.buffer) :
    ∃ s', s.press cfg esp ebp loc key = some s' ∧ s'.Kept := by
  refine ⟨{ s with kernel := { s.kernel with keyboard := kb } }, ?_, h.fits, ?_⟩
  · simp only [Echo.press, keyInterrupt, hr]
    rfl
  · refine h.shown.congr ?_ ?_
    · exact congrFun hindex _
    · exact congrFun hbuffer _

theorem keyInterrupt_echo {k : Kernel} {c : UInt8}
    (haction : (keyboardHandler k.keyboard k.currTerminal key).2 = .echo c) :
    ∃ k', keyInterrupt cfg k key esp ebp loc = some k' ∧ k'.console = k.console.putc c := by
  simp only [keyInterrupt, haction]
  exact ⟨_, rfl, console_setConsole _ _⟩

theorem keyInterrupt_erase {k : Kernel}
    (haction : (keyboardHandler k.keyboard k.currTerminal key).2 = .erase) :
    ∃ k', keyInterrupt cfg k key esp ebp loc = some k' ∧ k'.console = k.console.backspace := by
  simp only [keyInterrupt, haction]
  exact ⟨_, rfl, console_setConsole _ _⟩

theorem Echo.Kept.redraw (h : s.Kept)
    (hr : keyboardHandler s.kernel.keyboard s.kernel.currTerminal key
      = (s.kernel.keyboard, .redraw (s.kernel.keyboard.buffer s.kernel.currTerminal))) :
    ∃ s', s.press cfg esp ebp loc key = some s' ∧ s'.Kept := by
  set k' := (s.kernel.setConsole s.kernel.console.clear).printf (redrawText s.kernel.editor.buffer)
    with hk'
  have hpress : s.press cfg esp ebp loc key
      = some ⟨k', promptLength, 0, (List.range s.kernel.editor.index).map (promptLength + ·)⟩ := by
    simp only [Echo.press, keyInterrupt, hr]
    rfl
  have hconsole : k'.console = s.kernel.console.clear.print (redrawText s.kernel.editor.buffer) := by
    rw [hk', printf, console_setConsole, console_setConsole]
  refine ⟨_, hpress, Nat.zero_le _, ?_⟩
  simp only [Nat.mul_zero, Nat.sub_zero, hconsole]
  exact h.shown.redraw

theorem Echo.Kept.erase (h : s.Kept) (hkind : keyKind key = .backspace) :
    ∃ s', s.press cfg esp ebp loc key = some s' ∧ s'.Kept := by
  have hr : keyboardHandler s.kernel.keyboard s.kernel.currTerminal key
      = handleBackspace s.kernel.keyboard s.kernel.currTerminal := by
    rw [keyboardHandler_eq, hkind]
  by_cases hany : s.kernel.keyboard.bufferIndex s.kernel.currTerminal ≥ 1
  · have haction : (keyboardHandler s.kernel.keyboard s.kernel.currTerminal key).2 = .erase := by
      rw [hr, handleBackspace, if_pos hany]
    obtain ⟨k', hint, hconsole⟩ := @keyInterrupt_erase cfg loc key esp ebp _ haction
    have heditor : k'.editor = s.kernel.editor.erase := by
      rw [keyInterrupt_editor hint (fun hs => by rw [keyKind_shortcutKey hs] at hkind; cases hkind)
        (fun hf => by rw [keyKind_functionKey hf] at hkind; cases hkind), Editor.press, hkind]
    have hpress : s.press cfg esp ebp loc key = some { s with kernel := k' } := by
      simp only [Echo.press, hint, haction, Option.map_some]
    have htidy := h.shown.tidy.press key
    rw [Editor.press, hkind] at htidy
    refine ⟨_, hpress, h.fits, ?_⟩
    simp only [hconsole, heditor]
    exact h.shown.erase hany htidy
  · exact h.quiet _ (by rw [hr, handleBackspace, if_neg hany]) rfl rfl

theorem Echo.Kept.type (h : s.Kept) (hkind : keyKind key = .plain)
    (hctrl : s.kernel.keyboard.ctrlFlag = false) (hc : kbdAsciiKeyMap s.kernel.editor.mode key ≠ 0) :
    ∃ s', s.press cfg esp ebp loc key = some s' ∧ s'.Kept := by
  obtain ⟨hvisible, hfunction⟩ := keyMap_typed hkind hc
  have halt : isFunctionKey key = true → s.kernel.keyboard.altFlag = false := by
    rw [hfunction]
    exact fun hf => (by cases hf)
  have hr : keyboardHandler s.kernel.keyboard s.kernel.currTerminal key
      = typeKey s.kernel.keyboard s.kernel.currTerminal key := by
    rw [keyboardHandler_eq, hkind]
    exact processKey_types hkind (fun _ => hctrl) halt
  by_cases hroom : s.kernel.keyboard.bufferIndex s.kernel.currTerminal + 1 < bufferSize
  · have haction : (keyboardHandler s.kernel.keyboard s.kernel.currTerminal key).2
        = .echo (kbdAsciiKeyMap s.kernel.editor.mode key) := by
      rw [hr, typeKey, if_pos hroom]
      rfl
    obtain ⟨k', hint, hconsole⟩ := @keyInterrupt_echo cfg loc key esp ebp _ _ haction
    have heditor : k'.editor
        = s.kernel.editor.typeChar (kbdAsciiKeyMap s.kernel.editor.mode key) := by
      rw [keyInterrupt_editor hint (fun _ => hctrl) halt, Editor.press, hkind]
    have htidy := h.shown.tidy.press key
    rw [Editor.press, hkind] at htidy
    have hindex : s.kernel.editor.index < 127 := Nat.lt_of_succ_lt_succ hroom
    -- the character goes on the screen; at its end the screen scrolls
    cases hfull : s.kernel.console.full with
    | false =>
        have hpos := (Console.putc_room h.shown.onScreen hvisible.2 hfull).1
        have hpress : s.press cfg esp ebp loc key
            = some ⟨k', s.start, s.scrolls, (k'.console.pos - 1) :: s.typed⟩ := by
          simp [Echo.press, hint, haction, hfull]
        refine ⟨_, hpress, h.fits, ?_⟩
        simp only [hconsole, heditor, hpos, Nat.add_sub_cancel]
        exact h.shown.type hvisible hindex hfull htidy
    | true =>
        obtain ⟨hfirst, hshown⟩ := h.shown.typeScroll hvisible hindex hfull htidy
        have hpos := (Console.putc_full h.shown.onScreen hvisible.2 hfull).1
        have hpress : s.press cfg esp ebp loc key
            = some ⟨k', s.start, s.scrolls + 1, (k'.console.pos - 1) :: movedUp s.typed⟩ := by
          simp [Echo.press, hint, haction, hfull]
        have hstart : s.start - numCols * (s.scrolls + 1) = s.start - numCols * s.scrolls - numCols := by
          rw [Nat.mul_succ]
          omega
        have hcell : (s.kernel.console.putc (kbdAsciiKeyMap s.kernel.editor.mode key)).pos - 1
            = s.kernel.console.pos - numCols := by omega
        refine ⟨_, hpress, ?_, ?_⟩
        · have hfits := h.fits
          simp only [Nat.mul_succ]
          omega
        · simp only [hconsole, heditor, hstart, hcell]
          exact hshown
  · -- a full line takes no more
    exact h.quiet _ (by rw [hr, typeKey, if_neg hroom]) rfl rfl

theorem Echo.Kept.press (h : s.Kept) (hkey : LineKey s key) :
    ∃ s', s.press cfg esp ebp loc key = some s' ∧ s'.Kept := by
  cases hkind : keyKind key with
  | enter => exact absurd hkind hkey.1
  | backspace => exact h.erase hkind
  | plain =>
      have hplain := hkey.2 hkind
      cases hctrl : s.kernel.keyboard.ctrlFlag with
      | true =>
          rw [hctrl, if_pos rfl] at hplain
          refine h.redraw ?_
          rw [keyboardHandler_eq, hkind, hplain]
          simp [processKey, hctrl]
      | false =>
          rw [hctrl] at hplain
          exact h.type hkind hctrl hplain
  | shift type =>
      refine h.quiet (toggleShift s.kernel.keyboard s.kernel.currTerminal type)
        (by rw [keyboardHandler_eq, hkind]) ?_ ?_
      · rw [toggleShift_eq]
      · rw [toggleShift_eq]
  | caps =>
      exact h.quiet (toggleCaps s.kernel.keyboard s.kernel.currTerminal)
        (by rw [keyboardHandler_eq, hkind]) rfl rfl
  | ctrl type =>
      exact h.quiet (toggleCtrl s.kernel.keyboard type) (by rw [keyboardHandler_eq, hkind]) rfl rfl
  | alt =>
      exact h.quiet (toggleAlt s.kernel.keyboard .make) (by rw [keyboardHandler_eq, hkind]) rfl rfl
  | other => exact h.quiet _ (by rw [keyboardHandler_eq, hkind]) rfl rfl

/-- From an empty line, wherever the cursor is: after any keys of a line the line buffer and the screen
    are in step. -/
theorem typing_inStep (cfg : Config) (esp ebp : Nat) (loc : Locals) (k : Kernel)
    (hcursor : k.console.OnScreen) (hempty : k.editor.index = 0) (htidy : k.editor.Tidy)
    (keys : List UInt8)
    (hkeys : Runs.AllSteps (Echo.press cfg esp ebp loc) LineKey ⟨k, k.console.pos, 0, []⟩ keys) :
    ∃ s, Runs.run (Echo.press cfg esp ebp loc) ⟨k, k.console.pos, 0, []⟩ keys = some s ∧ InStep s := by
  have hkept : Echo.Kept ⟨k, k.console.pos, 0, []⟩ := by
    refine ⟨Nat.zero_le _, hcursor, htidy, ?_, ?_, ?_, ?_, ?_⟩
    · simp [hempty]
    · simp [hempty]
    · simp
    · simp
    · simp [hempty]
  obtain ⟨s, hrun, hs⟩ := Runs.run_isSome (I := Echo.Kept) (fun _ _ h hkey => h.press hkey) hkept hkeys
  exact ⟨s, hrun, hs.inStep⟩

/-- The small machine with the cursor in the last cell of the screen. -/
def edgeMachine : Kernel := { smallMachine with screenX := fun _ => 79, screenY := fun _ => 24 }

def edgeStart : Echo := ⟨edgeMachine, edgeMachine.console.pos, 0, []⟩

/-- `A`, at which the screen moves up, `B` and Backspace; and on with Ctrl+L and `C`. -/
theorem typing_inStep_small :
    ∃ s s', Runs.run (Echo.press smallConfig 0 0 (localsAt 0)) edgeStart [0x1E, 0x30, 0x0E] = some s ∧
      s.scrolls = 1 ∧ InStep s ∧
      Runs.run (Echo.press smallConfig 0 0 (localsAt 0)) edgeStart [0x1E, 0x30, 0x0E, 0x1D, 0x26, 0x9D, 0x2E]
        = some s' ∧ s'.kernel.editor.index = 2 ∧ InStep s' := by
  have hscrolls : (Runs.run (Echo.press smallConfig 0 0 (localsAt 0)) edgeStart [0x1E, 0x30, 0x0E]).map
      Echo.scrolls = some 1 := by decide +kernel
  have hindex : (Runs.run (Echo.press smallConfig 0 0 (localsAt 0)) edgeStart
      [0x1E, 0x30, 0x0E, 0x1D, 0x26, 0x9D, 0x2E]).map (fun s => s.kernel.editor.index) = some 2 := by decide +kernel
  obtain ⟨s, hrun, hs⟩ := typing_inStep smallConfig 0 0 (localsAt 0) edgeMachine ⟨by decide, by decide⟩ rfl
    ⟨by decide, fun _ _ _ => rfl⟩ [0x1E, 0x30, 0x0E] (by decide +kernel)
  obtain ⟨s', hrun', hs'⟩ := typing_inStep smallConfig 0 0 (localsAt 0) edgeMachine ⟨by decide, by decide⟩ rfl
    ⟨by decide, fun _ _ _ => rfl⟩ [0x1E, 0x30, 0x0E, 0x1D, 0x26, 0x9D, 0x2E] (by decide +kernel)
  have hfirst : s.scrolls = 1 := by
    rw [show Runs.run _ edgeStart _ = some s from hrun] at hscrolls
    exact Option.some.inj hscrolls
  have hlast : s'.kernel.editor.index = 2 := by
    rw [show Runs.run _ edgeStart _ = some s' from hrun'] at hindex
    exact Option.some.inj hindex
  exact ⟨s, s', hrun, hfirst, hs, hrun', hlast, hs'⟩

end BaseOs
