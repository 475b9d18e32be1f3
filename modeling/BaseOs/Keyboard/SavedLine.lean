import BaseOs.Keyboard.Editor
import BaseOs.Keyboard.Interrupt
import BaseOs.Process.Effects
import BaseOs.Syscall.TableSafety

set_option autoImplicit false

/-! # Who writes the saved line

`terminal_read` stores the line at Enter, and it is also the read routine of descriptor 1: a program
that reads from descriptor 1 gets `-1`, and its buffer has become the saved line. The other reads and
`getargs` store where the program tells them to, and that may be `save_buff`. Nothing else writes it
(`step_lines`); `saved_iff` says in which runs it holds what was entered. -/

namespace BaseOs

open Kernel Cells

variable {cfg : Config} {map : KernelMap} {k k' : Kernel} {loc : Locals}

/-! ## Calls -/

/-- The keyboard and the saved lines are left alone. -/
def SameLines (k k' : Kernel) : Prop := k'.keyboard = k.keyboard ∧ k'.saveBuff = k.saveBuff

theorem sameLines_of_desk (h : k'.desk = k.desk) : SameLines k k' :=
  ⟨congrArg Desk.keyboard h, congrArg Desk.saveBuff h⟩

theorem lines_offDevices : OffDevices fun k => (k.keyboard, k.saveBuff) where
  setConsole _ _ := rfl
  setFdTable _ _ _ := rfl
  rtc _ _ := rfl
  memory _ _ _ := rfl

theorem sameLines_of_eq (h : (k'.keyboard, k'.saveBuff) = (k.keyboard, k.saveBuff)) : SameLines k k' :=
  Prod.mk.inj h

theorem terminalSwitch_lines {newTerminal esp ebp : Nat} {out : Out}
    (h : (terminalSwitch cfg k newTerminal esp ebp loc).toStep = some (k', out)) : SameLines k k' := by
  have hdesk := (terminalSwitch_background h).1
  unfold Desk.terminalSwitch at hdesk
  split_ifs at hdesk
  · exact ⟨congrArg Desk.keyboard hdesk, congrArg Desk.saveBuff hdesk⟩
  · exact sameLines_of_desk hdesk

/-- No operation but a read writes the saved lines or the keyboard's variables. -/
theorem step_lines {op : Op} {out : Out} (hop : op.isRead = false)
    (h : k.step cfg op = some (k', out)) : SameLines k k' := by
  by_cases hdevice : op.isDevice = true
  · exact sameLines_of_eq (lines_offDevices.step hdevice hop h)
  · cases op with
    | terminalSwitch newTerminal esp ebp loc => exact terminalSwitch_lines h
    | _ => exact sameLines_of_desk (step_background (by simpa using hdevice) (by simp) h).desk

/-! ## Keystrokes and calls, interleaved -/

/-- What can happen: a keyboard interrupt, a call, the start of a `keyboard_read`, a `read` or a
    `getargs`. `rest` is what is in the part of the kernel that is not kept track of, `loc` is for
    `exception_handler`. -/
inductive LineEvent
  | key (code : UInt8) (esp ebp : Nat) (loc : Locals) (tests : TestLocals)
  | call (op : Op)
  | beginRead
  | read (fd : Int) (buf : Nat) (nbytes : Int) (rest : Bytes) (loc : Locals)
  | getargs (buf : Nat) (nbytes : Int) (rest : Bytes) (loc : Locals)

/-- The kernel, and for each terminal the line buffer at the latest Enter pressed there. -/
structure Saved where
  kernel : Kernel
  entered : Terminal → Bytes

section Events

variable (cfg : Config) (map : KernelMap)

/-- One event. A `keyboard_read` returns once the flag is raised, with the saved line as it is then. -/
def Saved.next (s : Saved) : LineEvent → Option Saved
  | .key code esp ebp loc tests =>
    (fullInterrupt cfg s.kernel code esp ebp loc tests).map fun k =>
      ⟨k, if code = enterKey then
        Function.update s.entered s.kernel.currTerminal (s.kernel.keyboard.buffer s.kernel.currTerminal)
      else s.entered⟩
  | .call op =>
    if op.storesAnywhere then none else (s.kernel.next cfg op).map fun k => { s with kernel := k }
  | .beginRead =>
    some { s with kernel := { s.kernel with keyboard := { s.kernel.keyboard with kbdrFlag := false } } }
  | .read fd buf nbytes rest loc =>
    if Pointer.through s.kernel fd buf = some .kybd ∧ s.kernel.keyboard.kbdrFlag = false then none
    else
      ((Pointer.read cfg map rest s.kernel fd buf nbytes (s.kernel.saveBuff s.kernel.currTerminal)).settle
        cfg loc).map fun k => { s with kernel := k }
  | .getargs buf nbytes rest loc =>
    ((Pointer.getargs cfg map rest s.kernel buf nbytes).settle cfg loc).map fun k => { s with kernel := k }

/-- Every saved line is what was entered last. -/
def SavedRight (s : Saved) : Prop :=
  ∀ t, ∀ i < termBuffSize, s.kernel.saveBuff t i = s.entered t i

/-- A read that goes to `terminal_read` puts back the saved line. -/
def ReadsBack (s : Saved) (ev : LineEvent) : Prop :=
  ∀ fd buf nbytes rest loc, ev = .read fd buf nbytes rest loc →
    Pointer.through s.kernel fd buf = some .term →
    ∀ i < termBuffSize, Pointer.filled cfg map rest s.kernel buf nbytes i
      = s.kernel.saveBuff s.kernel.currTerminal i

/-- The cells of the saved lines. -/
def savedCells : Set Cell := {c | ∃ t i, c = .saved t i}

/-- A read through another table and `getargs` store neither into the saved lines nor into the kernel's
    other variables. -/
def StoresElsewhere (s : Saved) (ev : LineEvent) : Prop :=
  (∀ fd buf nbytes rest loc, ev = .read fd buf nbytes rest loc →
    Disjoint (Pointer.readCells cfg map rest s.kernel fd buf nbytes) (savedCells ∪ untracked)) ∧
  ∀ buf nbytes rest loc, ev = .getargs buf nbytes rest loc →
    Disjoint (Pointer.getargsCells cfg map rest s.kernel buf nbytes) (savedCells ∪ untracked)

end Events

/-! ## One event -/

variable {s s' : Saved}

/-- The line buffers are in order. -/
def Saved.Tidy (s : Saved) : Prop := ∀ t, (s.kernel.desk.editor t).Tidy

theorem SameLines.editor (h : SameLines k k') (t : Terminal) : k'.desk.editor t = k.desk.editor t := by
  obtain ⟨hkb, hsave⟩ := h
  simp only [Kernel.desk, Desk.editor, hkb, hsave]

theorem SameLines.keeps (h : SameLines s.kernel k') (htidy : s.Tidy) :
    (SavedRight { s with kernel := k' } ↔ SavedRight s) ∧ Saved.Tidy { s with kernel := k' } := by
  refine ⟨?_, fun t => ?_⟩
  · simp only [SavedRight, h.2]
  · rw [show ({ s with kernel := k' } : Saved).kernel.desk = k'.desk from rfl, h.editor]
    exact htidy t

/-- A key either leaves all the editors, or is handled by the current terminal's. -/
theorem keystroke_cases (d : Desk) (key : UInt8) :
    (key ≠ enterKey ∧ ∀ t, (d.keystroke key).editor t = d.editor t) ∨
      d.Edits (d.keystroke key) ((d.editor d.currTerminal).press key) := by
  have henter : keyKind enterKey = .enter := rfl
  by_cases hs : isShortcutKey key = true ∧ d.keyboard.ctrlFlag = true
  · left
    have hplain := keyKind_shortcutKey hs.1
    refine ⟨fun h => (by rw [h, henter] at hplain; cases hplain), fun t => ?_⟩
    unfold Desk.keystroke
    rw [keyboardHandler_eq, hplain]
    simp only [processKey_eq _ _ hplain, if_pos hs]
    unfold shortcut
    split_ifs <;> rfl
  · by_cases hf : isFunctionKey key = true ∧ d.keyboard.altFlag = true
    · left
      have hplain := keyKind_functionKey hf.1
      exact ⟨fun h => (by rw [h, henter] at hplain; cases hplain), keystroke_switch hf.1 hf.2⟩
    · right
      refine keystroke_editor (fun h => ?_) (fun h => ?_)
      · simpa [h] using hs
      · simpa [h] using hf

/-- Only Enter saves a line. -/
theorem Editor.press_saved {e : Editor} {key : UInt8} (h : key ≠ enterKey) :
    (e.press key).saved = e.saved := by
  unfold Editor.press
  split
  · rfl
  · rfl
  · rfl
  · rfl
  · rfl
  · unfold Editor.erase
    split_ifs <;> rfl
  · next hkind => exact absurd (keyKind_has hkind) h
  · unfold Editor.typeChar
    split_ifs <;> rfl

/-- Enter saves the line buffer, all of it: past the index there are NULs in both. -/
theorem Editor.Tidy.enter_saved {e : Editor} (h : e.Tidy) {i : Nat} (hi : i < termBuffSize) :
    (e.press enterKey).saved i = e.buffer i := by
  change terminalRead e.saved e.buffer e.index i = e.buffer i
  unfold terminalRead
  rw [if_pos hi]
  split_ifs with hlt
  · rfl
  · exact (h.nul i (by omega) hi).symm

/-- A keystroke keeps the saved lines right: Enter saves the buffer, other keys save nothing. -/
theorem next_key {code : UInt8} {esp ebp : Nat} {tests : TestLocals} (htidy : s.Tidy)
    (hright : SavedRight s) (h : s.next cfg map (.key code esp ebp loc tests) = some s') :
    SavedRight s' ∧ s'.Tidy := by
  obtain ⟨k', hint, rfl⟩ := Option.map_eq_some_iff.1 h
  have hdesk := fullInterrupt_desk hint
  have hsaved : ∀ t, k'.saveBuff t = ((s.kernel.desk.keystroke code).editor t).saved := fun t => by
    rw [← hdesk]
    rfl
  unfold SavedRight Saved.Tidy
  simp only [hsaved, hdesk]
  rcases keystroke_cases s.kernel.desk code with ⟨hne, hsame⟩ | hedits
  · refine ⟨fun t i hi => ?_, fun t => ?_⟩
    · rw [hsame, if_neg hne]
      exact hright t i hi
    · rw [hsame]
      exact htidy t
  · refine ⟨fun t i hi => ?_, fun t => ?_⟩
    · by_cases ht : t = s.kernel.currTerminal
      · subst ht
        rw [show s.kernel.currTerminal = s.kernel.desk.currTerminal from rfl, hedits.editor]
        split_ifs with henter
        · rw [henter, (htidy _).enter_saved hi, Function.update_self]
          rfl
        · rw [Editor.press_saved henter]
          exact hright _ i hi
      · rw [hedits.others t ht]
        split_ifs
        · rw [Function.update_of_ne ht]
          exact hright t i hi
        · exact hright t i hi
    · by_cases ht : t = s.kernel.currTerminal
      · subst ht
        rw [show s.kernel.currTerminal = s.kernel.desk.currTerminal from rfl, hedits.editor]
        exact (htidy _).press code
      · rw [hedits.others t ht]
        exact htidy t

/-- What follows a call leaves the keyboard and the saved lines as the call left them. -/
theorem settle_lines {o : CallOutcome} (h : o.settle cfg loc = some k') : SameLines o.state k' := by
  cases o with
  | done k1 v =>
      obtain rfl := Option.some.inj h
      exact ⟨rfl, rfl⟩
  | stopped k1 why =>
      cases why with
      | fault va =>
          obtain ⟨⟨k2, out⟩, hstep, rfl⟩ := Option.map_eq_some_iff.1 h
          exact @step_lines cfg k1 k2 (.exception 14 (UInt32.ofNat va) loc) out rfl hstep
      | stray | wild | endless => cases h

theorem SameLines.trans {k1 k2 k3 : Kernel} (h12 : SameLines k1 k2) (h23 : SameLines k2 k3) :
    SameLines k1 k3 := ⟨h23.1.trans h12.1, h23.2.trans h12.2⟩

/-- The keyboard's variables and the saved lines, as one value. -/
def Kernel.lines (k : Kernel) : Keyboard × (Terminal → Bytes) := (k.keyboard, k.saveBuff)

theorem lines_unreached {C : Set Cell} (hC : Disjoint C savedCells) (p : Slot) :
    Unreached map C p Kernel.lines where
  store k c b k' hc h := by
    cases c with
    | saved t i => exact absurd ⟨t, i, rfl⟩ (Set.disjoint_left.1 hC hc)
    | kernel pa => cases h
    | _ =>
        obtain rfl := Option.some.inj h
        rfl
  setConsole _ _ := rfl
  rtc _ _ := rfl
  setFdTable _ _ := rfl

/-- A read through the terminal's table keeps the saved lines right exactly if it puts the saved line
    back. -/
theorem savedRight_readTerm {fd : Int} {buf : Nat} {nbytes : Int} {rest : Bytes} (hright : SavedRight s)
    (hthrough : Pointer.through s.kernel fd buf = some .term)
    (h : s.next cfg map (.read fd buf nbytes rest loc) = some s') :
    (SavedRight s' ↔ ReadsBack cfg map s (.read fd buf nbytes rest loc)) ∧ (s.Tidy → s'.Tidy) := by
  have hnot : ¬ (Pointer.through s.kernel fd buf = some .kybd ∧ s.kernel.keyboard.kbdrFlag = false) := by
    rintro ⟨hkybd, -⟩
    rw [hthrough] at hkybd
    cases hkybd
  simp only [Saved.next, if_neg hnot] at h
  obtain ⟨k', hsettle, rfl⟩ := Option.map_eq_some_iff.1 h
  obtain ⟨hkeyboard, hsave⟩ := settle_lines hsettle
  obtain ⟨row, hstate, hback⟩ := @terminalRead_filled cfg map rest s.kernel buf nbytes
  rw [read_term hthrough, hstate] at hkeyboard hsave
  have hrow : k'.saveBuff s.kernel.currTerminal = row := by
    rw [hsave]
    exact Function.update_self _ _ _
  have hothers : ∀ t, t ≠ s.kernel.currTerminal → k'.saveBuff t = s.kernel.saveBuff t := fun t ht => by
    rw [hsave]
    exact Function.update_of_ne ht _ _
  refine ⟨⟨fun hright' => ?_, fun hreads t i hi => ?_⟩, fun htidy t => ?_⟩
  · intro fd1 buf1 nbytes1 rest1 loc1 hev _
    cases hev
    refine hback.1 fun i hi => ?_
    rw [← hrow, hright _ i hi]
    exact hright' _ i hi
  · -- only the row of the current terminal is written
    by_cases ht : t = s.kernel.currTerminal
    · subst ht
      simp only [hrow]
      rw [hback.2 (hreads fd buf nbytes rest loc rfl hthrough) i hi]
      exact hright _ i hi
    · simp only [hothers t ht]
      exact hright t i hi
  · have hindex : k'.keyboard.bufferIndex t ≤ 127 := by
      rw [hkeyboard]
      exact (htidy t).index_le
    refine ⟨hindex, fun j hj hsize => ?_⟩
    have hsame : k'.keyboard = s.kernel.keyboard := hkeyboard
    change k'.keyboard.buffer t j = 0
    rw [hsame]
    refine (htidy t).nul j ?_ hsize
    change k'.keyboard.bufferIndex t ≤ j at hj
    rwa [hsame] at hj

/-- Any other read that stores elsewhere keeps them: `keyboard_read` does not write the line it waits
    for. -/
theorem next_read {fd : Int} {buf : Nat} {nbytes : Int} {rest : Bytes} (htidy : s.Tidy)
    (hthrough : Pointer.through s.kernel fd buf ≠ some .term)
    (helsewhere : Disjoint (Pointer.readCells cfg map rest s.kernel fd buf nbytes) savedCells)
    (h : s.next cfg map (.read fd buf nbytes rest loc) = some s') :
    (SavedRight s' ↔ SavedRight s) ∧ s'.Tidy := by
  simp only [Saved.next] at h
  split_ifs at h with hblocked
  obtain ⟨k', hsettle, rfl⟩ := Option.map_eq_some_iff.1 h
  refine SameLines.keeps (SameLines.trans (sameLines_of_eq ?_) (settle_lines hsettle)) htidy
  cases hp : s.kernel.currentPcb? with
  | none =>
      rcases @read_noProcess cfg map rest s.kernel hp fd buf nbytes
        (s.kernel.saveBuff s.kernel.currTerminal) with ⟨text, hread⟩ | hread
      · rw [hread]
        rfl
      · rw [hread]
        rfl
  | some p =>
      refine read_keeps (lines_unreached helsewhere p) hp subset_rfl (fun hterm => absurd hterm hthrough)
        fun hkybd => ?_
      have hflag : s.kernel.keyboard.kbdrFlag = true := by simpa [hkybd] using hblocked
      refine Prod.ext ?_ (Function.update_eq_self _ _)
      simp only [Kernel.lines, Kernel.released, Kernel.setRow, ← hflag]

theorem next_getargs {buf : Nat} {nbytes : Int} {rest : Bytes} (htidy : s.Tidy)
    (helsewhere : Disjoint (Pointer.getargsCells cfg map rest s.kernel buf nbytes) savedCells)
    (h : s.next cfg map (.getargs buf nbytes rest loc) = some s') :
    (SavedRight s' ↔ SavedRight s) ∧ s'.Tidy := by
  obtain ⟨k', hsettle, rfl⟩ := Option.map_eq_some_iff.1 h
  refine SameLines.keeps (SameLines.trans (sameLines_of_eq ?_) (settle_lines hsettle)) htidy
  exact (lines_unreached helsewhere 0).wrote (getargs_wrote subset_rfl)

/-- One event, of any kind. -/
theorem next_savedRight {ev : LineEvent} (htidy : s.Tidy) (hright : SavedRight s)
    (helsewhere : StoresElsewhere cfg map s ev) (h : s.next cfg map ev = some s') :
    (SavedRight s' ↔ ReadsBack cfg map s ev) ∧ (SavedRight s' → s'.Tidy) := by
  have hother : (∀ fd buf nbytes rest loc, ev ≠ .read fd buf nbytes rest loc) → ReadsBack cfg map s ev :=
    fun hne fd buf nbytes rest loc hev => absurd hev (hne fd buf nbytes rest loc)
  cases ev with
  | key code esp ebp loc tests =>
      obtain ⟨hright', htidy'⟩ := next_key htidy hright h
      exact ⟨iff_of_true hright' (hother (by simp)), fun _ => htidy'⟩
  | call op =>
      simp only [Saved.next] at h
      split_ifs at h with hop
      obtain ⟨k', hnext, rfl⟩ := Option.map_eq_some_iff.1 h
      obtain ⟨⟨k1, out⟩, hstep, rfl⟩ := Option.map_eq_some_iff.1 hnext
      have hread : op.isRead = false := by
        cases op with
        | read => exact absurd rfl hop
        | _ => rfl
      obtain ⟨hiff, htidy'⟩ := (step_lines hread hstep).keeps htidy
      exact ⟨iff_of_true (hiff.2 hright) (hother (by simp)), fun _ => htidy'⟩
  | beginRead =>
      obtain rfl := Option.some.inj h
      exact ⟨iff_of_true hright (hother (by simp)), fun _ t => ⟨(htidy t).index_le, (htidy t).nul⟩⟩
  | getargs buf nbytes rest loc =>
      have hsaved := (Set.disjoint_union_right.1 (helsewhere.2 buf nbytes rest loc rfl)).1
      obtain ⟨hiff, htidy'⟩ := next_getargs htidy hsaved h
      exact ⟨iff_of_true (hiff.2 hright) (hother (by simp)), fun _ => htidy'⟩
  | read fd buf nbytes rest loc =>
      -- the terminal's table stores into the line; the others go elsewhere by the condition
      by_cases hthrough : Pointer.through s.kernel fd buf = some .term
      · obtain ⟨hiff, htidy'⟩ := savedRight_readTerm hright hthrough h
        exact ⟨hiff, fun _ => htidy' htidy⟩
      · have hsaved := (Set.disjoint_union_right.1 (helsewhere.1 fd buf nbytes rest loc rfl)).1
        obtain ⟨hiff, htidy'⟩ := next_read htidy hthrough hsaved h
        refine ⟨iff_of_true (hiff.2 hright) ?_, fun _ => htidy'⟩
        intro fd1 buf1 nbytes1 rest1 loc1 hev hterm
        cases hev
        exact absurd hterm hthrough

/-! ## Runs -/

/-- The keyboard driver's variables are zeroed, and so are the saved lines. -/
structure NothingTyped (k : Kernel) : Prop where
  index : ∀ t, k.keyboard.bufferIndex t = 0
  buffer : ∀ t, ∀ i < bufferSize, k.keyboard.buffer t i = 0
  saved : ∀ t, ∀ i < termBuffSize, k.saveBuff t i = 0

/-- Before anything has been entered. -/
def Saved.start (k : Kernel) : Saved := ⟨k, fun _ _ => 0⟩

theorem NothingTyped.tidy (h : NothingTyped k) : (Saved.start k).Tidy := fun t =>
  ⟨(h.index t).trans_le (Nat.zero_le _), fun j _ hj => h.buffer t j hj⟩

/-- However keystrokes and system calls are interleaved, with buffers anywhere but in the saved lines: these
    are always what was entered last, exactly when every read from descriptor 1 puts back the line that is
    saved already. -/
theorem saved_iff (hk : NothingTyped k) (events : List LineEvent)
    (hrun : Runs.run (Saved.next cfg map) (Saved.start k) events = some s)
    (helsewhere : Runs.AllSteps (Saved.next cfg map) (StoresElsewhere cfg map) (Saved.start k) events) :
    Runs.AllStates (Saved.next cfg map) SavedRight (Saved.start k) events ↔
      Runs.AllSteps (Saved.next cfg map) (ReadsBack cfg map) (Saved.start k) events :=
  Runs.allStates_iff_allSteps (fun _ _ _ htidy hright hev h => next_savedRight htidy hright hev h)
    hk.tidy hk.saved helsewhere hrun

theorem through_stdout {p : Slot} {buf : Nat} (hp : k.currentPcb? = some p)
    (htable : (k.pcb p).fdTable = fdTableInit) (hbuf : buf ≠ 0) :
    Pointer.through k 1 buf = some .term := by
  have hindex : fdIndex? 1 = some 1 := rfl
  have hvalid : checkValidFd fdTableInit 1 = true := by decide
  unfold Pointer.through readsThrough
  rw [if_neg hbuf, hindex, hp]
  simp only [htable, hvalid, if_true]
  rfl

theorem smallBooted_nothingTyped : NothingTyped smallBooted := by
  have hdesk : smallBooted.desk = (bootState smallConfig smallMachine).desk :=
    (execute_background _ _ _ _).desk
  have hkeyboard : smallBooted.keyboard = smallMachine.keyboard := congrArg Desk.keyboard hdesk
  have hsaved : smallBooted.saveBuff = smallMachine.saveBuff := congrArg Desk.saveBuff hdesk
  refine ⟨fun t => ?_, fun t i _ => ?_, fun t i _ => ?_⟩
  · rw [hkeyboard]
    rfl
  · rw [hkeyboard]
    rfl
  · rw [hsaved]
    rfl

/-- `terminal_read` of one byte that is mapped. -/
theorem terminalRead_one {rest : Bytes} {buf : Nat} {c : Cell}
    (hcell : (kernelView cfg map rest).cell k buf = some c) :
    ∃ row, Pointer.terminalRead cfg map rest k buf 1 = .done (k.setRow row) (-1) := by
  have hload : (kernelView cfg map rest).loadByte
      (k.setRow (Pointer.cleared (k.saveBuff k.currTerminal))) (buf + 0) = .done
        (k.setRow (Pointer.cleared (k.saveBuff k.currTerminal)))
        ((k.setRow (Pointer.cleared (k.saveBuff k.currTerminal))).loadCell map rest c) := by
    unfold View.loadByte
    rw [show (kernelView cfg map rest).cell (k.setRow (Pointer.cleared (k.saveBuff k.currTerminal)))
      (buf + 0) = some c from hcell]
    rfl
  unfold Pointer.terminalRead
  rw [show min (1 : Int).toNat termBuffSize = 1 from rfl]
  simp only [Pointer.fillRow, hload, Outcome.done_andThen, setRow_setRow]
  exact ⟨_, rfl⟩

/-- A read of one byte from descriptor 1, from a byte that is mapped. -/
theorem next_readOne {s : Saved} {p : Slot} {buf : Nat} {rest : Bytes} {c : Cell}
    (hp : s.kernel.currentPcb? = some p) (htable : (s.kernel.pcb p).fdTable = fdTableInit) (hbuf : buf ≠ 0)
    (hcell : (kernelView cfg map rest).cell s.kernel buf = some c) (loc : Locals) :
    ∃ row, s.next cfg map (.read 1 buf 1 rest loc) = some { s with kernel := s.kernel.setRow row } := by
  obtain ⟨row, hread⟩ := terminalRead_one hcell
  have hthrough := through_stdout hp htable hbuf
  refine ⟨row, ?_⟩
  simp only [Saved.next, hthrough, read_term hthrough, hread, CallOutcome.settle, CallOutcome.toStep, Option.map_some]
  rw [if_neg (by rintro ⟨hkybd, -⟩; cases hkybd)]

/-- One byte is looked at, with the row cleared; the rest of the row is cleared. -/
theorem filled_one {rest : Bytes} {buf : Nat} {c : Cell}
    (hcell : (kernelView cfg map rest).cell k buf = some c) (i : Nat) :
    Pointer.filled cfg map rest k buf 1 i =
      if i = 0 then (k.setRow (Pointer.cleared (k.saveBuff k.currTerminal))).loadCell map rest c else 0 := by
  unfold Pointer.filled
  rcases Nat.eq_zero_or_pos i with rfl | hpos
  · rw [if_pos ⟨by decide, fun j hj => absurd hj (Nat.not_lt_zero j)⟩, Nat.add_zero, hcell]
    rfl
  · rw [if_neg (by omega), if_neg (by omega)]

theorem storesElsewhere_key (s : Saved) (code : UInt8) (esp ebp : Nat) (loc : Locals) (tests : TestLocals) :
    StoresElsewhere cfg map s (.key code esp ebp loc tests) :=
  ⟨fun _ _ _ _ _ h => (by cases h), fun _ _ _ _ h => (by cases h)⟩

theorem storesElsewhere_term {s : Saved} {fd : Int} {buf : Nat} (h : Pointer.through s.kernel fd buf = some .term)
    (nbytes : Int) (rest : Bytes) (loc : Locals) :
    StoresElsewhere cfg map s (.read fd buf nbytes rest loc) := by
  refine ⟨fun _ _ _ _ _ hev => ?_, fun _ _ _ _ hev => by cases hev⟩
  cases hev
  rw [readCells_term h]
  exact Set.empty_disjoint _

/-- The first byte of the saved line, seen as a buffer. -/
theorem smallBooted_savedCell :
    (kernelView smallConfig smallMap emptyBuf).cell smallBooted (smallMap.savedAddr 0 0)
      = some (.saved 0 0) := by
  have hmapped : kernelAddr smallConfig.lay smallBooted.paging (smallMap.savedAddr 0 0)
      = some (smallMap.savedAddr 0 0) := smallBooted_mapped.1.kernelAddr (by decide) (by decide)
  change (kernelAddr smallConfig.lay smallBooted.paging (smallMap.savedAddr 0 0 % 2 ^ 32)).map
    (cellAt smallMap) = _
  rw [show smallMap.savedAddr 0 0 % 2 ^ 32 = smallMap.savedAddr 0 0 by decide, hmapped, Option.map_some,
    cellAt_savedAddr 0 (by decide)]

/-- What the shortcuts find on the small machine. -/
def smallTests : TestLocals := ⟨0, 0, ⟨⟨fun _ => 0, 0, 0⟩, emptyBuf, 0⟩⟩

/-- The saved line read back from where it is saved, before anything has been entered, and then Enter. -/
theorem saved_iff_nuls :
    ∃ s, Runs.run (Saved.next smallConfig smallMap) (Saved.start smallBooted)
        [.read 1 (smallMap.savedAddr 0 0) 1 emptyBuf (localsAt 0),
          .key enterKey 0 0 (localsAt 0) smallTests] = some s ∧
      Runs.AllStates (Saved.next smallConfig smallMap) SavedRight (Saved.start smallBooted)
        [.read 1 (smallMap.savedAddr 0 0) 1 emptyBuf (localsAt 0),
          .key enterKey 0 0 (localsAt 0) smallTests] := by
  obtain ⟨hp, htable⟩ := smallBooted_running
  obtain ⟨row, hread⟩ := @next_readOne smallConfig smallMap (Saved.start smallBooted) 0 _ emptyBuf _ hp
    htable (by decide) smallBooted_savedCell (localsAt 0)
  obtain ⟨s, hrun⟩ : ∃ s, Runs.run (Saved.next smallConfig smallMap) (Saved.start smallBooted)
      [.read 1 (smallMap.savedAddr 0 0) 1 emptyBuf (localsAt 0),
        .key enterKey 0 0 (localsAt 0) smallTests] = some s :=
    ⟨_, Runs.run_cons_eq_some.2 ⟨_, hread, rfl⟩⟩
  have hthrough := @through_stdout smallBooted 0 (smallMap.savedAddr 0 0) hp htable (by decide)
  refine ⟨s, hrun, (saved_iff smallBooted_nothingTyped _ hrun ⟨storesElsewhere_term hthrough _ _ _,
    fun _ _ => ⟨storesElsewhere_key _ _ _ _ _ _, fun _ _ => trivial⟩⟩).2
      ⟨?_, fun _ _ => ⟨fun _ _ _ _ _ h => (by cases h), fun _ _ => trivial⟩⟩⟩
  intro fd buf nbytes rest loc hev _ i hi
  cases hev
  change Pointer.filled smallConfig smallMap emptyBuf smallBooted _ 1 i = smallBooted.saveBuff _ i
  rw [filled_one smallBooted_savedCell, smallBooted_nothingTyped.saved _ i hi]
  split_ifs
  · -- the row has been cleared by now
    simp only [Kernel.loadCell, Kernel.setRow]
    by_cases hterminal : smallBooted.currTerminal = 0
    · rw [hterminal, Function.update_self]
      rfl
    · rw [Function.update_of_ne (Ne.symm hterminal)]
      exact smallBooted_nothingTyped.saved 0 0 (by decide)
  · rfl

/-- The first byte of the program page of the first shell. -/
theorem userAddr_programPage : userAddr smallConfig.lay smallBooted.paging programPage = some 0x800000 := by
  obtain ⟨hpresent, hlarge, huser, hframe⟩ := processEntry_bits 0
  unfold userAddr translate
  rw [show programPage / 2 ^ 22 % 1024 = processIdx by decide, smallBooted_mapped.2]
  simp only [hpresent, hlarge, huser, if_true, hframe]
  rfl

/-- A program stores an `x` in its memory and reads one byte from descriptor 1 there: nothing was entered,
    and an `x` is the saved line. -/
theorem saved_not_right :
    ¬ ∀ (cfg : Config) (map : KernelMap) (k : Kernel) (events : List LineEvent) (s : Saved),
      NothingTyped k → Runs.run (Saved.next cfg map) (Saved.start k) events = some s → SavedRight s := by
  intro hall
  obtain ⟨hp, htable⟩ := smallBooted_running
  have hnone := smallBooted_nothingTyped
  obtain ⟨k, hk⟩ : ∃ k : Kernel,
      k = { smallBooted with mem := Function.update smallBooted.mem 0x800000 120 } := ⟨_, rfl⟩
  have hpaging : k.paging = smallBooted.paging := by rw [hk]
  have hline : ∀ t, ∀ i < termBuffSize, k.saveBuff t i = 0 := by
    rw [hk]
    exact hnone.saved
  rw [show smallBooted.currentPcb? = k.currentPcb? by rw [hk]; rfl] at hp
  rw [show (smallBooted.pcb 0).fdTable = (k.pcb 0).fdTable by rw [hk]] at htable
  have hstore : (Saved.start smallBooted).next smallConfig smallMap (.call (.userStore programPage 120))
      = some ⟨k, fun _ _ => 0⟩ := by
    have hmapped : userAddr smallConfig.lay smallBooted.paging (programPage % 2 ^ 32) = some 0x800000 :=
      userAddr_programPage
    simp only [Saved.next, Op.storesAnywhere, Kernel.next, Kernel.step, Saved.start, hmapped, Option.map_some,
      hk]
    rfl
  have hcell : (kernelView smallConfig smallMap emptyBuf).cell k programPage = some (.memory 0x800000) := by
    have hmapped : kernelAddr smallConfig.lay k.paging (programPage % 2 ^ 32) = some 0x800000 := by
      rw [hpaging]
      exact kernelAddr_of_userAddr userAddr_programPage
    change (kernelAddr smallConfig.lay k.paging (programPage % 2 ^ 32)).map (cellAt smallMap) = _
    rw [hmapped]
    rfl
  obtain ⟨row, hread⟩ := @next_readOne smallConfig smallMap ⟨k, fun _ _ => 0⟩ 0 _ emptyBuf _ hp
    htable (by decide) hcell (localsAt 0)
  have hright := hall smallConfig smallMap smallBooted [.call (.userStore programPage 120),
    .read 1 programPage 1 emptyBuf (localsAt 0)] _ hnone
      (Runs.run_cons_eq_some.2 ⟨_, hstore, Runs.run_cons_eq_some.2 ⟨_, hread, rfl⟩⟩)
  have hthrough := @through_stdout k 0 programPage hp htable (by decide)
  have hstart : SavedRight ⟨k, fun _ _ => 0⟩ := hline
  have hback := (savedRight_readTerm hstart hthrough hread).1.1 hright
  have hfirst := hback 1 programPage 1 _ _ rfl hthrough 0 (by decide)
  rw [filled_one hcell, if_pos rfl] at hfirst
  rw [hline _ 0 (by decide)] at hfirst
  have hbyte : k.mem 0x800000 = 120 := by
    rw [hk]
    exact Function.update_self (0x800000 : Nat) (120 : UInt8) smallBooted.mem
  change k.mem 0x800000 = 0 at hfirst
  rw [hbyte] at hfirst
  exact absurd hfirst (by decide)

end BaseOs
