import BaseOs.Lib.Runs
import BaseOs.Keyboard

set_option autoImplicit false

/-! # Three readers and one flag

`keyboard_read` clears `kbdr_flag` and goes round its loop until Enter has raised it. The flag is one
for the whole system, and a process whose terminal is switched away is frozen inside the loop with the
flag as it was, is and will be. `Readers` is the keyboard with the three terminals' readers: keystrokes
are interrupts, so they come between any two steps of a reader. `deliveries_right_iff` says which runs
deliver every line to the right reader, once. -/

namespace BaseOs

/-! ## The part of the kernel the keyboard works on -/

/-- The variables of the keyboard and terminal drivers a keystroke changes, the screen apart. -/
structure Desk where
  currTerminal : Terminal
  keyboard : Keyboard
  saveBuff : Terminal → Bytes

/-- The keyboard as it is at boot, with terminal 0 shown. -/
def idleDesk : Desk where
  currTerminal := 0
  keyboard := ⟨fun _ => 0, false, false, fun _ => 0, fun _ _ => 0, false⟩
  saveBuff := fun _ _ => 0

/-- `terminal_switch`, as far as it changes them. -/
def Desk.terminalSwitch (d : Desk) (newTerminal : Nat) : Desk :=
  if h : newTerminal < 3 then { d with currTerminal := ⟨newTerminal, h⟩ } else d

/-- What a keystroke asks for. Echoing and the test shortcuts change the screen only. -/
def Desk.perform (d : Desk) : KeyAction → Desk
  | .terminalRead line nbytes =>
    { d with
      saveBuff := Function.update d.saveBuff d.currTerminal
        (terminalRead (d.saveBuff d.currTerminal) line nbytes) }
  | .terminalSwitch newTerminal => d.terminalSwitch newTerminal
  | _ => d

/-- One keyboard interrupt. -/
def Desk.keystroke (d : Desk) (key : UInt8) : Desk :=
  let r := keyboardHandler d.keyboard d.currTerminal key
  { d with keyboard := r.1 }.perform r.2

/-- The scancode of Enter. -/
def enterKey : UInt8 := 0x1C

/-- What every key but Enter does: it leaves the flag, saves no line, and switches only to a terminal
    that exists. -/
structure LeavesFlag (kb : Keyboard) (r : Keyboard × KeyAction) : Prop where
  flag : r.1.kbdrFlag = kb.kbdrFlag
  noLine : ∀ line nbytes, r.2 ≠ .terminalRead line nbytes
  exists_terminal : ∀ n, r.2 = .terminalSwitch n → n < 3

theorem processKey_leavesFlag (kb : Keyboard) (t : Terminal) (key : UInt8) :
    LeavesFlag kb (processKey kb t key) := by
  unfold processKey
  split_ifs
  all_goals exact ⟨rfl, fun _ _ h => (by cases h), fun n h => (by cases h <;> decide)⟩

theorem handleBackspace_leavesFlag (kb : Keyboard) (t : Terminal) :
    LeavesFlag kb (handleBackspace kb t) := by
  unfold handleBackspace
  split_ifs
  all_goals exact ⟨rfl, fun _ _ h => (by cases h), fun n h => (by cases h)⟩

theorem keyboardHandler_leavesFlag (kb : Keyboard) (t : Terminal) {key : UInt8}
    (h : key ≠ enterKey) : LeavesFlag kb (keyboardHandler kb t key) := by
  unfold enterKey at h
  have hquiet : ∀ kb' : Keyboard, kb'.kbdrFlag = kb.kbdrFlag → LeavesFlag kb (kb', .ignore) :=
    fun kb' hflag => ⟨hflag, fun _ _ h => (by cases h), fun n h => (by cases h)⟩
  unfold keyboardHandler
  split_ifs
  · exact hquiet _ rfl
  · exact hquiet _ rfl
  · exact hquiet _ rfl
  · exact hquiet _ rfl
  · exact hquiet _ rfl
  · exact handleBackspace_leavesFlag kb t
  · exact hquiet _ rfl
  · exact processKey_leavesFlag kb t key

/-- Enter raises the flag and stays on the terminal. -/
theorem keystroke_enter (d : Desk) :
    (d.keystroke enterKey).currTerminal = d.currTerminal ∧
      (d.keystroke enterKey).keyboard.kbdrFlag = true := ⟨rfl, rfl⟩

/-- Every other key leaves the flag. -/
theorem keystroke_flag (d : Desk) {key : UInt8} (h : key ≠ enterKey) :
    (d.keystroke key).keyboard.kbdrFlag = d.keyboard.kbdrFlag := by
  have hleaves := keyboardHandler_leavesFlag d.keyboard d.currTerminal h
  unfold Desk.keystroke Desk.perform Desk.terminalSwitch
  simp only
  split
  · exact hleaves.flag
  · split_ifs <;> exact hleaves.flag
  · exact hleaves.flag

/-! ## Readers -/

/-- A `keyboard_read` in its wait loop: the caller's buffer, and how many times Enter had been pressed
    when it cleared the flag. -/
structure Pending where
  buf : Bytes
  nbytes : Int
  begun : Nat

/-- A `keyboard_read` that has returned: its terminal, the presses before it began and before it
    returned, the result. -/
structure Returned where
  terminal : Terminal
  begun : Nat
  pressed : Nat
  count : Nat
  buf : Bytes

/-- The keyboard, the reader of each terminal, and what has happened: the terminal shown at each press
    of Enter and the reads that have returned, both in order. -/
structure Readers where
  desk : Desk
  waiting : Terminal → Option Pending
  presses : List Terminal
  returned : List Returned

/-- What can happen next: an interrupt; the process of the current terminal calls `keyboard_read`; the
    reader of the current terminal goes once round its loop. -/
inductive ReaderEvent
  | key (code : UInt8)
  | keyboardRead (buf : Bytes) (nbytes : Int)
  | poll

namespace Readers

/-- The reader of the current terminal sees the flag raised. -/
def fetch (s : Readers) (p : Pending) : Readers :=
  let t := s.desk.currTerminal
  let r := keyboardReadFetch (s.desk.saveBuff t) p.buf p.nbytes
  { s with
    waiting := Function.update s.waiting t none
    returned := s.returned ++ [⟨t, p.begun, s.presses.length, r.1, r.2⟩] }

/-- One event. Only the current terminal's process runs, so only it can call or poll. -/
def step (s : Readers) : ReaderEvent → Option Readers
  | .key code =>
    some { s with
      desk := s.desk.keystroke code
      presses := if code = enterKey then s.presses ++ [s.desk.currTerminal] else s.presses }
  | .keyboardRead buf nbytes =>
    match s.waiting s.desk.currTerminal with
    | some _ => none
    | none =>
      some { s with
        desk := { s.desk with keyboard := { s.desk.keyboard with kbdrFlag := false } }
        waiting := Function.update s.waiting s.desk.currTerminal
          (some ⟨buf, nbytes, s.presses.length⟩) }
  | .poll =>
    match s.waiting s.desk.currTerminal with
    | none => none
    | some p => some (if s.desk.keyboard.kbdrFlag then s.fetch p else s)

/-- Nobody reads and nothing has been pressed yet. -/
def idle (d : Desk) : Readers := ⟨d, fun _ => none, [], []⟩

/-- Enter was pressed on terminal `t` after the first `begun` presses. -/
def PressedOn (s : Readers) (t : Terminal) (begun : Nat) : Prop :=
  ∃ e, begun ≤ e ∧ s.presses[e]? = some t

/-- Every read that has returned did so after a press of Enter on its own terminal that came after the
    read began; and no press of Enter, each read being released by the latest one before its return,
    has released two reads. -/
structure Delivered (s : Readers) : Prop where
  ownEnter : ∀ r ∈ s.returned,
    ∃ e, r.begun ≤ e ∧ e < r.pressed ∧ s.presses[e]? = some r.terminal
  once : (s.returned.map (·.pressed)).Nodup

/-- The reads are right, and stay right if the current reader polls. -/
def Right (s : Readers) : Prop := s.Delivered ∧ ∀ s', s.step .poll = some s' → s'.Delivered

/-- The event does not switch to a terminal with a frozen reader while the flag is raised, except that
    Enter was pressed there since the reader began and the latest press has released no read. -/
def CleanSwitch (s : Readers) (ev : ReaderEvent) : Prop :=
  ∀ code t p, ev = .key code → (s.desk.keystroke code).currTerminal = t → t ≠ s.desk.currTerminal →
    s.waiting t = some p → s.desk.keyboard.kbdrFlag = true →
    s.PressedOn t p.begun ∧ ∀ r ∈ s.returned, r.pressed ≠ s.presses.length

/-- What holds in every run. -/
structure Consistent (s : Readers) : Prop where
  returned_le : ∀ r ∈ s.returned, r.pressed ≤ s.presses.length
  begun_le : ∀ t p, s.waiting t = some p → p.begun ≤ s.presses.length

variable {s s' : Readers} {ev : ReaderEvent} {d : Desk}

theorem idle_consistent (d : Desk) : (idle d).Consistent where
  returned_le r hr := by cases hr
  begun_le t p hp := by cases hp

/-- The flag as the reader of the current terminal finds it. -/
def CanReturn (s : Readers) (p : Pending) : Prop :=
  s.waiting s.desk.currTerminal = some p ∧ s.desk.keyboard.kbdrFlag = true

/-- The read of the current terminal may return now: Enter was pressed on its terminal since it began,
    and the latest press has released no read. -/
def MayReturn (s : Readers) (p : Pending) : Prop :=
  s.PressedOn s.desk.currTerminal p.begun ∧ ∀ r ∈ s.returned, r.pressed ≠ s.presses.length

/-- Returning a read is right exactly when it may return. -/
theorem fetch_delivered_iff (hs : s.Delivered) (p : Pending) :
    (s.fetch p).Delivered ↔ s.MayReturn p := by
  have hmem : ∀ r, r ∈ (s.fetch p).returned ↔ r ∈ s.returned ∨
      r = ⟨s.desk.currTerminal, p.begun, s.presses.length,
        (keyboardReadFetch (s.desk.saveBuff s.desk.currTerminal) p.buf p.nbytes).1,
        (keyboardReadFetch (s.desk.saveBuff s.desk.currTerminal) p.buf p.nbytes).2⟩ := by
    intro r
    simp [fetch]
  have hlog : (s.fetch p).returned.map (·.pressed)
      = s.returned.map (·.pressed) ++ [s.presses.length] := by
    simp [fetch]
  constructor
  · rintro ⟨hown, honce⟩
    obtain ⟨e, hbegun, -, hpress⟩ := hown _ ((hmem _).2 (Or.inr rfl))
    refine ⟨⟨e, hbegun, hpress⟩, fun r hr heq => ?_⟩
    rw [hlog, List.nodup_append] at honce
    exact honce.2.2 r.pressed (List.mem_map_of_mem hr) s.presses.length (by simp) heq
  · rintro ⟨⟨e, hbegun, hpress⟩, hfresh⟩
    refine ⟨fun r hr => ?_, ?_⟩
    · rcases (hmem r).1 hr with hold | rfl
      · exact hs.ownEnter r hold
      · exact ⟨e, hbegun, (List.getElem?_eq_some_iff.1 hpress).1, hpress⟩
    · rw [hlog, List.nodup_append]
      refine ⟨hs.once, by simp, fun a ha b hb => ?_⟩
      obtain ⟨r, hr, rfl⟩ := List.mem_map.1 ha
      obtain rfl := List.mem_singleton.1 hb
      exact hfresh r hr

/-- A state is right when its log is and the current reader, if it can return, may. -/
theorem right_iff : s.Right ↔ s.Delivered ∧ ∀ p, s.CanReturn p → s.MayReturn p := by
  unfold Right
  refine and_congr_right fun hs => ?_
  constructor
  · rintro hpoll p ⟨hwait, hflag⟩
    refine (fetch_delivered_iff hs p).1 (hpoll _ ?_)
    simp only [step, hwait, hflag, if_true]
  · intro hmay s' hstep
    simp only [step] at hstep
    split at hstep
    · cases hstep
    · next p hwait =>
        obtain rfl := Option.some.inj hstep
        split_ifs with hflag
        · exact (fetch_delivered_iff hs p).2 (hmay p ⟨hwait, hflag⟩)
        · exact hs

/-! ## One event -/

/-- A press of Enter on the terminal that is shown. -/
theorem step_enter (hc : s.Consistent) (hr : s.Right) (h : s.step (.key enterKey) = some s') :
    (s'.Right ↔ s.CleanSwitch (.key enterKey)) ∧ s'.Consistent := by
  obtain ⟨hd, -⟩ := right_iff.1 hr
  simp only [step, if_true, Option.some.injEq] at h
  subst h
  have hclean : s.CleanSwitch (.key enterKey) := by
    rintro code t p hev hterm haway -
    cases hev
    exact absurd hterm.symm haway
  have hkept : ∀ e t, s.presses[e]? = some t → (s.presses ++ [s.desk.currTerminal])[e]? = some t :=
    fun e t he => (List.getElem?_append_left (List.getElem?_eq_some_iff.1 he).1).trans he
  refine ⟨iff_of_true (right_iff.2 ⟨⟨fun r hr' => ?_, hd.once⟩, ?_⟩) hclean, ⟨?_, ?_⟩⟩
  · obtain ⟨e, hbegun, hlt, hpress⟩ := hd.ownEnter r hr'
    exact ⟨e, hbegun, hlt, hkept e _ hpress⟩
  · -- the new press is on the reader's own terminal and the latest one
    rintro p ⟨hwait, -⟩
    refine ⟨⟨s.presses.length, hc.begun_le _ p hwait, ?_⟩, fun r hr' => ?_⟩
    · simp [keystroke_enter]
    · have := hc.returned_le r hr'
      simp only [List.length_append, List.length_singleton]
      omega
  · intro r hr'
    have := hc.returned_le r hr'
    simp only [List.length_append, List.length_singleton]
    omega
  · intro t p hp
    have := hc.begun_le t p hp
    simp only [List.length_append, List.length_singleton]
    omega

/-- Any other key. If it switches terminals, whether the state stays right is what `CleanSwitch` asks
    of the reader frozen there. -/
theorem step_key {code : UInt8} (hcode : code ≠ enterKey) (hc : s.Consistent) (hr : s.Right)
    (h : s.step (.key code) = some s') :
    (s'.Right ↔ s.CleanSwitch (.key code)) ∧ s'.Consistent := by
  obtain ⟨hd, hmay⟩ := right_iff.1 hr
  have hflag := keystroke_flag s.desk hcode
  simp only [step, if_neg hcode, Option.some.injEq] at h
  subst h
  refine ⟨⟨fun hr' => ?_, fun hclean => right_iff.2 ⟨⟨hd.ownEnter, hd.once⟩, ?_⟩⟩,
    ⟨hc.returned_le, hc.begun_le⟩⟩
  · rintro code' t p hev rfl haway hwait hraised
    cases hev
    exact (right_iff.1 hr').2 p ⟨hwait, hflag.trans hraised⟩
  · rintro p ⟨hwait, hraised⟩
    rw [hflag] at hraised
    by_cases haway : (s.desk.keystroke code).currTerminal = s.desk.currTerminal
    · have hold := hmay p ⟨by rw [← haway]; exact hwait, hraised⟩
      refine ⟨?_, hold.2⟩
      simp only [haway]
      exact hold.1
    · exact hclean code _ p rfl rfl haway hwait hraised

theorem step_keyboardRead {buf : Bytes} {nbytes : Int} (hc : s.Consistent) (hr : s.Right)
    (h : s.step (.keyboardRead buf nbytes) = some s') :
    (s'.Right ↔ s.CleanSwitch (.keyboardRead buf nbytes)) ∧ s'.Consistent := by
  obtain ⟨hd, -⟩ := right_iff.1 hr
  simp only [step] at h
  split at h
  · cases h
  · obtain rfl := Option.some.inj h
    have hclean : s.CleanSwitch (.keyboardRead buf nbytes) := by
      rintro code t p hev
      cases hev
    refine ⟨iff_of_true (right_iff.2 ⟨⟨hd.ownEnter, hd.once⟩, ?_⟩) hclean,
      ⟨hc.returned_le, fun t p hp => ?_⟩⟩
    · -- the flag has just been cleared
      rintro p ⟨-, hflag⟩
      cases hflag
    · simp only at hp ⊢
      by_cases ht : t = s.desk.currTerminal
      · subst ht
        rw [Function.update_self] at hp
        cases hp
        exact le_refl _
      · rw [Function.update_of_ne ht] at hp
        exact hc.begun_le t p hp

theorem step_poll (hc : s.Consistent) (hr : s.Right) (h : s.step .poll = some s') :
    (s'.Right ↔ s.CleanSwitch .poll) ∧ s'.Consistent := by
  have hd' := hr.2 s' h
  have hclean : s.CleanSwitch .poll := by
    rintro code t p hev
    cases hev
  simp only [step] at h
  split at h
  · cases h
  · next p hwait =>
      obtain rfl := Option.some.inj h
      split_ifs at hd' ⊢ with hflag
      · have hfree : ∀ t q, (s.fetch p).waiting t = some q → s.waiting t = some q := by
          intro t q hq
          by_cases ht : t = s.desk.currTerminal
          · subst ht
            simp [fetch] at hq
          · simpa [fetch, Function.update_of_ne ht] using hq
        refine ⟨iff_of_true (right_iff.2 ⟨hd', ?_⟩) hclean, ⟨fun r hr' => ?_, ?_⟩⟩
        · rintro q ⟨hq, -⟩
          simp [fetch] at hq
        · rcases List.mem_append.1 hr' with hold | hnew
          · exact hc.returned_le r hold
          · rw [List.mem_singleton.1 hnew]
            exact le_refl _
        · exact fun t q hq => hc.begun_le t q (hfree t q hq)
      · exact ⟨iff_of_true hr hclean, hc⟩

/-- One event: the state after it is right exactly when it is no unclean switch. -/
theorem step_right (s : Readers) (ev : ReaderEvent) (s' : Readers) (hc : s.Consistent) (hr : s.Right)
    (h : s.step ev = some s') : (s'.Right ↔ s.CleanSwitch ev) ∧ s'.Consistent := by
  cases ev with
  | key code =>
      by_cases hcode : code = enterKey
      · subst hcode
        exact step_enter hc hr h
      · exact step_key hcode hc hr h
  | keyboardRead buf nbytes => exact step_keyboardRead hc hr h
  | poll => exact step_poll hc hr h

/-! ## Whole runs -/

theorem idle_right (d : Desk) : (idle d).Right := by
  refine right_iff.2 ⟨⟨fun r hr => (by cases hr), List.nodup_nil⟩, ?_⟩
  rintro p ⟨hwait, -⟩
  cases hwait

/-- In a run of keystrokes, calls of `keyboard_read` and polls, from any state without readers, all
    reads are delivered to the right reader once, whenever a reader looks at the flag, exactly when no
    step of the run is an unclean switch. -/
theorem deliveries_right_iff (d : Desk) {evs : List ReaderEvent} {s : Readers}
    (hrun : Runs.run step (idle d) evs = some s) :
    Runs.AllStates step Right (idle d) evs ↔ Runs.AllSteps step CleanSwitch (idle d) evs :=
  Runs.allStates_iff_allSteps
    (fun s ev s' hc hr _ h => ⟨(step_right s ev s' hc hr h).1, fun _ => (step_right s ev s' hc hr h).2⟩)
    (idle_consistent d) (idle_right d) (Runs.allSteps_of_forall (fun _ _ => trivial) _ _) hrun

/-- One reader, one Enter. -/
theorem deliveries_right_enter :
    ∃ s, Runs.run step (idle idleDesk) [.keyboardRead (fun _ => 0) 128, .key enterKey, .poll]
        = some s ∧
      Runs.AllStates step Right (idle idleDesk)
        [.keyboardRead (fun _ => 0) 128, .key enterKey, .poll] := by
  refine ⟨_, rfl, (deliveries_right_iff idleDesk rfl).2 ?_⟩
  have hcalls : ∀ (s : Readers) (ev : ReaderEvent), (∀ code, ev ≠ .key code) → s.CleanSwitch ev :=
    fun s ev h code _ _ hev => absurd hev (h code)
  refine ⟨hcalls _ _ (by simp), fun s1 _ => ⟨?_, fun s2 _ => ⟨hcalls _ _ (by simp), ?_⟩⟩⟩
  · rintro code t p hev rfl haway
    cases hev
    exact absurd rfl haway
  · intro s3 _
    trivial

/-- A reader on terminal 0, frozen while Enter is pressed on terminal 1, returns when terminal 0 is
    shown again: Alt, F2, Enter, F1. -/
theorem deliveries_not_right :
    ¬ ∀ (d : Desk) (evs : List ReaderEvent) (s : Readers),
      Runs.run step (idle d) evs = some s → s.Delivered := by
  intro h
  have hd := h idleDesk [.keyboardRead (fun _ => 0) 128, .key 0x38, .key 0x3C, .key enterKey,
    .key 0x3B, .poll] _ rfl
  obtain ⟨e, -, hlt, hpress⟩ := hd.ownEnter ⟨0, 0, 1, _, _⟩ (List.mem_singleton.2 rfl)
  obtain rfl : e = 0 := by
    simp only at hlt
    omega
  cases hpress

end Readers

end BaseOs
