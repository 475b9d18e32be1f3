import BaseOs.Keyboard.Editor

set_option autoImplicit false

/-! # What Enter delivers

The range test of `process_key` lets through keys that have no character (Tab, the function keys, the
arrows); they put a NUL into the line buffer, and the NUL ends the line for whoever reads it.
`delivers_iff` says which key sequences are delivered as they were typed. -/

namespace BaseOs

/-! ## The line as it was typed -/

/-- What a key makes of the line typed so far: a key with a character appends it, up to 127 of them,
    Backspace removes the last one, Enter begins a new line, any other key does nothing. -/
def typedLine (line : List UInt8) (mode : Nat) (key : UInt8) : List UInt8 :=
  match keyKind key with
  | .plain =>
    if kbdAsciiKeyMap mode key = 0 ∨ 127 ≤ line.length then line
    else line ++ [kbdAsciiKeyMap mode key]
  | .backspace => line.dropLast
  | .enter => []
  | _ => line

/-- The keyboard, and the line as it was typed since the last Enter. -/
structure Typist where
  desk : Desk
  line : List UInt8

namespace Typist

/-- The editor of the current terminal. -/
def editor (s : Typist) : Editor := s.desk.editor s.desk.currTerminal

def next (s : Typist) (key : UInt8) : Option Typist :=
  some ⟨s.desk.keystroke key, typedLine s.line s.editor.mode key⟩

end Typist

/-- A row of `save_buff`, read up to its first NUL. -/
def readLine (row : Bytes) : List UInt8 := ((List.range termBuffSize).map row).takeWhile (· != 0)

/-- Enter, pressed now, saves the line as it was typed. -/
def Delivers (s : Typist) : Prop :=
  readLine ((s.desk.keystroke enterKey).saveBuff s.desk.currTerminal) = s.line

/-- Neither Ctrl nor Alt goes down. -/
def noModifier (key : UInt8) : Prop := keyKind key ≠ .ctrl .make ∧ keyKind key ≠ .alt

/-- After a key without a character that is still at the end of the line comes no key with a character,
    and no Backspace, unless the line has no character. -/
def KeepsLine (s : Typist) (key : UInt8) : Prop :=
  1 ≤ s.editor.index ∧ s.editor.buffer (s.editor.index - 1) = 0 →
    (keyKind key = .plain → kbdAsciiKeyMap s.editor.mode key = 0) ∧
    (keyKind key = .backspace → s.editor.buffer 0 = 0)

instance : DecidablePred Delivers := fun s =>
  inferInstanceAs (Decidable
    (readLine ((s.desk.keystroke enterKey).saveBuff s.desk.currTerminal) = s.line))

/-! ## The line buffer as a list -/

/-- The line buffer up to its index. -/
def Editor.line (e : Editor) : List UInt8 := (List.range e.index).map e.buffer

theorem Editor.line_length (e : Editor) : e.line.length = e.index := by
  rw [Editor.line, List.length_map, List.length_range]

theorem map_range_update {α : Type*} (f : Nat → α) (n m : Nat) (a : α) (h : n ≤ m) :
    (List.range n).map (Function.update f m a) = (List.range n).map f := by
  refine List.map_congr_left fun i hi => ?_
  have hlt := List.mem_range.1 hi
  exact Function.update_of_ne (by omega) _ _

theorem Editor.line_typeChar (e : Editor) (c : UInt8) :
    (e.typeChar c).line = if e.index < 127 then e.line ++ [c] else e.line := by
  unfold Editor.typeChar
  have hsize : bufferSize = 128 := rfl
  by_cases hroom : e.index + 1 < bufferSize
  · rw [if_pos hroom, if_pos (by omega)]
    simp only [Editor.line, List.range_succ, List.map_append, List.map_singleton,
      Function.update_self, map_range_update _ _ _ _ le_rfl]
  · rw [if_neg hroom, if_neg (by omega)]

theorem Editor.line_erase (e : Editor) : e.erase.line = e.line.dropLast := by
  unfold Editor.erase
  by_cases hany : e.index ≥ 1
  · obtain ⟨n, hn⟩ : ∃ n, e.index = n + 1 := ⟨e.index - 1, by omega⟩
    rw [if_pos hany]
    simp only [Editor.line, hn, Nat.add_sub_cancel, List.range_succ, List.map_append,
      List.map_singleton, List.dropLast_concat, map_range_update _ _ _ _ le_rfl]
  · have hzero : e.index = 0 := by omega
    rw [if_neg hany]
    simp only [Editor.line, hzero, List.range_zero, List.map_nil, List.dropLast_nil]

/-- The saved line is the line buffer, as far as its first NUL. -/
theorem readLine_enter {e : Editor} (h : e.Tidy) :
    readLine e.enter.saved = e.line.takeWhile (· != 0) := by
  have hle := h.index_le
  have hsplit : (List.range termBuffSize).map (terminalRead e.saved e.buffer e.index)
      = e.line ++ 0 :: List.replicate (127 - e.index) 0 := by
    rw [show (0 : UInt8) :: List.replicate (127 - e.index) 0 = List.replicate (128 - e.index) 0 by
      rw [← List.replicate_succ]; congr 1; omega]
    refine List.ext_getElem ?_ fun i hi _ => ?_
    · simp [Editor.line_length, termBuffSize]
      omega
    · have hlt : i < 128 := by simpa [termBuffSize] using hi
      rw [List.getElem_map, List.getElem_range, List.getElem_append]
      unfold terminalRead
      rw [if_pos (by exact hlt)]
      by_cases hin : i < e.index
      · rw [if_pos (by exact_mod_cast hin), dif_pos (by rw [Editor.line_length]; exact hin)]
        simp [Editor.line]
      · rw [if_neg (by exact_mod_cast hin), dif_neg (by rw [Editor.line_length]; exact hin),
          List.getElem_replicate]
  change ((List.range termBuffSize).map (terminalRead e.saved e.buffer e.index)).takeWhile _ = _
  rw [hsplit, List.takeWhile_append]
  split_ifs with hall
  · rw [(List.takeWhile_prefix _).eq_of_length hall]
    simp
  · rfl

/-! ## Key by key -/

variable {s : Typist} {key : UInt8}

/-- The line buffer holds the typed line, then `m` NULs. -/
structure Holds (s : Typist) (m : Nat) : Prop where
  ctrl : s.desk.keyboard.ctrlFlag = false
  alt : s.desk.keyboard.altFlag = false
  tidy : s.editor.Tidy
  line : s.editor.line = s.line ++ List.replicate m 0
  chars : ∀ c ∈ s.line, c ≠ 0

theorem takeWhile_nul {line : List UInt8} (h : ∀ c ∈ line, c ≠ 0) (m : Nat) :
    (line ++ List.replicate m 0).takeWhile (· != 0) = line := by
  have hall : line.takeWhile (· != 0) = line :=
    List.takeWhile_eq_self_iff.2 fun c hc => bne_iff_ne.2 (h c hc)
  rw [List.takeWhile_append, hall, if_pos rfl]
  cases m with
  | zero => simp
  | succ m => simp [List.replicate_succ]

theorem delivers_iff_line (hctrl : s.desk.keyboard.ctrlFlag = false) (htidy : s.editor.Tidy) :
    Delivers s ↔ s.editor.line.takeWhile (· != 0) = s.line := by
  have hsaved : (s.desk.keystroke enterKey).saveBuff s.desk.currTerminal = s.editor.enter.saved :=
    congrArg Editor.saved
      (@keystroke_editor s.desk enterKey (fun _ => hctrl) (fun h => absurd h (by decide))).editor
  rw [Delivers, hsaved, readLine_enter htidy]

theorem Holds.delivers {m : Nat} (h : Holds s m) : Delivers s := by
  rw [delivers_iff_line h.ctrl h.tidy, h.line]
  exact takeWhile_nul h.chars m

theorem Editor.buffer_eq (e : Editor) {i : Nat} (hi : i < e.index) : e.buffer i = e.line.getD i 0 := by
  simp [Editor.line, List.getD_eq_getElem?_getD, List.getElem?_range hi]

theorem Holds.buffer {m i : Nat} (h : Holds s m) (hi : i < s.editor.index) :
    s.editor.buffer i = if i < s.line.length then s.line.getD i 0 else 0 := by
  rw [Editor.buffer_eq _ hi, h.line]
  split_ifs with hin
  · exact List.getD_append _ _ _ _ hin
  · rw [List.getD_append_right _ _ _ _ (by omega), List.getD_eq_getElem?_getD, List.getElem?_replicate]
    split_ifs <;> rfl

theorem Holds.index {m : Nat} (h : Holds s m) : s.editor.index = s.line.length + m := by
  rw [← Editor.line_length, h.line, List.length_append, List.length_replicate]

theorem Holds.char_ne {m i : Nat} (h : Holds s m) (hi : i < s.line.length) : s.line.getD i 0 ≠ 0 := by
  rw [List.getD_eq_getElem _ _ hi]
  exact h.chars _ (List.getElem_mem hi)

/-- The NULs at the end, seen from the line buffer. -/
theorem Holds.ends_nul {m : Nat} (h : Holds s m) :
    (1 ≤ s.editor.index ∧ s.editor.buffer (s.editor.index - 1) = 0) ↔ 0 < m := by
  have hindex := h.index
  constructor
  · rintro ⟨hany, hnul⟩
    by_contra hm
    rw [h.buffer (by omega), if_pos (by omega)] at hnul
    exact h.char_ne (by omega) hnul
  · intro hm
    refine ⟨by omega, ?_⟩
    rw [h.buffer (by omega), if_neg (by omega)]

theorem Holds.starts_nul {m : Nat} (h : Holds s m) (hm : 0 < m) :
    s.editor.buffer 0 = 0 ↔ s.line = [] := by
  have hindex := h.index
  rw [h.buffer (by omega)]
  constructor
  · intro hnul
    by_contra hne
    have hpos := List.length_pos_of_ne_nil hne
    rw [if_pos hpos] at hnul
    exact h.char_ne hpos hnul
  · rintro hnil
    rw [hnil]
    rfl

/-- `s'` is the state after a key that is neither Ctrl nor Alt. -/
structure After (s : Typist) (key : UInt8) (s' : Typist) : Prop where
  editor : s'.editor = s.editor.press key
  line : s'.line = typedLine s.line s.editor.mode key
  ctrl : s'.desk.keyboard.ctrlFlag = false
  alt : s'.desk.keyboard.altFlag = false
  tidy : s'.editor.Tidy

/-- What is to be shown of a key: the line is still delivered if and only if the key keeps it, and then
    the line buffer is in order again. -/
def Tracked (s : Typist) (key : UInt8) (s' : Typist) : Prop :=
  (Delivers s' ↔ KeepsLine s key) ∧ (Delivers s' → ∃ m, Holds s' m)

variable {s' : Typist} {m : Nat}

theorem Holds.after (h : Holds s m) (hkey : noModifier key) (hnext : s.next key = some s') :
    After s key s' := by
  obtain rfl := Option.some.inj hnext
  have hedits := @keystroke_editor s.desk key (fun _ => h.ctrl) (fun _ => h.alt)
  have heditor : (⟨s.desk.keystroke key, typedLine s.line s.editor.mode key⟩ : Typist).editor
      = s.editor.press key := by
    simp only [Typist.editor, hedits.currTerminal]
    exact hedits.editor
  refine ⟨heditor, rfl, keystroke_ctrl h.ctrl hkey.1, ?_, ?_⟩
  · simp [keystroke_keyboard, keyboardHandler_flags, h.alt, hkey.2]
  · rw [heditor]
    exact h.tidy.press key

theorem After.tracked (ha : After s key s') (hline : s'.editor.line = s'.line ++ List.replicate m 0)
    (hchars : ∀ c ∈ s'.line, c ≠ 0) (hkeeps : KeepsLine s key) : Tracked s key s' := by
  have hholds : Holds s' m := ⟨ha.ctrl, ha.alt, ha.tidy, hline, hchars⟩
  exact ⟨iff_of_true hholds.delivers hkeeps, fun _ => ⟨m, hholds⟩⟩

theorem After.broken (ha : After s key s') (hne : s'.editor.line.takeWhile (· != 0) ≠ s'.line)
    (hbreaks : ¬ KeepsLine s key) : Tracked s key s' := by
  have hnot : ¬ Delivers s' := by rwa [delivers_iff_line ha.ctrl ha.tidy]
  exact ⟨iff_of_false hnot hbreaks, fun hd => absurd hd hnot⟩

/-- A key that neither types nor erases. -/
theorem Holds.neutral (h : Holds s m) (ha : After s key s') (hplain : keyKind key ≠ .plain)
    (hback : keyKind key ≠ .backspace) (hbuffer : s'.editor.line = s.editor.line)
    (hline : s'.line = s.line) : Tracked s key s' := by
  refine ha.tracked (m := m) (by rw [hbuffer, hline]; exact h.line) (by rw [hline]; exact h.chars)
    fun _ => ?_
  exact ⟨fun hkind => absurd hkind hplain, fun hkind => absurd hkind hback⟩

theorem Holds.backspace (h : Holds s m) (ha : After s key s') (hkind : keyKind key = .backspace) :
    Tracked s key s' := by
  have hline := ha.line
  have heditor := ha.editor
  simp only [Editor.press, typedLine, hkind] at heditor hline
  have hbuffer : s'.editor.line = (s.line ++ List.replicate m 0).dropLast := by
    rw [heditor, Editor.line_erase, h.line]
  cases m with
  | zero =>
      refine ha.tracked (m := 0) ?_ (fun c hc => ?_) fun hends => ?_
      · rw [hbuffer, hline, List.replicate_zero, List.append_nil, List.append_nil]
      · rw [hline] at hc
        exact h.chars c (List.mem_of_mem_dropLast hc)
      · exact absurd (h.ends_nul.1 hends) (by omega)
  | succ n =>
      -- the last NUL goes, and the last character of the typed line
      rw [List.replicate_succ', ← List.append_assoc, List.dropLast_concat] at hbuffer
      by_cases hnil : s.line = []
      · rw [hnil, List.dropLast_nil] at hline
        refine ha.tracked (by rw [hbuffer, hline, hnil]) (by simp [hline]) fun _ => ?_
        exact ⟨fun h => by simp [hkind] at h, fun _ => (h.starts_nul (by omega)).2 hnil⟩
      · refine ha.broken ?_ fun hkeeps => ?_
        · rw [hbuffer, takeWhile_nul h.chars, hline]
          intro heq
          have hlen := congrArg List.length heq
          have hpos := List.length_pos_of_ne_nil hnil
          rw [List.length_dropLast] at hlen
          omega
        · exact hnil ((h.starts_nul (by omega)).1 ((hkeeps (h.ends_nul.2 (by omega))).2 hkind))

theorem Holds.plain (h : Holds s m) (ha : After s key s') (hkind : keyKind key = .plain) :
    Tracked s key s' := by
  have hline := ha.line
  have heditor := ha.editor
  simp only [Editor.press, typedLine, hkind] at heditor hline
  have hindex := h.index
  have hle := h.tidy.index_le
  have hbuffer : s'.editor.line = if s.editor.index < 127
      then s.line ++ List.replicate m 0 ++ [kbdAsciiKeyMap s.editor.mode key]
      else s.line ++ List.replicate m 0 := by
    rw [heditor, Editor.line_typeChar, h.line]
  by_cases hc : kbdAsciiKeyMap s.editor.mode key = 0
  · rw [if_pos (Or.inl hc)] at hline
    have hkeeps : KeepsLine s key := fun _ => ⟨fun _ => hc, fun hb => by simp [hkind] at hb⟩
    have hchars : ∀ c ∈ s'.line, c ≠ 0 := by
      rw [hline]
      exact h.chars
    rw [hc] at hbuffer
    by_cases hroom : s.editor.index < 127
    · rw [if_pos hroom, List.append_assoc, ← List.replicate_succ'] at hbuffer
      exact ha.tracked (by rw [hbuffer, hline]) hchars hkeeps
    · rw [if_neg hroom] at hbuffer
      exact ha.tracked (by rw [hbuffer, hline]) hchars hkeeps
  · cases m with
    | zero =>
        have hkeeps : KeepsLine s key := fun hends => absurd (h.ends_nul.1 hends) (by omega)
        rw [List.replicate_zero, List.append_nil] at hbuffer
        by_cases hroom : s.editor.index < 127
        · rw [if_neg (by rintro (h0 | h127); exacts [hc h0, by omega])] at hline
          rw [if_pos hroom] at hbuffer
          refine ha.tracked (m := 0) (by rw [hbuffer, hline, List.replicate_zero, List.append_nil])
            (fun c hmem => ?_) hkeeps
          rw [hline] at hmem
          rcases List.mem_append.1 hmem with hold | hnew
          · exact h.chars c hold
          · rw [List.mem_singleton.1 hnew]
            exact hc
        · rw [if_pos (Or.inr (by omega))] at hline
          rw [if_neg hroom] at hbuffer
          exact ha.tracked (m := 0) (by rw [hbuffer, hline, List.replicate_zero, List.append_nil])
            (by rw [hline]; exact h.chars) hkeeps
    | succ n =>
        -- the character lands behind the NULs
        rw [if_neg (by rintro (h0 | h127); exacts [hc h0, by omega])] at hline
        refine ha.broken ?_ fun hkeeps => hc ((hkeeps (h.ends_nul.2 (by omega))).1 hkind)
        have hseen : s'.editor.line.takeWhile (· != 0) = s.line := by
          rw [hbuffer]
          split_ifs
          · rw [List.takeWhile_append, takeWhile_nul h.chars, if_neg (by simp)]
          · exact takeWhile_nul h.chars _
        rw [hseen, hline]
        intro heq
        have hlen := congrArg List.length heq
        simp at hlen

theorem Holds.step (h : Holds s m) (hkey : noModifier key) (hnext : s.next key = some s') :
    Tracked s key s' := by
  have ha := h.after hkey hnext
  have hline := ha.line
  have heditor := ha.editor
  cases hkind : keyKind key with
  | backspace => exact h.backspace ha hkind
  | plain => exact h.plain ha hkind
  | enter =>
      simp only [Editor.press, typedLine, hkind] at heditor hline
      refine ha.tracked (m := 0) (by rw [heditor, hline]; rfl) (by simp [hline]) fun _ => ?_
      simp [hkind]
  | caps =>
      simp only [Editor.press, typedLine, hkind] at heditor hline
      exact h.neutral ha (by simp [hkind]) (by simp [hkind]) (by rw [heditor]; rfl) hline
  | shift type =>
      simp only [Editor.press, typedLine, hkind] at heditor hline
      exact h.neutral ha (by simp [hkind]) (by simp [hkind]) (by rw [heditor]; rfl) hline
  | _ =>
      simp only [Editor.press, typedLine, hkind] at heditor hline
      exact h.neutral ha (by simp [hkind]) (by simp [hkind]) (by rw [heditor]) hline

/-! ## Key sequences -/

/-- With an empty line and neither Ctrl nor Alt in play: whenever Enter is pressed it saves the line as
    it was typed if and only if every key keeps the line. -/
theorem delivers_iff (d : Desk) (hctrl : d.keyboard.ctrlFlag = false)
    (halt : d.keyboard.altFlag = false) (htidy : (d.editor d.currTerminal).Tidy)
    (hempty : d.keyboard.bufferIndex d.currTerminal = 0) (keys : List UInt8)
    (hkeys : ∀ key ∈ keys, noModifier key) :
    Runs.AllStates Typist.next Delivers ⟨d, []⟩ keys ↔
      Runs.AllSteps Typist.next KeepsLine ⟨d, []⟩ keys := by
  have hholds : Holds ⟨d, []⟩ 0 := by
    refine ⟨hctrl, halt, htidy, ?_, by simp⟩
    simp [Editor.line, Typist.editor, Desk.editor, hempty]
  have hlabels : Runs.AllSteps Typist.next (fun _ key => noModifier key) ⟨d, []⟩ keys :=
    Runs.allSteps_of_labels hkeys _
  obtain ⟨s', hrun, -⟩ := @Runs.run_isSome Typist UInt8 Typist.next _ (fun _ => True)
    (fun s key _ _ => ⟨_, rfl, trivial⟩) _ _ trivial hlabels
  refine Runs.allStates_iff_allSteps (I := fun s => ∃ m, Holds s m) ?_ ⟨0, hholds⟩ hholds.delivers
    hlabels hrun
  rintro s key s' ⟨m, h⟩ - hkey hnext
  exact h.step hkey hnext

/-- `a`, Tab, Tab, Enter, `b`: the Tabs are at the end of their line. -/
theorem delivers_iff_tab :
    Runs.AllStates Typist.next Delivers ⟨idleDesk, []⟩ [0x1E, 0x0F, 0x0F, 0x1C, 0x30] := by
  refine (delivers_iff idleDesk rfl rfl (idleDesk_tidy 0) rfl _ (by simp [noModifier, keyKind])).2 ?_
  refine (Runs.allSteps_cons rfl).2 ⟨fun h => absurd h (by decide), ?_⟩
  refine (Runs.allSteps_cons rfl).2 ⟨fun h => absurd h (by decide), ?_⟩
  refine (Runs.allSteps_cons rfl).2 ⟨fun _ => ⟨by decide, by decide⟩, ?_⟩
  refine (Runs.allSteps_cons rfl).2 ⟨fun _ => ⟨by decide, by decide⟩, ?_⟩
  exact (Runs.allSteps_cons rfl).2 ⟨fun h => absurd h (by decide), trivial⟩

/-- `a`, Tab, `b`, Enter saves `a`. -/
theorem delivers_not_typed : ¬ ∀ (d : Desk) (keys : List UInt8), d.keyboard.ctrlFlag = false →
    d.keyboard.altFlag = false → (d.editor d.currTerminal).Tidy →
    d.keyboard.bufferIndex d.currTerminal = 0 → (∀ key ∈ keys, noModifier key) →
    Runs.AllStates Typist.next Delivers ⟨d, []⟩ keys := by
  intro hall
  have h := (hall idleDesk [0x1E, 0x0F, 0x30] rfl rfl (idleDesk_tidy 0) rfl
    (by simp [noModifier, keyKind])).2 _ rfl
  have hlast : Delivers _ := (h.2 _ rfl).2 _ rfl
  revert hlast
  decide

end BaseOs
