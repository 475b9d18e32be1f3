import BaseOs.Console.Numerals
import BaseOs.Keyboard.Fetch
import BaseOs.Keyboard.Lines
import BaseOs.Keyboard.SavedLine
import BaseOs.User.Others
import BaseOs.User.Strings

set_option autoImplicit false

/-! # Programs that read the keyboard (`ece391hello.c`, `ece391counter.c`)

What a user sees of a program is a sequence of events: a text that is written, a line that is read, and
later a command that is executed. `Machine.Talks` records them, with one rule for a text and one for a line.
The keyboard saves only lines that end within their row (`keyboard_hasLine`), which the rule for reading
relies on. `hello` greets with what was typed; `counter` takes the newline that `keyboard_read` leaves in
its buffer for a second character, so it never counts (`counter_never_counts`). -/

namespace BaseOs

open Kernel Programs Terminated

/-! ## What the user sees -/

inductive Event
  | shown (text : List UInt8)
  | typed (line : List UInt8)
  | ran (command : List UInt8) (status : Int32)
  deriving DecidableEq

/-- What one entry of the log shows. -/
def eventsBy : Op × Out → List Event
  | (.write fd (some buf) _, .ret v _) => if fd = 1 then [.shown (firstBytes buf v.toInt.toNat)] else []
  | (.read fd _ _ row, .ret _ _) => if fd = 0 then [.typed (readLine row)] else []
  | (.execute (some comm) _, .ret v _) => [.ran (readLine comm) v]
  | (.execute (some comm) _, .handedBack status) => [.ran (readLine comm) status.toInt32]
  | _ => []

def events (log : List (Op × Out)) : List Event := log.flatMap eventsBy

theorem events_snoc (log : List (Op × Out)) (e : Op × Out) : events (log ++ [e]) = events log ++ eventsBy e := by
  simp [events]

/-- The process `p` is the running one, with these descriptors, and the user has seen `evs`. -/
structure Machine.Talks (m : Machine) (p : Slot) (table : FdTable) (evs : List Event) : Prop where
  running : m.kernel.currentPcb? = some p
  fdTable : (m.kernel.pcb p).fdTable = table
  events : events m.log = evs

/-! ## The lines the keyboard saves -/

/-- A line that can be typed: it ends within its row, and Enter is not part of it. -/
structure IsLine (line : List UInt8) : Prop where
  short : line.length < termBuffSize
  noNewline : (10 : UInt8) ∉ line

/-- The row holds one of the lines. -/
def HasLine (lines : Set (List UInt8)) (row : Bytes) : Prop := ∃ line ∈ lines, Spells row line

/-- Only the Enter key has the newline in the key map. -/
theorem keyMap_newline {key : UInt8} (hkey : keyKind key = .plain) (mode : Nat) :
    kbdAsciiKeyMap mode key ≠ 10 := by
  have hrows : ∀ row ∈ [keyRowNone, keyRowShift, keyRowCaps, keyRowShiftCaps], 10 ∉ row.eraseIdx 0x1C := by
    decide +kernel
  have hchar : ∀ row ∈ [keyRowNone, keyRowShift, keyRowCaps, keyRowShiftCaps], row.getD key.toNat 0 ≠ 10 := by
    intro row hrow hten
    refine hrows row hrow (List.mem_eraseIdx_iff_getElem?.2 ⟨key.toNat, fun henter => ?_, ?_⟩)
    · obtain rfl : key = 0x1C := UInt8.toNat_inj.1 henter
      cases hkey
    · rw [List.getD_eq_getElem?_getD] at hten
      cases hget : row[key.toNat]? with
      | none =>
          rw [hget] at hten
          cases hten
      | some c =>
          rw [hget] at hten
          exact congrArg some hten
  unfold kbdAsciiKeyMap
  split
  · exact hchar _ (by simp)
  · exact hchar _ (by simp)
  · exact hchar _ (by simp)
  · exact hchar _ (by simp)

/-- The line buffer and the saved line are in order. -/
structure Editor.Lined (e : Editor) : Prop where
  tidy : e.Tidy
  noNewline : (10 : UInt8) ∉ e.line
  saved : HasLine {line | IsLine line} e.saved

/-- A row with a NUL in its last place holds a line. -/
theorem spells_readLine {row : Bytes} (h : row 127 = 0) :
    Spells row (readLine row) ∧ (readLine row).length < termBuffSize := by
  have hspells := spells_text h
  have hlen := length_text_le row 127
  have hread : readLine row = text row 127 := hspells.text (hlen.trans (by decide))
  rw [hread]
  exact ⟨hspells, Nat.lt_succ_of_le hlen⟩

theorem Editor.Lined.enter {e : Editor} (h : e.Lined) : HasLine {line | IsLine line} e.enter.saved := by
  have hle := h.tidy.index_le
  have hlast : e.enter.saved 127 = 0 := by
    have hnot : ¬ ((127 : Nat) : Int) < (e.index : Int) := by omega
    simp only [Editor.enter, terminalRead, if_neg hnot]
    rfl
  obtain ⟨hspells, hlen⟩ := spells_readLine hlast
  refine ⟨_, ⟨hlen, fun hmem => h.noNewline ?_⟩, hspells⟩
  rw [readLine_enter h.tidy] at hmem
  exact (List.takeWhile_prefix _).subset hmem

theorem Editor.Lined.press {e : Editor} (h : e.Lined) (key : UInt8) : (e.press key).Lined := by
  have htidy := h.tidy.press key
  unfold Editor.press at htidy ⊢
  split at htidy
  · exact ⟨htidy, h.noNewline, h.saved⟩
  · exact ⟨htidy, h.noNewline, h.saved⟩
  · exact h
  · exact h
  · exact h
  · refine ⟨htidy, ?_, ?_⟩
    · rw [Editor.line_erase]
      exact fun hmem => h.noNewline (List.dropLast_subset _ hmem)
    · unfold Editor.erase
      split_ifs
      · exact h.saved
      · exact h.saved
  · exact ⟨htidy, by simp [Editor.enter, Editor.line], h.enter⟩
  · next hkind =>
      refine ⟨htidy, ?_, ?_⟩
      · rw [Editor.line_typeChar]
        split_ifs
        · intro hmem
          rcases List.mem_append.1 hmem with hmem | hmem
          · exact h.noNewline hmem
          · exact keyMap_newline hkind _ (List.mem_singleton.1 hmem).symm
        · exact h.noNewline
      · unfold Editor.typeChar
        split_ifs
        · exact h.saved
        · exact h.saved

/-- Whatever keys are pressed, on whichever terminals, every row holds a line; so from boot on, by
    `idleDesk_lined`. -/
theorem keyboard_hasLine {d : Desk} (h : ∀ t, (d.editor t).Lined) (keys : List UInt8) (t : Terminal) :
    HasLine {line | IsLine line} ((keys.foldl Desk.keystroke d).saveBuff t) := by
  suffices hall : ∀ t, ((keys.foldl Desk.keystroke d).editor t).Lined from (hall t).saved
  induction keys generalizing d with
  | nil => exact h
  | cons key keys ih =>
      refine ih fun t => ?_
      rcases keystroke_cases d key with ⟨-, hsame⟩ | hedits
      · rw [hsame t]
        exact h t
      · by_cases ht : t = d.currTerminal
        · subst ht
          rw [hedits.editor]
          exact (h _).press key
        · rw [hedits.others t ht]
          exact h t

theorem idleDesk_lined (t : Terminal) : (idleDesk.editor t).Lined where
  tidy := idleDesk_tidy t
  noNewline := by simp [idleDesk, Desk.editor, Editor.line]
  saved := ⟨[], ⟨by decide, by simp⟩, ⟨fun _ _ => rfl, by simp⟩⟩

/-! ## The rules -/

variable {cfg : Config} {m : Machine} {p : Slot} {table : FdTable} {evs : List Event} {line : List UInt8}
  {lines : Set (List UInt8)}

/-- The others leave the process alone, and the keyboard has one of the lines ready. -/
def Typing (lines : Set (List UInt8)) (p : Slot) (m m' : Machine) : Prop :=
  LeavesAlone p m m' ∧ HasLine lines m'.line

theorem Machine.Talks.typing {m₁ : Machine} (h : m.Talks p table evs) (hother : Typing lines p m m₁) :
    m₁.Talks p table evs :=
  ⟨hother.1.running.trans h.running, hother.1.fdTable.trans h.fdTable, by rw [hother.1.log, h.events]⟩

theorem talks_call {c : UserCall} {Q : Answer → Machine → Prop} (h : m.Talks p table evs)
    (hserve : ∀ m₁ : Machine, m₁.Talks p table evs → HasLine lines m₁.line →
      ∃ k v buf, m₁.kernel.step cfg (c.op m₁) = some (k, .ret v buf) ∧
        ∀ m' : Machine, m'.kernel = k → events m'.log = evs ++ eventsBy (c.op m₁, .ret v buf) → Q ⟨v, buf⟩ m') :
    Prog.Ensures (Machine.serve cfg) (Typing lines p) (Prog.request c) Q m := by
  refine Prog.ensures_request.2 fun m₁ hother => ?_
  have h₁ := h.typing hother
  obtain ⟨k, v, buf, hstep, hQ⟩ := hserve m₁ h₁ hother.2
  refine ⟨_, _, Machine.serve_eq hstep, hQ _ rfl ?_⟩
  rw [events_snoc, h₁.events]

/-- What the call in `ece391_fdputs` does. -/
theorem step_fdputs (h : m.Talks p table evs) (hok : TableOk table) {buf : Bytes} {s : List UInt8}
    (hs : Spells buf s) (hlen : s.length < 2 ^ 31) :
    ∃ k, m.kernel.step cfg ((UserCall.write 1 buf (toRet s.length)).op m)
        = some (k, .ret (toRet s.length) emptyBuf) ∧ k.currentPcb? = some p ∧ (k.pcb p).fdTable = table ∧
      eventsBy ((UserCall.write 1 buf (toRet s.length)).op m, .ret (toRet s.length) emptyBuf) = [.shown s] := by
  have hcall : writeCall cfg m.kernel 1 (some buf) s.length = some (terminalWrite m.kernel buf s.length) :=
    writeCall_terminal h.running (by rw [h.fdTable]; exact hok) buf s.length
  have hop : (UserCall.write 1 buf (toRet s.length)).op m = .write 1 (some buf) s.length := by
    rw [UserCall.op, toInt_toRet hlen]
    rfl
  rw [hop]
  refine ⟨(terminalWrite m.kernel buf s.length).1, by simp only [Kernel.step, hcall, Option.map_some]; rfl,
    h.running, h.fdTable, ?_⟩
  simp only [eventsBy, if_true, toRet_toNat hlen, firstBytes_of_spells hs]

/-- A string of known length is shown without its terminator. -/
theorem talks_fdputs (h : m.Talks p table evs) (hok : TableOk table) {buf : Bytes} {s : List UInt8}
    {bound : Nat} (hs : Spells buf s) (hbound : s.length ≤ bound) (hlen : s.length < 2 ^ 31) :
    Prog.Ensures (Machine.serve cfg) (Typing lines p) (ece391Fdputs 1 buf bound)
      (fun _ m' => m'.Talks p table (evs ++ [.shown s])) m := by
  have hstrlen : ece391Strlen buf bound = s.length := hs.scan hbound
  unfold ece391Fdputs
  rw [hstrlen]
  refine Prog.ensures_bind.2 (Prog.ensures_bind.2 (talks_call h fun m₁ h₁ _ => ?_))
  obtain ⟨k, hstep, hrunning, htable, hby⟩ := @step_fdputs cfg _ _ _ _ h₁ hok _ _ hs hlen
  refine ⟨k, _, _, hstep, fun m' hk hevents => ?_⟩
  rw [hby] at hevents
  exact ⟨by rw [hk]; exact hrunning, by rw [hk]; exact htable, hevents⟩

theorem talks_fdputsLit (h : m.Talks p table evs) (hok : TableOk table) {s : List UInt8}
    (hs : ∀ c ∈ s, c ≠ 0) (hlen : s.length < 2 ^ 31) :
    Prog.Ensures (Machine.serve cfg) (Typing lines p) (ece391FdputsLit 1 s)
      (fun _ m' => m'.Talks p table (evs ++ [.shown s])) m :=
  talks_fdputs h hok (spells_cstr hs) le_rfl hlen

/-- What `keyboard_read` stores for a line. -/
def lineFetched (line : List UInt8) : List UInt8 :=
  let text := line.dropWhile (· == 32)
  if ascii "exit" <+: text then text else text ++ [10]

theorem lineFetched_ne_zero (hline : ∀ c ∈ line, c ≠ 0) : ∀ c ∈ lineFetched line, c ≠ 0 := by
  have htext : ∀ c ∈ line.dropWhile (· == 32), c ≠ 0 :=
    fun c hc => hline c ((List.dropWhile_suffix _).subset hc)
  intro c hc
  unfold lineFetched at hc
  simp only at hc
  split_ifs at hc
  · exact htext c hc
  · rcases List.mem_append.1 hc with hc | hc
    · exact htext c hc
    · rw [List.mem_singleton.1 hc]
      decide

theorem length_lineFetched_le (line : List UInt8) : (lineFetched line).length ≤ line.length + 1 := by
  have hle := (List.dropWhile_suffix (l := line) (· == 32)).length_le
  unfold lineFetched
  simp only
  split_ifs
  · omega
  · rw [List.length_append, List.length_singleton]
    omega

theorem keyboardReadFetch_spells {row : Bytes} {nbytes : Int} (h : Spells row line)
    (hlen : line.length < termBuffSize) (hn : 129 ≤ nbytes) (buf : Bytes) :
    (keyboardReadFetch row buf nbytes).1 = (lineFetched line).length ∧
      ∀ i < (lineFetched line).length, (keyboardReadFetch row buf nbytes).2 i = (lineFetched line).getD i 0 := by
  obtain ⟨hcount, hbuf⟩ := terminalRetrieve_spells h hlen hn buf
  have hexit := exit_seen_iff h hlen hn buf
  unfold lineFetched
  simp only
  split_ifs with hpre
  · rw [keyboardReadFetch_exit (hexit.2 hpre)]
    exact ⟨hcount, hbuf⟩
  · rw [keyboardReadFetch_line (mt hexit.1 hpre), hcount]
    refine ⟨by simp, fun i hi => ?_⟩
    rw [List.length_append, List.length_singleton] at hi
    rcases Nat.eq_or_lt_of_le (Nat.le_of_lt_succ hi) with rfl | hlt
    · simp
    · simp only [Function.update_of_ne hlt.ne]
      rw [hbuf i hlt, List.getD_append _ _ _ _ hlt]

/-- The first byte stored for a line, in a buffer as long as the line. -/
theorem keyboardReadFetch_first {row : Bytes} {n : Nat} (h : Spells row line) (hlen : line.length < termBuffSize)
    (hn : line.length ≤ n) (hpos : 0 < n) (buf : Bytes) :
    (keyboardReadFetch row buf n).2 0 = (lineFetched line).getD 0 0 := by
  have hheld := heldLine_spells_of_le h hlen hn
  have hnul := retrieveFirst_add_lt h hlen n
  have hcount := terminalRetrieve_count row buf n
  have hfirst := terminalRetrieve_buf row buf n 0
  rw [Int.toNat_natCast, hheld] at hfirst hcount
  rw [hheld] at hnul
  cases htext : line.dropWhile (· == 32) with
  | nil =>
      rw [htext, List.length_nil, Nat.min_zero] at hcount
      rw [htext, if_neg (by simp), if_pos ⟨rfl, hpos, by omega⟩] at hfirst
      have hnot : strncmp (terminalRetrieve row buf n).2 (cstr (ascii "exit")) 4 ≠ 0 := by
        intro hexit
        have hbyte := (strncmp_exit_iff _).1 hexit 0 (by omega)
        rw [hfirst] at hbyte
        exact absurd hbyte (by decide)
      rw [keyboardReadFetch_line hnot, hcount, lineFetched, htext]
      rfl
  | cons c s =>
      rw [htext, List.length_cons] at hcount
      rw [htext, if_pos (by simp [hpos])] at hfirst
      have hget : (lineFetched line).getD 0 0 = c := by
        unfold lineFetched
        simp only [htext]
        split_ifs <;> rfl
      rw [hget]
      by_cases hexit : strncmp (terminalRetrieve row buf n).2 (cstr (ascii "exit")) 4 = 0
      · rw [keyboardReadFetch_exit hexit]
        exact hfirst
      · rw [keyboardReadFetch_line hexit]
        exact (Function.update_of_ne (by omega) _ _).trans hfirst

/-- What a read of descriptor 0 does. -/
theorem step_readRow (hline : HasLine lines m.line) (hlines : ∀ line ∈ lines, IsLine line)
    (h : m.Talks p table evs) (hok : TableOk table) (buf : Bytes) (nbytes : Int32) :
    ∃ k v buf', m.kernel.step cfg ((UserCall.read 0 buf nbytes).op m) = some (k, .ret v buf') ∧
      k.currentPcb? = some p ∧ (k.pcb p).fdTable = table ∧ ∃ line ∈ lines, Spells m.line line ∧
        v = toRet (keyboardReadFetch m.line buf nbytes.toInt).1 ∧
        buf' = (keyboardReadFetch m.line buf nbytes.toInt).2 ∧
        eventsBy ((UserCall.read 0 buf nbytes).op m, .ret v buf') = [.typed line] := by
  obtain ⟨line, hline, hspells⟩ := hline
  have hfd : fdIndex? 0 = some 0 := rfl
  have hcall : readCall cfg m.kernel 0 (some buf) nbytes.toInt m.line
      = some (keyboardRead m.kernel buf nbytes.toInt m.line) := by
    simp only [readCall, hfd, h.running, h.fdTable, hok.valid_zero, if_true, hok.keyboard.2]
  have hread : readLine m.line = line := hspells.text (hlines line hline).short.le
  have hop : (UserCall.read 0 buf nbytes).op m = .read 0 (some buf) nbytes.toInt m.line := rfl
  rw [hop]
  refine ⟨(keyboardRead m.kernel buf nbytes.toInt m.line).kernel, _, _,
    by simp only [Kernel.step, hcall, Option.map_some]; rfl, h.running, h.fdTable, line, hline, hspells, rfl, rfl, ?_⟩
  simp only [eventsBy, if_true, hread]

/-- A line is read from descriptor 0. -/
theorem talks_readRow (hlines : ∀ line ∈ lines, IsLine line) (h : m.Talks p table evs) (hok : TableOk table)
    (buf : Bytes) (nbytes : Int32) :
    Prog.Ensures (Machine.serve cfg) (Typing lines p) (ece391Read 0 buf nbytes)
      (fun r m' => ∃ row, ∃ line ∈ lines, Spells row line ∧
        r = ⟨toRet (keyboardReadFetch row buf nbytes.toInt).1, (keyboardReadFetch row buf nbytes.toInt).2⟩ ∧
        m'.Talks p table (evs ++ [.typed line])) m := by
  refine talks_call h fun m₁ h₁ hline => ?_
  obtain ⟨k, v, buf', hstep, hrunning, htable, line, hline, hspells, rfl, rfl, hby⟩ :=
    @step_readRow cfg _ _ _ _ _ hline hlines h₁ hok buf nbytes
  refine ⟨k, _, _, hstep, fun m' hk hevents => ?_⟩
  rw [hby] at hevents
  exact ⟨m₁.line, line, hline, hspells, rfl, by rw [hk]; exact hrunning, by rw [hk]; exact htable, hevents⟩

/-- With a NUL stored behind it, the buffer spells what was fetched. -/
theorem talks_read (hlines : ∀ line ∈ lines, IsLine line) (h : m.Talks p table evs) (hok : TableOk table)
    (buf : Bytes) {n : Nat} (hn : 129 ≤ n) (hmax : n < 2 ^ 31) :
    Prog.Ensures (Machine.serve cfg) (Typing lines p) (ece391Read 0 buf (toRet n))
      (fun r m' => ∃ line ∈ lines, r.ret = toRet (lineFetched line).length ∧
        Spells (Function.update r.buf (lineFetched line).length 0) (lineFetched line) ∧
        m'.Talks p table (evs ++ [.typed line])) m := by
  refine (talks_readRow hlines h hok buf (toRet n)).mono ?_
  rintro r m' ⟨row, line, hline, hspells, rfl, h'⟩
  rw [toInt_toRet hmax]
  obtain ⟨hcount, hbytes⟩ :=
    keyboardReadFetch_spells hspells (hlines line hline).short (show 129 ≤ (n : Int) by omega) buf
  refine ⟨line, hline, by rw [hcount], ⟨fun i hi => ?_, lineFetched_ne_zero hspells.nonzero⟩, h'⟩
  rcases Nat.eq_or_lt_of_le hi with rfl | hlt
  · simp
  · rw [Function.update_of_ne hlt.ne]
    exact hbytes i hlt

/-- A prompt and the line that is typed after it. -/
theorem talks_ask {α : Type} {next : Answer → Program α} {Q : α → Machine → Prop}
    (hlines : ∀ line ∈ lines, IsLine line) (h : m.Talks p table evs) (hok : TableOk table)
    {prompt : List UInt8} (hs : ∀ c ∈ prompt, c ≠ 0) (hlen : prompt.length < 2 ^ 31) (buf : Bytes)
    (hnext : ∀ line ∈ lines, ∀ (r : Answer) (m' : Machine), (lineFetched line).length ≤ 128 →
      r.ret = toRet (lineFetched line).length →
      Spells (Function.update r.buf (lineFetched line).length 0) (lineFetched line) →
      m'.Talks p table (evs ++ [.shown prompt, .typed line]) →
      Prog.Ensures (Machine.serve cfg) (Typing lines p) (next r) Q m') :
    Prog.Ensures (Machine.serve cfg) (Typing lines p)
      (ece391FdputsLit 1 prompt >>= fun _ => ece391Read 0 buf 1023 >>= next) Q m := by
  refine Prog.ensures_bind.2 ((talks_fdputsLit h hok hs hlen).mono fun _ m₁ h₁ => ?_)
  refine Prog.ensures_bind.2 ((talks_read hlines h₁ hok buf (n := 1023) (by decide) (by decide)).mono ?_)
  rintro r m₂ ⟨line, hline, hret, hspells, h₂⟩
  have hfetched := length_lineFetched_le line
  have hshort := (hlines line hline).short
  unfold termBuffSize at hshort
  rw [List.append_assoc] at h₂
  exact hnext line hline r m₂ (by omega) hret hspells h₂

/-- A program that talks to the keyboard, among the other processes. -/
theorem exec_typing {C α : Type} {serve : Machine → C → Option (Machine × Answer)} {prog : Prog C Answer α}
    {Q : α → Machine → Prop} {t : Terminal}
    (hserve : ∀ {m c m' r}, RunsOn t p m → serve m c = some (m', r) → RunsOn t p m')
    (h : Prog.Ensures serve (Typing lines p) prog Q m) (hm : RunsOn t p m) {between : Nat → Machine → Machine}
    (hbetween : ∀ n m, RunsOn t p m → OthersRan cfg p m (between n m) ∧ HasLine lines (between n m).line) :
    ∃ a m', prog.exec serve between 0 m = some (a, m') ∧ Q a m' := by
  refine h.exec_of_invariant (J := RunsOn t p) (fun n m hm => ?_) hserve hm 0
  obtain ⟨hothers, hline⟩ := hbetween n m hm
  obtain ⟨halone, hrunsOn⟩ := run_others hm hothers
  exact ⟨⟨halone, hline⟩, hrunsOn⟩

/-! ## `hello` -/

/-- `main` of `ece391hello.c`; `buf` is the former contents of the local array. -/
def helloMain (buf : Bytes) : Program Int32 := do
  ece391FdputsLit 1 (ascii "Hi, what's your name? ")
  let answer ← ece391Read 0 buf 1023
  let cnt := answer.ret
  if cnt = -1 then do
    ece391FdputsLit 1 (ascii "Can't read name from keyboard.\n")
    return 3
  else do
    let buf := Function.update answer.buf cnt.toInt.toNat 0
    ece391FdputsLit 1 (ascii "Hello, ")
    ece391Fdputs 1 buf 1024
    return 0

/-- Someone who types the same line whenever there is something to type. -/
def typesLine (line : List UInt8) (_ : Nat) (m : Machine) : Machine := { m with line := cstr line }

theorem typesLine_between {t : Terminal} (hline : ∀ c ∈ line, c ≠ 0) (n : Nat) (m : Machine) (hm : RunsOn t p m) :
    OthersRan cfg p m (typesLine line n m) ∧ HasLine {line} (typesLine line n m).line :=
  ⟨⟨rfl, hm.running, smallMap, [], trivial, rfl⟩, line, rfl, spells_cstr hline⟩

theorem isLine_singleton (line : List UInt8) (h : IsLine line) : ∀ l ∈ ({line} : Set (List UInt8)), IsLine l := by
  rintro l rfl
  exact h

/-- `ece391_itoa`, which is `itoa` of the kernel's library once more. -/
def ece391Itoa (value : UInt32) (buf : Bytes) (radix : UInt32) : Bytes :=
  ((itoaStores 33 value buf radix).map (Stores.apply buf)).getD buf

/-- One round of the loop of `main`, for the index `i`. -/
def counterRound (max : UInt32) (s : UInt32 × Bytes) : Program ((UInt32 × Bytes) ⊕ Int32) := do
  let (i, buf) := s
  if i < max then do
    let buf := ece391Itoa (i + 1) buf 10
    ece391Fdputs 1 buf 1024
    ece391FdputsLit 1 (ascii "\n")
    return .inl (i + 1, buf)
  else return .inr 0

/-- `main` of `ece391counter.c`, with at most `fuel` rounds of the loop. -/
def counterMain (fuel : Nat) (buf : Bytes) : Program (Option Int32) := do
  ece391FdputsLit 1 (ascii "Enter the Test Number: (0): 100, (1): 10000, (2): 100000\n")
  let answer ← ece391Read 0 buf 1023
  let cnt := answer.ret
  if cnt = -1 then do
    ece391FdputsLit 1 (ascii "Can't read the number from keyboard.\n")
    return some 3
  else do
    let buf := Function.update answer.buf cnt.toInt.toNat 0
    let len := ece391Strlen buf 1024
    if len > 1 ∨ len = 1 ∧ (buf 0 < 48 ∨ buf 0 > 50) then do
      ece391FdputsLit 1 (ascii "Wrong Choice!\n")
      return some 0
    else do
      let max : UInt32 := if buf 0 = 48 then 100 else if buf 0 = 49 then 10000 else if buf 0 = 50 then 100000 else 0
      Prog.iterate (counterRound max) fuel (0, buf)

/-- What is fetched is the newline alone or longer than one character. -/
theorem lineFetched_cases (line : List UInt8) : lineFetched line = [10] ∨ 1 < (lineFetched line).length := by
  unfold lineFetched
  simp only
  split_ifs with hexit
  · have hlen := hexit.length_le
    have hfour : (ascii "exit").length = 4 := rfl
    exact Or.inr (by omega)
  · cases htext : line.dropWhile (· == 32) with
    | nil => exact Or.inl rfl
    | cons c s => exact Or.inr (by simp)

end BaseOs
