import BaseOs.Lib.Terminated
import BaseOs.Process.Table

set_option autoImplicit false

/-! # The arguments of a process

They are copied three times: `parse_cmd_args` takes them out of the command into the terminal's
`cmd_args`, `execute` copies them into the PCB, and `getargs` hands them to the program. None of the
buffers is clean: behind the terminator there may be anything an earlier process has left. So the copies are
followed as terminated texts (`Terminated.Spells`), and `arguments_survive` says what `getargs` returns,
also after children have run. -/

namespace BaseOs

open Kernel Terminated

variable {cfg : Config} {k k' : Kernel} {comm : Bytes} {loc : Locals} {s : List UInt8}

/-! ## From the command to the PCB -/

/-- What follows the first word of a command and the spaces after it, within the first 128 bytes. -/
def argumentText (comm : Bytes) : List UInt8 :=
  ((text comm termBuffSize).dropWhile (· != 32)).dropWhile (· == 32)

theorem length_argumentText_lt (comm : Bytes) : (argumentText comm).length < termBuffSize := by
  unfold argumentText
  by_cases hnil : text comm termBuffSize = []
  · rw [hnil]
    decide
  · exact (length_dropWhile_dropWhile_lt hnil).trans_le (length_text_le comm termBuffSize)

theorem argumentText_head {c : UInt8} (h : (argumentText comm).head? = some c) : c ≠ 32 := by
  have hnot := List.head?_dropWhile_not (· == 32) ((text comm termBuffSize).dropWhile (· != 32))
  unfold argumentText at h
  rw [h] at hnot
  simpa using hnot

/-- `parse_cmd_args` leaves the arguments in `cmd_args`, whatever was there before. -/
theorem parseCmdArgs_spells (buf row comm : Bytes) :
    Spells (parseCmdArgs buf row comm).2 (argumentText comm) := by
  have htext : argumentText comm
      = ((((List.range termBuffSize).map comm).dropWhile fun c => c != 32 && c != 0).dropWhile
          fun c => c == 32 && c != 0).takeWhile (· != 0) := by
    rw [takeWhile_dropWhile_and, takeWhile_dropWhile_and]
    rfl
  have hcmd := scan_eq_length (fun c : UInt8 => c != 32 && c != 0) comm 0 termBuffSize
  rw [← List.range_eq_range', Nat.zero_add] at hcmd
  have harg := scan_eq_length (fun c : UInt8 => c == 32 && c != 0) comm
  have hend := scan_eq_length (fun c : UInt8 => c != 0) comm
  unfold parseCmdArgs
  simp only [hcmd, harg, hend, ← drop_map_range, drop_length_takeWhile, ← List.drop_drop, Nat.add_sub_cancel_left,
    ← htext]
  -- where the arguments start, and the command from there on
  set start := (((List.range termBuffSize).map comm).takeWhile fun c => c != 32 && c != 0).length
    + ((((List.range termBuffSize).map comm).dropWhile fun c => c != 32 && c != 0).takeWhile
      fun c => c == 32 && c != 0).length with hstart
  have hdrop : argumentText comm
      = (((List.range termBuffSize).map comm).drop start).takeWhile (· != 0) := by
    rw [htext, hstart, ← List.drop_drop, drop_length_takeWhile, drop_length_takeWhile]
  refine ⟨fun i hi => ?_, fun c hc => ?_⟩
  · rcases Nat.eq_or_lt_of_le hi with rfl | hlt
    · simp
    · have hpre : argumentText comm <+: ((List.range termBuffSize).map comm).drop start := by
        rw [hdrop]
        exact List.takeWhile_prefix _
      rw [if_pos hlt, List.getD_eq_getElem _ _ hlt, hpre.getElem hlt]
      simp
  · rw [hdrop] at hc
    simpa using List.mem_takeWhile_imp hc

/-- `strcpy` copies the text and its terminator. -/
theorem strcpy_spells {src : Bytes} {bound : Nat} (h : Spells src s) (hs : s.length < bound)
    (dest : Bytes) : Spells (strcpy dest src bound) s := by
  refine h.congr fun i hi => ?_
  unfold strcpy
  rw [h.scan hs.le]
  split_ifs with hlt heq
  · rfl
  · rw [heq, h.zero]
  · omega

/-! ## From the PCB to the program -/

/-- The backward loop clears blanks at the end, down to some place, and nothing else. -/
theorem trimBlanks_spec (buf : Bytes) (n : Nat) :
    ∃ m ≤ n, (∀ i < m, trimBlanks buf n i = buf i) ∧ (∀ i, n ≤ i → trimBlanks buf n i = buf i) ∧
      ∀ i, m ≤ i → i < n → trimBlanks buf n i = 0 ∧ (buf i = 32 ∨ buf i = 0) := by
  induction n generalizing buf with
  | zero => exact ⟨0, le_rfl, fun _ _ => rfl, fun _ _ => rfl, fun i h1 h2 => absurd h2 (by omega)⟩
  | succ n ih =>
      rw [trimBlanks]
      split_ifs with hblank
      · obtain ⟨m, hm, hbelow, habove, hclear⟩ := ih (Function.update buf n 0)
        refine ⟨m, by omega, fun i hi => ?_, fun i hi => ?_, fun i h1 h2 => ?_⟩
        · rw [hbelow i hi, Function.update_of_ne (by omega)]
        · rw [habove i (by omega), Function.update_of_ne (by omega)]
        · rcases Nat.eq_or_lt_of_le (Nat.le_of_lt_succ h2) with rfl | hlt
          · rw [habove i le_rfl, Function.update_self]
            exact ⟨rfl, hblank⟩
          · have hi := hclear i h1 hlt
            rwa [Function.update_of_ne (by omega)] at hi
      · exact ⟨n + 1, le_rfl, fun _ _ => rfl, fun _ _ => rfl, fun i h1 h2 => absurd h2 (by omega)⟩

/-- Trimming a buffer that holds a text leaves the text but for spaces at its end. -/
theorem trimBlanks_spells {buf : Bytes} {n : Nat} {c : UInt8} (h : Spells buf s) (hs : s.length < n)
    (hc : s.head? = some c) (hspace : c ≠ 32) :
    trimBlanks buf n 0 = c ∧ ∃ s', Spells (trimBlanks buf n) s' ∧ s'.length ≤ s.length ∧
      s'.rdropWhile (· == 32) = s.rdropWhile (· == 32) := by
  obtain ⟨m, hm, hbelow, -, hclear⟩ := trimBlanks_spec buf n
  constructor
  · cases s with
    | nil => cases hc
    | cons a s =>
        obtain rfl : a = c := Option.some.inj hc
        have hfirst : buf 0 = a := h.getElem (Nat.succ_pos _)
        have hpos : 0 < m := by
          by_contra hzero
          have hblank := (hclear 0 (by omega) (by omega)).2
          rw [hfirst] at hblank
          exact hblank.elim hspace (h.nonzero a List.mem_cons_self)
        rw [hbelow 0 hpos, hfirst]
  · rcases Nat.lt_or_ge s.length m with hlt | hge
    · exact ⟨s, h.congr fun i hi => hbelow i (by omega), le_rfl, rfl⟩
    · have hspaces : ∀ c ∈ s.drop m, (c == 32) = true := by
        intro c hc
        obtain ⟨i, hi, rfl⟩ := List.mem_iff_getElem.1 hc
        rw [List.length_drop] at hi
        have hblank := (hclear (m + i) (by omega) (by omega)).2
        rw [h.getElem (show m + i < s.length by omega)] at hblank
        rw [List.getElem_drop]
        simpa [h.nonzero _ (List.getElem_mem _)] using hblank
      refine ⟨s.take m, h.take hge hbelow (hclear m le_rfl (by omega)).1,
        (List.take_prefix m s).length_le, ?_⟩
      rw [← rdropWhile_append_of_all hspaces, List.take_append_drop]

/-- `getargs` with room for any arguments: it returns 0 and hands over the text in the PCB, but for
    spaces at its end. -/
theorem getargs_spells {p : Slot} {c : UInt8} (hp : k.currentPcb? = some p)
    (hargs : Spells (k.pcb p).args s) (hs : s.length < termBuffSize) (hc : s.head? = some c)
    (hspace : c ≠ 32) (buf : Bytes) {nbytes : Int} (hn : 129 ≤ nbytes) (hmax : nbytes < 2 ^ 31) :
    ∃ r s', getargs k (some buf) nbytes = some r ∧ r.ret = 0 ∧ Spells r.buf s' ∧
      s'.length < nbytes.toNat ∧ s'.rdropWhile (· == 32) = s.rdropWhile (· == 32) := by
  have hsize : termBuffSize = 128 := rfl
  have hcopied : Spells (copyArgs (k.pcb p).args buf nbytes.toNat) s := by
    refine hargs.congr fun i hi => ?_
    unfold copyArgs
    rw [if_pos (by omega)]
  obtain ⟨hfirst, s', hs', hlen, htext⟩ :=
    trimBlanks_spells hcopied (show s.length < nbytes.toNat by omega) hc hspace
  have hzero : trimBlanks (copyArgs (k.pcb p).args buf nbytes.toNat) nbytes.toNat 0 ≠ 0 := by
    rw [hfirst]
    exact hargs.nonzero c (List.mem_of_mem_head? hc)
  refine ⟨⟨k, 0, trimBlanks (copyArgs (k.pcb p).args buf nbytes.toNat) nbytes.toNat⟩, s', ?_, rfl,
    hs', by omega, htext⟩
  unfold getargs
  simp only [toU32_toNat (show 0 ≤ nbytes by omega) hmax, hp]
  rw [if_neg (by omega), if_neg (by omega), if_neg hzero]

/-! ## What `execute` puts into a PCB -/

theorem loadProgram_args (cfg : Config) (k : Kernel) (i : Slot) (file : ProgramFile) (loc : Locals)
    (j : Slot) : ((loadProgram cfg k i file loc).kernel.pcb j).args = (k.pcb j).args := by
  unfold loadProgram
  split_ifs
  · simp only
    split
    · rfl
    · split_ifs
      · rfl
      · rfl
      · by_cases hj : j = i
        · subst hj
          simp only [ExecResult.kernel, Function.update_self]
        · simp only [ExecResult.kernel, Function.update_of_ne hj]
  · rfl

theorem setUp_args (k : Kernel) (i : Slot) :
    ((setUp k i).pcb i).args = strcpy (k.pcb i).args (k.cmdArgs k.currTerminal) termBuffSize := by
  simp only [setUp, initProcess, enterProcess, createPcb, reserveSlot, setPcb, Function.update_self]

/-- `execute` copies the arguments of its command over what the slot held before. -/
theorem execute_args_eq {entryPoint : UInt32} {i : Slot} (hi : freeSlot k = some i)
    (h : execute cfg k (some comm) loc = .started k' entryPoint) :
    ∃ row, Spells row (argumentText comm) ∧ (k'.pcb i).args = strcpy (k.pcb i).args row termBuffSize := by
  rw [execute_some] at h
  split at h
  · cases h
  · next file _ =>
      simp only [hi] at h
      have hargs := loadProgram_args cfg (setUp (withArgs k comm loc) i) i file loc i
      rw [h, setUp_args] at hargs
      refine ⟨_, ?_, hargs⟩
      simp only [withArgs, Function.update_self]
      exact parseCmdArgs_spells _ _ _

/-- A started program has the arguments of its command in its PCB. -/
theorem execute_spells {entryPoint : UInt32} {i : Slot} (hi : freeSlot k = some i)
    (h : execute cfg k (some comm) loc = .started k' entryPoint) :
    Spells (k'.pcb i).args (argumentText comm) := by
  obtain ⟨row, hrow, hargs⟩ := execute_args_eq hi h
  rw [hargs]
  exact strcpy_spells hrow (length_argumentText_lt comm) _

/-! ## What happens to the PCB of another process -/

section Others
variable {stack : Terminal → List Slot} {t : Terminal} {p q : Slot} {out : Out}

theorem pcb_setFdTable_of_ne (hne : p ≠ q) (table : FdTable) : (k.setFdTable q table).pcb p = k.pcb p :=
  Function.update_of_ne hne _ _

theorem loadProgram_pcb (hne : p ≠ q) (file : ProgramFile) :
    (loadProgram cfg k q file loc).kernel.pcb p = k.pcb p := by
  unfold loadProgram
  split_ifs
  · simp only
    split
    · rfl
    · split_ifs
      · rfl
      · rfl
      · exact Function.update_of_ne hne _ _
  · rfl

theorem setUp_pcb (hne : p ≠ q) : (setUp k q).pcb p = k.pcb p := by
  simp only [setUp, initProcess, enterProcess, createPcb, reserveSlot, setPcb, Function.update_of_ne hne]

/-- `execute` changes the PCB of a free slot only, however it ends. -/
theorem execute_pcb {comm : Option Bytes} {r : ExecResult} (hbusy : k.inUse p ≠ 0)
    (h : execute cfg k comm loc = r) : r.kernel.pcb p = k.pcb p := by
  subst h
  cases comm with
  | none => rfl
  | some c =>
      rw [execute_some]
      split
      · rfl
      · split
        · rfl
        · next i hi =>
            have hne : p ≠ i := by
              rintro rfl
              exact hbusy (freeSlot_eq_some.1 hi).1
            rw [loadProgram_pcb hne, setUp_pcb hne]
            rfl

/-- A program that is started gets a PCB that no process of a session has. -/
theorem step_execute_pcb {comm : Option Bytes} (hs : Sessions k stack) (hp : p ∈ stack t)
    (h : k.step cfg (.execute comm loc) = some (k', out)) : k'.pcb p = k.pcb p := by
  change (execute cfg k comm loc).toStep = some (k', out) at h
  have hbusy : k.inUse p ≠ 0 := by
    rw [hs.busy t p hp]
    decide
  cases hex : execute cfg k comm loc with
  | failed e k1 =>
      rw [hex] at h
      cases h
      exact execute_pcb hbusy hex
  | started k1 entryPoint =>
      rw [hex] at h
      cases h
      exact execute_pcb hbusy hex
  | fault k1 =>
      rw [hex] at h
      cases h

theorem haltReturn_pcb {status : UInt8} (h : (haltReturn k status).toStep = some (k', out)) :
    k'.pcb p = k.pcb p := by
  unfold haltReturn at h
  simp only at h
  split at h
  · split at h
    · cases h
      rfl
    · cases h
  · cases h

/-- The end of another process, with the base shell that is started again. -/
theorem halt_pcb {status : UInt8} (hs : Sessions k stack) (hp : p ∈ stack t)
    (hother : k.currentPcb? ≠ some p) (h : (halt cfg k status loc).toStep = some (k', out)) :
    k'.pcb p = k.pcb p := by
  obtain ⟨q, rest, hq, -, hpcb⟩ := hs.running
  have hmem : q ∈ stack k.currTerminal := by rw [hq]; exact List.mem_cons_self
  have hne : p ≠ q := by
    rintro rfl
    exact hother hpcb
  have hfreed : (freed k q).pcb p = k.pcb p := pcb_setFdTable_of_ne hne closeAllFd
  rw [halt_eq hpcb (hs.processId hmem)] at h
  split_ifs at h
  · have hbusy : (freed k q).inUse p ≠ 0 := by
      change Function.update k.inUse q 0 p ≠ 0
      rw [Function.update_of_ne hne, hs.busy t p hp]
      decide
    rw [← hfreed]
    cases hex : execute cfg (freed k q) (some shellCommand) loc with
    | started k1 entryPoint =>
        rw [hex] at h
        cases h
        exact execute_pcb hbusy hex
    | fault k1 =>
        rw [hex] at h
        cases h
    | failed e k1 =>
        rw [hex] at h
        exact (haltReturn_pcb h).trans (execute_pcb hbusy hex)
  · exact (haltReturn_pcb h).trans hfreed

theorem switchScreens_pcb (h : switchScreens cfg k = some k') : k'.pcb = k.pcb := by
  obtain ⟨mem, rfl⟩ := switchScreens_eq_some h
  rfl

theorem resumeTerminal_pcb (h : (resumeTerminal k).toStep = some (k', out)) : k'.pcb = k.pcb := by
  obtain ⟨rfl, -⟩ := resumeTerminal_eq_some h
  rfl

theorem switched_pcb (k : Kernel) (q : Slot) (u : Terminal) (esp ebp : Nat) (p : Slot) :
    ∃ esp' ebp', (switched k q u esp ebp).pcb p
      = { k.pcb p with returnEsp := esp', returnEbp := ebp' } := by
  by_cases hp : p = q
  · subst hp
    exact ⟨esp, ebp, Function.update_self ..⟩
  · exact ⟨(k.pcb p).returnEsp, (k.pcb p).returnEbp, Function.update_of_ne hp _ _⟩

/-- A switch saves the stack pointers of the process it takes the terminal from, and no more. -/
theorem terminalSwitch_pcb {newTerminal esp ebp : Nat} (hs : Sessions k stack) (hp : p ∈ stack t)
    (h : (terminalSwitch cfg k newTerminal esp ebp loc).toStep = some (k', out)) :
    ∃ esp' ebp', k'.pcb p = { k.pcb p with returnEsp := esp', returnEbp := ebp' } := by
  rcases terminalSwitch_cases hs h with ⟨rfl, -⟩ | ⟨u, q, k1, -, -, hscreens, hgo⟩
  · exact ⟨(k'.pcb p).returnEsp, (k'.pcb p).returnEbp, rfl⟩
  obtain ⟨esp', ebp', hswitched⟩ := switched_pcb k q u esp ebp p
  have hexchanged : k1.pcb p = { k.pcb p with returnEsp := esp', returnEbp := ebp' } := by
    rw [switchScreens_pcb hscreens, hswitched]
  refine ⟨esp', ebp', ?_⟩
  rcases hgo with ⟨-, hresume⟩ | ⟨-, hbusy, ⟨_, hex, -⟩ | ⟨_, k2, hex, hresume⟩⟩
  · rw [resumeTerminal_pcb hresume, hexchanged]
  · exact (execute_pcb (hbusy t p hp) hex).trans hexchanged
  · rw [resumeTerminal_pcb hresume]
    exact (execute_pcb (hbusy t p hp) hex).trans hexchanged

/-- The PCB of a process is its own while others start and end and the terminals are switched, but for the
    stack pointers that are saved there. -/
theorem step_pcb {op : Op} (hs : Sessions k stack) (hp : p ∈ stack t) (hop : op.isDevice = false)
    (hother : op.endsProcess = true → k.currentPcb? ≠ some p) (h : k.step cfg op = some (k', out)) :
    ∃ esp ebp, k'.pcb p = { k.pcb p with returnEsp := esp, returnEbp := ebp } := by
  cases op with
  | execute comm loc =>
      exact ⟨(k.pcb p).returnEsp, (k.pcb p).returnEbp, step_execute_pcb hs hp h⟩
  | halt status loc =>
      exact ⟨(k.pcb p).returnEsp, (k.pcb p).returnEbp, halt_pcb hs hp (hother rfl) h⟩
  | exception i cr2 loc =>
      change (exceptionHandler cfg k i cr2 loc).toStep = some (k', out) at h
      rw [exceptionHandler_eq] at h
      have hcurrent : (raised k i cr2).currentPcb? = k.currentPcb? := rfl
      have hpcb := halt_pcb (raised_sessions hs i cr2) hp (hcurrent ▸ hother rfl) h
      exact ⟨(k.pcb p).returnEsp, (k.pcb p).returnEbp, hpcb.trans rfl⟩
  | terminalSwitch newTerminal esp ebp loc => exact terminalSwitch_pcb hs hp h
  | _ => cases hop

end Others

theorem setFdTable_args (k : Kernel) (i : Slot) (table : FdTable) (j : Slot) :
    ((k.setFdTable i table).pcb j).args = (k.pcb j).args := by
  by_cases hj : j = i
  · subst hj
    simp only [setFdTable, setPcb, Function.update_self]
  · rw [pcb_setFdTable_of_ne hj]

variable {stack : Terminal → List Slot} {t : Terminal} {p : Slot}

theorem args_offDevices (j : Slot) : OffDevices fun k => (k.pcb j).args where
  setConsole _ _ := rfl
  setFdTable k i table := setFdTable_args k i table j
  rtc _ _ := rfl
  memory _ _ _ := rfl

/-- An operation leaves the arguments of every process of a session, except that it ends the process. -/
theorem step_args {op : Op} {out : Out} (hs : Sessions k stack) (hp : p ∈ stack t)
    (hother : op.endsProcess = true → k.currentPcb? ≠ some p)
    (h : k.step cfg op = some (k', out)) : (k'.pcb p).args = (k.pcb p).args := by
  by_cases hop : op.isDevice = true
  · cases op with
    | read fd buf nbytes line =>
        obtain ⟨r, hr, heq⟩ := Option.map_eq_some_iff.1 h
        cases heq
        exact (args_offDevices p).readCall hr (fun _ _ _ => rfl) (fun _ _ _ => rfl)
    | execute | halt | exception | terminalSwitch => cases hop
    | _ => exact (args_offDevices p).step rfl rfl h
  · obtain ⟨esp, ebp, hpcb⟩ := step_pcb hs hp (Bool.not_eq_true _ ▸ hop) hother h
    rw [hpcb]

/-! ## A process and its children -/

/-- Does the operation start a program for the running one? -/
def launches : Op → Out → Bool
  | .execute .., .entered _ => true
  | _, _ => false

/-- One operation, seen from a process of terminal `t`. The number counts the programs that run on top of
    it, its children and theirs: a program started on the terminal is one more, a program that ends is one
    less, and the end of the process itself is the end of the run. -/
def nested (cfg : Config) (t : Terminal) (s : Kernel × Nat) (op : Op) : Option (Kernel × Nat) :=
  match s.1.step cfg op with
  | none => none
  | some (k, out) =>
    if s.1.currTerminal ≠ t then some (k, s.2)
    else if op.endsProcess then
      match s.2 with
      | 0 => none
      | above + 1 => some (k, above)
    else some (k, if launches op out then s.2 + 1 else s.2)

/-- Every `execute` on the terminal starts its program or fails before it takes a slot. -/
def TidyOn (cfg : Config) (t : Terminal) (s : Kernel × Nat) (op : Op) : Prop :=
  s.1.currTerminal = t → Tidy cfg s.1 op

/-- The process in slot `p` is in the session of terminal `t`, below as many others as are counted, and
    `args` are its arguments. -/
structure Below (t : Terminal) (p : Slot) (args : Bytes) (s : Kernel × Nat) : Prop where
  ends : s.1.ProgramEnds
  args : (s.1.pcb p).args = args
  sessions : ∃ stack above rest, Sessions s.1 stack ∧ stack t = above ++ p :: rest ∧ above.length = s.2

theorem nested_eq_some {s s' : Kernel × Nat} {op : Op} (h : nested cfg t s op = some s') :
    ∃ out, s.1.step cfg op = some (s'.1, out) ∧
      (s.1.currTerminal ≠ t → s'.2 = s.2) ∧
      (s.1.currTerminal = t → op.endsProcess = true → s.2 = s'.2 + 1) ∧
      (s.1.currTerminal = t → op.endsProcess = false →
        s'.2 = if launches op out then s.2 + 1 else s.2) := by
  unfold nested at h
  split at h
  · cases h
  · next k out hstep =>
      refine ⟨out, ?_⟩
      by_cases ht : s.1.currTerminal = t
      · rw [if_neg (not_not.2 ht)] at h
        by_cases hends : op.endsProcess = true
        · rw [if_pos hends] at h
          split at h
          · cases h
          · next above habove =>
              obtain rfl := Option.some.inj h
              exact ⟨hstep, fun hne => absurd ht hne, fun _ _ => habove,
                fun _ hnot => absurd hends (by simp [hnot])⟩
        · rw [if_neg hends] at h
          obtain rfl := Option.some.inj h
          exact ⟨hstep, fun hne => absurd ht hne, fun _ h => absurd h hends, fun _ _ => rfl⟩
      · rw [if_pos ht] at h
        obtain rfl := Option.some.inj h
        exact ⟨hstep, fun _ => rfl, fun heq => absurd heq ht, fun heq => absurd heq ht⟩

theorem Ends.endsProcess {op : Op} {flag : UInt32} {status : UInt8} (h : Ends k op flag status loc) :
    op.endsProcess = true := by
  cases h <;> rfl

/-- A program ends on the terminal only while another one runs on top of the process. -/
theorem nested_ends {s s' : Kernel × Nat} {op : Op} {above : List Slot} (hlen : above.length = s.2)
    (h : nested cfg t s op = some s') (ht : s.1.currTerminal = t) (hop : op.endsProcess = true) :
    ∃ q above', above = q :: above' ∧ above'.length = s'.2 := by
  obtain ⟨out, -, -, hend, -⟩ := nested_eq_some h
  have hcount := hend ht hop
  cases above with
  | nil =>
      rw [List.length_nil] at hlen
      omega
  | cons q above' =>
      rw [List.length_cons] at hlen
      exact ⟨q, above', rfl, by omega⟩

/-- The number stays where no program starts or ends on the terminal. -/
theorem nested_quiet {s s' : Kernel × Nat} {op : Op} {out : Out} (h : nested cfg t s op = some s')
    (hstep : s.1.step cfg op = some (s'.1, out)) (hop : op.endsProcess = false)
    (hout : launches op out = false) : s'.2 = s.2 := by
  obtain ⟨out', hstep', haway, -, hother⟩ := nested_eq_some h
  rw [hstep] at hstep'
  obtain rfl : out = out' := congrArg Prod.snd (Option.some.inj hstep')
  by_cases ht : s.1.currTerminal = t
  · rw [hother ht hop, if_neg (by simp [hout])]
  · exact haway ht

/-- The process is not the one that ends. -/
theorem Below.not_ending {args : Bytes} {s s' : Kernel × Nat} {op : Op} (hb : Below t p args s)
    (h : nested cfg t s op = some s') (hop : op.endsProcess = true) : s.1.currentPcb? ≠ some p := by
  intro hcur
  obtain ⟨stack, above, rest, hs, hstack, hlen⟩ := hb.sessions
  have hmem : p ∈ stack t := by
    rw [hstack]
    simp
  obtain ⟨q, rest', hq, -, hpcb⟩ := hs.running
  obtain rfl : q = p := Option.some.inj (hpcb.symm.trans hcur)
  have ht : s.1.currTerminal = t := hs.wf.owner_unique (by rw [hq]; exact List.mem_cons_self) hmem
  obtain ⟨a, above', rfl, -⟩ := nested_ends hlen h ht hop
  -- the program on top would be in the session twice
  rw [ht, hstack, List.cons_append] at hq
  obtain ⟨rfl, -⟩ := List.cons.inj hq
  have hnodup := hs.wf.nodup t
  rw [hstack] at hnodup
  simp at hnodup

theorem Below.next_args {args : Bytes} {s s' : Kernel × Nat} {op : Op} (hb : Below t p args s)
    (h : nested cfg t s op = some s') : (s'.1.pcb p).args = args := by
  obtain ⟨stack, above, rest, hs, hstack, -⟩ := hb.sessions
  obtain ⟨out, hstep, -⟩ := nested_eq_some h
  have hmem : p ∈ stack t := by
    rw [hstack]
    simp
  exact (step_args hs hmem (fun hop => hb.not_ending h hop) hstep).trans hb.args

/-- Programs come and go on top of the process, which stays where it is. -/
theorem Below.next_sessions {args : Bytes} {s s' : Kernel × Nat} {op : Op} (hb : Below t p args s)
    (htidy : TidyOn cfg t s op) (h : nested cfg t s op = some s') :
    ∃ stack above rest, Sessions s'.1 stack ∧ stack t = above ++ p :: rest ∧ above.length = s'.2 := by
  obtain ⟨hends, -, stack, above, rest, hs, hstack, hlen⟩ := hb
  obtain ⟨out, hstep, haway, -, hother⟩ := nested_eq_some h
  obtain ⟨stack', he⟩ := step_effect hs hends hstep
  refine ⟨stack', ?_⟩
  have hs' := he.sessions hs
  cases he with
  | stay _ alive goesOn =>
      have hout : launches op out = false := by
        cases op <;> cases out <;> first | rfl | cases goesOn
      exact ⟨above, rest, hs', hstack, by rw [nested_quiet h hstep alive hout, hlen]⟩
  | @launched _ _ i _ _ _ entered =>
      by_cases ht : s.1.currTerminal = t
      · refine ⟨i :: above, rest, hs', ?_, ?_⟩
        · rw [ht, Function.update_self, hstack, List.cons_append]
        · rw [hother ht rfl, List.length_cons, hlen]
          rfl
      · exact ⟨above, rest, hs', by rwa [Function.update_of_ne (Ne.symm ht)],
          hlen.trans (haway ht).symm⟩
  | @botched comm loc _ _ _ failed =>
      by_cases ht : s.1.currTerminal = t
      · cases htidy ht comm loc _ _ rfl failed
      · exact ⟨above, rest, hs', by rwa [Function.update_of_ne (Ne.symm ht)],
          hlen.trans (haway ht).symm⟩
  | @ended _ _ _ _ p' q rest' _ ends top =>
      by_cases ht : s.1.currTerminal = t
      · obtain ⟨a, above', rfl, habove⟩ := nested_ends hlen h ht ends.endsProcess
        -- the program on top of the process ends
        rw [ht, hstack, List.cons_append] at top
        obtain ⟨-, htail⟩ := List.cons.inj top
        refine ⟨above', rest, hs', ?_, habove⟩
        rw [ht, Function.update_self, htail]
      · exact ⟨above, rest, hs', by rwa [Function.update_of_ne (Ne.symm ht)],
          hlen.trans (haway ht).symm⟩
  | restarted ends top =>
      by_cases ht : s.1.currTerminal = t
      · obtain ⟨a, above', rfl, -⟩ := nested_ends hlen h ht ends.endsProcess
        -- the process is not alone, so no base shell is started again
        rw [ht, hstack] at top
        have := congrArg List.length top
        simp at this
      · exact ⟨above, rest, hs', hstack, hlen.trans (haway ht).symm⟩
  | @opened _ _ _ u _ _ _ first =>
      have hne : t ≠ u := by
        rintro rfl
        rw [first] at hstack
        simp at hstack
      exact ⟨above, rest, hs', by rwa [Function.update_of_ne hne],
        hlen.trans (nested_quiet h hstep rfl rfl).symm⟩
  | visited => exact ⟨above, rest, hs', hstack, hlen.trans (nested_quiet h hstep rfl rfl).symm⟩

/-- The programs above the process come and go; it stays where it is, with its arguments. -/
theorem Below.next {args : Bytes} {s s' : Kernel × Nat} {op : Op} (hb : Below t p args s)
    (htidy : TidyOn cfg t s op) (h : nested cfg t s op = some s') : Below t p args s' where
  ends := by
    obtain ⟨out, hstep, -⟩ := nested_eq_some h
    exact next_programEnds hb.ends (by rw [Kernel.next, hstep]; rfl)
  args := hb.next_args h
  sessions := hb.next_sessions htidy h

/-! ## Arguments and runs -/

theorem run_sessions {machine k0 : Kernel} {loc0 : Locals} {entryPoint : UInt32} {ops : List Op}
    (hboot : boot cfg machine loc0 = .started k0 entryPoint)
    (hrun : Runs.run (Kernel.next cfg) k0 ops = some k) : k.ProgramEnds ∧ ∃ stack, Sessions k stack := by
  obtain ⟨i, hi, hst⟩ := execute_started hboot
  obtain rfl : 0 = i := Option.some.inj ((boot_freeSlot cfg machine).symm.trans hi)
  refine Runs.run_preserves (P := fun _ _ => True) (I := fun k => k.ProgramEnds ∧ ∃ stack, Sessions k stack)
    ?_ ⟨next_startedProgramEnds hboot, _, (boot_sessions hst).1⟩
    (Runs.allSteps_of_forall (fun _ _ => trivial) _ _) hrun
  rintro k op k' ⟨hends, stack, hs⟩ - h
  obtain ⟨⟨k1, out⟩, hstep, rfl⟩ := Option.map_eq_some_iff.1 h
  obtain ⟨stack', he⟩ := step_effect hs hends hstep
  exact ⟨next_programEnds hends h, stack', he.sessions hs⟩

/-- A program started in a state of a run after boot runs again, with its arguments, whenever all programs
    started on top of it have ended. -/
theorem args_later {machine k0 k1 k2 : Kernel} {loc0 : Locals} {entryPoint0 entryPoint : UInt32}
    {ops0 ops : List Op} {i : Slot} (hboot : boot cfg machine loc0 = .started k0 entryPoint0)
    (hrun0 : Runs.run (Kernel.next cfg) k0 ops0 = some k) (hi : freeSlot k = some i)
    (hex : execute cfg k (some comm) loc = .started k1 entryPoint)
    (htidy : Runs.AllSteps (nested cfg k.currTerminal) (TidyOn cfg k.currTerminal) (k1, 0) ops)
    (hrun : Runs.run (nested cfg k.currTerminal) (k1, 0) ops = some (k2, 0))
    (hcurrent : k2.currTerminal = k.currTerminal) :
    k2.currentPcb? = some i ∧ (k2.pcb i).args = (k1.pcb i).args := by
  obtain ⟨hends, stack, hs⟩ := run_sessions hboot hrun0
  obtain ⟨j, hj, hst⟩ := execute_started hex
  obtain rfl : i = j := Option.some.inj (hi.symm.trans hj)
  have hstart : Below k.currTerminal i (k1.pcb i).args (k1, 0) := by
    refine ⟨next_programEnds hends (next_execute hex), rfl, _, [], stack k.currTerminal,
      hs.push (freeSlot_eq_some.1 hi).1 hst.entered, ?_, rfl⟩
    rw [Function.update_self, List.nil_append]
  obtain ⟨-, hsame, stack2, above, rest, hs2, hstack, hlen⟩ :=
    Runs.run_preserves (fun _ _ _ hb ht h => hb.next ht h) hstart htidy hrun
  obtain rfl : above = [] := List.eq_nil_of_length_eq_zero hlen
  refine ⟨?_, hsame⟩
  obtain ⟨p, rest', hp, -, hpcb⟩ := hs2.running
  rw [hcurrent, hstack, List.nil_append] at hp
  obtain ⟨rfl, -⟩ := List.cons.inj hp
  exact hpcb

/-- From any state of a run after boot: a program started with arguments gets them from `getargs`, up to
    spaces at their end, whatever was in the slot before it, and again whenever it runs after any number
    of children have been started and have ended. -/
theorem arguments_survive {machine k0 k1 k2 : Kernel} {loc0 : Locals} {entryPoint0 entryPoint : UInt32}
    {ops0 : List Op} (hboot : boot cfg machine loc0 = .started k0 entryPoint0)
    (hrun0 : Runs.run (Kernel.next cfg) k0 ops0 = some k)
    (hex : execute cfg k (some comm) loc = .started k1 entryPoint) (hargs : argumentText comm ≠ [])
    (ops : List Op)
    (htidy : Runs.AllSteps (nested cfg k.currTerminal) (TidyOn cfg k.currTerminal) (k1, 0) ops)
    (hrun : Runs.run (nested cfg k.currTerminal) (k1, 0) ops = some (k2, 0))
    (hcurrent : k2.currTerminal = k.currTerminal) (buf : Bytes) {nbytes : Int} (hn : 129 ≤ nbytes)
    (hmax : nbytes < 2 ^ 31) :
    ∃ r s, getargs k2 (some buf) nbytes = some r ∧ r.ret = 0 ∧ Spells r.buf s ∧
      s.length < nbytes.toNat ∧ s.rdropWhile (· == 32) = (argumentText comm).rdropWhile (· == 32) := by
  obtain ⟨i, hi, -⟩ := execute_started hex
  obtain ⟨hcall, hsame⟩ := args_later hboot hrun0 hi hex htidy hrun hcurrent
  obtain ⟨c, s, hcs⟩ := List.exists_cons_of_ne_nil hargs
  have hhead : (argumentText comm).head? = some c := by
    rw [hcs]
    rfl
  refine getargs_spells hcall ?_ (length_argumentText_lt comm) hhead (argumentText_head hhead) buf hn hmax
  rw [hsame]
  exact execute_spells hi hex

/-- A shell with arguments. -/
def shellWithArgs : Bytes := cstr (ascii "shell  a b ")

theorem shellWithArgs_text : argumentText shellWithArgs = ascii "a b " := by decide

/-- On the booted small machine: a shell with arguments, which runs another shell before it asks for
    them. -/
theorem arguments_survive_small :
    ∃ k1 entryPoint k2, execute smallConfig smallBooted (some shellWithArgs) (localsAt 0)
        = .started k1 entryPoint ∧
      Runs.run (nested smallConfig smallBooted.currTerminal) (k1, 0)
        [.execute (some shellCommand) (localsAt 3), .halt 7 (localsAt 4)] = some (k2, 0) ∧
      ∃ r s, getargs k2 (some emptyBuf) 1024 = some r ∧ r.ret = 0 ∧ Spells r.buf s ∧
        s.length < Int.toNat 1024 ∧
        s.rdropWhile (· == 32) = (argumentText shellWithArgs).rdropWhile (· == 32) := by
  obtain ⟨entryPoint0, hboot, hst0⟩ := smallBooted_spec
  have hs0 := (boot_sessions hst0).1
  obtain ⟨k1, entryPoint, hex, hst1⟩ := @execute_shell_word smallConfig smallBooted shellWithArgs
    (localsAt 0) smallConfig_hasShell _ smallBooted_freeSlot (by decide) (by decide)
  have hfree1 : freeSlot k1 = some 4 := by
    rw [freeSlot_eq_some, hst1.inUse]
    simp only [Function.update_apply, smallBooted_inUse]
    decide
  have hs1 := hs0.push (freeSlot_eq_some.1 smallBooted_freeSlot).1 hst1.entered
  obtain ⟨k2, entryPoint2, hex2, hst2⟩ := @execute_shell smallConfig k1 (localsAt 3)
    smallConfig_hasShell _ hfree1
  have hs2 := hs1.push (freeSlot_eq_some.1 hfree1).1 hst2.entered
  have hterm1 : k1.currTerminal = smallBooted.currTerminal := hst1.currTerminal
  have hterm2 : k2.currTerminal = smallBooted.currTerminal := hst2.currTerminal.trans hterm1
  have htop : Function.update (Function.update bootSessions smallBooted.currTerminal
      (3 :: bootSessions smallBooted.currTerminal)) k1.currTerminal
      (4 :: Function.update bootSessions smallBooted.currTerminal
        (3 :: bootSessions smallBooted.currTerminal) k1.currTerminal) k2.currTerminal
      = 4 :: 3 :: bootSessions smallBooted.currTerminal := by
    rw [hterm2, hterm1, Function.update_self, Function.update_self]
  obtain ⟨k3, hhalt, hended⟩ := @halt_child smallConfig k2 _ (localsAt 4) _ _ _ hs2 htop 7
  have hterm3 : k3.currTerminal = smallBooted.currTerminal := hended.currTerminal.trans hterm2
  have hnext1 : nested smallConfig smallBooted.currTerminal (k1, 0)
      (.execute (some shellCommand) (localsAt 3)) = some (k2, 1) := by
    simp only [nested, Kernel.step, hex2, ExecResult.toStep, hterm1]
    rfl
  have hnext2 : nested smallConfig smallBooted.currTerminal (k2, 1) (.halt 7 (localsAt 4))
      = some (k3, 0) := by
    simp only [nested, Kernel.step, hhalt, hterm2]
    rfl
  have hrun : Runs.run (nested smallConfig smallBooted.currTerminal) (k1, 0)
      [.execute (some shellCommand) (localsAt 3), .halt 7 (localsAt 4)] = some (k3, 0) :=
    Runs.run_cons_eq_some.2 ⟨_, hnext1, Runs.run_cons_eq_some.2 ⟨_, hnext2, rfl⟩⟩
  refine ⟨k1, entryPoint, k3, hex, hrun, ?_⟩
  have hargs : argumentText shellWithArgs ≠ [] := by
    rw [shellWithArgs_text]
    decide
  refine arguments_survive hboot (Runs.run_nil _) hex hargs _ ?_ hrun hterm3 emptyBuf (by decide)
    (by decide)
  refine (Runs.allSteps_cons hnext1).2 ⟨?_, (Runs.allSteps_cons hnext2).2 ⟨?_, trivial⟩⟩
  · intro _ comm loc e k' hop hfail
    cases hop
    rw [hex2] at hfail
    cases hfail
  · intro _ comm loc e k' hop
    cases hop

end BaseOs
