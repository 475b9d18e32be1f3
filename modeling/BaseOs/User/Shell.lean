import BaseOs.User.Typed

set_option autoImplicit false

/-! # The shell (`ece391shell.c`)

The shell reads a line, executes it, and says how that went, until the line is `exit`. While a program runs
that it has started, the shell waits below it in the session; the other operations of the system until the
program hands its status back are part of what the machine is given. `shell_converses` says what the user
sees after any number of rounds: every line without its leading spaces is executed once, in the order
in which the lines are typed, and is followed by the message for the status it ended with. -/

namespace BaseOs

open Kernel Programs Terminated

/-! ## Executing a command -/

/-- What happens until the processor is back with the process `p`, because its child has ended. -/
def untilBack (cfg : Config) (map : KernelMap) (p : Slot) : Kernel → List KernelEvent → Option (Kernel × UInt32)
  | _, [] => none
  | k, ev :: events =>
    match k.occur cfg map ev with
    | none => none
    | some (k', out) =>
      if k'.currentPcb? = some p then
        match out with
        | .handedBack status => some (k', status)
        | _ => none
      else untilBack cfg map p k' events

/-- The calls of the shell. -/
inductive ShellCall
  | call (c : UserCall)
  | execute (command : Bytes)

/-- The machine under the shell: `loc` is what the stack of the kernel holds when `execute` is called, `child`
    what then happens until the program has ended, `map` where the kernel's variables are. -/
structure ShellMachine where
  machine : Machine
  loc : Locals
  child : Bytes → List KernelEvent
  map : KernelMap

/-- The machine after an operation of the shell. -/
def ShellMachine.answered (s : ShellMachine) (op : Op) (k : Kernel) (out : Out) : ShellMachine :=
  { s with machine := { s.machine with kernel := k, log := s.machine.log ++ [(op, out)] } }

/-- The kernel answers the shell; `none` if it does not return to it, or returns to it in the PCB of another
    process. -/
def ShellMachine.serve (cfg : Config) (s : ShellMachine) : ShellCall → Option (ShellMachine × Answer)
  | .call c => (s.machine.serve cfg c).map fun r => ({ s with machine := r.1 }, r.2)
  | .execute command =>
    let op : Op := .execute (some command) s.loc
    match s.machine.kernel.currentPcb?, s.machine.kernel.step cfg op with
    | some p, some (k, .ret v buf) =>
      if k.currentPcb? = some p then some (s.answered op k (.ret v buf), ⟨v, buf⟩) else none
    | some p, some (k, .entered _) =>
      (untilBack cfg s.map p k (s.child command)).map fun r =>
        (s.answered op r.1 (.handedBack r.2), ⟨r.2.toInt32, emptyBuf⟩)
    | _, _ => none

abbrev ShellProgram (α : Type) := Prog ShellCall Answer α

/-! ## The program -/

def shellFdputs (s : List UInt8) : ShellProgram Unit := (ece391FdputsLit 1 s).embed .call

def shellRead (buf : Bytes) (nbytes : Int32) : ShellProgram Answer := (ece391Read 0 buf nbytes).embed .call

def ece391Execute (command : Bytes) : ShellProgram Int32 := do
  let answer ← Prog.request (.execute command)
  return answer.ret

/-- The message for what `ece391_execute` returns. -/
def shellReport (rval : Int32) : ShellProgram Unit :=
  if rval = -1 then shellFdputs (ascii "no such command\n")
  else if rval = 256 then shellFdputs (ascii "program terminated by exception\n")
  else if rval ≠ 0 then shellFdputs (ascii "program terminated abnormally\n")
  else return ()

/-- One round of the loop of `main`. -/
def shellRound (buf : Bytes) : ShellProgram (Bytes ⊕ Int32) := do
  shellFdputs (ascii "391OS> ")
  let answer ← shellRead buf 1023
  let cnt := answer.ret
  if cnt = -1 then do
    shellFdputs (ascii "read from keyboard failed\n")
    return .inr 3
  else do
    let cnt := if cnt > 0 ∧ answer.buf (cnt.toInt.toNat - 1) = 10 then cnt - 1 else cnt
    let buf := Function.update answer.buf cnt.toInt.toNat 0
    if ece391Strcmp buf (cstr (ascii "exit")) 5 = 0 then return .inr 0
    else if buf 0 = 0 then return .inl buf
    else do
      let rval ← ece391Execute buf
      shellReport rval
      return .inl buf

/-- `main`, for at most `fuel` rounds of the loop. -/
def shellMain (fuel : Nat) (buf : Bytes) : ShellProgram (Option Int32) := do
  shellFdputs (ascii "Starting 391 Shell\n")
  Prog.iterate shellRound fuel buf

/-! ## What the user is to see -/

/-- One round: the line that is typed, and the status its command ends with. -/
structure Turn where
  line : List UInt8
  status : Int32

/-- What is executed: the line without its leading spaces. -/
def commandOf (line : List UInt8) : List UInt8 := line.dropWhile (· == 32)

def shellMessage (status : Int32) : List UInt8 :=
  if status = -1 then ascii "no such command\n"
  else if status = 256 then ascii "program terminated by exception\n"
  else ascii "program terminated abnormally\n"

def Turn.events (turn : Turn) : List Event :=
  [.shown (ascii "391OS> "), .typed turn.line] ++
    if commandOf turn.line = [] then []
    else .ran (commandOf turn.line) turn.status ::
      if turn.status = 0 then [] else [.shown (shellMessage turn.status)]

/-! ## While a child runs -/

variable {cfg : Config} {k k' : Kernel} {s s' : ShellMachine} {p : Slot} {t : Terminal} {table : FdTable}
  {evs : List Event} {line : List UInt8} {lines : Set (List UInt8)}

/-- The process is as it was when its child has ended, whatever has run until then. -/
theorem untilBack_waiting {map : KernelMap} {args : Bytes} {events : List KernelEvent} {r : Kernel × UInt32}
    (h : Waiting t p table args k) (hclosed : OffClosed table)
    (hall : Runs.AllSteps (Kernel.after cfg map) (Elsewhere cfg map p) k events)
    (hback : untilBack cfg map p k events = some r) : Waiting t p table args r.1 ∧ r.1.currentPcb? = some p := by
  induction events generalizing k with
  | nil => cases hback
  | cons ev events ih =>
      rw [untilBack] at hback
      cases hoccur : k.occur cfg map ev with
      | none =>
          rw [hoccur] at hback
          cases hback
      | some next =>
          obtain ⟨k', out⟩ := next
          rw [hoccur] at hback
          simp only at hback
          have hw : Waiting t p table args k' := h.occurs hclosed hall.1 (occurs_of_occur hoccur)
          split_ifs at hback with hcur
          · cases out with
            | handedBack status =>
                obtain rfl := Option.some.inj hback
                exact ⟨hw, hcur⟩
            | _ => cases hback
          · exact ih hw (hall.2 k' (by rw [Kernel.after, hoccur, Option.map_some])) hback

/-- A program that is started leaves the process that started it waiting. -/
theorem waiting_started {command : Bytes} {loc : Locals} {entryPoint : UInt32}
    (hcur : k.currentPcb? = some p) (hin : InSession t p k)
    (hex : execute cfg k (some command) loc = .started k' entryPoint) :
    Waiting t p (k.pcb p).fdTable (k.pcb p).args k' ∧ k'.currentPcb? ≠ some p := by
  have hstep : k.step cfg (.execute (some command) loc) = some (k', .entered entryPoint) := by
    rw [Kernel.step, hex, ExecResult.toStep]
  obtain ⟨-, stack, hs, hp⟩ := id hin
  have hpcb := step_execute_pcb hs hp hstep
  refine ⟨⟨inSession_step hin (by simp [Op.endsProcess]) hstep, by rw [hpcb], by rw [hpcb]⟩, ?_⟩
  obtain ⟨i, hi, hst⟩ := execute_started hex
  have hfree := (freeSlot_eq_some.1 hi).1
  obtain ⟨r, rest, hr, -, hrunning⟩ := (hs.push hfree hst.entered).running
  rw [hst.currTerminal, Function.update_self] at hr
  obtain ⟨rfl, -⟩ := List.cons.inj hr
  rw [hrunning]
  intro heq
  obtain rfl := Option.some.inj heq
  rw [hs.busy t i hp] at hfree
  cases hfree

/-- An `execute` that fails leaves the PCB of the process as it was. -/
theorem inSession_failed {command : Bytes} {loc : Locals} {e : ExecError} (hin : InSession t p k)
    (hex : execute cfg k (some command) loc = .failed e k') : InSession t p k' ∧ k'.pcb p = k.pcb p := by
  have hstep : k.step cfg (.execute (some command) loc) = some (k', .ret (-1) emptyBuf) := by
    rw [Kernel.step, hex, ExecResult.toStep]
  obtain ⟨-, stack, hs, hp⟩ := id hin
  exact ⟨inSession_step hin (by simp [Op.endsProcess]) hstep, step_execute_pcb hs hp hstep⟩

/-- The two ways a command is answered. -/
theorem serve_execute {command : Bytes} (hcur : s.machine.kernel.currentPcb? = some p) :
    s.serve cfg (.execute command) =
      match execute cfg s.machine.kernel (some command) s.loc with
      | .failed _ k =>
        if k.currentPcb? = some p then
          some (s.answered (.execute (some command) s.loc) k (.ret (-1) emptyBuf), ⟨-1, emptyBuf⟩)
        else none
      | .started k _ =>
        (untilBack cfg s.map p k (s.child command)).map fun r =>
          (s.answered (.execute (some command) s.loc) r.1 (.handedBack r.2), ⟨r.2.toInt32, emptyBuf⟩)
      | .fault _ => none := by
  unfold ShellMachine.serve Kernel.step
  simp only [hcur]
  cases execute cfg s.machine.kernel (some command) s.loc <;> rfl

/-- What the programs do that the shell starts does not reach its PCB. -/
def ChildrenElsewhere (cfg : Config) (p : Slot) (s : ShellMachine) : Prop :=
  ∀ comm k entryPoint, execute cfg s.machine.kernel (some comm) s.loc = .started k entryPoint →
    Runs.AllSteps (Kernel.after cfg s.map) (Elsewhere cfg s.map p) k (s.child comm)

/-- After each of its calls the shell runs on. -/
theorem runsOn_shellServe {c : ShellCall} {r : Answer} (hm : RunsOn t p s.machine)
    (hchildren : ChildrenElsewhere cfg p s) (h : s.serve cfg c = some (s', r)) : RunsOn t p s'.machine := by
  cases c with
  | call c =>
      obtain ⟨⟨m', r'⟩, hserve, heq⟩ := Option.map_eq_some_iff.1 h
      cases heq
      exact runsOn_serve hm hserve
  | execute command =>
      obtain ⟨hcur, hin, hclosed⟩ := hm
      rw [serve_execute hcur] at h
      cases hex : execute cfg s.machine.kernel (some command) s.loc with
      | fault k =>
          rw [hex] at h
          cases h
      | failed e k =>
          rw [hex] at h
          simp only at h
          split_ifs at h with hrunning
          cases h
          obtain ⟨hin', hpcb⟩ := inSession_failed hin hex
          refine ⟨hrunning, hin', ?_⟩
          rw [← hpcb] at hclosed
          exact hclosed
      | started k entryPoint =>
          rw [hex] at h
          obtain ⟨back, hback, heq⟩ := Option.map_eq_some_iff.1 h
          cases heq
          have hw := (waiting_started hcur hin hex).1
          obtain ⟨hw', hrunning⟩ := untilBack_waiting hw hclosed (hchildren _ _ _ hex) hback
          refine ⟨hrunning, hw'.inSession, ?_⟩
          rw [← hw'.fdTable] at hclosed
          exact hclosed

/-! ## The rules -/

/-- The lines can be executed: a program that starts ends some time, and has room in its page; no file without
    the magic number is called. -/
def Settles (cfg : Config) (lines : Set (List UInt8)) (p : Slot) (s : ShellMachine) : Prop :=
  ∀ line ∈ lines, commandOf line ≠ [] → commandOf line ≠ ascii "exit" → ∀ comm, Spells comm (commandOf line) →
    match execute cfg s.machine.kernel (some comm) s.loc with
    | .failed e _ => e.early = true
    | .started k _ => (untilBack cfg s.map p k (s.child comm)).isSome = true
    | .fault _ => False

/-- What happens between two calls of the shell. -/
structure Shelling (cfg : Config) (lines : Set (List UInt8)) (t : Terminal) (p : Slot) (s s' : ShellMachine) :
    Prop where
  typing : Typing lines p s.machine s'.machine
  runsOn : RunsOn t p s'.machine
  children : ChildrenElsewhere cfg p s'
  settles : Settles cfg lines p s'

/-- A program without `execute` runs under the shell as it runs by itself. -/
theorem ensures_embed {α : Type} {prog : Program α} {Q : α → Machine → Prop}
    (h : Prog.Ensures (Machine.serve cfg) (Typing lines p) prog Q s.machine) :
    Prog.Ensures (ShellMachine.serve cfg) (Shelling cfg lines t p) (prog.embed .call)
      (fun a s' => Q a s'.machine) s := by
  refine Prog.Ensures.embed (π := ShellMachine.machine) (fun s s' hother => hother.typing) (fun s c m r hserve => ?_) h
  exact ⟨{ s with machine := m }, by rw [ShellMachine.serve, hserve, Option.map_some], rfl⟩

theorem shell_fdputs (h : s.machine.Talks p table evs) (hok : TableOk table) {text : List UInt8}
    (htext : ∀ c ∈ text, c ≠ 0) (hlen : text.length < 2 ^ 31) :
    Prog.Ensures (ShellMachine.serve cfg) (Shelling cfg lines t p) (shellFdputs text)
      (fun _ s' => s'.machine.Talks p table (evs ++ [.shown text])) s :=
  ensures_embed (talks_fdputsLit h hok htext hlen)

/-- A command is executed once, and its status comes back. -/
theorem shell_execute {comm : Bytes} (h : s.machine.Talks p table evs) (hline : line ∈ lines)
    (hne : commandOf line ≠ []) (hexit : commandOf line ≠ ascii "exit") (hcomm : Spells comm (commandOf line))
    (hshort : (commandOf line).length ≤ termBuffSize) :
    Prog.Ensures (ShellMachine.serve cfg) (Shelling cfg lines t p) (ece391Execute comm)
      (fun status s' => s'.machine.Talks p table (evs ++ [.ran (commandOf line) status])) s := by
  refine Prog.ensures_bind.2 (Prog.ensures_request.2 fun s₁ hother => ?_)
  obtain ⟨⟨halone, -⟩, ⟨hcur, hin, hclosed⟩, hchildren, hsettles⟩ := hother
  have htable := halone.fdTable.trans h.fdTable
  have hevents : events s₁.machine.log = evs := by rw [halone.log, h.events]
  have hread : readLine comm = commandOf line := hcomm.text hshort
  have hresult := hsettles line hline hne hexit comm hcomm
  rw [serve_execute hcur]
  cases hex : execute cfg s₁.machine.kernel (some comm) s₁.loc with
  | fault k =>
      rw [hex] at hresult
      exact hresult.elim
  | failed e k =>
      rw [hex] at hresult
      have hearly : e.early = true := hresult
      obtain ⟨-, hpcb⟩ := inSession_failed hin hex
      have hends : s₁.machine.kernel.ProgramEnds := hin.1
      have hrunning : k.currentPcb? = some p := by
        rcases execute_failed hends hex with ⟨-, hsame⟩ | ⟨c, file, i, -, -, -, -, rfl, -⟩
        · rw [hsame.sameProcs.currentPcb?, hcur]
        · cases hearly
      simp only [if_pos hrunning]
      refine ⟨_, _, rfl, hrunning, by rw [← htable, ← hpcb]; rfl, ?_⟩
      rw [ShellMachine.answered, events_snoc, hevents, eventsBy, hread]
  | started k entryPoint =>
      rw [hex] at hresult
      obtain ⟨back, hback⟩ := Option.isSome_iff_exists.1 hresult
      have hw := (waiting_started hcur hin hex).1
      obtain ⟨hw', hrunning⟩ := untilBack_waiting hw hclosed (hchildren _ _ _ hex) hback
      simp only [hback, Option.map_some]
      refine ⟨_, _, rfl, hrunning, hw'.fdTable.trans htable, ?_⟩
      rw [ShellMachine.answered, events_snoc, hevents, eventsBy, hread]

/-! ## One round -/

theorem toRet_succ_sub (n : Nat) : toRet (n + 1) - 1 = toRet n := by
  unfold toRet
  simp

theorem toRet_pos {n : Nat} (h : n < 2 ^ 31) : toRet n > 0 ↔ 0 < n := by
  rw [gt_iff_lt, Int32.lt_iff_toInt_lt, toInt_toRet h]
  simp

/-- Taking the newline off leaves the command, whether `keyboard_read` has put one there or not. -/
theorem trimmed_spells {buf : Bytes} {cnt : Int32} (hline : IsLine line)
    (hlen : (lineFetched line).length ≤ 128) (hcnt : cnt = toRet (lineFetched line).length)
    (hs : Spells (Function.update buf (lineFetched line).length 0) (lineFetched line)) :
    let cnt' := if cnt > 0 ∧ buf (cnt.toInt.toNat - 1) = 10 then cnt - 1 else cnt
    Spells (Function.update buf cnt'.toInt.toNat 0) (commandOf line) := by
  have hsmall : (lineFetched line).length < 2 ^ 31 := by omega
  subst hcnt
  simp only [toRet_pos hsmall, toInt_toRet hsmall, Int.toNat_natCast]
  have hget : ∀ i < (lineFetched line).length, buf i = (lineFetched line).getD i 0 := by
    intro i hi
    rw [← hs.get i hi.le, Function.update_of_ne hi.ne]
  by_cases hexit : ascii "exit" <+: commandOf line
  · -- a line that begins with `exit` comes without a newline
    have hfetched : lineFetched line = commandOf line := if_pos hexit
    rw [hfetched] at hs hget hsmall ⊢
    have hlast : ¬ (0 < (commandOf line).length ∧ buf ((commandOf line).length - 1) = 10) := by
      rintro ⟨hpos, hten⟩
      rw [hget _ (by omega), List.getD_eq_getElem _ _ (by omega)] at hten
      have hmem : (10 : UInt8) ∈ commandOf line := by
        rw [← hten]
        exact List.getElem_mem _
      exact hline.noNewline ((List.dropWhile_suffix _).subset hmem)
    rw [if_neg hlast, toInt_toRet hsmall, Int.toNat_natCast]
    exact hs
  · have hfetched : lineFetched line = commandOf line ++ [10] := if_neg hexit
    have hsize : (lineFetched line).length = (commandOf line).length + 1 := by
      rw [hfetched, List.length_append, List.length_singleton]
    have hlast : buf (commandOf line).length = 10 := by
      rw [hget _ (by omega), hfetched]
      simp
    rw [hsize, Nat.add_sub_cancel, if_pos ⟨Nat.succ_pos _, hlast⟩, toRet_succ_sub,
      toInt_toRet (by omega), Int.toNat_natCast]
    refine ⟨fun i hi => ?_, fun c hc => hs.nonzero c (by rw [hfetched]; exact List.mem_append_left _ hc)⟩
    rcases Nat.eq_or_lt_of_le hi with rfl | hlt
    · simp
    · rw [Function.update_of_ne hlt.ne, hget i (by omega), hfetched, List.getD_append _ _ _ _ hlt]

/-- What the user has seen after some rounds. -/
def conversation (turns : List Turn) : List Event :=
  .shown (ascii "Starting 391 Shell\n") :: turns.flatMap Turn.events

theorem conversation_snoc (turns : List Turn) (turn : Turn) :
    conversation (turns ++ [turn]) = conversation turns ++ turn.events := by
  simp [conversation]

/-- One of the lines was typed, and it was not the end. -/
def Turn.GoesOn (lines : Set (List UInt8)) (turn : Turn) : Prop :=
  turn.line ∈ lines ∧ commandOf turn.line ≠ ascii "exit"

/-- After `n` rounds none of which was the last. -/
def Conversing (lines : Set (List UInt8)) (p : Slot) (n : Nat) (s : ShellMachine) : Prop :=
  ∃ turns : List Turn, turns.length = n ∧ (∀ turn ∈ turns, turn.GoesOn lines) ∧
    s.machine.Talks p fdTableInit (conversation turns)

/-- After the last round, which was an `exit`. -/
def Exited (lines : Set (List UInt8)) (status : Int32) (s : ShellMachine) : Prop :=
  ∃ (turns : List Turn), ∃ line ∈ lines, status = 0 ∧ (∀ turn ∈ turns, turn.GoesOn lines) ∧
    commandOf line = ascii "exit" ∧
    events s.machine.log = conversation turns ++ [.shown (ascii "391OS> "), .typed line]

theorem Conversing.turn {n : Nat} {turns : List Turn} (turn : Turn) (hcount : turns.length = n)
    (hnot : ∀ turn ∈ turns, turn.GoesOn lines) (hturn : turn.GoesOn lines)
    (h : s.machine.Talks p fdTableInit (conversation turns ++ turn.events)) : Conversing lines p (n + 1) s := by
  refine ⟨turns ++ [turn], by rw [List.length_append, hcount, List.length_singleton], fun u hu => ?_, ?_⟩
  · rcases List.mem_append.1 hu with hu | hu
    · exact hnot u hu
    · rw [List.mem_singleton.1 hu]
      exact hturn
  · rw [conversation_snoc]
    exact h

theorem shell_report {status : Int32} (h : s.machine.Talks p table evs) (hok : TableOk table) :
    Prog.Ensures (ShellMachine.serve cfg) (Shelling cfg lines t p) (shellReport status)
      (fun _ s' => s'.machine.Talks p table
        (evs ++ if status = 0 then [] else [.shown (shellMessage status)])) s := by
  unfold shellReport shellMessage
  by_cases hfailed : status = -1
  · subst hfailed
    exact shell_fdputs h hok (by simp [ascii]) (by decide)
  by_cases hexception : status = 256
  · subst hexception
    exact shell_fdputs h hok (by simp [ascii]) (by decide)
  by_cases hzero : status = 0
  · subst hzero
    rw [if_neg (by decide), if_neg (by decide), if_neg (by decide), if_pos rfl, List.append_nil]
    exact h
  · rw [if_neg hfailed, if_neg hexception, if_pos hzero, if_neg hzero, if_neg hfailed, if_neg hexception]
    exact shell_fdputs h hok (by simp [ascii]) (by decide)

/-- A round is one more turn, or the end. -/
theorem shell_round (hlines : ∀ line ∈ lines, IsLine line) {n : Nat} (h : Conversing lines p n s) (buf : Bytes) :
    Prog.Ensures (ShellMachine.serve cfg) (Shelling cfg lines t p) (shellRound buf)
      (fun r s' => r.elim (fun _ => Conversing lines p (n + 1) s') fun status => Exited lines status s') s := by
  obtain ⟨turns, hcount, hnot, htalks⟩ := h
  refine Prog.ensures_bind.2 ((shell_fdputs htalks tableOk_init (by simp [ascii]) (by decide)).mono
    fun _ s₁ h₁ => ?_)
  refine Prog.ensures_bind.2 ((ensures_embed (talks_read hlines h₁ tableOk_init buf (n := 1023) (by decide)
    (by decide))).mono ?_)
  rintro r s₂ ⟨line, hline, hret, hspells, h₂⟩
  have hlen := length_lineFetched_le line
  have hshort := (hlines line hline).short
  unfold termBuffSize at hshort
  have hsmall : (lineFetched line).length < 2 ^ 31 := by omega
  have hcommand := trimmed_spells (hlines line hline) (by omega) hret hspells
  simp only at hcommand ⊢
  rw [if_neg (show r.ret ≠ -1 by rw [hret]; exact toRet_ne_failed hsmall)]
  generalize (if r.ret > 0 ∧ r.buf (r.ret.toInt.toNat - 1) = 10 then r.ret - 1 else r.ret) = cnt at hcommand ⊢
  have hexit : ece391Strcmp (Function.update r.buf cnt.toInt.toNat 0) (cstr (ascii "exit")) 5 = 0 ↔
      commandOf line = ascii "exit" :=
    ece391Strcmp_eq_zero hcommand (spells_cstr (by simp [ascii])) (by decide)
  by_cases hend : commandOf line = ascii "exit"
  · -- the line is `exit`
    rw [if_pos (hexit.2 hend)]
    refine ⟨turns, line, hline, rfl, hnot, hend, ?_⟩
    rw [h₂.events]
    simp
  rw [if_neg (mt hexit.1 hend)]
  by_cases hempty : commandOf line = []
  · have hzero : Function.update r.buf cnt.toInt.toNat 0 0 = 0 := by
      have hfirst := hcommand.zero
      rwa [hempty] at hfirst
    -- a blank line starts nothing
    rw [if_pos hzero]
    refine Conversing.turn ⟨line, 0⟩ hcount hnot ⟨hline, hend⟩ ?_
    simp only [Turn.events, if_pos hempty, List.append_nil]
    rw [List.append_assoc] at h₂
    exact h₂
  · have hpos : 0 < (commandOf line).length := List.length_pos_iff.2 hempty
    have hcommandLen : (commandOf line).length ≤ line.length := (List.dropWhile_suffix _).length_le
    rw [if_neg (hcommand.ne_zero hpos)]
    refine Prog.ensures_bind.2 ((shell_execute h₂ hline hempty hend hcommand
      (by unfold termBuffSize; omega)).mono fun status s₃ h₃ => ?_)
    refine Prog.ensures_bind.2 ((shell_report h₃ tableOk_init).mono fun _ s₄ h₄ => ?_)
    refine Conversing.turn ⟨line, status⟩ hcount hnot ⟨hline, hend⟩ ?_
    simp only [Turn.events, if_neg hempty]
    simpa using h₄

/-! ## The whole conversation -/

/-- Someone who types `shell` whenever there is something to type, to a program that ends at once. -/
def typesShell (_ : Nat) (s : ShellMachine) : ShellMachine :=
  { s with
    machine := { s.machine with line := cstr (ascii "shell") }
    child := fun _ => [.op (.halt 0 s.loc)] }

/-- A program that ends at once hands its status back. -/
theorem untilBack_halt {command : Bytes} {loc : Locals} {entryPoint : UInt32} (hcur : k.currentPcb? = some p)
    (hin : InSession t p k) (hex : execute cfg k (some command) loc = .started k' entryPoint) (map : KernelMap) :
    (untilBack cfg map p k' [.op (.halt 0 loc)]).isSome = true := by
  obtain ⟨-, stack, hs, -⟩ := hin
  obtain ⟨i, hi, hst⟩ := execute_started hex
  have hpushed := hs.push (freeSlot_eq_some.1 hi).1 hst.entered
  obtain ⟨q, rest, hq, -, hpcb⟩ := hs.running
  obtain rfl : p = q := Option.some.inj (hcur.symm.trans hpcb)
  have htop : Function.update stack k.currTerminal (i :: stack k.currTerminal) k'.currTerminal = i :: p :: rest := by
    rw [hst.currTerminal, Function.update_self, hq]
  obtain ⟨k2, hhalt, hended⟩ := @halt_child cfg k' _ loc i p rest hpushed htop 0
  obtain ⟨r, rest', hr, -, hback⟩ := (hpushed.pop htop hended).running
  rw [hended.currTerminal, Function.update_self] at hr
  obtain ⟨rfl, -⟩ := List.cons.inj hr
  have hoccur : k'.occur cfg map (.op (.halt 0 loc))
      = some (k2, .handedBack ((0 : UInt8).toUInt32 + k'.exceptionFlag)) := hhalt
  simp only [untilBack, hoccur, if_pos hback, Option.isSome_some]

theorem typesShell_children (n : Nat) (hm : RunsOn t p s.machine) : ChildrenElsewhere cfg p (typesShell n s) := by
  intro comm k entryPoint hex
  have hother := (waiting_started hm.running hm.inSession hex).2
  exact ⟨fun hcur => absurd hcur hother, fun _ _ => trivial⟩

theorem typesShell_settles (hshell : HasShell cfg.fs) (n : Nat) (hm : RunsOn t p s.machine) :
    Settles cfg {ascii "shell"} p (typesShell n s) := by
  rintro _ rfl - - comm hcomm
  change match execute cfg s.machine.kernel (some comm) s.loc with
    | .failed e _ => e.early = true
    | .started k _ => (untilBack cfg s.map p k [.op (.halt 0 s.loc)]).isSome = true
    | .fault _ => False
  cases hi : freeSlot s.machine.kernel with
  | none =>
      rw [execute_some, hi]
      cases hfile : findProgram cfg (commandWord comm s.loc) s.loc with
      | error e =>
          simp only
          rcases findProgram_error hfile with rfl | rfl | rfl | rfl <;> rfl
      | ok file => rfl
  | some i =>
      obtain ⟨k', entryPoint, hex, -⟩ := @execute_shell_word cfg s.machine.kernel comm s.loc hshell i hi
        (fun j hj => hcomm.get j (Nat.le_of_lt hj)) (Or.inr (hcomm.get 5 le_rfl))
      rw [hex]
      exact untilBack_halt hm.running hm.inSession hex s.map

end BaseOs
