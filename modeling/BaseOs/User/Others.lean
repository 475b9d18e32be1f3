import BaseOs.System.Events
import BaseOs.User.Calls

set_option autoImplicit false

/-! # What happens between the calls of a program

While a program computes, interrupts come in and write to the screen, open and close descriptors for a test
shortcut, or switch to another terminal, where the process on top of the session makes its own calls: it
opens and closes files, starts programs, ends. As long as no pointer of it leads into the PCB of the first
process, none of this changes the descriptors or the arguments there (`run_others`), and the process goes on
as soon as its terminal is back. So everything that holds of a program left alone holds of it among the other
processes of a booted kernel (`exec_among_others`). -/

namespace BaseOs

open Kernel Programs

variable {cfg : Config} {map : KernelMap} {k k' : Kernel} {p q : Slot} {t : Terminal}
  {stack : Terminal → List Slot} {loc : Locals}

/-! ## The PCBs the running process does not own -/

theorem openWith_pcb (hne : p ≠ q) (info : Fd) (message : List UInt8) :
    (openWith k q info message).1.pcb p = k.pcb p := by
  unfold openWith
  split
  · rfl
  · exact pcb_setFdTable_of_ne hne _

theorem openFile_pcb {filename : Option Bytes} {dentry : Dentry} {r : Kernel × Int32}
    (hother : k.currentPcb? ≠ some p) (h : openFile cfg k filename dentry = some r) : r.1.pcb p = k.pcb p := by
  unfold openFile at h
  split at h
  · obtain rfl := Option.some.inj h
    rfl
  · split at h
    · obtain rfl := Option.some.inj h
      rfl
    · split at h
      · cases h
      · next q hq =>
          have hne : p ≠ q := by
            rintro rfl
            exact hother hq
          split_ifs at h
          all_goals obtain rfl := Option.some.inj h
          · exact openWith_pcb hne _ _
          · exact openWith_pcb hne _ _
          · exact openWith_pcb hne _ _

theorem fileRead_pcb (hne : p ≠ q) (i : FdIndex) (buf : Bytes) (nbytes : Int) :
    (fileRead cfg k q i buf nbytes).kernel.pcb p = k.pcb p := by
  unfold fileRead
  simp only
  split_ifs
  · exact pcb_setFdTable_of_ne hne _
  · rfl

theorem dirRead_pcb (hne : p ≠ q) (i : FdIndex) (buf : Bytes) (nbytes : Int) :
    (dirRead cfg k q i buf nbytes).kernel.pcb p = k.pcb p := by
  unfold dirRead
  simp only
  split_ifs
  · rfl
  · exact pcb_setFdTable_of_ne hne _

theorem readCall_pcb {fd : Int} {buf : Option Bytes} {nbytes : Int} {line : Bytes} {r : SysResult}
    (hother : k.currentPcb? ≠ some p) (h : readCall cfg k fd buf nbytes line = some r) :
    r.kernel.pcb p = k.pcb p := by
  unfold readCall at h
  split at h
  · obtain rfl := Option.some.inj h
    rfl
  · split at h
    · cases h
    · next q hq =>
        have hne : p ≠ q := by
          rintro rfl
          exact hother hq
        split_ifs at h
        · split at h
          · obtain rfl := Option.some.inj h
            rfl
          · split at h
            · cases h
            · cases h
            all_goals obtain rfl := Option.some.inj h
            · rfl
            · exact fileRead_pcb hne _ _ _
            · exact dirRead_pcb hne _ _ _
            · rfl
            · rfl
        · obtain rfl := Option.some.inj h
          rfl

theorem writeCall_pcb {fd : Int} {buf : Option Bytes} {nbytes : Int} {r : Kernel × Int32}
    (h : writeCall cfg k fd buf nbytes = some r) : r.1.pcb p = k.pcb p := by
  unfold writeCall at h
  split at h
  · obtain rfl := Option.some.inj h
    rfl
  · split at h
    · cases h
    · split_ifs at h
      · split at h
        · obtain rfl := Option.some.inj h
          rfl
        · split at h
          · cases h
          · cases h
          all_goals (obtain rfl := Option.some.inj h; rfl)
      · obtain rfl := Option.some.inj h
        rfl

theorem closeCall_pcb {fd : Int} {r : Kernel × Int32} (hother : k.currentPcb? ≠ some p)
    (h : closeCall k fd = some r) : r.1.pcb p = k.pcb p := by
  unfold closeCall at h
  split at h
  · obtain rfl := Option.some.inj h
    rfl
  · split at h
    · cases h
    · next q hq =>
        have hne : p ≠ q := by
          rintro rfl
          exact hother hq
        split_ifs at h
        · split at h
          · cases h
          · cases h
          all_goals obtain rfl := Option.some.inj h
          · unfold rtcClose
            split_ifs
            · rfl
            · exact pcb_setFdTable_of_ne hne _
          · exact pcb_setFdTable_of_ne hne _
          · exact pcb_setFdTable_of_ne hne _
          · rfl
          · rfl
        · obtain rfl := Option.some.inj h
          rfl

theorem vidmap_pcb {screenStart : Nat} {r : Kernel × Int32} (h : vidmap cfg k screenStart = some r) :
    r.1.pcb p = k.pcb p := by
  unfold vidmap at h
  split_ifs at h
  · obtain rfl := Option.some.inj h
    rfl
  · obtain rfl := Option.some.inj h
    rfl
  · simp only at h
    split_ifs at h
    obtain rfl := Option.some.inj h
    rfl

/-- A device operation changes no PCB but that of the running process. -/
theorem step_device_pcb {op : Op} {out : Out} (hop : op.isDevice = true) (hother : k.currentPcb? ≠ some p)
    (h : k.step cfg op = some (k', out)) : k'.pcb p = k.pcb p := by
  cases op with
  | execute | halt | exception | terminalSwitch => cases hop
  | openFile filename dentry =>
      obtain ⟨r, hr, heq⟩ := Option.map_eq_some_iff.1 h
      cases heq
      exact openFile_pcb hother hr
  | read fd buf nbytes line =>
      obtain ⟨r, hr, heq⟩ := Option.map_eq_some_iff.1 h
      cases heq
      exact readCall_pcb hother hr
  | write fd buf nbytes =>
      obtain ⟨r, hr, heq⟩ := Option.map_eq_some_iff.1 h
      cases heq
      exact writeCall_pcb hr
  | close fd =>
      obtain ⟨r, hr, heq⟩ := Option.map_eq_some_iff.1 h
      cases heq
      exact closeCall_pcb hother hr
  | getargs buf nbytes =>
      obtain ⟨r, hr, heq⟩ := Option.map_eq_some_iff.1 h
      cases heq
      rw [getargs_kernel hr]
  | vidmap screenStart =>
      obtain ⟨r, hr, heq⟩ := Option.map_eq_some_iff.1 h
      cases heq
      exact vidmap_pcb hr
  | putc | clear | scroll | backspace =>
      cases Option.some.inj h
      rfl
  | userStore va b =>
      obtain ⟨pa, _, heq⟩ := Option.map_eq_some_iff.1 h
      cases heq
      rfl

/-! ## One operation -/

/-- Does the running program bring the operation about, by a call or by a fault? -/
def Op.isOwn : Op → Bool
  | .terminalSwitch .. | .putc _ | .clear | .scroll | .backspace | .userStore .. => false
  | _ => true

/-- An operation that is not one of process `p`: it is brought about by another process, or by none. -/
def Foreign (p : Slot) (k : Kernel) (op : Op) : Prop := k.currentPcb? = some p → op.isOwn = false

/-- The process is in the session of terminal `t`, running or not. -/
def InSession (t : Terminal) (p : Slot) (k : Kernel) : Prop :=
  k.ProgramEnds ∧ ∃ stack, Sessions k stack ∧ p ∈ stack t

/-- A process stays in its session, except that it ends itself. -/
theorem inSession_step {op : Op} {out : Out} (h : InSession t p k)
    (hother : op.endsProcess = true → k.currentPcb? ≠ some p) (hstep : k.step cfg op = some (k', out)) :
    InSession t p k' := by
  obtain ⟨hends, stack, hs, hp⟩ := h
  obtain ⟨stack', he⟩ := step_effect hs hends hstep
  refine ⟨next_programEnds hends (by rw [Kernel.next, hstep]; rfl), stack', he.sessions hs, ?_⟩
  cases he with
  | stay => exact hp
  | @launched _ _ i =>
      by_cases ht : k.currTerminal = t
      · subst ht
        rw [Function.update_self]
        exact List.mem_cons_of_mem i hp
      · rwa [Function.update_of_ne (Ne.symm ht)]
  | @botched _ _ i =>
      by_cases ht : k.currTerminal = t
      · subst ht
        rw [Function.update_self]
        exact List.mem_cons_of_mem i hp
      · rwa [Function.update_of_ne (Ne.symm ht)]
  | @ended _ _ _ _ p' q rest _ ends top =>
      by_cases ht : k.currTerminal = t
      · subst ht
        -- the process that ends is the running one
        obtain ⟨r, rest', hr, -, hpcb⟩ := hs.running
        rw [top] at hr hp
        obtain ⟨rfl, -⟩ := List.cons.inj hr
        rw [Function.update_self]
        refine List.mem_of_ne_of_mem ?_ hp
        rintro rfl
        exact hother ends.endsProcess hpcb
      · rwa [Function.update_of_ne (Ne.symm ht)]
  | restarted => exact hp
  | @opened _ _ _ u _ _ _ first =>
      have hne : t ≠ u := by
        rintro rfl
        rw [first] at hp
        cases hp
      rwa [Function.update_of_ne hne]
  | visited => exact hp

theorem Foreign.endsProcess {op : Op} (h : Foreign p k op) (hop : op.endsProcess = true) :
    k.currentPcb? ≠ some p := by
  intro hcur
  have hown := h hcur
  cases op with
  | halt | exception => cases hown
  | _ => cases hop

/-- What is not its own doing leaves the descriptors of a process alone. -/
theorem step_fdTable {op : Op} {out : Out} (hs : Sessions k stack) (hp : p ∈ stack t) (hforeign : Foreign p k op)
    (h : k.step cfg op = some (k', out)) : (k'.pcb p).fdTable = (k.pcb p).fdTable := by
  cases op with
  | execute | halt | exception | terminalSwitch =>
      obtain ⟨esp, ebp, hpcb⟩ := step_pcb hs hp rfl hforeign.endsProcess h
      rw [hpcb]
  | putc | clear | scroll | backspace =>
      cases Option.some.inj h
      rfl
  | userStore va b =>
      obtain ⟨pa, _, heq⟩ := Option.map_eq_some_iff.1 h
      cases heq
      rfl
  | openFile | read | write | close | getargs | vidmap =>
      refine congrArg Pcb.fdTable (step_device_pcb rfl (fun hcur => ?_) h)
      cases hforeign hcur

/-! ## One event -/

/-- The event is not the doing of process `p`, and no store of it reaches the PCB of `p`. -/
def Elsewhere (cfg : Config) (map : KernelMap) (p : Slot) (k : Kernel) : KernelEvent → Prop
  | .op op => Foreign p k op
  | .shortcut .. => True
  | .pointer call rest _ => k.currentPcb? ≠ some p ∧ Disjoint (call.cells cfg map rest k) (pcbCells p)

theorem InSession.same (h : InSession t p k) (hsame : SameProcs k k') : InSession t p k' := by
  obtain ⟨hends, stack, hs, hp⟩ := h
  exact ⟨hsame.programEnds hends, stack, hs.same hsame, hp⟩

/-- The running process is in the session of its terminal. -/
theorem InSessions.running (h : InSessions k) (hp : k.currentPcb? = some p) : InSession k.currTerminal p k := by
  obtain ⟨hends, stack, hs⟩ := h
  obtain ⟨q, rest, hq, -, hpcb⟩ := hs.running
  obtain rfl : p = q := Option.some.inj (hp.symm.trans hpcb)
  exact ⟨hends, stack, hs, by rw [hq]; exact List.mem_cons_self⟩

/-- Events leave a process in its session, except that it ends itself. -/
theorem InSession.occurs {ev : KernelEvent} {out : Out} (h : InSession t p k)
    (hother : ∀ op, ev.CarriesOut op → op.endsProcess = true → k.currentPcb? ≠ some p)
    (hoccurs : Occurs cfg map k ev k' out) : InSession t p k' := by
  obtain ⟨-, stack, hs, -⟩ := id h
  obtain ⟨q, _, -, -, hq⟩ := hs.running
  obtain ⟨k1, hsame, ⟨rfl, -⟩ | ⟨op, hop, hstep⟩⟩ := hoccurs.procs hq
  · exact h.same hsame
  · refine inSession_step (h.same hsame) (fun hends => ?_) hstep
    rw [hsame.currentPcb?]
    exact hother op hop hends

/-- The state of a process while others run. -/
structure Waiting (t : Terminal) (p : Slot) (table : FdTable) (args : Bytes) (k : Kernel) : Prop where
  inSession : InSession t p k
  fdTable : (k.pcb p).fdTable = table
  args : (k.pcb p).args = args

variable {table : FdTable} {args : Bytes}

theorem Waiting.step {op : Op} {out : Out} (h : Waiting t p table args k) (hforeign : Foreign p k op)
    (hstep : k.step cfg op = some (k', out)) : Waiting t p table args k' := by
  obtain ⟨-, stack, hs, hp⟩ := h.inSession
  exact ⟨inSession_step h.inSession hforeign.endsProcess hstep,
    (step_fdTable hs hp hforeign hstep).trans h.fdTable,
    (step_args hs hp hforeign.endsProcess hstep).trans h.args⟩

/-- What a pointer call does before it faults, if it does, leaves a waiting process waiting. -/
theorem Waiting.pointerCall {call : PointerCall} {rest : Bytes} (h : Waiting t p table args k)
    (hother : k.currentPcb? ≠ some p) (hclear : Disjoint (call.cells cfg map rest k) (pcbCells p)) :
    Waiting t p table args (k.pointerCall cfg map rest call).state ∧
      (k.pointerCall cfg map rest call).state.currentPcb? = k.currentPcb? := by
  obtain ⟨-, stack, hs, -⟩ := id h.inSession
  obtain ⟨q, _, -, -, hq⟩ := hs.running
  have hne : p ≠ q := by
    rintro rfl
    exact hother hq
  have hsame := sameProcs_of_processes (@pointerCall_processes cfg map rest k q call hq)
  have hpcb := pointerCall_pcb hq hne hclear
  refine ⟨⟨h.inSession.same hsame, ?_, ?_⟩, hsame.currentPcb?⟩
  · rw [hpcb]
    exact h.fdTable
  · rw [hpcb]
    exact h.args

/-- An event elsewhere leaves a waiting process waiting. -/
theorem Waiting.occurs {ev : KernelEvent} {out : Out} (h : Waiting t p table args k) (hclosed : OffClosed table)
    (helse : Elsewhere cfg map p k ev) (hoccurs : Occurs cfg map k ev k' out) : Waiting t p table args k' := by
  cases hoccurs with
  | op _ hstep => exact h.step helse hstep
  | shortcut ran =>
      obtain ⟨q, -, hdevice⟩ := testShortcut_byDevice ran
      refine ⟨h.inSession.same hdevice.sameProcs, ?_, (hdevice.offDevices (args_offDevices p)).trans h.args⟩
      refine (testShortcut_fdTable (fun _ => ?_) ran).trans h.fdTable
      rw [h.fdTable]
      exact hclosed
  | @returned call rest _ _ _ done =>
      have hw := (h.pointerCall helse.1 helse.2).1
      rwa [done] at hw
  | @faulted call rest loc k1 _ va _ stopped step =>
      obtain ⟨hw, hcur⟩ := h.pointerCall helse.1 helse.2
      rw [stopped] at hw hcur
      have hcur1 : k1.currentPcb? = k.currentPcb? := hcur
      have hother : Foreign p k1 (.exception 14 (UInt32.ofNat va) loc) := fun hp =>
        absurd (hcur1.symm.trans hp) helse.1
      exact Waiting.step (k := k1) hw hother step

/-! ## Until the process runs again -/

/-- The other processes and the interrupts have brought some events about, and `p` runs again. What the
    keyboard has ready and what the stack of the kernel holds may be anything then. -/
structure OthersRan (cfg : Config) (p : Slot) (m m' : Machine) : Prop where
  log : m'.log = m.log
  back : m'.kernel.currentPcb? = some p
  ran : ∃ map events, Runs.AllSteps (Kernel.after cfg map) (Elsewhere cfg map p) m.kernel events ∧
    Runs.run (Kernel.after cfg map) m.kernel events = some m'.kernel

/-- The process runs, in the session of terminal `t`, and has closed what it does not use. -/
structure RunsOn (t : Terminal) (p : Slot) (m : Machine) : Prop where
  running : m.kernel.currentPcb? = some p
  inSession : InSession t p m.kernel
  closed : OffClosed (m.kernel.pcb p).fdTable

/-- The others leave the process alone. -/
theorem run_others {m m' : Machine} (hm : RunsOn t p m) (h : OthersRan cfg p m m') :
    LeavesAlone p m m' ∧ RunsOn t p m' := by
  obtain ⟨map, events, hall, hrun⟩ := h.ran
  have hend : Waiting t p (m.kernel.pcb p).fdTable (m.kernel.pcb p).args m'.kernel := by
    refine Runs.run_preserves (fun k ev k' hw helse hafter => ?_) ⟨hm.inSession, rfl, rfl⟩ hall hrun
    obtain ⟨out, hoccurs⟩ := occurs_of_after hafter
    exact hw.occurs hm.closed helse hoccurs
  refine ⟨⟨h.log, h.back.trans hm.running.symm, hend.fdTable, hend.args⟩, h.back, hend.inSession, ?_⟩
  rw [hend.fdTable]
  exact hm.closed

theorem othersRan_refl {m : Machine} (h : m.kernel.currentPcb? = some p) : OthersRan cfg p m m :=
  ⟨rfl, h, smallMap, [], trivial, rfl⟩

theorem userCall_isDevice (m : Machine) (c : UserCall) : (c.op m).isDevice = true := by
  cases c <;> rfl

/-- The process goes on after each device operation of its own. -/
theorem RunsOn.device {m : Machine} {op : Op} {out : Out} (hm : RunsOn t p m) (hdevice : op.isDevice = true)
    (h : m.kernel.step cfg op = some (k', out)) : k'.currentPcb? = some p ∧ InSession t p k' ∧
      OffClosed (k'.pcb p).fdTable := by
  have hsame := (step_device hdevice h).1
  exact ⟨hsame.currentPcb?.trans hm.running, hm.inSession.same hsame, (offClosed_stable cfg p).step h hm.closed⟩

/-- The process goes on after each of its own calls. -/
theorem runsOn_serve {m m' : Machine} {c : UserCall} {r : Answer} (hm : RunsOn t p m)
    (h : m.serve cfg c = some (m', r)) : RunsOn t p m' := by
  unfold Machine.serve at h
  split at h
  · next k v buf hstep =>
      cases h
      obtain ⟨hcur, hin, hclosed⟩ := hm.device (userCall_isDevice m c) hstep
      exact ⟨hcur, hin, hclosed⟩
  · cases h

/-! ## Where programs begin -/

/-- The command of the program an event enters, if it enters one: where nobody has given a command, it is a
    base shell. -/
def KernelEvent.program : KernelEvent → Option Bytes
  | .op (.execute comm _) => comm
  | _ => some shellCommand

/-- In `k1`, at boot or after any events from then on, the program of the command `comm` begins in slot `p`,
    on terminal `t`. -/
def Begins (cfg : Config) (comm : Bytes) (t : Terminal) (p : Slot) (k1 : Kernel) : Prop :=
  k1.currTerminal = t ∧ k1.currentPcb? = some p ∧ ∃ machine k0 loc0 entryPoint0,
    boot cfg machine loc0 = .started k0 entryPoint0 ∧ ((k1 = k0 ∧ comm = shellCommand) ∨
      ∃ map events k ev entryPoint, Runs.run (Kernel.after cfg map) k0 events = some k ∧
        k.occur cfg map ev = some (k1, .entered entryPoint) ∧ ev.program = some comm)

theorem haltReturn_entered {status : UInt8} {entryPoint : UInt32}
    (h : (haltReturn k status).toStep = some (k', .entered entryPoint)) : False := by
  unfold haltReturn at h
  simp only at h
  split at h
  · split at h <;> cases h
  · cases h

/-- `halt` enters a base shell. -/
theorem halt_entered {status : UInt8} {entryPoint : UInt32}
    (h : (halt cfg k status loc).toStep = some (k', .entered entryPoint)) :
    ∃ k0, execute cfg k0 (some shellCommand) loc = .started k' entryPoint := by
  unfold halt at h
  split at h
  · cases h
  · simp only at h
    split_ifs at h
    · split at h
      · next hex =>
          cases h
          exact ⟨_, hex⟩
      · cases h
      · exact (haltReturn_entered h).elim
    · exact (haltReturn_entered h).elim

/-- `terminal_switch` enters a base shell. -/
theorem terminalSwitch_entered {newTerminal esp ebp : Nat} {entryPoint : UInt32}
    (h : (terminalSwitch cfg k newTerminal esp ebp loc).toStep = some (k', .entered entryPoint)) :
    ∃ k0, execute cfg k0 (some shellCommand) loc = .started k' entryPoint := by
  unfold terminalSwitch at h
  split_ifs at h
  · cases h
  · cases h
  · split at h
    · cases h
    · simp only at h
      split at h
      · cases h
      · split_ifs at h
        · split at h
          · next hex =>
              cases h
              exact ⟨_, hex⟩
          · cases h
          · cases (resumeTerminal_eq_some h).2
        · cases (resumeTerminal_eq_some h).2

/-- A program is entered by its `execute`. -/
theorem occurs_entered {ev : KernelEvent} {entryPoint : UInt32}
    (h : Occurs cfg map k ev k' (.entered entryPoint)) :
    ∃ k0 comm loc, ev.program = some comm ∧ execute cfg k0 (some comm) loc = .started k' entryPoint := by
  have hexception : ∀ {k1 : Kernel} {i : Nat} {cr2 : UInt32} {loc : Locals},
      k1.step cfg (.exception i cr2 loc) = some (k', .entered entryPoint) →
        ∃ k0, execute cfg k0 (some shellCommand) loc = .started k' entryPoint := by
    intro k1 i cr2 loc hstep
    change (exceptionHandler cfg k1 i cr2 loc).toStep = some (k', .entered entryPoint) at hstep
    rw [exceptionHandler_eq] at hstep
    exact halt_entered hstep
  -- a program starts in an `execute`: its own, that of a base shell or that of a first visit
  cases h with
  | faulted _ step =>
      obtain ⟨k0, hex⟩ := hexception step
      exact ⟨k0, _, _, rfl, hex⟩
  | @op op _ _ _ step =>
      by_cases hdevice : op.isDevice = true
      · cases (step_device hdevice step).2
      · cases op with
        | execute comm loc =>
            change (execute cfg k comm loc).toStep = some (k', .entered entryPoint) at step
            cases comm with
            | none => cases step
            | some comm =>
                cases hex : execute cfg k (some comm) loc with
                | started k1 entryPoint1 =>
                    rw [hex] at step
                    cases step
                    exact ⟨k, comm, loc, rfl, hex⟩
                | failed e k1 | fault k1 =>
                    rw [hex] at step
                    cases step
        | halt status loc =>
            obtain ⟨k0, hex⟩ := halt_entered step
            exact ⟨k0, _, _, rfl, hex⟩
        | exception i cr2 loc =>
            obtain ⟨k0, hex⟩ := hexception step
            exact ⟨k0, _, _, rfl, hex⟩
        | terminalSwitch newTerminal esp ebp loc =>
            obtain ⟨k0, hex⟩ := terminalSwitch_entered step
            exact ⟨k0, _, _, rfl, hex⟩
        | _ => exact absurd rfl hdevice

/-- Where a program begins, an `execute` has just started it, and the sessions are in order. -/
theorem Begins.started {comm : Bytes} {k1 : Kernel} (h : Begins cfg comm t p k1) :
    (∃ k0 loc entryPoint, execute cfg k0 (some comm) loc = .started k1 entryPoint) ∧ InSessions k1 := by
  obtain ⟨-, -, machine, k0, loc0, entryPoint0, hboot, ⟨rfl, rfl⟩ | ⟨map, events, k, ev, entryPoint, hrun, hoccur,
    hprogram⟩⟩ := h
  · exact ⟨⟨_, _, _, hboot⟩, @runEvents_sessions cfg smallMap k1 machine k1 loc0 entryPoint0 [] hboot rfl⟩
  · have hoccurs := occurs_of_occur hoccur
    obtain ⟨k2, comm', loc, hcomm, hex⟩ := occurs_entered hoccurs
    obtain rfl := Option.some.inj (hprogram.symm.trans hcomm)
    exact ⟨⟨k2, loc, entryPoint, hex⟩, hoccurs.inSessions (runEvents_sessions hboot hrun)⟩

/-- It begins with a fresh table, and with the arguments of its command. -/
theorem Begins.at_start {comm : Bytes} {m : Machine} (h : Begins cfg comm t p m.kernel) (hlog : m.log = []) :
    m.At p fdTableInit [] ∧ Terminated.Spells (m.kernel.pcb p).args (argumentText comm) := by
  obtain ⟨⟨k0, loc, entryPoint, hex⟩, -⟩ := h.started
  obtain ⟨i, hi, -⟩ := execute_started hex
  obtain ⟨hat, hspells⟩ := started_at hi hex rfl hlog
  obtain rfl : p = i := Option.some.inj (h.2.1.symm.trans hat.running)
  exact ⟨hat, hspells⟩

theorem Begins.runsOn {comm : Bytes} {m : Machine} (h : Begins cfg comm t p m.kernel) : RunsOn t p m := by
  have htable := (Begins.at_start (m := { m with log := [] }) h rfl).1.fdTable
  have hin := h.started.2.running h.2.1
  rw [h.1] at hin
  refine ⟨h.2.1, hin, ?_⟩
  rw [show (m.kernel.pcb p).fdTable = fdTableInit from htable]
  exact fdTableInit_offClosed

/-- A shell with any arguments on the small machine. -/
theorem begins_small {comm : Bytes} (hcomm : ∀ i < 5, comm i = shellCommand i) (hend : comm 5 = 32 ∨ comm 5 = 0) :
    ∃ k1, Begins smallConfig comm smallBooted.currTerminal 3 k1 := by
  obtain ⟨entryPoint0, hboot, -⟩ := smallBooted_spec
  obtain ⟨k1, entryPoint, hex, hst⟩ := @execute_shell_word smallConfig smallBooted comm (localsAt 0)
    smallConfig_hasShell _ smallBooted_freeSlot hcomm hend
  have hoccur : smallBooted.occur smallConfig smallMap (.op (.execute (some comm) (localsAt 0)))
      = some (k1, .entered entryPoint) := by
    simp only [Kernel.occur, Op.storesAnywhere, Bool.false_eq_true, if_false, Kernel.step, hex, ExecResult.toStep]
  have hat := (started_at (m := ⟨k1, [], ⟨fun _ => 0, 0, 0⟩, emptyBuf⟩) smallBooted_freeSlot hex rfl rfl).1
  exact ⟨k1, hst.currTerminal, hat.running, smallMachine, smallBooted, localsAt 0, entryPoint0, hboot,
    Or.inr ⟨smallMap, [], smallBooted, _, entryPoint, rfl, hoccur, rfl⟩⟩

/-- A program that does its work if it is left alone does it among the other processes. -/
theorem exec_among_others {α : Type} {prog : Program α} {Q : α → Machine → Prop} {m : Machine}
    (h : Prog.Ensures (Machine.serve cfg) (LeavesAlone p) prog Q m) (hm : RunsOn t p m)
    {between : Nat → Machine → Machine} (hbetween : ∀ n m, RunsOn t p m → OthersRan cfg p m (between n m)) :
    ∃ a m', prog.exec (Machine.serve cfg) between 0 m = some (a, m') ∧ Q a m' :=
  h.exec_of_invariant (fun n _ hm => run_others hm (hbetween n _ hm)) (fun hm hserve => runsOn_serve hm hserve)
    hm 0

end BaseOs
