import BaseOs.Keyboard.Shortcuts
import BaseOs.Process.Arguments
import BaseOs.Syscall.TableSafety

set_option autoImplicit false

/-! # What can happen in the kernel

Besides the operations there are the test shortcuts of the keyboard, and the calls that store wherever the
program tells them to. An event is any of these. Whatever it is, the process tables are changed by the
operation in it only (`Occurs.procs`), so the sessions of a booted kernel are in order after any
events (`runEvents_sessions`). -/

namespace BaseOs

open Kernel Cells

/-! ## Events -/

/-- The calls that store through a pointer; `line` is the line that releases `keyboard_read`. -/
inductive PointerCall
  | read (fd : Int) (buf : Nat) (nbytes : Int) (line : Bytes)
  | getargs (buf : Nat) (nbytes : Int)

/-- A call with a buffer at an address, any other operation, or a test shortcut that comes back. `rest` is
    what is in the part of the kernel that is not kept track of, `loc` is for `exception_handler`. -/
inductive KernelEvent
  | op (op : Op)
  | shortcut (shortcut : TestShortcut) (loc : ShortcutLocals)
  | pointer (call : PointerCall) (rest : Bytes) (loc : Locals)

section Step

variable (cfg : Config) (map : KernelMap) (rest : Bytes)

def Kernel.pointerCall (k : Kernel) : PointerCall → CallOutcome
  | .read fd buf nbytes line => Pointer.read cfg map rest k fd buf nbytes line
  | .getargs buf nbytes => Pointer.getargs cfg map rest k buf nbytes

/-- The cells a call may store into. -/
def PointerCall.cells (k : Kernel) : PointerCall → Set Cell
  | .read fd buf nbytes _ => Pointer.readCells cfg map rest k fd buf nbytes
  | .getargs buf nbytes => Pointer.getargsCells cfg map rest k buf nbytes

/-- An event, and what the processor goes on with. -/
def Kernel.occur (k : Kernel) : KernelEvent → Option (Kernel × Out)
  | .op op => if op.storesAnywhere then none else k.step cfg op
  | .shortcut shortcut loc => (k.testShortcut cfg shortcut loc).map fun k => (k, .resumed)
  | .pointer call rest loc => (k.pointerCall cfg map rest call).toStep cfg loc

/-- The state after an event. -/
def Kernel.after (k : Kernel) (ev : KernelEvent) : Option Kernel := (k.occur cfg map ev).map Prod.fst

/-- How an event goes. -/
inductive Occurs (k : Kernel) : KernelEvent → Kernel → Out → Prop
  | op {op : Op} {k' : Kernel} {out : Out} (plain : op.storesAnywhere = false)
      (step : k.step cfg op = some (k', out)) : Occurs k (.op op) k' out
  | shortcut {shortcut : TestShortcut} {loc : ShortcutLocals} {k' : Kernel}
      (ran : k.testShortcut cfg shortcut loc = some k') : Occurs k (.shortcut shortcut loc) k' .resumed
  | returned {call : PointerCall} {rest : Bytes} {loc : Locals} {k' : Kernel} {v : Int32}
      (done : k.pointerCall cfg map rest call = .done k' v) :
      Occurs k (.pointer call rest loc) k' (.ret v emptyBuf)
  | faulted {call : PointerCall} {rest : Bytes} {loc : Locals} {k1 k' : Kernel} {va : Nat} {out : Out}
      (stopped : k.pointerCall cfg map rest call = .stopped k1 (.fault va))
      (step : k1.step cfg (.exception 14 (UInt32.ofNat va) loc) = some (k', out)) :
      Occurs k (.pointer call rest loc) k' out

end Step

variable {cfg : Config} {map : KernelMap} {rest : Bytes} {C : Set Cell} {k k' : Kernel} {p q : Slot}
  {ev : KernelEvent} {out : Out} {call : PointerCall} {stack : Terminal → List Slot}

theorem occurs_of_occur (h : k.occur cfg map ev = some (k', out)) : Occurs cfg map k ev k' out := by
  cases ev with
  | op op =>
      change (if op.storesAnywhere then none else k.step cfg op) = some (k', out) at h
      split_ifs at h with hplain
      exact .op (by simpa using hplain) h
  | shortcut shortcut loc =>
      obtain ⟨k1, hran, heq⟩ := Option.map_eq_some_iff.1 h
      cases heq
      exact .shortcut hran
  | pointer call rest loc =>
      change (k.pointerCall cfg map rest call).toStep cfg loc = some (k', out) at h
      cases ho : k.pointerCall cfg map rest call with
      | done k1 v =>
          rw [ho] at h
          cases h
          exact .returned ho
      | stopped k1 why =>
          rw [ho] at h
          cases why with
          | fault va => exact .faulted ho h
          | stray | wild | endless => cases h

theorem occurs_of_after (h : k.after cfg map ev = some k') : ∃ out, Occurs cfg map k ev k' out := by
  obtain ⟨⟨k1, out⟩, hoccur, rfl⟩ := Option.map_eq_some_iff.1 h
  exact ⟨out, occurs_of_occur hoccur⟩

theorem after_op {op : Op} (hplain : op.storesAnywhere = false) (h : k.next cfg op = some k') :
    k.after cfg map (.op op) = some k' := by
  unfold Kernel.after Kernel.occur
  simp only [hplain, Bool.false_eq_true, if_false]
  exact h

/-! ## What the calls leave alone -/

/-- What the stores of a call do not break, nor its routines, holds when it ends or stops. -/
theorem pointerCall_survives {P : Kernel → Prop} (hP : Survives map C p k P) (hk : P k)
    (hp : k.currentPcb? = some p) (hC : call.cells cfg map rest k ⊆ C) (hrow : ∀ row, P (k.setRow row))
    (hreleased : ∀ line, P (k.released line)) : P (k.pointerCall cfg map rest call).state := by
  cases call with
  | read fd buf nbytes line => exact read_survives hP hk hp hC (fun _ row => hrow row) fun _ => hreleased line
  | getargs buf nbytes => exact hP.wrote (getargs_wrote hC) hk

/-- What no store of a call reaches, and its routines do not change, is as before when it ends or stops. -/
theorem pointerCall_keeps {α : Type*} {f : Kernel → α} (hf : Unreached map C p f)
    (hp : k.currentPcb? = some p) (hC : call.cells cfg map rest k ⊆ C)
    (hrow : ∀ row, f (k.setRow row) = f k) (hreleased : ∀ line, f (k.released line) = f k) :
    f (k.pointerCall cfg map rest call).state = f k :=
  pointerCall_survives (hf.survives k) rfl hp hC hrow hreleased

/-- What the process tables are made of. -/
def Kernel.processes (k : Kernel) :=
  (k.currTerminal, k.currentProcess, k.processArray, k.inUse, fun p => (k.pcb p).core, k.exceptionFlag, k.esp0,
    k.paging)

theorem sameProcs_of_processes (h : k'.processes = k.processes) : SameProcs k k' := by
  simp only [Kernel.processes, Prod.mk.injEq] at h
  obtain ⟨hterm, hcur, harray, huse, hcore, hflag, hesp, hpaging⟩ := h
  exact ⟨hterm, hcur, harray, huse, congrFun hcore, hflag, hesp, fun j _ => by rw [hpaging]⟩

/-- Pointers lead to no process table. -/
theorem processes_unreached (map : KernelMap) (p : Slot) : Unreached map Set.univ p Kernel.processes where
  store k c b k' _ h := by
    have hcore : (fun j => (k'.pcb j).core) = fun j => (k.pcb j).core := by
      funext j
      cases c with
      | args q i =>
          obtain rfl := Option.some.inj h
          exact @core_update_of_core k.pcb q { k.pcb q with args := Function.update (k.pcb q).args i b } rfl j
      | entry q i word byte =>
          obtain rfl := Option.some.inj h
          exact (sameProcs_setFdTable k q _).core j
      | kernel pa => cases h
      | saved t i | memory pa =>
          obtain rfl := Option.some.inj h
          rfl
    unfold Kernel.processes
    rw [hcore, storeCell_fixed h]
  setConsole _ _ := rfl
  rtc _ _ := rfl
  setFdTable k table := by
    have hcore : (fun j => ((k.setFdTable p table).pcb j).core) = fun j => (k.pcb j).core :=
      funext (sameProcs_setFdTable k p table).core
    unfold Kernel.processes
    rw [hcore]
    rfl

theorem pointerCall_processes (hp : k.currentPcb? = some p) :
    (k.pointerCall cfg map rest call).state.processes = k.processes :=
  pointerCall_keeps (processes_unreached map p) hp (Set.subset_univ _) (fun _ => rfl) fun _ => rfl

/-- The cells of the PCB of `p` that are kept track of. -/
def pcbCells (p : Slot) : Set Cell := {c | ∃ i, c = .args p i} ∪ tableCells p

/-- The PCB of a process that does not run, if no store reaches it. -/
theorem pcb_unreached (hne : p ≠ q) (hC : Disjoint C (pcbCells p)) :
    Unreached map C q fun k => k.pcb p where
  store k c b k' hc h := by
    have hnot : c ∉ pcbCells p := Set.disjoint_left.1 hC hc
    cases c with
    | saved t i | memory pa =>
        obtain rfl := Option.some.inj h
        rfl
    | kernel pa => cases h
    | args r i =>
        obtain rfl := Option.some.inj h
        exact Function.update_of_ne (fun heq => hnot (Or.inl ⟨i, by rw [heq]⟩)) _ _
    | entry r i word byte =>
        obtain rfl := Option.some.inj h
        exact Function.update_of_ne (fun heq => hnot (Or.inr ⟨i, word, byte, by rw [heq]⟩)) _ _
  setConsole _ _ := rfl
  rtc _ _ := rfl
  setFdTable _ _ := Function.update_of_ne hne _ _

theorem pointerCall_pcb (hq : k.currentPcb? = some q) (hne : p ≠ q)
    (hclear : Disjoint (call.cells cfg map rest k) (pcbCells p)) :
    (k.pointerCall cfg map rest call).state.pcb p = k.pcb p :=
  pointerCall_keeps (pcb_unreached hne hclear) hq subset_rfl (fun _ => rfl) fun _ => rfl

/-! ## The process tables -/

theorem SameProcs.programEnds (h : SameProcs k k') (hends : k.ProgramEnds) : k'.ProgramEnds := by
  unfold ProgramEnds
  rw [h.directory _ (by decide)]
  exact hends

/-- Does the event carry out this operation? A page fault in a call is an exception. -/
def KernelEvent.CarriesOut (op : Op) : KernelEvent → Prop
  | .op op' => op = op'
  | .shortcut .. => False
  | .pointer _ _ loc => ∃ cr2, op = .exception 14 cr2 loc

/-- An event changes the process tables by the operation it carries out, if any. -/
theorem Occurs.procs (h : Occurs cfg map k ev k' out) (hp : k.currentPcb? = some p) :
    ∃ k1, SameProcs k k1 ∧ ((k' = k1 ∧ out.goesOn = true) ∨
      ∃ op, ev.CarriesOut op ∧ k1.step cfg op = some (k', out)) := by
  cases h with
  | @op op _ _ _ step => exact ⟨k, sameProcs_refl k, Or.inr ⟨op, rfl, step⟩⟩
  | shortcut ran =>
      obtain ⟨q, -, hdevice⟩ := testShortcut_byDevice ran
      exact ⟨k', hdevice.sameProcs, Or.inl ⟨rfl, rfl⟩⟩
  | @returned call rest loc _ v done =>
      have hsame := @pointerCall_processes cfg map rest k p call hp
      rw [done] at hsame
      exact ⟨k', sameProcs_of_processes hsame, Or.inl ⟨rfl, rfl⟩⟩
  | @faulted call rest loc k1 _ va _ stopped step =>
      have hsame := @pointerCall_processes cfg map rest k p call hp
      rw [stopped] at hsame
      exact ⟨k1, sameProcs_of_processes hsame, Or.inr ⟨_, ⟨_, rfl⟩, step⟩⟩

/-- The sessions are in order. -/
def InSessions (k : Kernel) : Prop := k.ProgramEnds ∧ ∃ stack, Sessions k stack

theorem SameProcs.inSessions (h : SameProcs k k') (hk : InSessions k) : InSessions k' := by
  obtain ⟨hends, stack, hs⟩ := hk
  exact ⟨h.programEnds hends, stack, hs.same h⟩

theorem step_inSessions {op : Op} (hk : InSessions k) (h : k.step cfg op = some (k', out)) : InSessions k' := by
  obtain ⟨hends, stack, hs⟩ := hk
  obtain ⟨stack', he⟩ := step_effect hs hends h
  exact ⟨next_programEnds hends (by rw [Kernel.next, h]; rfl), stack', he.sessions hs⟩

theorem Occurs.inSessions (h : Occurs cfg map k ev k' out) (hk : InSessions k) : InSessions k' := by
  obtain ⟨-, stack, hs⟩ := id hk
  obtain ⟨p, rest, -, -, hp⟩ := hs.running
  obtain ⟨k1, hsame, ⟨rfl, -⟩ | ⟨op, -, hstep⟩⟩ := h.procs hp
  · exact hsame.inSessions hk
  · exact step_inSessions (hsame.inSessions hk) hstep

/-- From boot on the sessions are in order, whatever happens. -/
theorem runEvents_sessions {machine k0 : Kernel} {loc0 : Locals} {entryPoint : UInt32}
    {events : List KernelEvent} (hboot : boot cfg machine loc0 = .started k0 entryPoint)
    (hrun : Runs.run (Kernel.after cfg map) k0 events = some k) : InSessions k := by
  have hstart : InSessions k0 := @run_sessions cfg k0 machine k0 loc0 entryPoint [] hboot rfl
  refine Runs.run_preserves (P := fun _ _ => True) (fun k ev k' hk _ hafter => ?_) hstart
    (Runs.allSteps_of_forall (fun _ _ => trivial) _ _) hrun
  obtain ⟨out, h⟩ := occurs_of_after hafter
  exact h.inSessions hk

/-! ## Descriptors that are not in use -/

/-- No store of the event reaches a descriptor table. -/
def KernelEvent.SparesTables (cfg : Config) (map : KernelMap) (k : Kernel) : KernelEvent → Prop
  | .pointer call rest _ => ∀ p, Disjoint (call.cells cfg map rest k) (tableCells p)
  | .op _ | .shortcut .. => True

/-- What the running process does not use stays closed: a call moves positions of open entries only. -/
theorem running_survives (hC : Disjoint C (tableCells p)) :
    Survives map C p k fun s => OffClosed (s.pcb p).fdTable ∧
      ∀ i, ((s.pcb p).fdTable i).fdJump = ((k.pcb p).fdTable i).fdJump where
  store s c b s' hc hstore hs := by
    rw [storeCell_fdTable (Set.disjoint_left.1 hC hc) hstore]
    exact hs
  printf _ hs := hs
  rtc _ hs := hs
  moved s i amt hjump hs := by
    obtain ⟨hclosed, hsame⟩ := hs
    have hon : ((s.pcb p).fdTable i).flags ≠ fdOff := by
      intro hoff
      rw [← hsame, hclosed i hoff] at hjump
      exact hjump rfl
    rw [fdTable_setFdTable]
    exact ⟨hclosed.kept fun j => entryKept_addOffset hon amt j, fun j =>
      (addOffset_entry _ _ amt j).1.trans (hsame j)⟩

/-- The table of a process that does not run, if no store reaches it. -/
theorem fdTable_unreached (hne : p ≠ q) (hC : Disjoint C (tableCells p)) :
    Unreached map C q fun k => (k.pcb p).fdTable where
  store _ _ _ _ hc hstore := storeCell_fdTable (Set.disjoint_left.1 hC hc) hstore
  setConsole _ _ := rfl
  rtc _ _ := rfl
  setFdTable _ _ := congrArg Pcb.fdTable (Function.update_of_ne hne _ _)

theorem pointerCall_freeClosed (hk : FreeClosed k) (hq : k.currentPcb? = some q)
    (hclear : ∀ p, Disjoint (call.cells cfg map rest k) (tableCells p)) :
    FreeClosed (k.pointerCall cfg map rest call).state := by
  intro i p hp
  rw [(sameProcs_of_processes (@pointerCall_processes cfg map rest k q call hq)).processArray] at hp
  by_cases hpq : p = q
  · subst hpq
    exact (pointerCall_survives (running_survives (hclear p)) ⟨hk i p hp, fun _ => rfl⟩ hq subset_rfl
      (fun _ => ⟨hk i p hp, fun _ => rfl⟩) fun _ => ⟨hk i p hp, fun _ => rfl⟩).1
  · rw [pointerCall_keeps (fdTable_unreached hpq (hclear p)) hq subset_rfl (fun _ => rfl) fun _ => rfl]
    exact hk i p hp

theorem Occurs.freeClosed (h : Occurs cfg map k ev k' out) (hk : FreeClosed k) (hq : k.currentPcb? = some q)
    (hclear : ev.SparesTables cfg map k) : FreeClosed k' := by
  cases h with
  | op _ step => exact (freeClosed_stable cfg).step step hk
  | shortcut ran =>
      obtain ⟨p, -, hdevice⟩ := testShortcut_byDevice ran
      exact hdevice.stable (freeClosed_stable cfg) hk
  | @returned call rest loc _ v done =>
      have hend := pointerCall_freeClosed hk hq hclear
      rwa [done] at hend
  | @faulted call rest loc k1 _ va _ stopped step =>
      have hend := pointerCall_freeClosed hk hq hclear
      rw [stopped] at hend
      exact (freeClosed_stable cfg).step step hend

/-- From boot on, as long as no pointer leads into a descriptor table, what a process does not use is
    closed. -/
theorem runEvents_freeClosed {machine k0 : Kernel} {loc0 : Locals} {entryPoint : UInt32}
    {events : List KernelEvent} (hboot : boot cfg machine loc0 = .started k0 entryPoint)
    (hclear : Runs.AllSteps (Kernel.after cfg map) (fun k ev => ev.SparesTables cfg map k) k0 events)
    (hrun : Runs.run (Kernel.after cfg map) k0 events = some k) : FreeClosed k := by
  have hstart : InSessions k0 ∧ FreeClosed k0 :=
    ⟨@run_sessions cfg k0 machine k0 loc0 entryPoint [] hboot rfl,
      (freeClosed_stable cfg).execute_of hboot fun _ _ h => by cases h⟩
  refine (Runs.run_preserves (I := fun k => InSessions k ∧ FreeClosed k) (fun k ev k' hk hclear hafter => ?_)
    hstart hclear hrun).2
  obtain ⟨out, h⟩ := occurs_of_after hafter
  obtain ⟨-, stack, hs⟩ := id hk.1
  obtain ⟨p, _, -, -, hp⟩ := hs.running
  exact ⟨h.inSessions hk.1, h.freeClosed hk.2 hp hclear⟩

end BaseOs
