import BaseOs.Keyboard.Shortcuts
import BaseOs.Process.Table

set_option autoImplicit false

/-! # `execute`, `halt` and `terminal_switch` step by step

System calls run with interrupts on, so the keyboard can come in between any two steps of `execute`
and `halt`. Each terminal has one thread of control in the kernel. `Point` is the step it takes next;
only the current terminal's thread runs, the others are frozen where they are. Every step is one of the
accesses of the source to the shared tables, with the same helper functions `execute` and `halt` are
made of: without interrupts they make up the whole call (`execute_uninterrupted`). -/

namespace BaseOs

open Kernel

variable (cfg : Config)

/-! ## Threads -/

/-- Who called `execute`: a program, `halt` for a base shell that starts again, `terminal_switch` on
    the first visit to a terminal, or the end of boot. -/
inductive Caller
  | program
  | restart (status : UInt8)
  | first
  | boot

/-- What `execute` goes on with once it has found the program. -/
structure Call where
  file : ProgramFile
  loc : Locals
  caller : Caller

/-- The next step of a thread. -/
inductive Point
  /-- In the program. -/
  | user
  /-- Past the end of `entry`, in the `hlt` loop. -/
  | stopped
  /-- `execute`: parse the command and look the program up. -/
  | lookUp (comm : Bytes) (loc : Locals) (caller : Caller)
  /-- `execute`: test `in_use[i]`. -/
  | scan (i : Nat) (call : Call)
  /-- `execute`: `in_use[i] = 1`. -/
  | reserve (i : Slot) (call : Call)
  /-- `execute`: create the PCB. -/
  | create (i : Slot) (call : Call)
  /-- `execute`: `current_process[curr_terminal] = i`. -/
  | enter (i : Slot) (call : Call)
  /-- `execute`: everything after that. -/
  | load (i : Slot) (call : Call)
  /-- `halt`: close the descriptors, test `process_id < 3`. -/
  | close (status : UInt8) (loc : Locals)
  /-- `halt` of a base shell: `in_use[process_id] = 0`. -/
  | free (status : UInt8) (loc : Locals)
  /-- `halt`: `in_use[current_process[curr_terminal]] = 0`. -/
  | release (status : UInt8)
  /-- `halt`: `current_process[curr_terminal] = parent_id`, and the switch to the parent. -/
  | toParent

/-- The kernel and its three threads. -/
structure Threads where
  kernel : Kernel
  point : Terminal → Point

/-- What happens when `execute` returns `-1`: back to the program, on in `halt`, on in
    `terminal_switch`, or on to the `hlt` loop. -/
def Caller.failed (k : Kernel) : Caller → Option (Kernel × Point)
  | .program => some (k, .user)
  | .restart status => some (k, .release status)
  | .first =>
    match resumeTerminal k with
    | .resumed k _ _ => some (k, .user)
    | _ => none
  | .boot => some (k, .stopped)

/-- The first half of the end of `halt`: up to `in_use[current_process[curr_terminal]] = 0`. -/
def releaseSlot (k : Kernel) (status : UInt8) : Option Kernel :=
  match slot? (k.currentProcess k.currTerminal), k.currentPcb? with
  | some i, some _ =>
    some { k with
      extendedStatus := status.toUInt32 + k.exceptionFlag
      exceptionFlag := 0
      inUse := Function.update k.inUse i 0 }
  | _, _ => none

/-- The second half: on to the parent. -/
def returnToParent (k : Kernel) : Option Kernel :=
  match k.currentPcb? with
  | none => none
  | some p =>
    let k := { k with
      currentProcess := Function.update k.currentProcess k.currTerminal (k.pcb p).parentId }
    let k := { k with
      paging := addProcess k.paging (UInt32.ofInt (k.currentProcess k.currTerminal)) }
    match k.currentPcb? with
    | some q => some { k with esp0 := (k.pcb q).currentEsp }
    | none => none

/-- Parse the command and look the program up. -/
def lookUpStep (k : Kernel) (comm : Bytes) (loc : Locals) (caller : Caller) :
    Option (Kernel × Point) :=
  match findProgram cfg (commandWord comm loc) loc with
  | .error _ => caller.failed (withArgs k comm loc)
  | .ok file => some (withArgs k comm loc, .scan 0 ⟨file, loc, caller⟩)

/-- One test of the slot search. -/
def scanStep (k : Kernel) (i : Nat) (call : Call) : Option (Kernel × Point) :=
  if h : i < 8 then
    if k.inUse ⟨i, h⟩ = 0 then some (k, .reserve ⟨i, h⟩ call) else some (k, .scan (i + 1) call)
  else call.caller.failed (k.printf (ascii "Maximum Possible Processes. Stop and Reconsider.\n"))

/-- The rest of `execute`. -/
def loadStep (k : Kernel) (i : Slot) (call : Call) : Option (Kernel × Point) :=
  match loadProgram cfg (initProcess k i) i call.file call.loc with
  | .started k _ => some (k, .user)
  | .failed _ k => call.caller.failed k
  | .fault _ => none

/-- The start of `halt`. -/
def closeStep (k : Kernel) (status : UInt8) (loc : Locals) : Option (Kernel × Point) :=
  match k.currentPcb? with
  | none => none
  | some p =>
    some (k.setFdTable p closeAllFd,
      if (k.pcb p).processId.toNat < 3 then .free status loc else .release status)

/-- `in_use[process_id] = 0`, and on to `execute("shell")`. -/
def freeStep (k : Kernel) (status : UInt8) (loc : Locals) : Option (Kernel × Point) :=
  match k.currentPcb? with
  | none => none
  | some p =>
    if h : (k.pcb p).processId.toNat < 8 then
      some ({ k with inUse := Function.update k.inUse ⟨(k.pcb p).processId.toNat, h⟩ 0 },
        .lookUp shellCommand loc (.restart status))
    else none

/-- One step of the thread of the current terminal. -/
def advance (k : Kernel) : Point → Option (Kernel × Point)
  | .user => none
  | .stopped => none
  | .lookUp comm loc caller => lookUpStep cfg k comm loc caller
  | .scan i call => scanStep k i call
  | .reserve i call => some (reserveSlot k i, .create i call)
  | .create i call => some (createPcb k i, .enter i call)
  | .enter i call => some (enterProcess k i, .load i call)
  | .load i call => loadStep cfg k i call
  | .close status loc => closeStep k status loc
  | .free status loc => freeStep k status loc
  | .release status => (releaseSlot k status).map fun k => (k, .toParent)
  | .toParent => (returnToParent k).map fun k => (k, .user)

/-! ## Interrupts -/

/-- `terminal_switch` in an interrupt: everything up to `sti`. On a first visit the new terminal's
    thread begins with `execute("shell")`, else it goes on where it was frozen. -/
def Threads.interrupt (s : Threads) (newTerminal esp ebp : Nat) (loc : Locals) : Option Threads :=
  if newTerminal = s.kernel.currTerminal.val then some s
  else if h : newTerminal ≥ 3 then some s
  else
    match s.kernel.currentPcb? with
    | none => none
    | some p =>
      let k := s.kernel.setPcb p { s.kernel.pcb p with returnEsp := esp, returnEbp := ebp }
      let k := { k with oldTerminal := k.currTerminal, currTerminal := ⟨newTerminal, terminal_lt h⟩ }
      match switchScreens cfg k with
      | none => none
      | some k =>
        if k.currentProcess k.currTerminal = -1 then
          let slot : Slot := ⟨k.currTerminal.val, k.currTerminal_lt⟩
          some ⟨{ k with inUse := Function.update k.inUse slot 0 },
            Function.update s.point k.currTerminal (.lookUp shellCommand loc .first)⟩
        else
          match resumeTerminal k with
          | .resumed k _ _ => some ⟨k, s.point⟩
          | _ => none

/-- What can happen next: the running program makes a call, its thread takes a step in the kernel, or
    the keyboard interrupts to switch terminals or with one of the test shortcuts. `service` is any other
    operation of the running program; it has no part in the process tables, so it is one step. -/
inductive ThreadEvent
  | execute (comm : Option Bytes) (loc : Locals)
  | halt (status : UInt8) (loc : Locals)
  | service (op : Op)
  | step
  | interrupt (newTerminal esp ebp : Nat) (loc : Locals)
  | shortcut (shortcut : TestShortcut) (loc : ShortcutLocals)

/-- The running program makes a call. -/
def Threads.call (s : Threads) (point : Point) : Option Threads :=
  match s.point s.kernel.currTerminal with
  | .user => some { s with point := Function.update s.point s.kernel.currTerminal point }
  | _ => none

/-- One event. -/
def Threads.next (s : Threads) : ThreadEvent → Option Threads
  | .execute none _ => s.call .user
  | .execute (some comm) loc => s.call (.lookUp comm loc .program)
  | .halt status loc => s.call (.close status loc)
  | .service op =>
    match s.point s.kernel.currTerminal with
    | .user => if op.isDevice then (s.kernel.next cfg op).map fun k => ⟨k, s.point⟩ else none
    | _ => none
  | .step =>
    (advance cfg s.kernel (s.point s.kernel.currTerminal)).map fun r =>
      ⟨r.1, Function.update s.point s.kernel.currTerminal r.2⟩
  | .interrupt newTerminal esp ebp loc => s.interrupt cfg newTerminal esp ebp loc
  | .shortcut shortcut loc => (s.kernel.testShortcut cfg shortcut loc).map fun k => ⟨k, s.point⟩

/-- The kernel when the first shell is about to start, with interrupts on. -/
def Threads.start (machine : Kernel) (loc : Locals) : Threads :=
  ⟨bootState cfg machine, Function.update (fun _ => .user) 0 (.lookUp shellCommand loc .boot)⟩

/-! ## Without interrupts -/

section Uninterrupted

variable {cfg : Config} {s s' : Threads} {loc : Locals} {call : Call}

/-- Some steps of the current thread lead from `s` to `s'`. -/
def Threads.Steps (cfg : Config) (s s' : Threads) : Prop :=
  ∃ n, Runs.run (Threads.next cfg) s (List.replicate n .step) = some s'

theorem Threads.Steps.refl (s : Threads) : Threads.Steps cfg s s := ⟨0, rfl⟩

theorem Threads.Steps.step {s1 : Threads} (hstep : s.next cfg .step = some s1)
    (hrest : Threads.Steps cfg s1 s') : Threads.Steps cfg s s' := by
  obtain ⟨n, hn⟩ := hrest
  exact ⟨n + 1, Runs.run_cons_eq_some.2 ⟨s1, hstep, hn⟩⟩

/-- A thread at a known point takes the step of that point. -/
theorem Threads.next_step {k k1 : Kernel} {point point1 : Point} {pts : Terminal → Point}
    (hpoint : pts k.currTerminal = point) (h : advance cfg k point = some (k1, point1)) :
    (⟨k, pts⟩ : Threads).next cfg .step = some ⟨k1, Function.update pts k.currTerminal point1⟩ := by
  simp only [Threads.next, hpoint, h, Option.map_some]

theorem advance_scan_free {k : Kernel} {i : Slot} (h : k.inUse i = 0) :
    advance cfg k (.scan i.val call) = some (k, .reserve i call) := by
  change scanStep k i.val call = _
  unfold scanStep
  rw [dif_pos i.isLt, if_pos h]

theorem advance_scan_used {k : Kernel} {j : Nat} (hlt : j < 8) (h : k.inUse ⟨j, hlt⟩ ≠ 0) :
    advance cfg k (.scan j call) = some (k, .scan (j + 1) call) := by
  change scanStep k j call = _
  unfold scanStep
  rw [dif_pos hlt, if_neg h]

/-- The slot search: one test for each slot up to the first free one. -/
theorem scan_steps {k : Kernel} {i : Slot} (hfree : k.inUse i = 0) (d : Nat) :
    ∀ (pts : Terminal → Point) (j : Nat), j + d = i.val →
      (∀ m : Slot, j ≤ m.val → m < i → k.inUse m ≠ 0) → pts k.currTerminal = .scan j call →
      Threads.Steps cfg ⟨k, pts⟩ ⟨k, Function.update pts k.currTerminal (.reserve i call)⟩ := by
  induction d with
  | zero =>
      intro pts j hj _ hpoint
      obtain rfl : j = i.val := by omega
      exact .step (Threads.next_step hpoint (advance_scan_free hfree)) (.refl _)
  | succ d ih =>
      intro pts j hj hused hpoint
      have hlt : j < 8 := by omega
      have hne : k.inUse ⟨j, hlt⟩ ≠ 0 :=
        hused ⟨j, hlt⟩ (le_refl _) (Fin.lt_def.2 (by simp only; omega))
      have hrest := ih (Function.update pts k.currTerminal (.scan (j + 1) call)) (j + 1)
        (by omega) (fun m hm hmi => hused m (by omega) hmi) (Function.update_self ..)
      rw [Function.update_idem] at hrest
      exact .step (Threads.next_step hpoint (advance_scan_used hlt hne)) hrest

/-- With every slot taken the search runs to the end. -/
theorem scan_full {k : Kernel} (hfull : ∀ m, k.inUse m ≠ 0) (d : Nat) :
    ∀ (pts : Terminal → Point) (j : Nat), j + d = 8 → pts k.currTerminal = .scan j call →
      Threads.Steps cfg ⟨k, pts⟩ ⟨k, Function.update pts k.currTerminal (.scan 8 call)⟩ := by
  induction d with
  | zero =>
      intro pts j hj hpoint
      obtain rfl : j = 8 := by omega
      rw [← hpoint, Function.update_eq_self]
      exact .refl _
  | succ d ih =>
      intro pts j hj hpoint
      have hlt : j < 8 := by omega
      have hrest := ih (Function.update pts k.currTerminal (.scan (j + 1) call)) (j + 1)
        (by omega) (Function.update_self ..)
      rw [Function.update_idem] at hrest
      exact .step (Threads.next_step hpoint (advance_scan_used hlt (hfull ⟨j, hlt⟩))) hrest

theorem Threads.Steps.trans {s1 : Threads} (h : Threads.Steps cfg s s1)
    (h' : Threads.Steps cfg s1 s') : Threads.Steps cfg s s' := by
  obtain ⟨n, hn⟩ := h
  obtain ⟨m, hm⟩ := h'
  refine ⟨n + m, ?_⟩
  rw [List.replicate_add]
  exact Runs.run_append_eq_some.2 ⟨s1, hn, hm⟩

/-- From the reservation on, the steps are the second part of `execute`. -/
theorem reserve_steps {k k' : Kernel} {pts : Terminal → Point} {i : Slot} {e : UInt32}
    (hpoint : pts k.currTerminal = .reserve i call)
    (h : loadProgram cfg (setUp k i) i call.file call.loc = .started k' e ∨
      ∃ err, call.caller = .program ∧
        loadProgram cfg (setUp k i) i call.file call.loc = .failed err k') :
    Threads.Steps cfg ⟨k, pts⟩ ⟨k', Function.update pts k.currTerminal .user⟩ := by
  have hload : advance cfg (enterProcess (createPcb (reserveSlot k i) i) i) (.load i call)
      = some (k', .user) := by
    change loadStep cfg _ i call = _
    unfold loadStep
    rcases h with hstart | ⟨err, hcaller, hfail⟩
    · rw [show loadProgram cfg (initProcess (enterProcess (createPcb (reserveSlot k i) i) i) i) i
        call.file call.loc = .started k' e from hstart]
    · rw [show loadProgram cfg (initProcess (enterProcess (createPcb (reserveSlot k i) i) i) i) i
        call.file call.loc = .failed err k' from hfail, hcaller]
      rfl
  have hterm : ∀ point1 point2, Function.update (Function.update pts k.currTerminal point1)
      k.currTerminal point2 = Function.update pts k.currTerminal point2 :=
    fun _ _ => Function.update_idem _ _ _
  refine .step (Threads.next_step hpoint (rfl : advance cfg k (.reserve i call)
    = some (reserveSlot k i, .create i call))) ?_
  refine .step (Threads.next_step (Function.update_self ..)
    (rfl : advance cfg (reserveSlot k i) (.create i call)
      = some (createPcb (reserveSlot k i) i, .enter i call))) ?_
  refine .step (Threads.next_step (Function.update_self ..)
    (rfl : advance cfg (createPcb (reserveSlot k i) i) (.enter i call)
      = some (enterProcess (createPcb (reserveSlot k i) i) i, .load i call))) ?_
  refine .step (Threads.next_step (Function.update_self ..) hload) ?_
  simp only [show (reserveSlot k i).currTerminal = k.currTerminal from rfl,
    show (createPcb (reserveSlot k i) i).currTerminal = k.currTerminal from rfl,
    show (enterProcess (createPcb (reserveSlot k i) i) i).currTerminal = k.currTerminal from rfl,
    hterm]
  exact .refl _

/-- `execute` from the start up to the reservation of the first free slot. -/
theorem search_steps {k : Kernel} {pts : Terminal → Point} {c : Bytes} {caller : Caller}
    {file : ProgramFile} {i : Slot} (hpoint : pts k.currTerminal = .lookUp c loc caller)
    (hfind : findProgram cfg (commandWord c loc) loc = .ok file) (hfree : freeSlot k = some i) :
    Threads.Steps cfg ⟨k, pts⟩ ⟨withArgs k c loc,
      Function.update pts k.currTerminal (.reserve i ⟨file, loc, caller⟩)⟩ := by
  have hadv : advance cfg k (.lookUp c loc caller)
      = some (withArgs k c loc, .scan 0 ⟨file, loc, caller⟩) := by
    change lookUpStep cfg k c loc caller = _
    unfold lookUpStep
    rw [hfind]
  refine .step (Threads.next_step hpoint hadv) ?_
  obtain ⟨hzero, hused⟩ := freeSlot_eq_some.1 hfree
  have hsearch := @scan_steps cfg ⟨file, loc, caller⟩ (withArgs k c loc) i hzero i.val
    (Function.update pts k.currTerminal (.scan 0 ⟨file, loc, caller⟩)) 0 (by omega)
    (fun m _ hm => hused m hm) (Function.update_self ..)
  rwa [show (withArgs k c loc).currTerminal = k.currTerminal from rfl, Function.update_idem] at hsearch

/-- A whole `execute` that starts its program, whoever called it. -/
theorem started_steps {k k' : Kernel} {pts : Terminal → Point} {c : Bytes} {caller : Caller}
    {e : UInt32} (hpoint : pts k.currTerminal = .lookUp c loc caller)
    (hex : execute cfg k (some c) loc = .started k' e) :
    Threads.Steps cfg ⟨k, pts⟩ ⟨k', Function.update pts k.currTerminal .user⟩ := by
  rw [execute_some] at hex
  cases hfind : findProgram cfg (commandWord c loc) loc with
  | error err =>
      rw [hfind] at hex
      cases hex
  | ok file =>
      rw [hfind] at hex
      cases hfree : freeSlot k with
      | none =>
          simp only [hfree] at hex
          cases hex
      | some i =>
          simp only [hfree] at hex
          have hrest := @reserve_steps cfg ⟨file, loc, caller⟩ (withArgs k c loc) k'
            (Function.update pts k.currTerminal (.reserve i ⟨file, loc, caller⟩)) i e
            (Function.update_self ..) (Or.inl hex)
          rw [show (withArgs k c loc).currTerminal = k.currTerminal from rfl, Function.update_idem]
            at hrest
          exact (search_steps hpoint hfind hfree).trans hrest

/-- A program's `execute` that finds every slot in use. -/
theorem full_steps {k : Kernel} {pts : Terminal → Point} {c : Bytes} {file : ProgramFile}
    (hpoint : pts k.currTerminal = .lookUp c loc .program)
    (hfind : findProgram cfg (commandWord c loc) loc = .ok file) (hfree : freeSlot k = none) :
    Threads.Steps cfg ⟨k, pts⟩
      ⟨(withArgs k c loc).printf (ascii "Maximum Possible Processes. Stop and Reconsider.\n"),
        Function.update pts k.currTerminal .user⟩ := by
  have hadv : advance cfg k (.lookUp c loc .program)
      = some (withArgs k c loc, .scan 0 ⟨file, loc, .program⟩) := by
    change lookUpStep cfg k c loc .program = _
    unfold lookUpStep
    rw [hfind]
  have hfull : ∀ m, (withArgs k c loc).inUse m ≠ 0 := by
    intro m
    unfold freeSlot at hfree
    rw [Fin.find?_eq_none_iff] at hfree
    have hm : k.inUse m ≠ 0 := by simpa using hfree m
    exact hm
  have hlast : advance cfg (withArgs k c loc) (.scan 8 ⟨file, loc, .program⟩)
      = some ((withArgs k c loc).printf (ascii "Maximum Possible Processes. Stop and Reconsider.\n"),
        .user) := by
    change scanStep (withArgs k c loc) 8 ⟨file, loc, .program⟩ = _
    unfold scanStep
    rw [dif_neg (by omega)]
    rfl
  have hterm : (withArgs k c loc).currTerminal = k.currTerminal := rfl
  refine .step (Threads.next_step hpoint hadv) ?_
  refine (scan_full hfull 8 _ 0 rfl (Function.update_self ..)).trans ?_
  refine .step (Threads.next_step (Function.update_self ..) hlast) ?_
  rw [hterm, Function.update_idem, Function.update_idem]
  exact .refl _

/-- A program's `execute` that fails, wherever it does. -/
theorem failed_steps {k k' : Kernel} {pts : Terminal → Point} {c : Bytes} {err : ExecError}
    (hpoint : pts k.currTerminal = .lookUp c loc .program)
    (hex : execute cfg k (some c) loc = .failed err k') :
    Threads.Steps cfg ⟨k, pts⟩ ⟨k', Function.update pts k.currTerminal .user⟩ := by
  rw [execute_some] at hex
  cases hfind : findProgram cfg (commandWord c loc) loc with
  | error e =>
      rw [hfind] at hex
      cases hex
      have hadv : advance cfg k (.lookUp c loc .program) = some (withArgs k c loc, .user) := by
        change lookUpStep cfg k c loc .program = _
        unfold lookUpStep
        rw [hfind]
        rfl
      exact .step (Threads.next_step hpoint hadv) (.refl _)
  | ok file =>
      rw [hfind] at hex
      cases hfree : freeSlot k with
      | none =>
          simp only [hfree] at hex
          cases hex
          exact full_steps hpoint hfind hfree
      | some i =>
          simp only [hfree] at hex
          have hrest := @reserve_steps cfg ⟨file, loc, .program⟩ (withArgs k c loc) k'
            (Function.update pts k.currTerminal (.reserve i ⟨file, loc, .program⟩)) i
            (entryPointOf file.buf) (Function.update_self ..) (Or.inr ⟨err, rfl, hex⟩)
          rw [show (withArgs k c loc).currTerminal = k.currTerminal from rfl, Function.update_idem]
            at hrest
          exact (search_steps hpoint hfind hfree).trans hrest

/-- Without interrupts the steps of `execute` make up the whole call: they lead to the state the call
    ends in, and back to the program. -/
theorem execute_uninterrupted (huser : s.point s.kernel.currTerminal = .user) (c : Bytes)
    {k' : Kernel} {r : ExecResult} (hex : execute cfg s.kernel (some c) loc = r)
    (hr : (∃ entryPoint, r = .started k' entryPoint) ∨ ∃ e, r = .failed e k') :
    ∃ s1, s.next cfg (.execute (some c) loc) = some s1 ∧ Threads.Steps cfg s1 ⟨k', s.point⟩ := by
  obtain ⟨k, pts⟩ := s
  have huser' : pts k.currTerminal = .user := huser
  have hback : Function.update pts k.currTerminal .user = pts := by
    rw [← huser', Function.update_eq_self]
  have hself : Function.update pts k.currTerminal (.lookUp c loc .program) k.currTerminal
      = .lookUp c loc .program := Function.update_self ..
  have hsteps : Threads.Steps cfg ⟨k, Function.update pts k.currTerminal (.lookUp c loc .program)⟩
      ⟨k', Function.update (Function.update pts k.currTerminal (.lookUp c loc .program))
        k.currTerminal .user⟩ := by
    rcases hr with ⟨entryPoint, rfl⟩ | ⟨err, rfl⟩
    · exact started_steps hself hex
    · exact failed_steps hself hex
  rw [Function.update_idem, hback] at hsteps
  refine ⟨_, ?_, hsteps⟩
  simp only [Threads.next, Threads.call, huser']

end Uninterrupted

end BaseOs
