import BaseOs.Process.Sessions

set_option autoImplicit false

/-! # What the operations do to the sessions

`step_effect`: in a state with sessions, every operation that goes through has one of the effects of
`Effect`. One lemma per source function, each followed through all its exits. -/

namespace BaseOs

open Kernel

variable {cfg : Config} {k k' : Kernel} {stack : Terminal → List Slot} {loc : Locals}

/-! ## Mapping a process -/

theorem addProcess_ofInt (pg : Paging) (p : Slot) :
    (addProcess pg (UInt32.ofInt (p.val : Int))).pageDirectory processIdx = processEntry p := by
  have hcast : UInt32.ofInt (p.val : Int) = UInt32.ofNat p.val := by
    revert p
    decide
  rw [hcast]
  exact addProcess_entry p

/-! ## `execute` -/

theorem Started.entered {i : Slot} (h : Started cfg k i loc k') :
    Entered k k.currTerminal i k' where
  currTerminal := h.currTerminal
  inUse := h.inUse
  processArray := h.processArray
  currentProcess := h.currentProcess
  core_of_ne j hj := by rw [h.pcb_of_ne j hj]
  processId := h.processId
  parentId := h.parentId

theorem Started.mapped {i : Slot} (h : Started cfg k i loc k') : Mapped k' i where
  esp0 := h.esp0
  entry := by rw [h.paging]; exact addProcess_entry i

-- by `simp`: with `rfl` the two states are compared field by field first
theorem setUp_exceptionFlag (k : Kernel) (c : Bytes) (loc : Locals) (i : Slot) :
    (setUp (withArgs k c loc) i).exceptionFlag = k.exceptionFlag := by
  simp only [setUp, initProcess, enterProcess, createPcb, reserveSlot, setPcb, withArgs]

/-- The process `execute` has set up when it fails on the magic number. -/
theorem setUp_entered (k : Kernel) (c : Bytes) (loc : Locals) (i : Slot) :
    Entered k k.currTerminal i (setUp (withArgs k c loc) i) where
  currTerminal := by
    simp only [setUp, initProcess, enterProcess, createPcb, reserveSlot, setPcb, withArgs]
  inUse := rfl
  processArray := rfl
  currentProcess := rfl
  core_of_ne j hj := by
    simp only [setUp, initProcess, enterProcess, createPcb, reserveSlot, setPcb, withArgs,
      Function.update_of_ne hj]
  processId := by
    simp only [setUp, initProcess, enterProcess, createPcb, reserveSlot, setPcb,
      Function.update_self]
  parentId := by
    simp only [setUp, initProcess, enterProcess, createPcb, reserveSlot, setPcb, withArgs,
      Function.update_self]

/-- The page above the program page is not mapped, so a program that is too long faults. -/
def Kernel.ProgramEnds (k : Kernel) : Prop :=
  isPresent (k.paging.pageDirectory aboveProgram) = false

theorem execute_effect {comm : Option Bytes} {out : Out} (hends : k.ProgramEnds)
    (h : (execute cfg k comm loc).toStep = some (k', out)) :
    ∃ stack', Effect cfg k stack (.execute comm loc) k' out stack' := by
  cases hex : execute cfg k comm loc with
  | fault k1 =>
      rw [hex] at h
      cases h
  | started k1 entryPoint =>
      rw [hex] at h
      cases h
      obtain ⟨i, hi, hst⟩ := execute_started hex
      exact ⟨_, .launched hi hst.entered hst.currentEsp hst.exceptionFlag hst.mapped⟩
  | failed e k1 =>
      rw [hex] at h
      cases h
      rcases execute_failed hends hex with ⟨-, hsame⟩ | ⟨c, file, i, rfl, -, hi, -, rfl, rfl⟩
      · exact ⟨_, .stay hsame.sameProcs rfl rfl⟩
      · exact ⟨_, .botched hi hex (setUp_entered k c loc i) (setUp_exceptionFlag k c loc i)⟩

/-! ## Starting a base shell -/

/-- With the other base shells' slots taken, the slot of a base shell is the first free one. -/
theorem freeSlot_base {k0 : Kernel} (hs : Sessions k stack) (t : Terminal)
    (hinUse : k0.inUse = Function.update k.inUse (baseSlot t) 0) :
    freeSlot k0 = some (baseSlot t) := by
  rw [freeSlot_eq_some, hinUse]
  refine ⟨Function.update_self .., fun j hj => ?_⟩
  have hlt : j.val < t.val := hj
  have hres : k.inUse j = 1 := hs.reserved ⟨j.val, by omega⟩
  rw [Function.update_of_ne (Fin.ne_of_lt hj), hres]
  decide

/-- A base shell entered after its slot was freed is entered as seen before that. -/
theorem Entered.of_freed {k0 : Kernel} {t : Terminal} {i : Slot} (hi : i.val < 3)
    (he : Entered k0 k0.currTerminal i k') (hcur : k0.currTerminal = t)
    (hinUse : k0.inUse = Function.update k.inUse i 0) (harray : k0.processArray = k.processArray)
    (hprocess : k0.currentProcess = k.currentProcess)
    (hcore : ∀ j, (k0.pcb j).core = (k.pcb j).core) : Entered k t i k' where
  currTerminal := he.currTerminal.trans hcur
  inUse := by rw [he.inUse, hinUse, Function.update_idem]
  processArray := by rw [he.processArray, harray]
  currentProcess := by rw [he.currentProcess, hprocess, hcur]
  core_of_ne j hj := (he.core_of_ne j hj).trans (hcore j)
  processId := he.processId
  parentId := by rw [he.parentId, if_pos hi, if_pos hi]

/-- Going on with the process that has just been entered. -/
theorem Entered.visited {k0 k1 : Kernel} {t : Terminal} {i : Slot} (he : Entered k t i k0)
    (hv : Visited k0 k0.currTerminal k1) : Entered k t i k1 where
  currTerminal := hv.currTerminal.trans he.currTerminal
  inUse := hv.inUse.trans he.inUse
  processArray := hv.processArray.trans he.processArray
  currentProcess := hv.currentProcess.trans he.currentProcess
  core_of_ne j hj := (hv.core j).trans (he.core_of_ne j hj)
  processId := (core_eq_iff.1 (hv.core _)).1.trans he.processId
  parentId := (core_eq_iff.1 (hv.core _)).2.1.trans he.parentId

theorem Visited.trans {k0 k1 : Kernel} {t : Terminal} (hv : Visited k t k0)
    (hv' : Visited k0 k0.currTerminal k1) : Visited k t k1 where
  currTerminal := hv'.currTerminal.trans hv.currTerminal
  inUse := hv'.inUse.trans hv.inUse
  processArray := hv'.processArray.trans hv.processArray
  currentProcess := hv'.currentProcess.trans hv.currentProcess
  core j := (hv'.core j).trans (hv.core j)
  exceptionFlag := hv'.exceptionFlag.trans hv.exceptionFlag

/-! ## `halt` -/

/-- `halt` from `extended_status` on, for a process with a parent. -/
theorem haltReturn_parent {p q : Slot} (hcur : k.currentProcess k.currTerminal = p.val)
    (hp : k.processArray p = some p) (hparent : (k.pcb p).parentId = q.val)
    (hq : k.processArray q = some q) (status : UInt8) :
    ∃ k' esp ebp, haltReturn k status = .returned k' (status.toUInt32 + k.exceptionFlag) esp ebp ∧
      Ended k p q k' := by
  unfold haltReturn
  simp only [currentPcb?, hcur, slot?_val, hp, hparent, hq, Function.update_self]
  exact ⟨_, _, _, rfl, ⟨rfl, rfl, rfl, rfl, fun _ => rfl, rfl, rfl, addProcess_ofInt _ q⟩⟩

/-- A process without a parent has nowhere to return to. -/
theorem haltReturn_root {p : Slot} (hcur : k.currentProcess k.currTerminal = p.val)
    (hp : k.processArray p = some p) (hparent : (k.pcb p).parentId = -1) (status : UInt8) :
    haltReturn k status = .wild := by
  unfold haltReturn
  simp only [currentPcb?, hcur, slot?_val, hp, hparent, Function.update_self, slot?_neg_one]

/-- `halt` once the descriptors are closed and the slot of a base shell is freed. -/
def freed (k : Kernel) (p : Slot) : Kernel :=
  { k.setFdTable p closeAllFd with inUse := Function.update k.inUse p 0 }

/-- `halt` for the process in slot `p`. -/
theorem halt_eq {p : Slot} (hpcb : k.currentPcb? = some p)
    (hid : (k.pcb p).processId.toNat = p.val) (status : UInt8) :
    halt cfg k status loc =
      if p.val < 3 then
        match execute cfg (freed k p) (some shellCommand) loc with
        | .started k entryPoint => .restarted k entryPoint
        | .fault k => .fault k
        | .failed _ k => haltReturn k status
      else haltReturn (k.setFdTable p closeAllFd) status := by
  have hid' : ((k.setFdTable p closeAllFd).pcb p).processId.toNat = p.val := by
    rw [(core_eq_iff.1 ((sameProcs_setFdTable k p closeAllFd).core p)).1]
    exact hid
  unfold halt
  simp only [hpcb]
  by_cases hlt : p.val < 3
  · have hslot : ∀ hb, (⟨((k.setFdTable p closeAllFd).pcb p).processId.toNat, hb⟩ : Slot) = p :=
      fun _ => Fin.ext hid'
    rw [dif_pos (by rw [hid']; exact hlt), if_pos hlt]
    simp only [hslot]
    rfl
  · rw [dif_neg (by rw [hid']; exact hlt), if_neg hlt]

/-- `halt` by a process with a parent always goes through. -/
theorem halt_child {p q : Slot} {rest : List Slot} (hs : Sessions k stack)
    (htop : stack k.currTerminal = p :: q :: rest) (status : UInt8) :
    ∃ k', (halt cfg k status loc).toStep
      = some (k', .handedBack (status.toUInt32 + k.exceptionFlag)) ∧ Ended k p q k' := by
  obtain ⟨p', rest', hp', hcur, hpcb⟩ := hs.running
  obtain ⟨rfl, -⟩ := List.cons.inj (htop.symm.trans hp')
  have hmem : p ∈ stack k.currTerminal := by rw [htop]; exact List.mem_cons_self
  have hge : ¬ p.val < 3 := fun hlt => by cases (hs.base_alone htop hlt).2
  have hsame : SameProcs k (k.setFdTable p closeAllFd) := sameProcs_setFdTable k p closeAllFd
  obtain ⟨hparent, hq⟩ := hs.below htop
  obtain ⟨k1, esp, ebp, hret, hended⟩ := @haltReturn_parent (k.setFdTable p closeAllFd) p q hcur
    (hs.live _ p hmem).2.1 ((core_eq_iff.1 (hsame.core p)).2.1.trans hparent) hq status
  refine ⟨k1, ?_, hended.currTerminal, hended.inUse, hended.processArray, hended.currentProcess,
    fun j => (hended.core j).trans (hsame.core j), hended.exceptionFlag, ?_, hended.entry⟩
  · rw [halt_eq hpcb (hs.processId hmem), if_neg hge, hret]
    rfl
  · rw [hended.esp0, (core_eq_iff.1 (hsame.core q)).2.2]

/-- The two ways `halt` goes through. -/
theorem halt_cases {status : UInt8} {out : Out} (hs : Sessions k stack) (hends : k.ProgramEnds)
    (h : (halt cfg k status loc).toStep = some (k', out)) :
    (∃ p q rest, stack k.currTerminal = p :: q :: rest ∧ Ended k p q k' ∧
      out = .handedBack (status.toUInt32 + k.exceptionFlag)) ∨
    (stack k.currTerminal = [baseSlot k.currTerminal] ∧
      Entered k k.currTerminal (baseSlot k.currTerminal) k' ∧
      (k'.pcb (baseSlot k.currTerminal)).currentEsp = loc.esp ∧
      k'.exceptionFlag = k.exceptionFlag ∧ Mapped k' (baseSlot k.currTerminal) ∧
      ∃ entryPoint, out = .entered entryPoint) := by
  obtain ⟨p, rest, hp, hcur, hpcb⟩ := hs.running
  by_cases hlt : p.val < 3
  · have hmem : p ∈ stack k.currTerminal := by rw [hp]; exact List.mem_cons_self
    have harr := (hs.live _ p hmem).2.1
    have hsame : SameProcs k (k.setFdTable p closeAllFd) := sameProcs_setFdTable k p closeAllFd
    obtain ⟨hbase, hrest⟩ := hs.base_alone hp hlt
    right
    rw [halt_eq hpcb (hs.processId hmem), if_pos hlt] at h
    have hfree : freeSlot (freed k p) = some p := by
      rw [hbase]
      exact freeSlot_base hs k.currTerminal rfl
    cases hex : execute cfg (freed k p) (some shellCommand) loc with
    | fault k1 =>
        rw [hex] at h
        cases h
    | started k1 entryPoint =>
        rw [hex] at h
        cases h
        obtain ⟨i, hi, hst⟩ := execute_started hex
        obtain rfl : p = i := Option.some.inj (hfree.symm.trans hi)
        have he : Entered k k.currTerminal p k' :=
          hst.entered.of_freed hlt rfl rfl rfl rfl hsame.core
        rw [hrest] at hp
        rw [← hbase]
        exact ⟨hp, he, hst.currentEsp, hst.exceptionFlag, hst.mapped, _, rfl⟩
    | failed e k1 =>
        -- the shell did not start again: there is no parent to return to
        exfalso
        rw [hex] at h
        have hroot : haltReturn k1 status = .wild := by
          have hends' : (freed k p).ProgramEnds := hends
          rcases execute_failed hends' hex with ⟨-, htab⟩ | ⟨c, file, i, -, -, hi, -, -, rfl⟩
          · have hparent : (k.pcb p).parentId = -1 := by
              rw [hbase]
              exact hs.bottom _ hs.current
            refine @haltReturn_root k1 p ?_ ?_ ?_ status
            · rw [htab.currentProcess, htab.currTerminal]; exact hcur
            · rw [htab.processArray]; exact harr
            · rw [htab.pcb]
              exact (core_eq_iff.1 (hsame.core p)).2.1.trans hparent
          · obtain rfl : p = i := Option.some.inj (hfree.symm.trans hi)
            have he := setUp_entered (freed k p) c loc p
            refine @haltReturn_root (setUp (withArgs (freed k p) c loc) p) p ?_ ?_ ?_ status
            · rw [he.currentProcess, he.currTerminal, Function.update_self]
            · rw [he.processArray, Function.update_self]
            · rw [he.parentId, if_pos hlt]
        simp only [hroot] at h
        cases h
  · left
    obtain ⟨q, rest', rfl⟩ := hs.has_parent hp hlt
    obtain ⟨k1, hstep, hended⟩ := @halt_child cfg k stack loc p q rest' hs hp status
    rw [hstep] at h
    cases h
    exact ⟨p, q, rest', hp, hended, rfl⟩

theorem halt_effect {status : UInt8} {out : Out} (hs : Sessions k stack) (hends : k.ProgramEnds)
    (h : (halt cfg k status loc).toStep = some (k', out)) :
    ∃ stack', Effect cfg k stack (.halt status loc) k' out stack' := by
  rcases halt_cases hs hends h with ⟨p, q, rest, htop, hended, rfl⟩ |
    ⟨htop, hentered, hesp, hflag, hmapped, entryPoint, rfl⟩
  · exact ⟨_, .ended (.halt status loc) htop hended⟩
  · exact ⟨_, .restarted (.halt status loc) htop hentered hesp hflag hmapped⟩

/-- `halt` by a base shell starts it again. -/
theorem halt_base (hs : Sessions k stack) (hshell : HasShell cfg.fs)
    (htop : stack k.currTerminal = [baseSlot k.currTerminal]) (status : UInt8) :
    ∃ k' entryPoint, (halt cfg k status loc).toStep = some (k', .entered entryPoint) := by
  obtain ⟨p, rest, hp, -, hpcb⟩ := hs.running
  obtain ⟨rfl, -⟩ := List.cons.inj (htop.symm.trans hp)
  have hmem : baseSlot k.currTerminal ∈ stack k.currTerminal := by
    rw [htop]
    exact List.mem_cons_self
  have hlt : (baseSlot k.currTerminal).val < 3 := k.currTerminal.isLt
  obtain ⟨k1, entryPoint, hex, -⟩ := @execute_shell cfg (freed k (baseSlot k.currTerminal)) loc hshell
    _ (freeSlot_base hs k.currTerminal rfl)
  refine ⟨k1, entryPoint, ?_⟩
  rw [halt_eq hpcb (hs.processId hmem), if_pos hlt, hex]
  rfl

/-! ## `exception_handler` -/

/-- The state in which `exception_handler` calls `halt`. -/
def raised (k : Kernel) (i : Nat) (cr2 : UInt32) : Kernel :=
  { (k.setConsole k.console.clear).printf (exceptionText i ++ if i = 14 then cr2Text cr2 else []) with
    exceptionFlag := 1 }

theorem exceptionHandler_eq (cfg : Config) (k : Kernel) (i : Nat) (cr2 : UInt32) (loc : Locals) :
    exceptionHandler cfg k i cr2 loc = halt cfg (raised k i cr2) 255 loc := rfl

theorem raised_sessions (hs : Sessions k stack) (i : Nat) (cr2 : UInt32) :
    Sessions (raised k i cr2) stack :=
  hs.transfer rfl rfl rfl (fun _ => rfl) hs.current

theorem exception_effect {i : Nat} {cr2 : UInt32} {out : Out} (hs : Sessions k stack)
    (hends : k.ProgramEnds) (h : (exceptionHandler cfg k i cr2 loc).toStep = some (k', out)) :
    ∃ stack', Effect cfg k stack (.exception i cr2 loc) k' out stack' := by
  rw [exceptionHandler_eq] at h
  have hends0 : (raised k i cr2).ProgramEnds := hends
  rcases halt_cases (raised_sessions hs i cr2) hends0 h with ⟨p, q, rest, htop, hended, rfl⟩ |
    ⟨htop, hentered, hesp, hflag, hmapped, entryPoint, rfl⟩
  · exact ⟨_, .ended (.exception i cr2 loc) htop ⟨hended.currTerminal, hended.inUse,
      hended.processArray, hended.currentProcess, hended.core, hended.exceptionFlag, hended.esp0,
      hended.entry⟩⟩
  · exact ⟨_, .restarted (.exception i cr2 loc) htop ⟨hentered.currTerminal, hentered.inUse,
      hentered.processArray, hentered.currentProcess, hentered.core_of_ne, hentered.processId,
      hentered.parentId⟩ hesp hflag hmapped⟩

/-- A base shell that dies by an exception starts again. -/
theorem exception_base (hs : Sessions k stack) (hends : k.ProgramEnds) (hshell : HasShell cfg.fs)
    (htop : stack k.currTerminal = [baseSlot k.currTerminal]) (i : Nat) (cr2 : UInt32) :
    ∃ k' entryPoint, k.step cfg (.exception i cr2 loc) = some (k', .entered entryPoint) ∧
      Entered k k.currTerminal (baseSlot k.currTerminal) k' := by
  obtain ⟨k', entryPoint, hstep⟩ :=
    @halt_base cfg (raised k i cr2) stack loc (raised_sessions hs i cr2) hshell htop 255
  have hends0 : (raised k i cr2).ProgramEnds := hends
  refine ⟨k', entryPoint, hstep, ?_⟩
  rcases halt_cases (raised_sessions hs i cr2) hends0 hstep with ⟨p, q, rest, -, -, hout⟩ |
    ⟨-, he, -⟩
  · cases hout
  · exact ⟨he.currTerminal, he.inUse, he.processArray, he.currentProcess, he.core_of_ne,
      he.processId, he.parentId⟩

/-! ## `terminal_switch` -/

/-- All that exchanging the screens does: it writes to memory and maps the pages of the two screens. -/
theorem switchScreens_eq_some (h : switchScreens cfg k = some k') :
    ∃ mem, k' = { k with
      mem := mem
      paging := mapVirtToPhys cfg.lay
        (mapVirtToPhys cfg.lay k.paging (virtVidTerm1 + k.oldTerminal.val * fourKiB)
          (userBack1 + UInt32.ofNat (k.oldTerminal.val * fourKiB)))
        (virtVidTerm1 + k.currTerminal.val * fourKiB) userVideo } := by
  unfold switchScreens at h
  simp only at h
  split at h
  · cases h
  · split at h
    · cases h
    · exact ⟨_, (Option.some.inj h).symm⟩

/-- All that going on with a process does: it maps the process and sets its kernel stack. -/
theorem resumeTerminal_eq_some {out : Out} (h : (resumeTerminal k).toStep = some (k', out)) :
    k' = { k with
      paging := addProcess k.paging (UInt32.ofInt (k.currentProcess k.currTerminal))
      esp0 := stackTop (k.currentProcess k.currTerminal) } ∧ out = .resumed := by
  unfold resumeTerminal at h
  simp only at h
  split at h
  · cases h
    exact ⟨rfl, rfl⟩
  · cases h

/-- Exchanging the screens touches memory and the screen pages only. -/
theorem switchScreens_sameProcs (h : switchScreens cfg k = some k') : SameProcs k k' := by
  obtain ⟨mem, rfl⟩ := switchScreens_eq_some h
  refine ⟨rfl, rfl, rfl, rfl, fun _ => rfl, rfl, rfl, fun j hj => ?_⟩
  exact (mapVirtToPhys_directory k.currTerminal _ hj).trans
    (mapVirtToPhys_directory k.oldTerminal _ hj)

/-- Going on with the process on top of the new terminal's session. -/
theorem resumeTerminal_cases {p : Slot} {out : Out} (hcur : k.currentProcess k.currTerminal = p.val)
    (h : (resumeTerminal k).toStep = some (k', out)) :
    Visited k k.currTerminal k' ∧ Mapped k' p ∧ out = .resumed := by
  obtain ⟨rfl, rfl⟩ := resumeTerminal_eq_some h
  rw [hcur]
  exact ⟨⟨rfl, rfl, rfl, rfl, fun _ => rfl, rfl⟩, ⟨rfl, addProcess_ofInt _ p⟩, rfl⟩

/-- With no process on the new terminal there is nothing to go on with. -/
theorem resumeTerminal_idle (hcur : k.currentProcess k.currTerminal = -1) :
    (resumeTerminal k).toStep = none := by
  unfold resumeTerminal
  simp only [currentPcb?, hcur, slot?_neg_one]
  rfl

/-- `terminal_switch` after the screens are exchanged: the state `execute("shell")` starts from when
    the new terminal has no process yet. -/
def poked (k : Kernel) : Kernel :=
  { k with inUse := Function.update k.inUse (baseSlot k.currTerminal) 0 }

/-- `terminal_switch` to another terminal, up to the exchange of the screens. -/
def switched (k : Kernel) (p : Slot) (t : Terminal) (esp ebp : Nat) : Kernel :=
  { k.setPcb p { k.pcb p with returnEsp := esp, returnEbp := ebp } with
    oldTerminal := k.currTerminal
    currTerminal := t }

theorem switched_core (k : Kernel) (p : Slot) (t : Terminal) (esp ebp : Nat) (j : Slot) :
    ((switched k p t esp ebp).pcb j).core = (k.pcb j).core :=
  @core_update_of_core k.pcb p { k.pcb p with returnEsp := esp, returnEbp := ebp } rfl j

theorem terminalSwitch_eq {p : Slot} {t : Terminal} (hpcb : k.currentPcb? = some p)
    (haway : t ≠ k.currTerminal) (esp ebp : Nat) :
    terminalSwitch cfg k t.val esp ebp loc =
      match switchScreens cfg (switched k p t esp ebp) with
      | none => .wild
      | some k =>
        if k.currentProcess k.currTerminal = -1 then
          match execute cfg (poked k) (some shellCommand) loc with
          | .started k entryPoint => .started k entryPoint
          | .fault k => .fault k
          | .failed _ k => resumeTerminal k
        else resumeTerminal k := by
  have hne : ¬ t.val = k.currTerminal.val := fun h => haway (Fin.ext h)
  have hlt : ¬ t.val ≥ 3 := by
    have := t.isLt
    omega
  unfold terminalSwitch
  rw [if_neg hne, dif_neg hlt]
  simp only [hpcb]
  rfl

/-- Once the screens are exchanged, the new terminal is current and the processes are as they were. -/
theorem switchScreens_visited {p : Slot} {t : Terminal} {esp ebp : Nat}
    (h : switchScreens cfg (switched k p t esp ebp) = some k') : Visited k t k' := by
  have hproc := switchScreens_sameProcs h
  exact ⟨hproc.currTerminal, hproc.inUse, hproc.processArray, hproc.currentProcess,
    fun j => (hproc.core j).trans (switched_core k p t esp ebp j), hproc.exceptionFlag⟩

theorem switchScreens_programEnds {p : Slot} {t : Terminal} {esp ebp : Nat} (hends : k.ProgramEnds)
    (h : switchScreens cfg (switched k p t esp ebp) = some k') : k'.ProgramEnds := by
  have hproc := switchScreens_sameProcs h
  unfold ProgramEnds
  rw [hproc.directory _ (by decide)]
  exact hends

section FirstVisit
variable {k1 : Kernel} {t : Terminal}

theorem poked_inUse (hv : Visited k t k1) :
    (poked k1).inUse = Function.update k.inUse (baseSlot t) 0 := by
  unfold poked
  rw [hv.currTerminal, hv.inUse]

/-- The shell of a terminal that is visited for the first time goes into the terminal's own slot. -/
theorem Visited.freeSlot (hs : Sessions k stack) (hv : Visited k t k1) :
    freeSlot (poked k1) = some (baseSlot t) :=
  freeSlot_base hs t (poked_inUse hv)

theorem Visited.entered (hv : Visited k t k1) (he : Entered (poked k1) (poked k1).currTerminal (baseSlot t) k') :
    Entered k t (baseSlot t) k' :=
  he.of_freed t.isLt hv.currTerminal (poked_inUse hv) hv.processArray hv.currentProcess hv.core

/-- The first visit when the shell starts. -/
theorem firstVisit_started {esp ebp : Nat} {entryPoint : UInt32} (hs : Sessions k stack) (haway : t ≠ k.currTerminal)
    (hidle : stack t = []) (hv : Visited k t k1)
    (h : execute cfg (poked k1) (some shellCommand) loc = .started k' entryPoint) :
    ∃ stack', Effect cfg k stack (.terminalSwitch t.val esp ebp loc) k' (.entered entryPoint) stack' := by
  obtain ⟨i, hi, hst⟩ := execute_started h
  obtain rfl : baseSlot t = i := Option.some.inj ((hv.freeSlot hs).symm.trans hi)
  exact ⟨_, .opened haway hidle (hv.entered hst.entered) (fun _ _ => hst.currentEsp)
    (hst.exceptionFlag.trans hv.exceptionFlag) hst.mapped fun _ h => by cases h⟩

/-- The first visit when the file is no program: the switch goes on with the process `execute` has set up.
    Without a file there is nothing to go on with. -/
theorem firstVisit_failed {esp ebp : Nat} {e : ExecError} {k2 : Kernel} {out : Out} (hs : Sessions k stack)
    (haway : t ≠ k.currTerminal) (hidle : stack t = []) (hv : Visited k t k1) (hends : k1.ProgramEnds)
    (hex : execute cfg (poked k1) (some shellCommand) loc = .failed e k2)
    (h : (resumeTerminal k2).toStep = some (k', out)) :
    ∃ stack', Effect cfg k stack (.terminalSwitch t.val esp ebp loc) k' out stack' := by
  have hends' : (poked k1).ProgramEnds := hends
  rcases execute_failed hends' hex with ⟨-, htab⟩ | ⟨c, file, i, -, -, hi, -, -, rfl⟩
  · have hnone : k2.currentProcess k2.currTerminal = -1 := by
      rw [htab.currentProcess, htab.currTerminal]
      change k1.currentProcess k1.currTerminal = -1
      rw [hv.currentProcess, hv.currTerminal]
      exact hs.idle t hidle
    rw [resumeTerminal_idle hnone] at h
    cases h
  · obtain rfl : baseSlot t = i := Option.some.inj ((hv.freeSlot hs).symm.trans hi)
    have he := hv.entered (setUp_entered (poked k1) c loc (baseSlot t))
    have hcur : (setUp (withArgs (poked k1) c loc) (baseSlot t)).currentProcess
        (setUp (withArgs (poked k1) c loc) (baseSlot t)).currTerminal = (baseSlot t).val := by
      rw [he.currentProcess, he.currTerminal, Function.update_self]
    obtain ⟨hon, hmapped, rfl⟩ := resumeTerminal_cases hcur h
    have hflag := setUp_exceptionFlag (poked k1) c loc (baseSlot t)
    exact ⟨_, .opened haway hidle (he.visited hon) (fun _ h => by cases h)
      (hon.exceptionFlag.trans (hflag.trans hv.exceptionFlag)) hmapped fun _ h => by cases h⟩

end FirstVisit

/-- A process is not in the slot of the base shell of a terminal that has not been visited. -/
theorem Sessions.ne_baseSlot {p : Slot} {t u : Terminal} (hs : Sessions k stack) (hp : p ∈ stack t)
    (hidle : k.currentProcess u = -1) : p ≠ baseSlot u := by
  rintro rfl
  obtain rfl := hs.wf.reserved t u hp
  obtain ⟨p', -, -, hcur, -⟩ := hs.top (List.ne_nil_of_mem hp)
  rw [hcur] at hidle
  omega

/-- What a `terminal_switch` does: nothing, or it exchanges the screens and goes on with the new terminal's
    process. On a first visit it starts a shell before, in a slot that none of the sessions has. -/
theorem terminalSwitch_cases {newTerminal esp ebp : Nat} {out : Out} (hs : Sessions k stack)
    (h : (terminalSwitch cfg k newTerminal esp ebp loc).toStep = some (k', out)) :
    k' = k ∧ out = .resumed ∨
    ∃ (u : Terminal) (q : Slot) (k1 : Kernel), newTerminal = u.val ∧ u ≠ k.currTerminal ∧
      switchScreens cfg (switched k q u esp ebp) = some k1 ∧
      (k.currentProcess u ≠ -1 ∧ (resumeTerminal k1).toStep = some (k', out) ∨
        k.currentProcess u = -1 ∧ (∀ t, ∀ p ∈ stack t, (poked k1).inUse p ≠ 0) ∧
          ((∃ entryPoint, execute cfg (poked k1) (some shellCommand) loc = .started k' entryPoint ∧
              out = .entered entryPoint) ∨
            ∃ e k2, execute cfg (poked k1) (some shellCommand) loc = .failed e k2 ∧
              (resumeTerminal k2).toStep = some (k', out))) := by
  by_cases hsame : newTerminal = k.currTerminal.val
  · unfold terminalSwitch at h
    rw [if_pos hsame] at h
    cases h
    exact Or.inl ⟨rfl, rfl⟩
  by_cases hge : newTerminal ≥ 3
  · unfold terminalSwitch at h
    rw [if_neg hsame, dif_pos hge] at h
    cases h
    exact Or.inl ⟨rfl, rfl⟩
  obtain ⟨u, rfl⟩ : ∃ u : Terminal, newTerminal = u.val := ⟨⟨newTerminal, by omega⟩, rfl⟩
  have haway : u ≠ k.currTerminal := fun h => hsame (congrArg Fin.val h)
  obtain ⟨q, -, -, -, hpcb⟩ := hs.running
  rw [terminalSwitch_eq hpcb haway] at h
  cases hscreens : switchScreens cfg (switched k q u esp ebp) with
  | none =>
      rw [hscreens] at h
      cases h
  | some k1 =>
      rw [hscreens] at h
      have hv := switchScreens_visited hscreens
      simp only [hv.currTerminal, hv.currentProcess] at h
      refine Or.inr ⟨u, q, k1, rfl, haway, hscreens, ?_⟩
      -- no process yet: this is the first visit
      split_ifs at h with hidle
      · refine Or.inr ⟨hidle, fun t p hp => ?_, ?_⟩
        · rw [poked_inUse hv, Function.update_of_ne (hs.ne_baseSlot hp hidle), hs.busy t p hp]
          decide
        cases hex : execute cfg (poked k1) (some shellCommand) loc with
        | started k2 entryPoint =>
            rw [hex] at h
            cases h
            exact Or.inl ⟨entryPoint, rfl, rfl⟩
        | fault k2 =>
            rw [hex] at h
            cases h
        | failed e k2 =>
            rw [hex] at h
            exact Or.inr ⟨e, k2, rfl, h⟩
      · exact Or.inl ⟨hidle, h⟩

theorem terminalSwitch_effect {newTerminal esp ebp : Nat} {out : Out} (hs : Sessions k stack)
    (hends : k.ProgramEnds)
    (h : (terminalSwitch cfg k newTerminal esp ebp loc).toStep = some (k', out)) :
    ∃ stack', Effect cfg k stack (.terminalSwitch newTerminal esp ebp loc) k' out stack' := by
  rcases terminalSwitch_cases hs h with ⟨rfl, rfl⟩ | ⟨t, p, k1, rfl, haway, hscreens, hgo⟩
  · exact ⟨_, .stay (sameProcs_refl k') rfl rfl⟩
  have hv := switchScreens_visited hscreens
  have hends1 := switchScreens_programEnds hends hscreens
  have hidle : k.currentProcess t = -1 → stack t = [] := by
    intro hcur
    by_contra hne
    obtain ⟨q, rest, -, hq, -⟩ := hs.top hne
    omega
  rcases hgo with ⟨hcur, hresume⟩ | ⟨hcur, -, ⟨entryPoint, hex, rfl⟩ | ⟨e, k2, hex, hresume⟩⟩
  · have hne : stack t ≠ [] := fun hnil => hcur (hs.idle t hnil)
    obtain ⟨q, rest, hq, hqcur, -⟩ := hs.top hne
    have hcur1 : k1.currentProcess k1.currTerminal = q.val := by
      rw [hv.currentProcess, hv.currTerminal]
      exact hqcur
    obtain ⟨hon, hmapped, rfl⟩ := resumeTerminal_cases hcur1 hresume
    exact ⟨_, .visited haway hq (hv.trans hon) hmapped⟩
  · exact firstVisit_started hs haway (hidle hcur) hv hex
  · exact firstVisit_failed hs haway (hidle hcur) hv hends1 hex hresume

/-! ## All operations -/

/-- In a state with sessions, every operation that goes through has an effect. -/
theorem step_effect {op : Op} {out : Out} (hs : Sessions k stack) (hends : k.ProgramEnds)
    (h : k.step cfg op = some (k', out)) : ∃ stack', Effect cfg k stack op k' out stack' := by
  by_cases hop : op.isDevice = true
  · obtain ⟨hsame, hquiet⟩ := step_device hop h
    refine ⟨_, .stay hsame ?_ hquiet⟩
    cases op with
    | halt | exception => cases hop
    | _ => rfl
  · cases op with
    | execute comm loc => exact execute_effect hends h
    | halt status loc => exact halt_effect hs hends h
    | exception i cr2 loc => exact exception_effect hs hends h
    | terminalSwitch newTerminal esp ebp loc => exact terminalSwitch_effect hs hends h
    | _ => exact absurd rfl hop

end BaseOs
