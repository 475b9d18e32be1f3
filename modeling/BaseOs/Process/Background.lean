import BaseOs.Keyboard.Readers
import BaseOs.Process.Effects

set_option autoImplicit false

/-! # What the process operations leave alone

Starting and ending programs and switching terminals touch neither the keyboard nor the saved lines, and
never map the page above the program page. -/

namespace BaseOs

open Kernel

variable {cfg : Config} {k k' : Kernel} {loc : Locals}

/-- The kernel state an `execute` ends in. -/
def ExecResult.kernel : ExecResult → Kernel
  | .failed _ k | .started k _ | .fault k => k

/-- The part of the kernel the readers share. -/
def Kernel.desk (k : Kernel) : Desk := ⟨k.currTerminal, k.keyboard, k.saveBuff⟩

/-- The directory entry above the program page. -/
def Kernel.above (k : Kernel) : UInt32 := k.paging.pageDirectory aboveProgram

/-- Neither the keyboard's part of the kernel nor the page above the program page has changed. -/
structure SameBackground (k k' : Kernel) : Prop where
  desk : k'.desk = k.desk
  above : k'.above = k.above

theorem SameBackground.trans {k1 k2 k3 : Kernel} (h12 : SameBackground k1 k2)
    (h23 : SameBackground k2 k3) : SameBackground k1 k3 :=
  ⟨h23.desk.trans h12.desk, h23.above.trans h12.above⟩

theorem loadProgram_background (cfg : Config) (k : Kernel) (i : Slot) (file : ProgramFile)
    (loc : Locals) : SameBackground k (loadProgram cfg k i file loc).kernel := by
  unfold loadProgram
  split_ifs
  · simp only
    split
    · exact ⟨rfl, addProcess_of_ne (by decide)⟩
    · split_ifs <;> exact ⟨rfl, addProcess_of_ne (by decide)⟩
  · exact ⟨rfl, rfl⟩

-- by `simp`: with `rfl` the two states are compared field by field first
theorem setUp_background (k : Kernel) (c : Bytes) (loc : Locals) (i : Slot) :
    SameBackground k (setUp (withArgs k c loc) i) := by
  constructor
  all_goals
    simp only [desk, Kernel.above, setUp, initProcess, enterProcess, createPcb, reserveSlot, setPcb,
      withArgs]

theorem execute_background (cfg : Config) (k : Kernel) (comm : Option Bytes) (loc : Locals) :
    SameBackground k (execute cfg k comm loc).kernel := by
  cases comm with
  | none => exact ⟨rfl, rfl⟩
  | some c =>
      rw [execute_some]
      split
      · exact ⟨rfl, rfl⟩
      · next file _ =>
          split
          · exact ⟨rfl, rfl⟩
          · next i _ =>
              exact (setUp_background k c loc i).trans
                (loadProgram_background cfg (setUp (withArgs k c loc) i) i file loc)

theorem execute_background_of {comm : Option Bytes} {r : ExecResult} (h : execute cfg k comm loc = r) :
    SameBackground k r.kernel := by
  rw [← h]
  exact execute_background cfg k comm loc

theorem haltReturn_background {status : UInt8} {out : Out}
    (h : (haltReturn k status).toStep = some (k', out)) : SameBackground k k' := by
  unfold haltReturn at h
  simp only at h
  split at h
  · split at h
    · cases h
      exact ⟨rfl, addProcess_of_ne (by decide)⟩
    · cases h
  · cases h

theorem halt_background {status : UInt8} {out : Out}
    (h : (halt cfg k status loc).toStep = some (k', out)) : SameBackground k k' := by
  unfold halt at h
  split at h
  · cases h
  · simp only at h
    split_ifs at h
    · split at h
      · next hex =>
          cases h
          have hstarted := execute_background_of hex
          exact ⟨hstarted.desk, hstarted.above⟩
      · cases h
      · next hex =>
          have hall := (execute_background_of hex).trans (haltReturn_background h)
          exact ⟨hall.desk, hall.above⟩
    · have hreturn := haltReturn_background h
      exact ⟨hreturn.desk, hreturn.above⟩

theorem exception_background {i : Nat} {cr2 : UInt32} {out : Out}
    (h : (exceptionHandler cfg k i cr2 loc).toStep = some (k', out)) : SameBackground k k' := by
  rw [exceptionHandler_eq] at h
  have hhalt := halt_background h
  exact ⟨hhalt.desk.trans rfl, hhalt.above.trans rfl⟩

theorem resumeTerminal_background {out : Out} (h : (resumeTerminal k).toStep = some (k', out)) :
    SameBackground k k' := by
  obtain ⟨rfl, -⟩ := resumeTerminal_eq_some h
  exact ⟨rfl, addProcess_of_ne (by decide)⟩

theorem switchScreens_background (h : switchScreens cfg k = some k') : SameBackground k k' := by
  have habove := (switchScreens_sameProcs h).directory aboveProgram (by decide)
  refine ⟨?_, habove⟩
  obtain ⟨mem, rfl⟩ := switchScreens_eq_some h
  rfl

/-- A switch to a terminal that exists changes the current terminal and nothing else of these. -/
theorem terminalSwitch_background {newTerminal esp ebp : Nat} {out : Out}
    (h : (terminalSwitch cfg k newTerminal esp ebp loc).toStep = some (k', out)) :
    k'.desk = k.desk.terminalSwitch newTerminal ∧ k'.above = k.above := by
  unfold terminalSwitch at h
  split_ifs at h with hsame hge
  · cases h
    have hlt : newTerminal < 3 := by
      rw [hsame]
      exact k.currTerminal.isLt
    refine ⟨?_, rfl⟩
    unfold Desk.terminalSwitch
    rw [dif_pos hlt]
    simp only [hsame]
    rfl
  · cases h
    refine ⟨?_, rfl⟩
    unfold Desk.terminalSwitch
    rw [dif_neg (by omega)]
  · have hlt : newTerminal < 3 := by omega
    have hto : k.desk.terminalSwitch newTerminal = { k.desk with currTerminal := ⟨newTerminal, hlt⟩ } := by
      unfold Desk.terminalSwitch
      rw [dif_pos hlt]
    rw [hto]
    split at h
    · cases h
    · simp only at h
      split at h
      · cases h
      · next k1 hscreens =>
          have hswitched := switchScreens_background hscreens
          have hk1 : SameBackground k1 k' := by
            split_ifs at h
            · split at h
              · next hex =>
                  cases h
                  have hstarted := execute_background_of hex
                  exact ⟨hstarted.desk, hstarted.above⟩
              · cases h
              · next hex =>
                  have hall := (execute_background_of hex).trans (resumeTerminal_background h)
                  exact ⟨hall.desk, hall.above⟩
            · exact resumeTerminal_background h
          exact ⟨hk1.desk.trans hswitched.desk, hk1.above.trans hswitched.above⟩

/-- The process operations, the terminal switch apart, leave the background. -/
theorem step_background {op : Op} {out : Out} (hop : op.isDevice = false)
    (hswitch : ∀ newTerminal esp ebp loc, op ≠ .terminalSwitch newTerminal esp ebp loc)
    (h : k.step cfg op = some (k', out)) : SameBackground k k' := by
  cases op with
  | execute comm loc =>
      change (execute cfg k comm loc).toStep = some (k', out) at h
      cases hex : execute cfg k comm loc with
      | fault k1 =>
          rw [hex] at h
          cases h
      | started k1 entryPoint =>
          rw [hex] at h
          cases h
          exact execute_background_of hex
      | failed e k1 =>
          rw [hex] at h
          cases h
          exact execute_background_of hex
  | halt status loc => exact halt_background h
  | exception i cr2 loc => exact exception_background h
  | terminalSwitch newTerminal esp ebp loc => exact absurd rfl (hswitch newTerminal esp ebp loc)
  | _ => cases hop

/-- No operation maps the page above the program page. -/
theorem next_above {op : Op} (h : k.next cfg op = some k') : k'.above = k.above := by
  obtain ⟨⟨k1, out⟩, hstep, rfl⟩ := Option.map_eq_some_iff.1 h
  by_cases hop : op.isDevice = true
  · exact (step_device hop hstep).1.directory aboveProgram (by decide)
  · cases op with
    | terminalSwitch newTerminal esp ebp loc => exact (terminalSwitch_background hstep).2
    | _ => exact (step_background (by simpa using hop) (by simp) hstep).above

end BaseOs
