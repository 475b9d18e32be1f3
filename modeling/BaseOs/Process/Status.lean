import BaseOs.Process.Table

set_option autoImplicit false

/-! # Exit statuses

`halt` adds the exception flag to the status it hands to the parent, and clears the flag only on the
path that returns to a parent. A base shell that dies by an exception takes the other path: the flag
stays up until the next process with a parent ends, and if that one calls `halt`, its status is one
too high. `statuses_exact_iff` says that nothing else goes wrong. -/

namespace BaseOs

open Kernel

variable {cfg : Config} {k k' : Kernel} {loc : Locals}

/-- What the parent is to be told: the status given to `halt`, or 256 after an exception. -/
def expectedStatus : Op → Option UInt32
  | .halt status _ => some status.toUInt32
  | .exception .. => some 256
  | _ => none

/-- An operation that hands a status to a parent hands over the right one. -/
def StatusExact (cfg : Config) (s : Kernel × List (Op × Out)) (op : Op) : Prop :=
  ∀ k' status, s.1.step cfg op = some (k', .handedBack status) → expectedStatus op = some status

/-! ## The flag and the history -/

/-- Is an exception pending after one more operation? An exception that restarts a base shell leaves
    one behind, and a process that reports to its parent takes it away. -/
def pendingAfter (pending : Bool) : Op × Out → Bool
  | (.exception .., .entered _) => true
  | (_, .handedBack _) => false
  | _ => pending

/-- Has a base shell died by an exception since a process last reported to its parent? -/
def exceptionPending (log : List (Op × Out)) : Bool := log.foldl pendingAfter false

theorem exceptionPending_append (log : List (Op × Out)) (e : Op × Out) :
    exceptionPending (log ++ [e]) = pendingAfter (exceptionPending log) e := by
  simp only [exceptionPending, List.foldl_append, List.foldl_cons, List.foldl_nil]

/-- The exception flag is up exactly while an exception is pending. -/
structure FlagInvariant (s : Kernel × List (Op × Out)) : Prop where
  programEnds : s.1.ProgramEnds
  sessions : ∃ stack, Sessions s.1 stack
  flag : s.1.exceptionFlag = if exceptionPending s.2 then 1 else 0

theorem pendingAfter_of_alive {pending : Bool} {op : Op} {out : Out}
    (hop : op.endsProcess = false) (hquiet : ∀ status, out ≠ .handedBack status) :
    pendingAfter pending (op, out) = pending := by
  cases out with
  | handedBack status => exact absurd rfl (hquiet status)
  | _ => cases op <;> first | rfl | cases hop

theorem ne_handedBack_of_goesOn {out : Out} (h : out.goesOn = true) (status : UInt32) :
    out ≠ .handedBack status := by
  rintro rfl
  cases h

theorem Effect.flag {stack stack' : Terminal → List Slot} {op : Op} {out : Out} {pending : Bool}
    (he : Effect cfg k stack op k' out stack')
    (hflag : k.exceptionFlag = if pending then 1 else 0) :
    k'.exceptionFlag = if pendingAfter pending (op, out) then 1 else 0 := by
  cases he with
  | stay same alive goesOn =>
      rw [same.exceptionFlag, pendingAfter_of_alive alive (ne_handedBack_of_goesOn goesOn)]
      exact hflag
  | launched _ _ _ flag =>
      rw [flag]
      exact hflag
  | botched _ _ _ flag =>
      rw [flag]
      exact hflag
  | ended ends _ ended =>
      rw [ended.exceptionFlag]
      cases ends <;> rfl
  | restarted ends _ _ _ flag' =>
      rw [flag']
      cases ends with
      | halt => exact hflag
      | exception => rfl
  | opened _ _ _ _ flag _ quiet =>
      rw [flag, pendingAfter_of_alive rfl quiet]
      exact hflag
  | visited _ _ visited =>
      rw [visited.exceptionFlag]
      exact hflag

theorem FlagInvariant.next {s s' : Kernel × List (Op × Out)} {op : Op} (hinv : FlagInvariant s)
    (h : Kernel.logged cfg s op = some s') : FlagInvariant s' := by
  obtain ⟨⟨k', out⟩, hstep, rfl⟩ := Option.map_eq_some_iff.1 h
  obtain ⟨stack, hs⟩ := hinv.sessions
  obtain ⟨stack', he⟩ := step_effect hs hinv.programEnds hstep
  refine ⟨next_programEnds hinv.programEnds (Option.map_eq_some_iff.2 ⟨_, hstep, rfl⟩),
    ⟨stack', he.sessions hs⟩, ?_⟩
  rw [exceptionPending_append]
  exact he.flag hinv.flag

/-! ## One step -/

/-- No process with a parent calls `halt` while an exception is pending. -/
def NoPendingHalt (s : Kernel × List (Op × Out)) (op : Op) : Prop :=
  ∀ status loc, op = .halt status loc → 3 ≤ s.1.currentProcess s.1.currTerminal →
    exceptionPending s.2 = false

theorem statusExact_iff {s : Kernel × List (Op × Out)} (hinv : FlagInvariant s) (op : Op) :
    StatusExact cfg s op ↔ NoPendingHalt s op := by
  obtain ⟨stack, hs⟩ := hinv.sessions
  constructor
  · rintro hexact status loc rfl hge
    -- a process with a parent does get through, and hands over its status plus the flag
    obtain ⟨p, rest, hp, hcur, -⟩ := hs.running
    obtain ⟨q, rest', rfl⟩ := hs.has_parent hp (by omega)
    obtain ⟨k', hstep, -⟩ := @halt_child cfg s.1 stack loc p q rest' hs hp status
    have hsum := Option.some.inj (hexact k' _ hstep)
    rw [hinv.flag] at hsum
    by_contra hpending
    rw [Bool.not_eq_false] at hpending
    rw [hpending, if_pos rfl] at hsum
    exact absurd hsum (by simp)
  · intro hnone k' status hstep
    obtain ⟨stack', he⟩ := step_effect hs hinv.programEnds hstep
    generalize hout : Out.handedBack status = out at he
    cases he with
    | launched | restarted | visited | botched => cases hout
    | stay _ _ goesOn => exact absurd hout.symm (ne_handedBack_of_goesOn goesOn status)
    | opened _ _ _ _ _ _ quiet => exact absurd hout.symm (quiet status)
    | @ended _ flag status' _ p q rest _ ends top ended =>
        cases hout
        cases ends with
        | exception => rfl
        | halt =>
            obtain ⟨p', rest', hp', hcur, -⟩ := hs.running
            obtain ⟨rfl, -⟩ := List.cons.inj (top.symm.trans hp')
            have hge : ¬ p.val < 3 := fun hlt => by cases (hs.base_alone top hlt).2
            have hclear := hnone _ _ rfl (by rw [hcur]; omega)
            rw [hinv.flag, hclear]
            simp [expectedStatus]

/-! ## Whole runs -/

theorem boot_flagInvariant {machine : Kernel} {entryPoint : UInt32}
    (hflag : machine.exceptionFlag = 0) (hboot : boot cfg machine loc = .started k entryPoint) :
    FlagInvariant (k, []) := by
  obtain ⟨i, hi, hst⟩ := execute_started hboot
  obtain rfl : (0 : Slot) = i := Option.some.inj ((boot_freeSlot cfg machine).symm.trans hi)
  refine ⟨next_startedProgramEnds hboot, ⟨_, (boot_sessions hst).1⟩, ?_⟩
  rw [hst.exceptionFlag]
  exact hflag

/-- From boot on, every status handed to a parent is exact if and only if no process with a parent
    calls `halt` while the exception of a base shell is still pending. -/
theorem statuses_exact_iff {machine : Kernel} {entryPoint : UInt32}
    (hflag : machine.exceptionFlag = 0) (hboot : boot cfg machine loc = .started k entryPoint)
    (ops : List Op) :
    Runs.AllSteps (Kernel.logged cfg) (StatusExact cfg) (k, []) ops ↔
      Runs.AllSteps (Kernel.logged cfg) NoPendingHalt (k, []) ops :=
  Runs.allSteps_congr (I := FlagInvariant) (fun _ _ _ hinv hstep => hinv.next hstep)
    (fun _ op hinv => statusExact_iff hinv op) (boot_flagInvariant hflag hboot) ops

/-- A child of the first shell calls `halt(7)`. -/
theorem statuses_exact_child :
    Runs.AllSteps (Kernel.logged smallConfig) (StatusExact smallConfig) (smallBooted, [])
      [.execute (some shellCommand) (localsAt 0), .halt 7 (localsAt 3)] := by
  obtain ⟨entryPoint, hboot, -⟩ := smallBooted_spec
  refine (@statuses_exact_iff smallConfig smallBooted (localsAt 0) smallMachine entryPoint rfl hboot
    _).2 ⟨fun _ _ h => ?_, fun s hs => ⟨fun _ _ _ _ => ?_, fun _ _ => trivial⟩⟩
  · cases h
  · obtain ⟨⟨k1, out⟩, -, rfl⟩ := Option.map_eq_some_iff.1 hs
    cases out <;> rfl

/-- The first shell dies by an exception and starts again; then a child of it calls `halt(0)`, and
    the shell is told 1. -/
theorem statuses_not_exact :
    ¬ ∀ (cfg : Config) (machine k : Kernel) (loc : Locals) (entryPoint : UInt32) (ops : List Op),
      machine.exceptionFlag = 0 → boot cfg machine loc = .started k entryPoint →
        Runs.AllSteps (Kernel.logged cfg) (StatusExact cfg) (k, []) ops := by
  intro hall
  obtain ⟨entryPoint, hboot, hst⟩ := smallBooted_spec
  have hinv0 := boot_flagInvariant rfl hboot
  obtain ⟨-, hsteps⟩ := hall smallConfig smallMachine smallBooted (localsAt 0) entryPoint
    [.exception 0 0 (localsAt 0), .execute (some shellCommand) (localsAt 0), .halt 0 (localsAt 3)]
    rfl hboot
  -- the exception
  obtain ⟨hs0, -⟩ := boot_sessions hst
  have hcur0 : smallBooted.currTerminal = 0 := hst.currTerminal
  obtain ⟨k1, entryPoint1, hstep1, he1⟩ := @exception_base smallConfig smallBooted bootSessions
    (localsAt 0) hs0 hinv0.programEnds smallConfig_hasShell (by rw [hcur0]; rfl) 0 0
  have hlog1 : Kernel.logged smallConfig (smallBooted, []) (.exception 0 0 (localsAt 0))
      = some (k1, [(.exception 0 0 (localsAt 0), .entered entryPoint1)]) :=
    Option.map_eq_some_iff.2 ⟨_, hstep1, rfl⟩
  have hinv1 := hinv0.next hlog1
  -- a child
  have hfree1 : k1.inUse 3 = 0 := by
    rw [he1.inUse, hcur0, Function.update_of_ne (by decide), smallBooted_inUse]
    rfl
  obtain ⟨i, hi⟩ := freeSlot_isSome ⟨3, hfree1⟩
  obtain ⟨k2, entryPoint2, hex2, hst2⟩ :=
    @execute_shell smallConfig k1 (localsAt 0) smallConfig_hasShell i hi
  have hlog2 : Kernel.logged smallConfig
      (k1, [(.exception 0 0 (localsAt 0), .entered entryPoint1)])
      (.execute (some shellCommand) (localsAt 0))
      = some (k2, [(.exception 0 0 (localsAt 0), .entered entryPoint1),
        (.execute (some shellCommand) (localsAt 0), .entered entryPoint2)]) := by
    unfold Kernel.logged Kernel.step
    simp only [hex2]
    rfl
  have hinv2 := hinv1.next hlog2
  -- its status
  obtain ⟨-, hsteps2⟩ := hsteps _ hlog1
  obtain ⟨hexact, -⟩ := hsteps2 _ hlog2
  obtain ⟨stack1, hs1⟩ := hinv1.sessions
  have hge : ¬ i.val < 3 := (hs1.free (freeSlot_eq_some.1 hi).1).2.2
  have hpending := (statusExact_iff hinv2 _).1 hexact 0 (localsAt 3) rfl (by
    simp only [hst2.currTerminal, hst2.currentProcess, Function.update_self]
    omega)
  cases hpending

end BaseOs
