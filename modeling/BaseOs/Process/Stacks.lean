import BaseOs.Process.Table

set_option autoImplicit false

/-! # Kernel stacks

`execute` and `terminal_switch` set the kernel stack pointer to the top of the running process's
region. `halt` sets it to the parent's `current_esp`, the stack pointer `execute` had when the parent
itself was started. That lies in the region of whoever started the parent: its own parent, the process
a terminal switch interrupted, or, for a base shell started at boot or by its own `halt`, the shell
itself. Only in the last case is the region right (`kernelStacks_iff`). -/

namespace BaseOs

open Kernel

variable {cfg : Config} {k k' : Kernel} {loc : Locals}

/-! ## Regions -/

/-- The kernel stack region of a slot. -/
def InRegion (p : Slot) (esp : Nat) : Prop :=
  kStackBottom - processSize * (p.val + 1) < esp ∧ esp ≤ kStackBottom - processSize * p.val

instance (p : Slot) (esp : Nat) : Decidable (InRegion p esp) :=
  inferInstanceAs (Decidable (_ ∧ _))

theorem InRegion.unique {p q : Slot} {esp : Nat} (hp : InRegion p esp) (hq : InRegion q esp) :
    p = q := by
  have hp8 := p.isLt
  have hq8 := q.isLt
  obtain ⟨h1, h2⟩ := hp
  obtain ⟨h3, h4⟩ := hq
  unfold kStackBottom processSize at h1 h2 h3 h4
  apply Fin.ext
  omega

theorem inRegion_stackTop (p : Slot) : InRegion p (stackTop p.val) := by
  revert p
  decide

/-- The kernel stack pointer lies in the region of the running process. -/
def OnOwnStack (k : Kernel) : Prop :=
  ∃ p : Slot, k.currentProcess k.currTerminal = p.val ∧ InRegion p k.esp0

/-! ## Operations and the stack they run on -/

/-- The stack pointer of an operation that may start a process. -/
def Op.esp? : Op → Option Nat
  | .execute _ loc | .halt _ loc | .exception _ _ loc | .terminalSwitch _ _ _ loc => some loc.esp
  | _ => none

/-- The operation runs on the stack of the process that has the processor when it begins. -/
def EspOnStack (k : Kernel) (op : Op) : Prop :=
  ∀ esp, op.esp? = some esp → ∃ p : Slot, k.currentProcess k.currTerminal = p.val ∧ InRegion p esp

/-- No `execute` inside the operation fails after it has reserved a slot. -/
structure Succeeds (cfg : Config) (k : Kernel) (op : Op) : Prop where
  tidy : Tidy cfg k op
  shell : ∀ (t : Terminal) esp ebp loc k' out, op = .terminalSwitch t.val esp ebp loc →
    k.currentProcess t = -1 → k.step cfg op = some (k', out) → ∃ entryPoint, out = .entered entryPoint

/-- Which base shells were started on their own stack, after one more operation: a shell that starts
    again by its own end was, one that a terminal switch starts was not. -/
def homeAfter (home : Terminal → Bool) (t : Terminal) : Op → Out → Terminal → Bool
  | .halt .., .entered _ | .exception .., .entered _ => Function.update home t true
  | .terminalSwitch .., .entered _ => Function.update home t false
  | _, _ => home

/-- The kernel with the base shells that were started on their own stack. -/
def Kernel.tracked (cfg : Config) (s : Kernel × (Terminal → Bool)) (op : Op) :
    Option (Kernel × (Terminal → Bool)) :=
  (s.1.step cfg op).map fun r => (r.1, homeAfter s.2 r.1.currTerminal op r.2)

/-- At boot the first shell is started on the boot stack, which is the stack of slot 0. -/
def homeAtBoot : Terminal → Bool := fun t => t == 0

/-- A process with a parent ends only if the parent is a base shell that was started on its own
    stack. -/
def ReturnsHome (s : Kernel × (Terminal → Bool)) (op : Op) : Prop :=
  op.endsProcess = true → ∀ p : Slot, s.1.currentProcess s.1.currTerminal = p.val → 3 ≤ p.val →
    (s.1.pcb p).parentId < 3 ∧ s.2 s.1.currTerminal = true

/-! ## The invariant -/

/-- Where the saved stack pointers lie: a child's in its parent's region, a base shell's in its own
    exactly if it is at home. -/
structure StackInvariant (s : Kernel × (Terminal → Bool)) (stack : Terminal → List Slot) : Prop where
  sessions : Sessions s.1 stack
  child : ∀ t, ∀ p ∈ stack t, ∀ q, s.1.parent p = some q → InRegion q (s.1.pcb p).currentEsp
  base : ∀ t, stack t ≠ [] → (s.2 t = true ↔ InRegion (baseSlot t) (s.1.pcb (baseSlot t)).currentEsp)

variable {s : Kernel × (Terminal → Bool)} {stack stack' : Terminal → List Slot} {op : Op} {out : Out}

theorem homeAfter_of_goesOn (home : Terminal → Bool) (t : Terminal) (op : Op)
    (h : out.goesOn = true) : homeAfter home t op out = home := by
  cases out with
  | entered | handedBack => cases h
  | _ => cases op <;> rfl

/-- The running process is on top of the current session. -/
theorem StackInvariant.running (hinv : StackInvariant s stack) {p : Slot}
    (hp : s.1.currentProcess s.1.currTerminal = p.val) :
    ∃ rest, stack s.1.currTerminal = p :: rest := by
  obtain ⟨p', rest, hp', hcur, -⟩ := hinv.sessions.running
  obtain rfl : p = p' := Fin.ext (by omega)
  exact ⟨rest, hp'⟩

/-- The region of the parent's `current_esp` when a child ends: right exactly for a base shell that is
    at home. -/
theorem StackInvariant.parent_region (hinv : StackInvariant s stack) {p q : Slot} {rest : List Slot}
    (htop : stack s.1.currTerminal = p :: q :: rest) :
    InRegion q (s.1.pcb q).currentEsp ↔ q.val < 3 ∧ s.2 s.1.currTerminal = true := by
  have hs := hinv.sessions
  have hq : q ∈ stack s.1.currTerminal := by
    rw [htop]
    exact List.mem_cons_of_mem p List.mem_cons_self
  have hne : stack s.1.currTerminal ≠ [] := by rw [htop]; exact List.cons_ne_nil _ _
  by_cases hlt : q.val < 3
  · have hbase : q = baseSlot s.1.currTerminal := by
      have howner := hs.wf.reserved s.1.currTerminal ⟨q.val, hlt⟩ hq
      rw [howner]
      rfl
    rw [hbase, ← hinv.base _ hne]
    exact ⟨fun h => ⟨s.1.currTerminal.isLt, h⟩, fun h => h.2⟩
  · refine ⟨fun hin => ?_, fun h => absurd h.1 hlt⟩
    -- the process below `q` started it, so `q`'s stack pointer lies there
    obtain ⟨r, rest', rfl⟩ : ∃ r rest', rest = r :: rest' := by
      refine List.exists_cons_of_ne_nil fun hnil => ?_
      have hlast := hs.wf.bottom s.1.currTerminal hne
      rw [htop, hnil, List.getLast?_cons_cons] at hlast
      obtain rfl := Option.some.inj hlast
      exact hlt s.1.currTerminal.isLt
    have hfol := hs.follows s.1.currTerminal
    rw [htop] at hfol
    have hparent : s.1.parent q = some r :=
      (Chains.follows_cons.1 (Chains.follows_cons.1 (Chains.follows_cons.1 hfol).2).2).1
    have heq := hin.unique (hinv.child _ q hq r hparent)
    subst heq
    have hnodup := hs.wf.nodup s.1.currTerminal
    rw [htop] at hnodup
    exact absurd List.mem_cons_self (List.nodup_cons.1 (List.nodup_cons.1 hnodup).2).1

/-! ## One step -/

theorem core_esp {p : Slot} (h : (k'.pcb p).core = (k.pcb p).core) :
    (k'.pcb p).currentEsp = (k.pcb p).currentEsp := (core_eq_iff.1 h).2.2

/-- An operation that leaves the saved stack pointers and the sessions alone. -/
theorem StackInvariant.transfer (hinv : StackInvariant s stack) (hs' : Sessions k' stack)
    (hcore : ∀ p, (k'.pcb p).core = (s.1.pcb p).core) : StackInvariant (k', s.2) stack where
  sessions := hs'
  child t p hp q hq := by
    rw [parent_eq_of_core (hcore p)] at hq
    rw [core_esp (hcore p)]
    exact hinv.child t p hp q hq
  base t ht := by
    rw [core_esp (hcore _)]
    exact hinv.base t ht

/-- A child goes on top, started on the stack of the running process. -/
theorem StackInvariant.push (hinv : StackInvariant s stack) {i r : Slot} (hfree : s.1.inUse i = 0)
    (he : Entered s.1 s.1.currTerminal i k') (hr : s.1.currentProcess s.1.currTerminal = r.val)
    (hesp : InRegion r (k'.pcb i).currentEsp) :
    StackInvariant (k', s.2)
      (Function.update stack s.1.currTerminal (i :: stack s.1.currTerminal)) := by
  obtain ⟨hfresh, hnot, hge⟩ := hinv.sessions.free hfree
  refine ⟨hinv.sessions.push hfree he, fun t p hp q hq => ?_, fun t ht => ?_⟩
  · by_cases hpi : p = i
    · subst hpi
      have hparent : k'.parent p = some r := by
        unfold Kernel.parent
        rw [he.parentId, if_neg hge, hr, slot?_val]
      obtain rfl := Option.some.inj (hparent.symm.trans hq)
      exact hesp
    · rw [parent_eq_of_core (he.core_of_ne p hpi)] at hq
      rw [core_esp (he.core_of_ne p hpi)]
      refine hinv.child t p ?_ q hq
      by_cases ht : t = s.1.currTerminal
      · subst ht
        rw [Function.update_self] at hp
        exact (List.mem_cons.1 hp).resolve_left hpi
      · rwa [Function.update_of_ne ht] at hp
  · rw [core_esp (he.core_of_ne _ (hnot t))]
    apply hinv.base t
    by_cases ht' : t = s.1.currTerminal
    · subst ht'
      exact hinv.sessions.current
    · rwa [Function.update_of_ne ht'] at ht

/-- The top of the current session goes. -/
theorem StackInvariant.pop (hinv : StackInvariant s stack) {p q : Slot} {rest : List Slot}
    (htop : stack s.1.currTerminal = p :: q :: rest) (he : Ended s.1 p q k') :
    StackInvariant (k', s.2) (Function.update stack s.1.currTerminal (q :: rest)) := by
  refine ⟨hinv.sessions.pop htop he, fun t x hx y hy => ?_, fun t ht => ?_⟩
  · rw [parent_eq_of_core (he.core x)] at hy
    rw [core_esp (he.core x)]
    refine hinv.child t x ?_ y hy
    by_cases ht : t = s.1.currTerminal
    · subst ht
      rw [Function.update_self] at hx
      rw [htop]
      exact List.mem_cons_of_mem p hx
    · rwa [Function.update_of_ne ht] at hx
  · rw [core_esp (he.core _)]
    apply hinv.base t
    by_cases ht' : t = s.1.currTerminal
    · subst ht'
      exact hinv.sessions.current
    · rwa [Function.update_of_ne ht'] at ht

/-- A base shell is started, on its own stack or on another. -/
theorem StackInvariant.enterBase (hinv : StackInvariant s stack) {t : Terminal} {home : Bool}
    (honly : ∀ p ∈ stack t, p = baseSlot t) (he : Entered s.1 t (baseSlot t) k')
    (hesp : home = true ↔ InRegion (baseSlot t) (k'.pcb (baseSlot t)).currentEsp) :
    StackInvariant (k', Function.update s.2 t home) (Function.update stack t [baseSlot t]) := by
  have hroot : k'.parent (baseSlot t) = none := by
    unfold Kernel.parent
    rw [he.parentId, if_pos (show (baseSlot t).val < 3 from t.isLt)]
    rfl
  refine ⟨hinv.sessions.enterBase honly he, fun u p hp q hq => ?_, fun u hu => ?_⟩
  · have hpt : p ≠ baseSlot t := by
      rintro rfl
      rw [hroot] at hq
      cases hq
    have hut : u ≠ t := by
      rintro rfl
      rw [Function.update_self] at hp
      exact hpt (List.mem_singleton.1 hp)
    rw [Function.update_of_ne hut] at hp
    rw [parent_eq_of_core (he.core_of_ne p hpt)] at hq
    rw [core_esp (he.core_of_ne p hpt)]
    exact hinv.child u p hp q hq
  · by_cases hut : u = t
    · subst hut
      simp only [Function.update_self]
      exact hesp
    · rw [Function.update_of_ne hut] at hu
      simp only [Function.update_of_ne hut]
      rw [core_esp (he.core_of_ne _ fun h => hut (baseSlot_injective h))]
      exact hinv.base u hu

theorem onOwnStack_of_mapped {p : Slot} (hcur : k.currentProcess k.currTerminal = p.val)
    (hm : Mapped k p) : OnOwnStack k := by
  refine ⟨p, hcur, ?_⟩
  rw [hm.esp0]
  exact inRegion_stackTop p

theorem returnsHome_of_alive (h : op.endsProcess = false) : ReturnsHome s op := by
  intro h'
  rw [h] at h'
  cases h'

/-- A process hands its status to its parent, which is on its own stack exactly if the stack pointer saved for
    it is. -/
theorem StackInvariant.ended (hinv : StackInvariant s stack) {status : UInt8} {flag : UInt32} {loc : Locals}
    {p q : Slot} {rest : List Slot} (ends : Ends s.1 op flag status loc)
    (top : stack s.1.currTerminal = p :: q :: rest) (ended : Ended s.1 p q k') :
    (OnOwnStack k' ↔ ReturnsHome s op) ∧
      StackInvariant (k', homeAfter s.2 k'.currTerminal op (.handedBack (status.toUInt32 + flag)))
        (Function.update stack s.1.currTerminal (q :: rest)) := by
  have hop : op.endsProcess = true := by cases ends <;> rfl
  have hhome : homeAfter s.2 k'.currTerminal op (.handedBack (status.toUInt32 + flag)) = s.2 := by
    cases ends <;> rfl
  obtain ⟨p', rest', hp', hcur, -⟩ := hinv.sessions.running
  obtain ⟨rfl, -⟩ := List.cons.inj (top.symm.trans hp')
  have hge : ¬ p.val < 3 := fun hlt => by cases (hinv.sessions.base_alone top hlt).2
  rw [hhome]
  refine ⟨?_, hinv.pop top ended⟩
  have hcur' : k'.currentProcess k'.currTerminal = q.val := by
    rw [ended.currentProcess, ended.currTerminal, Function.update_self]
  have hQ : OnOwnStack k' ↔ InRegion q (s.1.pcb q).currentEsp := by
    rw [← ended.esp0]
    constructor
    · rintro ⟨x, hx, hin⟩
      obtain rfl : x = q := Fin.ext (by omega)
      exact hin
    · exact fun hin => ⟨q, hcur', hin⟩
  rw [hQ, hinv.parent_region top]
  constructor
  · rintro ⟨hlt, hhome⟩ - x hx -
    obtain rfl : x = p := Fin.ext (by omega)
    refine ⟨?_, hhome⟩
    rw [(hinv.sessions.below top).1]
    omega
  · intro hret
    obtain ⟨hlt, hhome⟩ := hret hop p hcur (by omega)
    rw [(hinv.sessions.below top).1] at hlt
    exact ⟨by omega, hhome⟩

/-- A base shell ends and starts again on its own stack. -/
theorem StackInvariant.restarted (hinv : StackInvariant s stack) {status : UInt8} {flag : UInt32} {loc : Locals}
    {entryPoint : UInt32} (hesp : EspOnStack s.1 op) (ends : Ends s.1 op flag status loc)
    (top : stack s.1.currTerminal = [baseSlot s.1.currTerminal])
    (entered : Entered s.1 s.1.currTerminal (baseSlot s.1.currTerminal) k')
    (esp : (k'.pcb (baseSlot s.1.currTerminal)).currentEsp = loc.esp)
    (mapped : Mapped k' (baseSlot s.1.currTerminal)) :
    (OnOwnStack k' ↔ ReturnsHome s op) ∧
      StackInvariant (k', homeAfter s.2 k'.currTerminal op (.entered entryPoint)) stack := by
  have hcur : s.1.currentProcess s.1.currTerminal = (baseSlot s.1.currTerminal).val := by
    obtain ⟨p, rest, hp, hcur, -⟩ := hinv.sessions.running
    obtain ⟨rfl, -⟩ := List.cons.inj (top.symm.trans hp)
    exact hcur
  have hin : InRegion (baseSlot s.1.currTerminal) loc.esp := by
    obtain ⟨r, hr, hin⟩ := hesp loc.esp (by cases ends <;> rfl)
    obtain rfl : r = baseSlot s.1.currTerminal := Fin.ext (by omega)
    exact hin
  have hhome : homeAfter s.2 k'.currTerminal op (.entered entryPoint)
      = Function.update s.2 s.1.currTerminal true := by
    rw [entered.currTerminal]
    cases ends <;> rfl
  have hbase := @StackInvariant.enterBase k' s stack hinv s.1.currTerminal true
    (fun p hp => by simpa [top] using hp) entered (by rw [esp]; exact ⟨fun _ => hin, fun _ => rfl⟩)
  rw [hhome]
  rw [← top, Function.update_eq_self] at hbase
  refine ⟨iff_of_true (onOwnStack_of_mapped ?_ mapped) ?_, hbase⟩
  · rw [entered.currentProcess, entered.currTerminal, Function.update_self]
  · intro _ p hp hge
    have hlt := s.1.currTerminal.isLt
    have hval : (baseSlot s.1.currTerminal).val = s.1.currTerminal.val := rfl
    omega

/-- A base shell is started by a switch, on the stack of the process that is left. -/
theorem StackInvariant.opened (hinv : StackInvariant s stack) {esp ebp : Nat} {loc : Locals} {t : Terminal}
    {entryPoint : UInt32} (hesp : EspOnStack s.1 (.terminalSwitch t.val esp ebp loc))
    (away : t ≠ s.1.currTerminal) (first : stack t = []) (entered : Entered s.1 t (baseSlot t) k')
    (shell : (k'.pcb (baseSlot t)).currentEsp = loc.esp) (mapped : Mapped k' (baseSlot t)) :
    (OnOwnStack k' ↔ ReturnsHome s (.terminalSwitch t.val esp ebp loc)) ∧
      StackInvariant (k', homeAfter s.2 k'.currTerminal (.terminalSwitch t.val esp ebp loc) (.entered entryPoint))
        (Function.update stack t [baseSlot t]) := by
  have hout : ¬ InRegion (baseSlot t) loc.esp := by
    intro hin
    obtain ⟨r, hr, hin'⟩ := hesp loc.esp rfl
    obtain ⟨rest, hrest⟩ := hinv.running hr
    obtain rfl := hin'.unique hin
    exact away (hinv.sessions.wf.reserved _ _ (by rw [hrest]; exact List.mem_cons_self)).symm
  have hhome : homeAfter s.2 k'.currTerminal (.terminalSwitch t.val esp ebp loc)
      (.entered entryPoint) = Function.update s.2 t false := by
    rw [entered.currTerminal]
    rfl
  rw [hhome]
  refine ⟨iff_of_true (onOwnStack_of_mapped ?_ mapped) (returnsHome_of_alive rfl), ?_⟩
  · rw [entered.currentProcess, entered.currTerminal, Function.update_self]
  · refine hinv.enterBase (fun p hp => by simp [first] at hp) entered ?_
    rw [shell]
    exact ⟨fun h => (by cases h), fun h => absurd h hout⟩

/-- What one operation does to the saved stack pointers, and when it leaves the running process on its
    own stack. -/
theorem Effect.stackInvariant (he : Effect cfg s.1 stack op k' out stack')
    (hinv : StackInvariant s stack) (hown : OnOwnStack s.1) (hsucc : Succeeds cfg s.1 op)
    (hesp : EspOnStack s.1 op) (hstep : s.1.step cfg op = some (k', out)) :
    (OnOwnStack k' ↔ ReturnsHome s op) ∧
      StackInvariant (k', homeAfter s.2 k'.currTerminal op out) stack' := by
  have hs' := he.sessions hinv.sessions
  cases he with
  | stay same alive goesOn =>
      rw [homeAfter_of_goesOn _ _ _ goesOn]
      refine ⟨iff_of_true ?_ (returnsHome_of_alive alive), hinv.transfer hs' same.core⟩
      obtain ⟨p, hcur, hin⟩ := hown
      refine ⟨p, ?_, by rw [same.esp0]; exact hin⟩
      rw [same.currentProcess, same.currTerminal]
      exact hcur
  | @launched comm loc i _ entryPoint free entered esp _ mapped =>
      obtain ⟨r, hr, hin⟩ := hesp loc.esp rfl
      refine ⟨iff_of_true (onOwnStack_of_mapped ?_ mapped) (returnsHome_of_alive rfl), ?_⟩
      · rw [entered.currentProcess, entered.currTerminal, Function.update_self]
      · exact hinv.push (freeSlot_eq_some.1 free).1 entered hr (by rw [esp]; exact hin)
  | @botched comm loc _ _ _ failed => cases hsucc.tidy comm loc _ _ rfl failed
  | ended ends top ended => exact hinv.ended ends top ended
  | restarted ends top entered esp _ mapped => exact hinv.restarted hesp ends top entered esp mapped
  | @opened esp ebp loc t _ _ away first entered shell _ mapped _ =>
      obtain ⟨entryPoint, rfl⟩ :=
        hsucc.shell t esp ebp loc k' _ rfl (hinv.sessions.idle t first) hstep
      exact hinv.opened hesp away first entered (shell entryPoint rfl) mapped
  | @visited esp ebp loc t p rest _ _ top visited mapped =>
      refine ⟨iff_of_true (onOwnStack_of_mapped ?_ mapped) (returnsHome_of_alive rfl),
        hinv.transfer hs' visited.core⟩
      obtain ⟨p', rest', hp', hcur, -⟩ :=
        hinv.sessions.top (t := t) (by rw [top]; exact List.cons_ne_nil _ _)
      obtain ⟨rfl, -⟩ := List.cons.inj (top.symm.trans hp')
      rw [visited.currentProcess, visited.currTerminal]
      exact hcur

/-! ## Whole runs -/

theorem boot_stackInvariant {machine : Kernel} {entryPoint : UInt32} (hesp : InRegion 0 loc.esp)
    (hboot : boot cfg machine loc = .started k entryPoint) :
    k.ProgramEnds ∧ OnOwnStack k ∧ ∃ stack, StackInvariant (k, homeAtBoot) stack := by
  obtain ⟨i, hi, hst⟩ := execute_started hboot
  obtain rfl : (0 : Slot) = i := Option.some.inj ((boot_freeSlot cfg machine).symm.trans hi)
  obtain ⟨hs, -⟩ := boot_sessions hst
  have hcur : k.currentProcess k.currTerminal = (0 : Slot).val := by
    rw [hst.currentProcess, hst.currTerminal, Function.update_self]
  have hzero : ∀ t, bootSessions t ≠ [] → t = 0 := by
    intro t ht
    by_contra hne
    unfold bootSessions at ht
    rw [Function.update_of_ne hne] at ht
    exact ht rfl
  refine ⟨next_startedProgramEnds hboot, onOwnStack_of_mapped hcur hst.mapped, bootSessions, hs,
    fun t p hp q hq => ?_, fun t ht => ?_⟩
  · obtain rfl := hzero t (List.ne_nil_of_mem hp)
    obtain rfl := List.mem_singleton.1 hp
    have hroot : k.parent (baseSlot 0) = none := by
      unfold Kernel.parent
      rw [hs.bottom 0 (List.ne_nil_of_mem hp)]
      rfl
    rw [hroot] at hq
    cases hq
  · obtain rfl := hzero t ht
    have hbase : (k.pcb (baseSlot 0)).currentEsp = loc.esp := hst.currentEsp
    rw [hbase]
    exact ⟨fun _ => hesp, fun _ => rfl⟩

/-- The invariant over one operation of the tracked kernel. -/
theorem tracked_step {s' : Kernel × (Terminal → Bool)} (hends : s.1.ProgramEnds)
    (hinv : ∃ stack, StackInvariant s stack) (hown : OnOwnStack s.1) (hsucc : Succeeds cfg s.1 op)
    (hesp : EspOnStack s.1 op) (h : Kernel.tracked cfg s op = some s') :
    (OnOwnStack s'.1 ↔ ReturnsHome s op) ∧ s'.1.ProgramEnds ∧
      ∃ stack, StackInvariant s' stack := by
  obtain ⟨stack, hinv⟩ := hinv
  obtain ⟨⟨k', out⟩, hstep, rfl⟩ := Option.map_eq_some_iff.1 h
  obtain ⟨stack', he⟩ := step_effect hinv.sessions hends hstep
  obtain ⟨hiff, hinv'⟩ := he.stackInvariant hinv hown hsucc hesp hstep
  exact ⟨hiff, next_programEnds hends (Option.map_eq_some_iff.2 ⟨_, hstep, rfl⟩), stack', hinv'⟩

/-- From boot on, in runs of successful operations, the kernel stack pointer always lies in the region
    of the running process if and only if every process that ends returns to a base shell that was
    started at boot or by its own end. -/
theorem kernelStacks_iff {machine : Kernel} {entryPoint : UInt32} {ops : List Op}
    {s : Kernel × (Terminal → Bool)} (hboot : boot cfg machine loc = .started k entryPoint)
    (hesp : InRegion 0 loc.esp)
    (hops : Runs.AllSteps (Kernel.tracked cfg)
      (fun s op => Succeeds cfg s.1 op ∧ EspOnStack s.1 op) (k, homeAtBoot) ops)
    (hrun : Runs.run (Kernel.tracked cfg) (k, homeAtBoot) ops = some s) :
    Runs.AllStates (Kernel.tracked cfg) (fun s => OnOwnStack s.1) (k, homeAtBoot) ops ↔
      Runs.AllSteps (Kernel.tracked cfg) ReturnsHome (k, homeAtBoot) ops := by
  obtain ⟨hends, hown, hinv⟩ := boot_stackInvariant hesp hboot
  refine Runs.allStates_iff_allSteps
    (I := fun s => s.1.ProgramEnds ∧ ∃ stack, StackInvariant s stack) ?_ ⟨hends, hinv⟩ hown hops hrun
  rintro s op s' ⟨hends, hinv⟩ hown ⟨hsucc, hesp⟩ htracked
  obtain ⟨hiff, hends', hinv'⟩ := tracked_step hends hinv hown hsucc hesp htracked
  exact ⟨hiff, fun _ => ⟨hends', hinv'⟩⟩

/-! ### On the small image -/

theorem espOnStack_of {p : Slot} {esp : Nat} (hcur : k.currentProcess k.currTerminal = p.val)
    (hop : op.esp? = some esp) (hin : InRegion p esp) : EspOnStack k op := by
  intro esp' hesp'
  obtain rfl := Option.some.inj (hop.symm.trans hesp')
  exact ⟨p, hcur, hin⟩

theorem succeeds_halt (cfg : Config) (k : Kernel) (status : UInt8) (loc : Locals) :
    Succeeds cfg k (.halt status loc) :=
  ⟨fun _ _ _ _ h => (by cases h), fun _ _ _ _ _ _ h => (by cases h)⟩

/-- A shell started as a child of the running process: it goes through, and the child runs. -/
theorem tracked_shell (hshell : HasShell cfg.fs) {s : Kernel × (Terminal → Bool)} {p i : Slot}
    (hi : freeSlot s.1 = some i) (hcur : s.1.currentProcess s.1.currTerminal = p.val)
    (hesp : InRegion p loc.esp) :
    ∃ k', Kernel.tracked cfg s (.execute (some shellCommand) loc) = some (k', s.2) ∧
      Started cfg s.1 i loc k' ∧ k'.currentProcess k'.currTerminal = i.val ∧
      Succeeds cfg s.1 (.execute (some shellCommand) loc) ∧
      EspOnStack s.1 (.execute (some shellCommand) loc) := by
  obtain ⟨k', entryPoint, hex, hst⟩ := @execute_shell cfg s.1 loc hshell i hi
  refine ⟨k', ?_, hst, ?_, ⟨fun comm loc' e k'' hop hfail => ?_, fun _ _ _ _ _ _ h => (by cases h)⟩,
    espOnStack_of hcur rfl hesp⟩
  · unfold Kernel.tracked Kernel.step
    simp only [hex]
    rfl
  · rw [hst.currentProcess, hst.currTerminal, Function.update_self]
  · cases hop
    rw [hex] at hfail
    cases hfail

/-- A child of the first shell ends. -/
theorem kernelStacks_child :
    ∃ s, Runs.run (Kernel.tracked smallConfig) (smallBooted, homeAtBoot)
        [.execute (some shellCommand) (localsAt 0), .halt 0 (localsAt 3)] = some s ∧
      Runs.AllStates (Kernel.tracked smallConfig) (fun s => OnOwnStack s.1) (smallBooted, homeAtBoot)
        [.execute (some shellCommand) (localsAt 0), .halt 0 (localsAt 3)] := by
  obtain ⟨entryPoint, hboot, hst0⟩ := smallBooted_spec
  obtain ⟨hends0, hown0, hinv0⟩ := boot_stackInvariant (by decide) hboot
  have hcur0 : smallBooted.currentProcess smallBooted.currTerminal = (0 : Slot).val := by
    rw [hst0.currentProcess, hst0.currTerminal, Function.update_self]
  obtain ⟨k1, htr1, hst1, hcur1, hsucc1, hesp1⟩ := @tracked_shell smallConfig (localsAt 0)
    smallConfig_hasShell (smallBooted, homeAtBoot) 0 3 smallBooted_freeSlot hcur0 (by decide)
  obtain ⟨-, -, stack1, hinv1⟩ := tracked_step hends0 hinv0 hown0 hsucc1 hesp1 htr1
  obtain ⟨rest, hrest⟩ := hinv1.running hcur1
  obtain ⟨q, rest', rfl⟩ := hinv1.sessions.has_parent hrest (by decide)
  obtain ⟨k2, hstep2, -⟩ := @halt_child smallConfig k1 stack1 (localsAt 3) 3 q rest' hinv1.sessions hrest 0
  have hparent : (k1.pcb 3).parentId = 0 := by
    rw [hst1.parentId, if_neg (by decide), hcur0]
    rfl
  have hrun : Runs.run (Kernel.tracked smallConfig) (smallBooted, homeAtBoot)
      [.execute (some shellCommand) (localsAt 0), .halt 0 (localsAt 3)] = some (k2, homeAtBoot) :=
    Runs.run_cons_eq_some.2 ⟨_, htr1, Runs.run_cons_eq_some.2 ⟨_,
      Option.map_eq_some_iff.2 ⟨_, hstep2, rfl⟩, rfl⟩⟩
  have hops : Runs.AllSteps (Kernel.tracked smallConfig)
      (fun s op => Succeeds smallConfig s.1 op ∧ EspOnStack s.1 op) (smallBooted, homeAtBoot)
      [.execute (some shellCommand) (localsAt 0), .halt 0 (localsAt 3)] := by
    refine ⟨⟨hsucc1, hesp1⟩, fun s hs => ?_⟩
    obtain rfl := Option.some.inj (htr1.symm.trans hs)
    exact ⟨⟨succeeds_halt _ _ _ _, espOnStack_of hcur1 rfl (by decide)⟩, fun _ _ => trivial⟩
  refine ⟨_, hrun, (kernelStacks_iff hboot (by decide) hops hrun).2
    ⟨returnsHome_of_alive rfl, fun s hs => ?_⟩⟩
  obtain rfl := Option.some.inj (htr1.symm.trans hs)
  refine ⟨fun _ p hp hge => ?_, fun _ _ => trivial⟩
  obtain rfl : p = 3 := Fin.ext (Int.ofNat_inj.1 (hp.symm.trans hcur1))
  refine ⟨by rw [hparent]; decide, ?_⟩
  simp only [hst1.currTerminal, hst0.currTerminal]
  rfl

/-- A grandchild of the first shell ends: the kernel stack of the child is then taken from the region
    of the shell. -/
theorem kernelStacks_grandchild :
    ¬ ∀ (cfg : Config) (machine k : Kernel) (loc : Locals) (entryPoint : UInt32) (ops : List Op)
      (s : Kernel × (Terminal → Bool)), boot cfg machine loc = .started k entryPoint →
        InRegion 0 loc.esp →
        Runs.AllSteps (Kernel.tracked cfg) (fun s op => Succeeds cfg s.1 op ∧ EspOnStack s.1 op)
          (k, homeAtBoot) ops →
        Runs.run (Kernel.tracked cfg) (k, homeAtBoot) ops = some s → OnOwnStack s.1 := by
  intro hall
  obtain ⟨entryPoint, hboot, hst0⟩ := smallBooted_spec
  obtain ⟨hends0, hown0, hinv0⟩ := boot_stackInvariant (by decide) hboot
  have hcur0 : smallBooted.currentProcess smallBooted.currTerminal = (0 : Slot).val := by
    rw [hst0.currentProcess, hst0.currTerminal, Function.update_self]
  -- a child in slot 3
  obtain ⟨k1, htr1, hst1, hcur1, hsucc1, hesp1⟩ := @tracked_shell smallConfig (localsAt 0)
    smallConfig_hasShell (smallBooted, homeAtBoot) 0 3 smallBooted_freeSlot hcur0 (by decide)
  obtain ⟨hown1, hends1, hinv1⟩ := tracked_step hends0 hinv0 hown0 hsucc1 hesp1 htr1
  have hown1 := hown1.2 (returnsHome_of_alive rfl)
  have hfree1 : freeSlot k1 = some 4 := by
    rw [freeSlot_eq_some]
    simp only [hst1.inUse]
    have hbefore : ∀ i, Function.update smallBooted.inUse 3 1 i = if i.val < 4 then 1 else 0 := by
      intro i
      by_cases hi : i = 3
      · subst hi
        rfl
      · rw [Function.update_of_ne hi, smallBooted_inUse]
        revert hi
        revert i
        decide
    simp only [hbefore]
    decide
  -- a grandchild in slot 4
  obtain ⟨k2, htr2, hst2, hcur2, hsucc2, hesp2⟩ := @tracked_shell smallConfig (localsAt 3)
    smallConfig_hasShell (k1, homeAtBoot) 3 4 hfree1 hcur1 (by decide)
  obtain ⟨hown2, hends2, hinv2⟩ := tracked_step hends1 hinv1 hown1 hsucc2 hesp2 htr2
  have hown2 := hown2.2 (returnsHome_of_alive rfl)
  obtain ⟨stack2, hinv2⟩ := hinv2
  obtain ⟨rest, hrest⟩ := hinv2.running hcur2
  obtain ⟨q, rest', rfl⟩ := hinv2.sessions.has_parent hrest (by decide)
  obtain ⟨k3, hstep3, -⟩ := @halt_child smallConfig k2 stack2 (localsAt 4) 4 q rest' hinv2.sessions hrest 0
  have htr3 : Kernel.tracked smallConfig (k2, homeAtBoot) (.halt 0 (localsAt 4))
      = some (k3, homeAtBoot) := Option.map_eq_some_iff.2 ⟨_, hstep3, rfl⟩
  have hesp3 : EspOnStack k2 (.halt 0 (localsAt 4)) := espOnStack_of hcur2 rfl (by decide)
  have hown3 := hall smallConfig smallMachine smallBooted (localsAt 0) entryPoint
    [.execute (some shellCommand) (localsAt 0), .execute (some shellCommand) (localsAt 3),
      .halt 0 (localsAt 4)] (k3, homeAtBoot) hboot (by decide)
    ⟨⟨hsucc1, hesp1⟩, fun s hs => by
      obtain rfl := Option.some.inj (htr1.symm.trans hs)
      refine ⟨⟨hsucc2, hesp2⟩, fun s hs => ?_⟩
      obtain rfl := Option.some.inj (htr2.symm.trans hs)
      exact ⟨⟨succeeds_halt _ _ _ _, hesp3⟩, fun _ _ => trivial⟩⟩
    (Runs.run_cons_eq_some.2 ⟨_, htr1, Runs.run_cons_eq_some.2 ⟨_, htr2,
      Runs.run_cons_eq_some.2 ⟨_, htr3, rfl⟩⟩⟩)
  -- its parent is no base shell
  obtain ⟨hiff, -, -⟩ :=
    tracked_step hends2 ⟨stack2, hinv2⟩ hown2 (succeeds_halt _ _ _ _) hesp3 htr3
  obtain ⟨hparent, -⟩ := hiff.1 hown3 rfl 4 hcur2 (by decide)
  rw [hst2.parentId, if_neg (by decide), hcur1] at hparent
  exact absurd hparent (by decide)

end BaseOs
