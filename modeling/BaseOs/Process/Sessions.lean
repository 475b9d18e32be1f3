import BaseOs.Lib.Chains
import BaseOs.System.Frame

set_option autoImplicit false

/-! # Terminal sessions

A terminal's session is the stack of its processes: the current process on top, below each process
the parent it returns to, at the bottom the base shell. `Sessions k stack` relates the kernel's tables
to such stacks. `Effect` says once what an operation can do to the tables, and `step_effect` that it
does nothing else; every invariant about processes is proved by cases on it. -/

namespace BaseOs

open Kernel

/-! ## The stacks behind the tables -/

/-- The slot of a terminal's base shell. -/
def baseSlot (t : Terminal) : Slot := ⟨t.val, by omega⟩

theorem baseSlot_injective : Function.Injective baseSlot := fun t u h => by
  have := congrArg Fin.val h
  exact Fin.ext this

/-- The slot `parent_id` names. -/
def Kernel.parent (k : Kernel) (p : Slot) : Option Slot := slot? (k.pcb p).parentId

/-- `current_process` and the PCBs of `k` link up to the session stacks `stack`. -/
structure Linked (k : Kernel) (stack : Terminal → List Slot) : Prop where
  wf : Chains.WellFormed baseSlot stack
  follows : ∀ t, Chains.Follows k.parent (slot? (k.currentProcess t)) (stack t)
  idle : ∀ t, stack t = [] → k.currentProcess t = -1
  bottom : ∀ t, stack t ≠ [] → (k.pcb (baseSlot t)).parentId = -1
  known : ∀ t, ∀ p ∈ stack t,
    k.processArray p = some p ∧ (k.pcb p).processId = UInt8.ofNat p.val

/-- The tables of `k` describe the session stacks `stack`: they are linked, and their slots and those
    of the base shells are the ones in use. -/
structure Sessions (k : Kernel) (stack : Terminal → List Slot) : Prop extends Linked k stack where
  busy : ∀ t, ∀ p ∈ stack t, k.inUse p = 1
  reserved : ∀ t, k.inUse (baseSlot t) = 1
  used : ∀ p : Slot, 3 ≤ p.val → k.inUse p ≠ 0 → ∃ t, p ∈ stack t
  current : stack k.currTerminal ≠ []

variable {cfg : Config} {k k' : Kernel} {stack : Terminal → List Slot} {t : Terminal}

theorem core_eq_iff {p q : Pcb} :
    p.core = q.core ↔
      p.processId = q.processId ∧ p.parentId = q.parentId ∧ p.currentEsp = q.currentEsp := by
  simp only [Pcb.core, PcbCore.mk.injEq]

theorem Sessions.live (hs : Sessions k stack) (t : Terminal) (p : Slot) (hp : p ∈ stack t) :
    k.inUse p = 1 ∧ k.processArray p = some p ∧ (k.pcb p).processId = UInt8.ofNat p.val :=
  ⟨hs.busy t p hp, hs.known t p hp⟩

/-- The process on top of a session that has been started. -/
theorem Linked.top (hl : Linked k stack) (ht : stack t ≠ []) :
    ∃ p rest, stack t = p :: rest ∧ k.currentProcess t = p.val ∧ k.processArray p = some p := by
  obtain ⟨p, rest, hp⟩ := List.exists_cons_of_ne_nil ht
  have hhead := (hl.follows t).head?
  rw [hp, List.head?_cons] at hhead
  refine ⟨p, rest, hp, slot?_eq_some.1 hhead.symm, ?_⟩
  exact (hl.known t p (by rw [hp]; exact List.mem_cons_self)).1

/-- The process that has the processor, on a terminal with a session. -/
theorem Linked.running (hl : Linked k stack) (hne : stack k.currTerminal ≠ []) :
    ∃ p rest, stack k.currTerminal = p :: rest ∧ k.currentProcess k.currTerminal = p.val ∧
      k.currentPcb? = some p := by
  obtain ⟨p, rest, hp, hcur, harr⟩ := hl.top hne
  refine ⟨p, rest, hp, hcur, ?_⟩
  unfold currentPcb?
  rw [hcur, slot?_val]
  exact harr

/-- The process that has the processor. -/
theorem Sessions.running (hs : Sessions k stack) :
    ∃ p rest, stack k.currTerminal = p :: rest ∧ k.currentProcess k.currTerminal = p.val ∧
      k.currentPcb? = some p :=
  hs.toLinked.running hs.current

/-- The parent of a process that is not a base shell. -/
theorem Linked.below (hl : Linked k stack) {p q : Slot} {rest : List Slot}
    (hp : stack t = p :: q :: rest) : (k.pcb p).parentId = q.val ∧ k.processArray q = some q := by
  have hfol := hl.follows t
  rw [hp] at hfol
  have hq : slot? (k.pcb p).parentId = some q :=
    (Chains.follows_cons.1 (Chains.follows_cons.1 hfol).2).1
  refine ⟨slot?_eq_some.1 hq, (hl.known t q ?_).1⟩
  rw [hp]
  exact List.mem_cons_of_mem p List.mem_cons_self

/-- A process below slot 3 is the base shell, alone on its terminal. -/
theorem Linked.base_alone (hl : Linked k stack) {p : Slot} {rest : List Slot}
    (hp : stack t = p :: rest) (hlt : p.val < 3) : p = baseSlot t ∧ rest = [] := by
  have hbase : p = baseSlot ⟨p.val, hlt⟩ := rfl
  rw [hbase] at hp
  obtain ⟨heq, hrest⟩ := hl.wf.eq_singleton_of_top hp
  exact ⟨by rw [← heq, ← hbase], hrest⟩

/-- A process from slot 3 on has a parent. -/
theorem Linked.has_parent (hl : Linked k stack) {p : Slot} {rest : List Slot}
    (hp : stack t = p :: rest) (hge : ¬ p.val < 3) : ∃ q rest', rest = q :: rest' := by
  refine List.exists_cons_of_ne_nil fun hnil => ?_
  have hlast := hl.wf.bottom t (by rw [hp]; exact List.cons_ne_nil _ _)
  rw [hp, hnil] at hlast
  have hpt : p = baseSlot t := Option.some.inj hlast
  rw [hpt] at hge
  exact hge t.isLt

theorem Linked.processId (hl : Linked k stack) {p : Slot} (hp : p ∈ stack t) :
    (k.pcb p).processId.toNat = p.val := by
  rw [(hl.known t p hp).2]
  have : p.val < 8 := p.isLt
  simp only [UInt8.toNat_ofNat']
  omega

/-! ## What an operation can do -/

/-- A new process in slot `i`, on top of the session of terminal `t`; `parent` is the parent id that is
    stored for it unless it is a base shell. -/
structure Entered (k : Kernel) (t : Terminal) (i : Slot) (k' : Kernel) : Prop where
  currTerminal : k'.currTerminal = t
  inUse : k'.inUse = Function.update k.inUse i 1
  processArray : k'.processArray = Function.update k.processArray i (some i)
  currentProcess : k'.currentProcess = Function.update k.currentProcess t (i.val : Int)
  core_of_ne : ∀ j, j ≠ i → (k'.pcb j).core = (k.pcb j).core
  processId : (k'.pcb i).processId = UInt8.ofNat i.val
  parentId : (k'.pcb i).parentId = if i.val < 3 then -1 else k.currentProcess t

/-- The program of slot `p` is mapped and the kernel stack is the top of its region. -/
structure Mapped (k : Kernel) (p : Slot) : Prop where
  esp0 : k.esp0 = stackTop p.val
  entry : k.paging.pageDirectory processIdx = processEntry p

/-- The process `p` has ended and its parent `q` goes on. -/
structure Ended (k : Kernel) (p q : Slot) (k' : Kernel) : Prop where
  currTerminal : k'.currTerminal = k.currTerminal
  inUse : k'.inUse = Function.update k.inUse p 0
  processArray : k'.processArray = k.processArray
  currentProcess : k'.currentProcess = Function.update k.currentProcess k.currTerminal (q.val : Int)
  core : ∀ j, (k'.pcb j).core = (k.pcb j).core
  exceptionFlag : k'.exceptionFlag = 0
  esp0 : k'.esp0 = (k.pcb q).currentEsp
  entry : k'.paging.pageDirectory processIdx = processEntry q

/-- Another terminal's session goes on. -/
structure Visited (k : Kernel) (t : Terminal) (k' : Kernel) : Prop where
  currTerminal : k'.currTerminal = t
  inUse : k'.inUse = k.inUse
  processArray : k'.processArray = k.processArray
  currentProcess : k'.currentProcess = k.currentProcess
  core : ∀ j, (k'.pcb j).core = (k.pcb j).core
  exceptionFlag : k'.exceptionFlag = k.exceptionFlag

/-- How a process ends: by `halt`, or by an exception. The second argument is the exception flag
    `halt` then finds, the third the status it is given. -/
inductive Ends (k : Kernel) : Op → UInt32 → UInt8 → Locals → Prop
  | halt (status : UInt8) (loc : Locals) : Ends k (.halt status loc) k.exceptionFlag status loc
  | exception (i : Nat) (cr2 : UInt32) (loc : Locals) : Ends k (.exception i cr2 loc) 1 255 loc

/-- Does the operation end a process? -/
def Op.endsProcess : Op → Bool
  | .halt .. | .exception .. => true
  | _ => false

/-- Everything an operation can do to the process tables, with what it hands over and the session
    stacks after it. -/
inductive Effect (cfg : Config) (k : Kernel) (stack : Terminal → List Slot) :
    Op → Kernel → Out → (Terminal → List Slot) → Prop
  /-- Nothing: a device operation, an `execute` that fails early, a switch that goes nowhere. -/
  | stay {op : Op} {k' : Kernel} {out : Out} (same : SameProcs k k') (alive : op.endsProcess = false)
      (goesOn : out.goesOn = true) : Effect cfg k stack op k' out stack
  /-- `execute` starts a program. -/
  | launched {comm : Option Bytes} {loc : Locals} {i : Slot} {k' : Kernel} {entryPoint : UInt32}
      (free : freeSlot k = some i) (entered : Entered k k.currTerminal i k')
      (esp : (k'.pcb i).currentEsp = loc.esp) (flag : k'.exceptionFlag = k.exceptionFlag)
      (mapped : Mapped k' i) :
      Effect cfg k stack (.execute comm loc) k' (.entered entryPoint)
        (Function.update stack k.currTerminal (i :: stack k.currTerminal))
  /-- `execute` sets up a process and then returns `-1` for the magic number. -/
  | botched {comm : Option Bytes} {loc : Locals} {i : Slot} {k' : Kernel}
      (free : freeSlot k = some i) (failed : execute cfg k comm loc = .failed .badMagic k')
      (entered : Entered k k.currTerminal i k') (flag : k'.exceptionFlag = k.exceptionFlag) :
      Effect cfg k stack (.execute comm loc) k' (.ret (-1) emptyBuf)
        (Function.update stack k.currTerminal (i :: stack k.currTerminal))
  /-- A process from slot 3 on ends and its status goes to its parent. -/
  | ended {op : Op} {flag : UInt32} {status : UInt8} {loc : Locals} {p q : Slot} {rest : List Slot}
      {k' : Kernel} (ends : Ends k op flag status loc) (top : stack k.currTerminal = p :: q :: rest)
      (ended : Ended k p q k') :
      Effect cfg k stack op k' (.handedBack (status.toUInt32 + flag))
        (Function.update stack k.currTerminal (q :: rest))
  /-- A base shell ends and starts again. -/
  | restarted {op : Op} {flag : UInt32} {status : UInt8} {loc : Locals} {k' : Kernel}
      {entryPoint : UInt32} (ends : Ends k op flag status loc)
      (top : stack k.currTerminal = [baseSlot k.currTerminal])
      (entered : Entered k k.currTerminal (baseSlot k.currTerminal) k')
      (esp : (k'.pcb (baseSlot k.currTerminal)).currentEsp = loc.esp) (flag' : k'.exceptionFlag = flag)
      (mapped : Mapped k' (baseSlot k.currTerminal)) :
      Effect cfg k stack op k' (.entered entryPoint) stack
  /-- A terminal is visited for the first time and gets its base shell. -/
  | opened {esp ebp : Nat} {loc : Locals} {t : Terminal} {k' : Kernel} {out : Out}
      (away : t ≠ k.currTerminal) (first : stack t = []) (entered : Entered k t (baseSlot t) k')
      (shell : ∀ entryPoint, out = .entered entryPoint →
        (k'.pcb (baseSlot t)).currentEsp = loc.esp)
      (flag : k'.exceptionFlag = k.exceptionFlag) (mapped : Mapped k' (baseSlot t))
      (quiet : ∀ status, out ≠ .handedBack status) :
      Effect cfg k stack (.terminalSwitch t.val esp ebp loc) k' out
        (Function.update stack t [baseSlot t])
  /-- A terminal is visited again. -/
  | visited {esp ebp : Nat} {loc : Locals} {t : Terminal} {p : Slot} {rest : List Slot}
      {k' : Kernel} (away : t ≠ k.currTerminal) (top : stack t = p :: rest)
      (visited : Visited k t k') (mapped : Mapped k' p) :
      Effect cfg k stack (.terminalSwitch t.val esp ebp loc) k' .resumed stack

/-! ## The sessions after it -/

theorem parent_eq_of_core {p : Slot} (h : (k'.pcb p).core = (k.pcb p).core) :
    k'.parent p = k.parent p := by
  unfold Kernel.parent
  rw [(core_eq_iff.1 h).2.1]

/-- The bottom of a session that has been started. -/
theorem Linked.base_mem (hl : Linked k stack) (ht : stack t ≠ []) : baseSlot t ∈ stack t :=
  List.mem_of_getLast? (hl.wf.bottom t ht)

/-- The processes of the sessions keep their entries and PCBs. -/
def Kept (k k' : Kernel) (stack : Terminal → List Slot) : Prop :=
  ∀ t, ∀ p ∈ stack t, k'.processArray p = k.processArray p ∧
    (k'.pcb p).processId = (k.pcb p).processId ∧ (k'.pcb p).parentId = (k.pcb p).parentId

theorem Kept.parent (hkept : Kept k k' stack) {p : Slot} (hp : p ∈ stack t) :
    k'.parent p = k.parent p := by
  unfold Kernel.parent
  rw [(hkept t p hp).2.2]

theorem Entered.kept {i : Slot} {u : Terminal} (he : Entered k u i k')
    (hne : ∀ t, ∀ p ∈ stack t, p ≠ i) : Kept k k' stack := by
  intro t p hp
  obtain ⟨hid, hparent, -⟩ := core_eq_iff.1 (he.core_of_ne p (hne t p hp))
  refine ⟨?_, hid, hparent⟩
  rw [he.processArray, Function.update_of_ne (hne t p hp)]

/-- The links depend on `current_process` and on the PCBs of the sessions' own processes. -/
theorem Linked.congr (hl : Linked k stack) (hcurrent : k'.currentProcess = k.currentProcess)
    (hkept : Kept k k' stack) : Linked k' stack where
  wf := hl.wf
  follows t := by
    rw [hcurrent]
    exact (hl.follows t).congr fun x hx => hkept.parent hx
  idle t ht := by rw [hcurrent]; exact hl.idle t ht
  bottom t ht := by
    rw [(hkept t _ (hl.base_mem ht)).2.2]
    exact hl.bottom t ht
  known t p hp := by
    obtain ⟨harray, hid, -⟩ := hkept t p hp
    rw [harray, hid]
    exact hl.known t p hp

/-- A terminal's stack is replaced by one that `current_process` and the PCBs link up to; the other
    sessions keep theirs. -/
theorem Linked.replace (hl : Linked k stack) {new : List Slot} {p : Slot} (hp : p ∈ new)
    (hwf : Chains.WellFormed baseSlot (Function.update stack t new))
    (hcurrent : ∀ u, u ≠ t → k'.currentProcess u = k.currentProcess u)
    (hkept : Kept k k' (Function.update stack t []))
    (hfollows : Chains.Follows k'.parent (slot? (k'.currentProcess t)) new)
    (hbottom : (k'.pcb (baseSlot t)).parentId = -1)
    (hknown : ∀ x ∈ new, k'.processArray x = some x ∧ (k'.pcb x).processId = UInt8.ofNat x.val) :
    Linked k' (Function.update stack t new) := by
  -- the sessions of the other terminals are as they were
  have hother : ∀ u, u ≠ t → ∀ x ∈ stack u, x ∈ Function.update stack t [] u := by
    intro u hu x hx
    rwa [Function.update_of_ne hu]
  refine ⟨hwf, fun u => ?_, fun u hu => ?_, fun u hu => ?_, fun u x hx => ?_⟩
  · by_cases hu : u = t
    · subst hu
      rw [Function.update_self]
      exact hfollows
    · rw [Function.update_of_ne hu, hcurrent u hu]
      exact (hl.follows u).congr fun x hx => hkept.parent (hother u hu x hx)
  · by_cases hu' : u = t
    · subst hu'
      rw [Function.update_self] at hu
      rw [hu] at hp
      cases hp
    · rw [Function.update_of_ne hu'] at hu
      rw [hcurrent u hu']
      exact hl.idle u hu
  · by_cases hu' : u = t
    · rw [hu']
      exact hbottom
    · rw [Function.update_of_ne hu'] at hu
      rw [(hkept u _ (hother u hu' _ (hl.base_mem hu))).2.2]
      exact hl.bottom u hu
  · by_cases hu : u = t
    · subst hu
      rw [Function.update_self] at hx
      exact hknown x hx
    · rw [Function.update_of_ne hu] at hx
      obtain ⟨harray, hid, -⟩ := hkept u x (hother u hu x hx)
      rw [harray, hid]
      exact hl.known u x hx

theorem Kept.others (hkept : Kept k k' stack) (t : Terminal) :
    Kept k k' (Function.update stack t []) := by
  intro u p hp
  by_cases hu : u = t
  · subst hu
    rw [Function.update_self] at hp
    cases hp
  · rw [Function.update_of_ne hu] at hp
    exact hkept u p hp

/-- A process in a slot of no session goes on top of a session. -/
theorem Linked.push (hl : Linked k stack) {i : Slot} (hne : stack t ≠ [])
    (hfresh : ∀ u, i ∉ stack u) (hnot : ∀ u, baseSlot u ≠ i)
    (hcurrent : k'.currentProcess = Function.update k.currentProcess t (i.val : Int))
    (hkept : Kept k k' stack) (harray : k'.processArray i = some i)
    (hid : (k'.pcb i).processId = UInt8.ofNat i.val)
    (hparent : (k'.pcb i).parentId = k.currentProcess t) :
    Linked k' (Function.update stack t (i :: stack t)) := by
  refine hl.replace List.mem_cons_self (hl.wf.push hne hfresh hnot)
    (fun u hu => ?_) (hkept.others t) ?_ ?_ (fun x hx => ?_)
  · rw [hcurrent, Function.update_of_ne hu]
  · rw [hcurrent, Function.update_self, slot?_val]
    refine .cons ?_
    have htop : k'.parent i = slot? (k.currentProcess t) := by
      unfold Kernel.parent
      rw [hparent]
    rw [htop]
    exact (hl.follows t).congr fun x hx => hkept.parent hx
  · rw [(hkept t _ (hl.base_mem hne)).2.2]
    exact hl.bottom t hne
  · rcases List.mem_cons.1 hx with rfl | hx
    · exact ⟨harray, hid⟩
    · rw [(hkept t x hx).1, (hkept t x hx).2.1]
      exact hl.known t x hx

/-- A process that is not a base shell leaves its parent on top of its session. -/
theorem Linked.pop (hl : Linked k stack) {p q : Slot} {rest : List Slot}
    (htop : stack t = p :: q :: rest)
    (hcurrent : k'.currentProcess = Function.update k.currentProcess t (q.val : Int))
    (hkept : Kept k k' stack) : Linked k' (Function.update stack t (q :: rest)) := by
  have hmem : ∀ x ∈ q :: rest, x ∈ stack t := by
    intro x hx
    rw [htop]
    exact List.mem_cons_of_mem p hx
  have hne : stack t ≠ [] := by
    rw [htop]
    exact List.cons_ne_nil _ _
  refine hl.replace List.mem_cons_self (hl.wf.pop htop (List.cons_ne_nil q rest))
    (fun u hu => ?_) (hkept.others t) ?_ ?_ (fun x hx => ?_)
  · rw [hcurrent, Function.update_of_ne hu]
  · rw [hcurrent, Function.update_self, slot?_val]
    have hfol := hl.follows t
    rw [htop] at hfol
    have hrest := (Chains.follows_cons.1 hfol).2
    rw [(Chains.follows_cons.1 hrest).1] at hrest
    exact hrest.congr fun x hx => hkept.parent (hmem x hx)
  · rw [(hkept t _ (hl.base_mem hne)).2.2]
    exact hl.bottom t hne
  · rw [(hkept t x (hmem x hx)).1, (hkept t x (hmem x hx)).2.1]
    exact hl.known t x (hmem x hx)

/-- A base shell becomes the only process of its terminal. -/
theorem Linked.enterBase (hl : Linked k stack)
    (hcurrent : k'.currentProcess = Function.update k.currentProcess t ((baseSlot t).val : Int))
    (hkept : Kept k k' (Function.update stack t []))
    (harray : k'.processArray (baseSlot t) = some (baseSlot t))
    (hid : (k'.pcb (baseSlot t)).processId = UInt8.ofNat (baseSlot t).val)
    (hnone : (k'.pcb (baseSlot t)).parentId = -1) :
    Linked k' (Function.update stack t [baseSlot t]) := by
  refine hl.replace List.mem_cons_self (hl.wf.start baseSlot_injective t)
    (fun u hu => ?_) hkept ?_ hnone (fun x hx => ?_)
  · rw [hcurrent, Function.update_of_ne hu]
  · rw [hcurrent, Function.update_self, slot?_val]
    refine .cons ?_
    have hend : k'.parent (baseSlot t) = none := by
      unfold Kernel.parent
      rw [hnone]
      rfl
    rw [hend]
    exact .nil
  · rw [List.mem_singleton.1 hx]
    exact ⟨harray, hid⟩

theorem Sessions.transfer (hs : Sessions k stack) (hcurrent : k'.currentProcess = k.currentProcess)
    (harray : k'.processArray = k.processArray) (hused : k'.inUse = k.inUse)
    (hcore : ∀ p, (k'.pcb p).core = (k.pcb p).core) (hne : stack k'.currTerminal ≠ []) :
    Sessions k' stack where
  toLinked := hs.toLinked.congr hcurrent fun t p _ => by
    obtain ⟨hid, hparent, -⟩ := core_eq_iff.1 (hcore p)
    exact ⟨by rw [harray], hid, hparent⟩
  busy t p hp := by rw [hused]; exact hs.busy t p hp
  reserved t := by rw [hused]; exact hs.reserved t
  used p hge hp := by rw [hused] at hp; exact hs.used p hge hp
  current := hne

/-- What leaves the process tables alone leaves the sessions alone. -/
theorem Sessions.same (hs : Sessions k stack) (same : SameProcs k k') : Sessions k' stack := by
  refine hs.transfer same.currentProcess same.processArray same.inUse same.core ?_
  rw [same.currTerminal]
  exact hs.current

/-- A free slot is in no session and reserved for none. -/
theorem Sessions.free (hs : Sessions k stack) {i : Slot} (hfree : k.inUse i = 0) :
    (∀ u, i ∉ stack u) ∧ (∀ u, baseSlot u ≠ i) ∧ ¬ i.val < 3 := by
  refine ⟨fun u hu => ?_, fun u hu => ?_, fun hlt => ?_⟩
  · have := hs.busy u i hu
    omega
  · have := hs.reserved u
    rw [hu] at this
    omega
  · have hres : k.inUse i = 1 := hs.reserved ⟨i.val, hlt⟩
    omega

/-- A process in a free slot goes on top of the current session. -/
theorem Sessions.push (hs : Sessions k stack) {i : Slot} (hfree : k.inUse i = 0)
    (he : Entered k k.currTerminal i k') :
    Sessions k' (Function.update stack k.currTerminal (i :: stack k.currTerminal)) := by
  obtain ⟨hfresh, hnot, hge⟩ := hs.free hfree
  have hne : ∀ u, ∀ x ∈ stack u, x ≠ i := fun u x hx hxi => hfresh u (hxi ▸ hx)
  have hold : ∀ u x, x ∈ stack u → x ∈ Function.update stack k.currTerminal
      (i :: stack k.currTerminal) u := by
    intro u x hx
    by_cases hu : u = k.currTerminal
    · subst hu
      rw [Function.update_self]
      exact List.mem_cons_of_mem i hx
    · rwa [Function.update_of_ne hu]
  -- the new process on top of the session, the slots of the others as before
  refine ⟨?_, fun u p hp => ?_, fun u => ?_, fun p hp3 hp => ?_, ?_⟩
  · refine hs.toLinked.push hs.current hfresh hnot he.currentProcess (he.kept hne) ?_ he.processId ?_
    · rw [he.processArray, Function.update_self]
    · rw [he.parentId, if_neg hge]
  · rw [he.inUse]
    by_cases hpi : p = i
    · rw [hpi, Function.update_self]
    · rw [Function.update_of_ne hpi]
      by_cases hu : u = k.currTerminal
      · subst hu
        rw [Function.update_self] at hp
        exact hs.busy _ p ((List.mem_cons.1 hp).resolve_left hpi)
      · rw [Function.update_of_ne hu] at hp
        exact hs.busy u p hp
  · rw [he.inUse, Function.update_of_ne (hnot u)]
    exact hs.reserved u
  · by_cases hpi : p = i
    · subst hpi
      exact ⟨k.currTerminal, by rw [Function.update_self]; exact List.mem_cons_self⟩
    · rw [he.inUse, Function.update_of_ne hpi] at hp
      obtain ⟨u, hu⟩ := hs.used p hp3 hp
      exact ⟨u, hold u p hu⟩
  · rw [he.currTerminal, Function.update_self]
    exact List.cons_ne_nil _ _

/-- A process that is not a base shell leaves its parent on top of the current session. -/
theorem Sessions.pop (hs : Sessions k stack) {p q : Slot} {rest : List Slot}
    (htop : stack k.currTerminal = p :: q :: rest) (he : Ended k p q k') :
    Sessions k' (Function.update stack k.currTerminal (q :: rest)) := by
  have hsub : ∀ u x, x ∈ Function.update stack k.currTerminal (q :: rest) u → x ∈ stack u := by
    intro u x hx
    by_cases hu : u = k.currTerminal
    · subst hu
      rw [Function.update_self] at hx
      rw [htop]
      exact List.mem_cons_of_mem p hx
    · rwa [Function.update_of_ne hu] at hx
  have hgone : ∀ u, p ∉ Function.update stack k.currTerminal (q :: rest) u := by
    intro u hu
    have hmem : p ∈ stack k.currTerminal := by rw [htop]; exact List.mem_cons_self
    -- no process is in two sessions, nor twice in one
    obtain rfl : u = k.currTerminal := hs.wf.owner_unique (hsub u p hu) hmem
    rw [Function.update_self] at hu
    have hnodup := hs.wf.nodup k.currTerminal
    rw [htop] at hnodup
    exact (List.nodup_cons.1 hnodup).1 hu
  have hnotBase : ∀ u, baseSlot u ≠ p := by
    rintro u rfl
    cases (hs.wf.eq_singleton_of_top htop).2
  refine ⟨?_, fun u x hx => ?_, fun u => ?_, fun x hx3 hx => ?_, ?_⟩
  · refine hs.toLinked.pop htop he.currentProcess fun u x _ => ?_
    obtain ⟨hid, hparent, -⟩ := core_eq_iff.1 (he.core x)
    exact ⟨by rw [he.processArray], hid, hparent⟩
  · have hxp : x ≠ p := fun h => hgone u (h ▸ hx)
    rw [he.inUse, Function.update_of_ne hxp]
    exact hs.busy u x (hsub u x hx)
  · rw [he.inUse, Function.update_of_ne (hnotBase u)]
    exact hs.reserved u
  · have hxp : x ≠ p := by
      rintro rfl
      rw [he.inUse, Function.update_self] at hx
      exact hx rfl
    rw [he.inUse, Function.update_of_ne hxp] at hx
    obtain ⟨u, hu⟩ := hs.used x hx3 hx
    refine ⟨u, ?_⟩
    by_cases hu' : u = k.currTerminal
    · subst hu'
      rw [htop] at hu
      rw [Function.update_self]
      exact (List.mem_cons.1 hu).resolve_left hxp
    · rwa [Function.update_of_ne hu']
  · rw [he.currTerminal, Function.update_self]
    exact List.cons_ne_nil _ _

/-- A base shell becomes the only process of its terminal. -/
theorem Sessions.enterBase (hs : Sessions k stack) (honly : ∀ p ∈ stack t, p = baseSlot t)
    (he : Entered k t (baseSlot t) k') : Sessions k' (Function.update stack t [baseSlot t]) := by
  have hbase : (baseSlot t).val < 3 := t.isLt
  have hne : ∀ u, u ≠ t → ∀ x ∈ stack u, x ≠ baseSlot t := by
    intro u hu x hx hxt
    exact hu (hs.wf.reserved u t (hxt ▸ hx))
  refine ⟨?_, fun u p hp => ?_, fun u => ?_, fun p hp3 hp => ?_, ?_⟩
  · refine hs.toLinked.enterBase he.currentProcess (he.kept fun u x hx => ?_) ?_ he.processId ?_
    · by_cases hu : u = t
      · subst hu
        rw [Function.update_self] at hx
        cases hx
      · rw [Function.update_of_ne hu] at hx
        exact hne u hu x hx
    · rw [he.processArray, Function.update_self]
    · rw [he.parentId, if_pos hbase]
  · rw [he.inUse]
    by_cases hu : u = t
    · subst hu
      rw [Function.update_self] at hp
      rw [List.mem_singleton.1 hp, Function.update_self]
    · rw [Function.update_of_ne hu] at hp
      rw [Function.update_of_ne (hne u hu p hp)]
      exact hs.busy u p hp
  · rw [he.inUse]
    by_cases hu : u = t
    · rw [hu, Function.update_self]
    · rw [Function.update_of_ne fun h => hu (baseSlot_injective h)]
      exact hs.reserved u
  · have hpt : p ≠ baseSlot t := by
      rintro rfl
      omega
    rw [he.inUse, Function.update_of_ne hpt] at hp
    obtain ⟨u, hu⟩ := hs.used p hp3 hp
    have hut : u ≠ t := by
      rintro rfl
      exact hpt (honly p hu)
    exact ⟨u, by rwa [Function.update_of_ne hut]⟩
  · rw [he.currTerminal, Function.update_self]
    exact List.cons_ne_nil _ _

/-- Every effect leads from sessions to sessions. -/
theorem Effect.sessions {op : Op} {out : Out} {stack' : Terminal → List Slot}
    (hs : Sessions k stack) (he : Effect cfg k stack op k' out stack') : Sessions k' stack' := by
  cases he with
  | stay same => exact hs.same same
  | launched free entered => exact hs.push (freeSlot_eq_some.1 free).1 entered
  | botched free _ entered => exact hs.push (freeSlot_eq_some.1 free).1 entered
  | ended _ top ended => exact hs.pop top ended
  | restarted _ top entered =>
      have hbase := hs.enterBase (fun p hp => by simpa [top] using hp) entered
      rwa [← top, Function.update_eq_self] at hbase
  | opened _ first entered => exact hs.enterBase (fun p hp => by simp [first] at hp) entered
  | visited _ top visited =>
      refine hs.transfer visited.currentProcess visited.processArray visited.inUse visited.core ?_
      rw [visited.currTerminal, top]
      exact List.cons_ne_nil _ _

end BaseOs
