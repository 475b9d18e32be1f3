import BaseOs.Process.Background

set_option autoImplicit false

/-! # The process table over whole runs

Two results about every state the kernel can reach. A failed `execute` leaves the tables as they were
exactly when it does not get as far as the magic number check (`execute_atomic_iff`). Runs in which no
`execute` fails that late keep the table invariant (`processTable_invariant`). -/

namespace BaseOs

open Kernel

variable {cfg : Config} {k k' : Kernel} {loc : Locals}

/-! ## The page above the program page -/

theorem next_programEnds {op : Op} (hends : k.ProgramEnds) (h : k.next cfg op = some k') :
    k'.ProgramEnds := by
  have habove := next_above h
  unfold Kernel.above at habove
  unfold ProgramEnds at hends ⊢
  rw [habove]
  exact hends

theorem bootState_programEnds (cfg : Config) (machine : Kernel) :
    (bootState cfg machine).ProgramEnds := by
  have hdir : (bootState cfg machine).paging.pageDirectory aboveProgram = rwSetOnly := rfl
  unfold ProgramEnds
  rw [hdir]
  rfl

/-- In every state the kernel can reach, a program that is too long faults. -/
theorem Reachable.programEnds (h : Reachable cfg k) : k.ProgramEnds := by
  obtain ⟨machine, loc, ops, hrun⟩ := h
  refine Runs.run_preserves (P := fun _ _ => True) (fun s op s' hs _ hstep => ?_)
    (bootState_programEnds cfg machine) (Runs.allSteps_of_forall (fun _ _ => trivial) _ _) hrun
  exact next_programEnds hs hstep

/-! ## A failed `execute` -/

/-- What a failed call must leave as it was: the tables, every live process's PCB, and the mapping of
    the running program. -/
structure Untouched (k k' : Kernel) : Prop where
  inUse : k'.inUse = k.inUse
  processArray : k'.processArray = k.processArray
  currentProcess : k'.currentProcess = k.currentProcess
  live : ∀ p, k.inUse p ≠ 0 →
    (k'.pcb p).processId = (k.pcb p).processId ∧ (k'.pcb p).parentId = (k.pcb p).parentId ∧
      (k'.pcb p).args = (k.pcb p).args ∧ (k'.pcb p).fdTable = (k.pcb p).fdTable
  mapping : k'.paging.pageDirectory processIdx = k.paging.pageDirectory processIdx

theorem SameTables.untouched (h : SameTables k k') : Untouched k k' where
  inUse := h.inUse
  processArray := h.processArray
  currentProcess := h.currentProcess
  live p _ := by
    rw [h.pcb]
    exact ⟨rfl, rfl, rfl, rfl⟩
  mapping := by rw [h.paging]

/-- The command names a readable file of type 2 that does not begin with the magic number (`loc.buf` is
    what the header buffer held before), and a slot is free. -/
def NoProgram (cfg : Config) (k : Kernel) (comm : Option Bytes) (loc : Locals) : Prop :=
  ∃ c fileName d, comm = some c ∧ copyFileName (commandWord c loc) loc.fileName = some fileName ∧
    readDentryByName cfg.fs fileName loc.dentry = some d ∧ d.fileType = 2 ∧
    (readData cfg.fs d.inodeIdx 0 bytesToRead).ret ≠ -1 ∧
    hasMagic (store loc.buf (readData cfg.fs d.inodeIdx 0 bytesToRead).data) = false ∧
    ∃ i, k.inUse i = 0

theorem freeSlot_isSome (h : ∃ i, k.inUse i = 0) : ∃ i, freeSlot k = some i := by
  obtain ⟨i, hi⟩ := h
  unfold freeSlot
  cases hfind : Fin.find? fun i => k.inUse i == 0 with
  | some j => exact ⟨j, rfl⟩
  | none =>
      rw [Fin.find?_eq_none_iff] at hfind
      exact absurd (beq_iff_eq.2 hi) (by rw [hfind i]; decide)

/-- A failed `execute` is atomic exactly when the command does not get it past the slot search with a
    file that is no program: every exit up to the slot search leaves everything as it was, and the
    magic number is the only check after it that can fail. -/
theorem execute_atomic_iff (hk : Reachable cfg k) (comm : Option Bytes) (loc : Locals) :
    (∀ e k', execute cfg k comm loc = .failed e k' → Untouched k k') ↔
      ¬ NoProgram cfg k comm loc := by
  constructor
  · rintro hatomic ⟨c, fileName, d, rfl, hname, hd, htype, hret, hmagic, hfree⟩
    obtain ⟨i, hi⟩ := freeSlot_isSome hfree
    have hfile : findProgram cfg (commandWord c loc) loc = .ok ⟨fileName, _⟩ :=
      findProgram_eq_ok.2 ⟨hname, d, hd, htype, hret, rfl⟩
    have huntouched := hatomic _ _ (execute_badMagic hfile hi hmagic)
    -- the slot was free and is now in use
    have hslot := congrFun huntouched.inUse i
    rw [(setUp_entered k c loc i).inUse, Function.update_self, (freeSlot_eq_some.1 hi).1] at hslot
    exact absurd hslot (by decide)
  · intro hgood e k' hfail
    rcases execute_failed hk.programEnds hfail with ⟨-, hsame⟩ |
      ⟨c, file, i, rfl, hfile, hi, hmagic, -, -⟩
    · exact hsame.untouched
    · obtain ⟨hname, d, hd, htype, hret, hbuf⟩ := findProgram_eq_ok.1 hfile
      rw [hbuf] at hmagic
      exact absurd ⟨c, file.fileName, d, rfl, hname, hd, htype, hret, hmagic, i,
        (freeSlot_eq_some.1 hi).1⟩ hgood

/-! ### On the small image -/

/-- A machine with all its variables zero. -/
def smallMachine : Kernel where
  currTerminal := 0
  oldTerminal := 0
  screenX := fun _ => 0
  screenY := fun _ => 0
  currentProcess := fun _ => 0
  saveBuff := fun _ _ => 0
  processArray := fun _ => none
  inUse := fun _ => 0
  pcb := fun _ => ⟨0, 0, 0, 0, 0, 0, fun _ => 0, closeAllFd⟩
  extendedStatus := 0
  cmdArgs := fun _ _ => 0
  exceptionFlag := 0
  esp0 := 0
  paging := ⟨fun _ => 0, fun _ => 0, fun _ => 0⟩
  mem := fun _ => 0
  keyboard := ⟨fun _ => 0, false, false, fun _ => 0, fun _ _ => 0, false⟩
  rtc := ⟨false, 0, 0, 0⟩

/-- The small machine with its first shell running. -/
def smallBooted : Kernel := (boot smallConfig smallMachine (localsAt 0)).kernel

theorem boot_freeSlot (cfg : Config) (machine : Kernel) :
    freeSlot (bootState cfg machine) = some 0 := rfl

theorem smallBooted_spec :
    ∃ entryPoint, boot smallConfig smallMachine (localsAt 0) = .started smallBooted entryPoint ∧
      Started smallConfig (bootState smallConfig smallMachine) 0 (localsAt 0) smallBooted := by
  obtain ⟨k, entryPoint, hrun, hst⟩ := @execute_shell smallConfig (bootState smallConfig smallMachine)
    (localsAt 0) smallConfig_hasShell _ (boot_freeSlot smallConfig smallMachine)
  have hk : smallBooted = k := congrArg ExecResult.kernel hrun
  rw [hk]
  exact ⟨entryPoint, hrun, hst⟩

theorem smallBooted_reachable : Reachable smallConfig smallBooted := by
  obtain ⟨entryPoint, hrun, -⟩ := smallBooted_spec
  exact ⟨smallMachine, localsAt 0, [],
    Runs.run_cons_eq_some.2 ⟨smallBooted, next_execute hrun, rfl⟩⟩

theorem smallBooted_inUse (i : Slot) : smallBooted.inUse i = if i.val < 3 then 1 else 0 := by
  obtain ⟨-, -, hst⟩ := smallBooted_spec
  rw [hst.inUse]
  revert i
  decide

theorem smallBooted_freeSlot : freeSlot smallBooted = some 3 := by
  rw [freeSlot_eq_some]
  simp only [smallBooted_inUse]
  decide

/-- `execute("note")`: a text file. -/
def noteCommand : Bytes := cstr (ascii "note")

theorem smallConfig_note (d : Dentry) :
    readDentryByName smallConfig.fs noteCommand d = some (fillDentry smallConfig.fs 1 d) := by
  have hfind : (Fin.find? fun i : Fin maxEntries => (smallConfig.fs.entries i).name == ascii "note")
      = some ⟨1, by decide⟩ := by decide +kernel
  rw [noteCommand, readDentryByName_cstr smallConfig_countsNames (by simp [ascii]) (by decide)
    (by decide), hfind]
  rfl

theorem note_noProgram : NoProgram smallConfig smallBooted (some noteCommand) (localsAt 0) := by
  obtain ⟨fileName, hcopy, hname⟩ :=
    copyFileName_word (s := ascii "note") (by simp [ascii]) (by decide) (fun _ _ => rfl) (Or.inr rfl)
      (localsAt 0)
  have hd := (readDentryByName_congr smallConfig.fs hname (by simp [cstr]) (localsAt 0).dentry).trans
    (smallConfig_note _)
  refine ⟨noteCommand, fileName, _, rfl, hcopy, hd, rfl, by decide, by decide, 3, ?_⟩
  rw [smallBooted_inUse]
  rfl

/-- A text file run as a command: `-1` comes back, and slot 3 stays taken. -/
theorem execute_note_not_atomic :
    ¬ ∀ (cfg : Config) (k : Kernel) (comm : Option Bytes) (loc : Locals), Reachable cfg k →
      ∀ e k', execute cfg k comm loc = .failed e k' → Untouched k k' := by
  intro hall
  obtain ⟨c, fileName, d, hc, hname, hd, htype, hret, hmagic, -⟩ := note_noProgram
  obtain rfl := Option.some.inj hc
  have hfile : findProgram smallConfig (commandWord noteCommand (localsAt 0)) (localsAt 0)
      = .ok ⟨fileName, _⟩ := findProgram_eq_ok.2 ⟨hname, d, hd, htype, hret, rfl⟩
  have huntouched := hall smallConfig smallBooted (some noteCommand) (localsAt 0)
    smallBooted_reachable _ _ (execute_badMagic hfile smallBooted_freeSlot hmagic)
  have hslot := congrFun huntouched.inUse 3
  rw [(setUp_entered smallBooted noteCommand (localsAt 0) 3).inUse, Function.update_self,
    smallBooted_inUse] at hslot
  exact absurd hslot (by decide)

/-- A name that is not in the image, on the booted machine. -/
theorem execute_atomic_missing :
    ¬ NoProgram smallConfig smallBooted (some (cstr (ascii "none"))) (localsAt 0) ∧
      ∀ e k', execute smallConfig smallBooted (some (cstr (ascii "none"))) (localsAt 0) = .failed e k' →
        Untouched smallBooted k' := by
  have hmissing : ¬ NoProgram smallConfig smallBooted (some (cstr (ascii "none"))) (localsAt 0) := by
    rintro ⟨c, fileName, d, hc, hcopy, hd, -⟩
    obtain rfl := Option.some.inj hc
    obtain ⟨fileName', hcopy', hname⟩ :=
      copyFileName_word (s := ascii "none") (by simp [ascii]) (by decide) (fun _ _ => rfl) (Or.inr rfl)
        (localsAt 0)
    obtain rfl : fileName = fileName' := Option.some.inj (hcopy.symm.trans hcopy')
    have hfind : (Fin.find? fun i : Fin maxEntries => (smallConfig.fs.entries i).name == ascii "none")
        = none := by decide +kernel
    rw [readDentryByName_congr smallConfig.fs hname (by simp [cstr]),
      readDentryByName_cstr smallConfig_countsNames (by simp [ascii]) (by decide)
        (by decide), hfind] at hd
    cases hd
  exact ⟨hmissing, (execute_atomic_iff smallBooted_reachable _ _).2 hmissing⟩

/-! ## The table invariant -/

/-- The state of the process table, with the chain of each terminal's processes from the current one
    to the base shell. -/
structure ProcessTable (k : Kernel) (chain : Terminal → List Slot) : Prop where
  reserved : k.inUse 0 = 1 ∧ k.inUse 1 = 1 ∧ k.inUse 2 = 1
  started : ∀ t, chain t ≠ [] ↔ k.currentProcess t ≠ -1
  follows : ∀ t, Chains.Follows k.parent (slot? (k.currentProcess t)) (chain t)
  live : ∀ t, ∀ p ∈ chain t,
    k.inUse p = 1 ∧ k.processArray p = some p ∧ (k.pcb p).processId.toNat = p.val
  nodup : ∀ t, (chain t).Nodup
  bottom : ∀ t, chain t ≠ [] →
    (chain t).getLast? = some (baseSlot t) ∧ (k.pcb (baseSlot t)).parentId = -1
  disjoint : ∀ t u, t ≠ u → List.Disjoint (chain t) (chain u)
  owned : ∀ p : Slot, 3 ≤ p.val → k.inUse p ≠ 0 → ∃! t, p ∈ chain t
  mapped : ∃ p : Slot, k.currentProcess k.currTerminal = p.val ∧
    k.paging.pageDirectory processIdx
      = (userSpace + 0x400000 * UInt32.ofNat p.val) ||| processSet

/-- The running program is the one that is mapped. -/
def Kernel.RunsMapped (k : Kernel) : Prop :=
  ∃ p : Slot, k.currentProcess k.currTerminal = p.val ∧
    k.paging.pageDirectory processIdx = processEntry p

theorem Sessions.processTable {stack : Terminal → List Slot} (hs : Sessions k stack)
    (hmapped : k.RunsMapped) : ProcessTable k stack where
  reserved := ⟨hs.reserved 0, hs.reserved 1, hs.reserved 2⟩
  started t := by
    constructor
    · intro hne
      obtain ⟨p, rest, -, hcur, -⟩ := hs.top hne
      rw [hcur]
      omega
    · intro hcur hnil
      exact hcur (hs.idle t hnil)
  follows := hs.follows
  live t p hp := ⟨(hs.live t p hp).1, (hs.live t p hp).2.1, hs.processId hp⟩
  nodup := hs.wf.nodup
  bottom t ht := ⟨hs.wf.bottom t ht, hs.bottom t ht⟩
  disjoint := hs.wf.disjoint
  owned p hge hp := by
    obtain ⟨t, ht⟩ := hs.used p hge hp
    exact ⟨t, ht, fun u hu => hs.wf.owner_unique hu ht⟩
  mapped := by
    obtain ⟨p, hcur, hentry⟩ := hmapped
    refine ⟨p, hcur, ?_⟩
    rw [hentry, UInt32.mul_comm]
    rfl

/-- An `execute` that does not fail after it has reserved a slot. -/
def Tidy (cfg : Config) (k : Kernel) (op : Op) : Prop :=
  ∀ comm loc e k', op = .execute comm loc → execute cfg k comm loc = .failed e k' → e.early = true

theorem Effect.runsMapped {stack stack' : Terminal → List Slot} {op : Op} {out : Out}
    (he : Effect cfg k stack op k' out stack') (hs : Sessions k stack) (hmapped : k.RunsMapped)
    (htidy : Tidy cfg k op) : k'.RunsMapped := by
  cases he with
  | stay same =>
      obtain ⟨p, hcur, hentry⟩ := hmapped
      refine ⟨p, ?_, ?_⟩
      · rw [same.currentProcess, same.currTerminal]
        exact hcur
      · rw [same.directory processIdx (by decide)]
        exact hentry
  | @launched _ _ i _ _ _ entered _ _ mapped =>
      refine ⟨i, ?_, mapped.entry⟩
      rw [entered.currentProcess, entered.currTerminal, Function.update_self]
  | @botched comm loc _ _ _ failed => cases htidy comm loc _ _ rfl failed
  | @ended _ _ _ _ _ q _ _ _ _ ended =>
      refine ⟨q, ?_, ended.entry⟩
      rw [ended.currentProcess, ended.currTerminal, Function.update_self]
  | restarted _ _ entered _ _ mapped =>
      refine ⟨_, ?_, mapped.entry⟩
      rw [entered.currentProcess, entered.currTerminal, Function.update_self]
  | opened _ _ entered _ _ mapped =>
      refine ⟨_, ?_, mapped.entry⟩
      rw [entered.currentProcess, entered.currTerminal, Function.update_self]
  | @visited _ _ _ t p rest _ _ top visited mapped =>
      refine ⟨p, ?_, mapped.entry⟩
      obtain ⟨p', rest', hp', hcur, -⟩ := hs.top (t := t) (by rw [top]; exact List.cons_ne_nil _ _)
      obtain ⟨rfl, -⟩ := List.cons.inj (top.symm.trans hp')
      rw [visited.currentProcess, visited.currTerminal]
      exact hcur

theorem bootState_inUse (cfg : Config) (machine : Kernel) (p : Slot) :
    (bootState cfg machine).inUse p = if p = 1 ∨ p = 2 then 1 else 0 := by
  fin_cases p <;> rfl

/-- Before the first shell there are no sessions. -/
theorem bootState_linked (cfg : Config) (machine : Kernel) :
    Linked (bootState cfg machine) fun _ => [] where
  wf := Chains.wellFormed_nil baseSlot
  follows _ := .nil
  idle _ _ := rfl
  bottom _ h := absurd rfl h
  known _ _ h := absurd h List.not_mem_nil

/-- After boot, terminal 0 has its base shell and the other terminals have nothing. -/
def bootSessions : Terminal → List Slot := Function.update (fun _ => []) 0 [baseSlot 0]

theorem boot_sessions {machine : Kernel} (hst : Started cfg (bootState cfg machine) 0 loc k) :
    Sessions k bootSessions ∧ k.RunsMapped := by
  have hcur : k.currentProcess
      = Function.update (bootState cfg machine).currentProcess 0 ((baseSlot 0).val : Int) :=
    hst.currentProcess
  have hbase : ∀ t, ∀ p ∈ bootSessions t, t = 0 ∧ p = 0 := by
    intro t p hp
    by_cases ht : t = 0
    · subst ht
      exact ⟨rfl, List.mem_singleton.1 hp⟩
    · unfold bootSessions at hp
      rw [Function.update_of_ne ht] at hp
      cases hp
  refine ⟨⟨?_, fun t p hp => ?_, fun t => ?_, fun p hge hp => ?_, ?_⟩, ?_⟩
  · refine (bootState_linked cfg machine).enterBase hcur (fun t p hp => ?_) ?_ hst.processId
      hst.parentId
    · rw [Function.update_eq_self_iff.2 rfl] at hp
      cases hp
    · change k.processArray 0 = some 0
      rw [hst.processArray, Function.update_self]
  · obtain ⟨rfl, rfl⟩ := hbase t p hp
    rw [hst.inUse, Function.update_self]
  · rw [hst.inUse]
    fin_cases t <;> rfl
  · exfalso
    apply hp
    rw [hst.inUse, Function.update_of_ne (by rintro rfl; simp at hge), bootState_inUse, if_neg]
    rintro (rfl | rfl)
    · exact absurd hge (by decide)
    · exact absurd hge (by decide)
  · rw [hst.currTerminal]
    exact List.cons_ne_nil _ _
  · refine ⟨0, ?_, hst.mapped.entry⟩
    rw [hst.currTerminal, hcur]
    rfl

/-- With a shell in the image, boot starts it in slot 0. -/
theorem boot_started (hshell : HasShell cfg.fs) (machine : Kernel) (loc : Locals) :
    ∃ k entryPoint, boot cfg machine loc = .started k entryPoint ∧
      Started cfg (bootState cfg machine) 0 loc k :=
  execute_shell hshell (boot_freeSlot cfg machine)

/-- What every state after boot satisfies as long as no `execute` fails late. -/
def TableInvariant (k : Kernel) : Prop :=
  k.ProgramEnds ∧ k.RunsMapped ∧ ∃ stack, Sessions k stack

theorem TableInvariant.next {op : Op} (hinv : TableInvariant k) (htidy : Tidy cfg k op)
    (h : k.next cfg op = some k') : TableInvariant k' := by
  obtain ⟨hends, hmapped, stack, hs⟩ := hinv
  obtain ⟨⟨k1, out⟩, hstep, rfl⟩ := Option.map_eq_some_iff.1 h
  obtain ⟨stack', he⟩ := step_effect hs hends hstep
  exact ⟨next_programEnds hends h, he.runsMapped hs hmapped htidy, stack', he.sessions hs⟩

theorem next_startedProgramEnds {machine : Kernel} {entryPoint : UInt32}
    (h : boot cfg machine loc = .started k entryPoint) : k.ProgramEnds :=
  next_programEnds (bootState_programEnds cfg machine) (next_execute h)

/-- The process-table invariant. With a shell in the image, boot starts it; and from there every run
    of operations, in which each `execute` starts its program or fails before it reserves a slot, stays
    within states whose process table is in order. -/
theorem processTable_invariant (hshell : HasShell cfg.fs) (machine : Kernel) (loc : Locals) :
    ∃ k0 entryPoint, boot cfg machine loc = .started k0 entryPoint ∧
      ∀ ops k, Runs.AllSteps (Kernel.next cfg) (Tidy cfg) k0 ops →
        Runs.run (Kernel.next cfg) k0 ops = some k → ∃ chain, ProcessTable k chain := by
  obtain ⟨k0, entryPoint, hboot, hst⟩ := boot_started hshell machine loc
  refine ⟨k0, entryPoint, hboot, fun ops k htidy hrun => ?_⟩
  have hinv0 : TableInvariant k0 := by
    obtain ⟨hs, hmapped⟩ := boot_sessions hst
    exact ⟨next_startedProgramEnds hboot, hmapped, _, hs⟩
  obtain ⟨-, hmapped, stack, hs⟩ :=
    Runs.run_preserves (fun _ _ _ hinv htidy hstep => hinv.next htidy hstep) hinv0 htidy hrun
  exact ⟨stack, hs.processTable hmapped⟩

/-- A second shell on the booted small machine. -/
theorem processTable_second_shell :
    ∃ k, Runs.run (Kernel.next smallConfig) smallBooted
        [.execute (some shellCommand) (localsAt 0)] = some k ∧ ∃ chain, ProcessTable k chain := by
  obtain ⟨entryPoint, hboot, -⟩ := smallBooted_spec
  obtain ⟨k, entryPoint', hex, -⟩ :=
    @execute_shell smallConfig smallBooted (localsAt 0) smallConfig_hasShell _ smallBooted_freeSlot
  have hrun : Runs.run (Kernel.next smallConfig) smallBooted
      [.execute (some shellCommand) (localsAt 0)] = some k :=
    Runs.run_cons_eq_some.2 ⟨k, next_execute hex, rfl⟩
  have htidy : Runs.AllSteps (Kernel.next smallConfig) (Tidy smallConfig) smallBooted
      [.execute (some shellCommand) (localsAt 0)] := by
    refine ⟨fun comm loc e k' hop hfail => ?_, fun _ _ => trivial⟩
    cases hop
    rw [hex] at hfail
    cases hfail
  obtain ⟨k0, entryPoint0, hboot0, hall⟩ :=
    processTable_invariant smallConfig_hasShell smallMachine (localsAt 0)
  rw [hboot] at hboot0
  cases hboot0
  exact ⟨k, hrun, hall _ k htidy hrun⟩

end BaseOs
