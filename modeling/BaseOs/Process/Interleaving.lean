import BaseOs.Process.Ending
import BaseOs.Process.Starting

set_option autoImplicit false

/-! # Process slots under preemption

`execute` tests `in_use[i]` and writes it in two steps, and `halt` frees a slot before it leaves it. With
interrupts between the steps two terminals can come to hold one slot. `slotsApart_iff` says exactly when
they do not: in every run, the slots of different terminals stay apart if and only if every `execute`
still finds its slot free when it writes `in_use[i]`. -/

namespace BaseOs

open Kernel

variable {cfg : Config} {k k' : Kernel} {pts : Terminal → Point} {stack stack' : Terminal → List Slot}
  {t u : Terminal}

/-! ## Interrupts and calls -/

/-- The first visit to a terminal: its base slot is freed for its shell. -/
theorem Ordered.firstVisit {loc : Locals} (ho : Ordered k pts stack) (hsame : SameSlots k k')
    (haway : k'.currTerminal ≠ k.currTerminal) (hne : stack k.currTerminal ≠ [])
    (hnil : stack k'.currTerminal = []) :
    Ordered { k' with inUse := Function.update k'.inUse (baseSlot k'.currTerminal) 0 }
      (Function.update pts k'.currTerminal (.lookUp shellCommand loc .first)) stack := by
  have hidle := ((ho.fits _).idle haway hnil).1
  have hother : ∀ q, q ≠ baseSlot k'.currTerminal →
      SameSlot k { k' with inUse := Function.update k'.inUse (baseSlot k'.currTerminal) 0 } q := by
    intro q hq
    have hslot := hsame.slot q
    exact ⟨(Function.update_of_ne hq _ _).trans hslot.inUse, hslot.processArray, hslot.processId,
      hslot.parentId⟩
  refine ho.advance (fun u _ hunil huc => ?_) rfl ?_ ⟨⟨rfl, hnil⟩, Function.update_self ..,
    Nat.zero_le _⟩ (fun _ _ => rfl) id (fun u _ => by rw [← hsame.currentProcess])
    (fun u hu q hq => hother q ?_) (fun u hu q hq => ?_) (fun q hq => ?_) (fun q hge hused => ?_)
  · rw [huc] at hunil
    exact hne hunil
  · exact ho.linked.congr hsame.currentProcess (hsame.kept stack)
  · rintro rfl
    exact ho.not_claims (Or.inl rfl) hu hq
  · rw [hnil] at hq
    rcases hq with hq | hq <;> cases hq
  · rw [hnil] at hq
    cases hq
  · right
    have hqb : q ≠ baseSlot k'.currTerminal := by
      rintro rfl
      exact absurd hge (by have := k'.currTerminal.isLt; simp only [baseSlot]; omega)
    rw [(hother q hqb).inUse] at hused
    refine ⟨hused, ?_⟩
    rw [hidle]
    rintro (hq | hq | hq)
    · exact hqb hq
    · rw [hnil] at hq
      cases hq
    · cases hq

theorem Ordered.interrupt {s s' : Threads} {newTerminal esp ebp : Nat} {loc : Locals}
    (ho : Ordered s.kernel s.point stack) (h : s.interrupt cfg newTerminal esp ebp loc = some s') :
    Ordered s'.kernel s'.point stack := by
  unfold Threads.interrupt at h
  split_ifs at h with hsameTerm hge
  · cases h
    exact ho
  · cases h
    exact ho
  split at h
  · cases h
  next p hp =>
    have hne := ho.linked.started hp
    have hset : SameSlots s.kernel
        (s.kernel.setPcb p { s.kernel.pcb p with returnEsp := esp, returnEbp := ebp }) :=
      sameSlots_setPcb s.kernel p rfl rfl
    simp only at h
    split at h
    · cases h
    next k1 hscreens =>
      have hprocs := switchScreens_sameProcs hscreens
      have hscr := hprocs.sameSlots
      have hsame : SameSlots s.kernel k1 :=
        ⟨hscr.currentProcess, fun q => ⟨(hscr.slot q).inUse.trans (hset.slot q).inUse,
          (hscr.slot q).processArray.trans (hset.slot q).processArray,
          (hscr.slot q).processId.trans (hset.slot q).processId,
          (hscr.slot q).parentId.trans (hset.slot q).parentId⟩⟩
      have haway : k1.currTerminal ≠ s.kernel.currTerminal := by
        rw [hprocs.currTerminal]
        rintro heq
        exact hsameTerm (congrArg Fin.val heq)
      split_ifs at h with hfirst
      · cases h
        -- a terminal without a process is one without a session
        refine ho.firstVisit hsame haway hne ?_
        by_contra hsome
        obtain ⟨q, rest, -, hcur, -⟩ := ho.linked.top hsome
        rw [hsame.currentProcess, hcur] at hfirst
        omega
      · split at h
        · next k2 esp' ebp' hresume =>
            cases h
            obtain ⟨hsame2, hterm2, -⟩ := resumeTerminal_spec hresume
            refine ho.congr (hsame.trans hsame2) fun t hnil => iff_of_false ?_ ?_
            · rintro rfl
              rw [hterm2] at hnil
              apply hfirst
              rw [hsame.currentProcess]
              exact ho.linked.idle _ hnil
            · rintro rfl
              exact hne hnil
        · cases h

/-- The running program makes a call. -/
theorem Ordered.call {s s' : Threads} {pt : Point} (ho : Ordered s.kernel s.point stack)
    (h : s.call pt = some s')
    (hfits : stack s.kernel.currTerminal ≠ [] → Fits s.kernel stack s.kernel.currTerminal pt)
    (hobt : pt.obtained = none) : Ordered s'.kernel s'.point stack := by
  unfold Threads.call at h
  split at h
  · next hpt =>
      cases h
      have huser := ho.fits s.kernel.currTerminal
      rw [hpt] at huser
      have hne : stack s.kernel.currTerminal ≠ [] := fun hnil => (huser hnil).1 rfl
      refine ho.move pt (hfits hne) (fun i hi => ?_) (fun i hi => ?_) (fun p _ hgo => ?_)
      · rw [hobt] at hi
        cases hi
      · rw [hpt] at hi
        cases hi
      · rw [hpt] at hgo
        cases hgo
  · cases h

/-- Every event keeps the threads in order, provided that a slot that is marked is still free. -/
theorem Ordered.next {s s' : Threads} {ev : ThreadEvent} (ho : Ordered s.kernel s.point stack)
    (hfree : StillFree s ev) (h : s.next cfg ev = some s') :
    ∃ stack', Ordered s'.kernel s'.point stack' := by
  cases ev with
  | execute comm loc =>
      cases comm with
      | none => exact ⟨stack, ho.call h (fun hne hnil => absurd hnil hne) rfl⟩
      | some comm => exact ⟨stack, ho.call h (fun hne => hne) rfl⟩
  | halt status loc => exact ⟨stack, ho.call h (fun hne => hne) rfl⟩
  | service op =>
      simp only [Threads.next] at h
      split at h
      · split_ifs at h with hop
        obtain ⟨k', hk', rfl⟩ := Option.map_eq_some_iff.1 h
        obtain ⟨⟨k1, out⟩, hstep, rfl⟩ := Option.map_eq_some_iff.1 hk'
        have hprocs := (step_device hop hstep).1
        exact ⟨stack, ho.sameTerminal hprocs.sameSlots hprocs.currTerminal⟩
      · cases h
  | interrupt newTerminal esp ebp loc => exact ⟨stack, ho.interrupt h⟩
  | shortcut shortcut loc =>
      obtain ⟨k', hk', rfl⟩ := Option.map_eq_some_iff.1 h
      obtain ⟨p, -, hdevice⟩ := testShortcut_byDevice hk'
      exact ⟨stack, ho.sameTerminal hdevice.sameProcs.sameSlots hdevice.sameProcs.currTerminal⟩
  | step =>
      obtain ⟨⟨k', pt'⟩, hadv, rfl⟩ := Option.map_eq_some_iff.1 h
      simp only
      cases hpt : s.point s.kernel.currTerminal with
      | user => rw [hpt] at hadv; cases hadv
      | stopped => rw [hpt] at hadv; cases hadv
      | lookUp comm loc caller => rw [hpt] at hadv; exact ⟨stack, ho.lookUp hpt hadv⟩
      | scan i call => rw [hpt] at hadv; exact ⟨stack, ho.scan hpt hadv⟩
      | reserve i call =>
          rw [hpt] at hadv
          cases hadv
          -- the one step that needs the condition
          obtain ⟨hzero, hcur⟩ := hfree i call rfl hpt
          exact ⟨stack, ho.reserve hpt fun u hu => ho.unclaimed hpt hzero hcur hu⟩
      | create i call => rw [hpt] at hadv; cases hadv; exact ⟨stack, ho.create hpt⟩
      | enter i call => rw [hpt] at hadv; cases hadv; exact ho.enter hpt
      | load i call => rw [hpt] at hadv; exact ⟨stack, ho.load hpt hadv⟩
      | close status loc => rw [hpt] at hadv; exact ⟨stack, ho.close hpt hadv⟩
      | free status loc => rw [hpt] at hadv; exact ⟨stack, ho.free hpt hadv⟩
      | release status =>
          rw [hpt] at hadv
          obtain ⟨k1, hk1, heq⟩ := Option.map_eq_some_iff.1 hadv
          cases heq
          exact ⟨stack, ho.release hpt hk1⟩
      | toParent =>
          rw [hpt] at hadv
          obtain ⟨k1, hk1, heq⟩ := Option.map_eq_some_iff.1 hadv
          cases heq
          exact ho.toParent hpt hk1

/-! ## Whole runs -/

/-- A slot that a thread is about to mark, though it is no longer free, is held by another terminal, or the
    current process of one. -/
theorem Ordered.taken_elsewhere {i : Slot} {call : Call} (ho : Ordered k pts stack)
    (hpt : pts k.currTerminal = .reserve i call) (hused : k.inUse i ≠ 0) :
    ∃ u, u ≠ k.currTerminal ∧ ((pts u).obtained = some i ∨ i ∈ stack u) := by
  have hfits := ho.fits k.currTerminal
  rw [hpt] at hfits
  obtain ⟨hsearch, hbases, hself⟩ := hfits
  by_cases hlt : i.val < 3
  · -- a base slot is in the session of its terminal
    have hne : (⟨i.val, hlt⟩ : Terminal) ≠ k.currTerminal := by
      intro heq
      have hbase : i = baseSlot k.currTerminal := by rw [← heq]; rfl
      rw [hbase] at hused
      cases hcaller : call.caller with
      | program =>
          rw [hcaller] at hsearch hself
          refine absurd (hself ?_) (by decide)
          rw [hbase]
          exact ho.linked.base_mem hsearch
      | restart status => rw [hcaller] at hsearch; exact hused hsearch.2.1
      | first => rw [hcaller] at hsearch; exact hused hsearch.2.1
      | boot => rw [hcaller] at hsearch; exact hused hsearch.2.1
    exact ⟨_, hne, Or.inr (ho.linked.base_mem (hbases _ hne rfl))⟩
  · -- any other slot in use is claimed by some terminal
    obtain ⟨u, hclaim⟩ := ho.owned i (by omega) hused
    have hbase : ∀ v, i ≠ baseSlot v := by
      rintro v rfl
      exact hlt v.isLt
    have hu : u ≠ k.currTerminal := by
      rintro rfl
      rcases hclaim with h | h | h
      · exact hbase _ h
      · have hrestarts := hself h
        cases hcaller : call.caller with
        | restart status =>
            rw [hcaller] at hsearch
            rw [hsearch.1] at h
            exact hbase _ (List.mem_singleton.1 h)
        | _ => rw [hcaller] at hrestarts; cases hrestarts
      · rw [hpt] at h
        cases h
    rcases hclaim with h | h | h
    · exact absurd h (hbase u)
    · exact ⟨u, hu, Or.inr h⟩
    · exact ⟨u, hu, Or.inl h⟩

/-- A thread that marks a slot that is no longer free comes to hold it with another terminal. -/
theorem Ordered.not_slotsApart {s s' : Threads} {ev : ThreadEvent}
    (ho : Ordered s.kernel s.point stack) (hnot : ¬ StillFree s ev) (h : s.next cfg ev = some s') :
    ¬ SlotsApart s' := by
  obtain ⟨k, pts⟩ := s
  unfold StillFree at hnot
  push Not at hnot
  obtain ⟨i, call, rfl, hpt, htaken⟩ := hnot
  have hs' : s' = ⟨reserveSlot k i, Function.update pts k.currTerminal (.create i call)⟩ := by
    have hpt' : pts k.currTerminal = .reserve i call := hpt
    rw [Threads.next_step hpt' rfl] at h
    exact (Option.some.inj h).symm
  subst hs'
  have hlinked : Linked (reserveSlot k i) stack := ho.linked.congr rfl fun _ _ _ => ⟨rfl, rfl, rfl⟩
  obtain ⟨u, hu, hold⟩ : ∃ u, u ≠ k.currTerminal ∧ ((pts u).obtained = some i ∨ i ∈ stack u ∨
      k.currentProcess u = i.val) := by
    by_cases hzero : k.inUse i = 0
    · obtain ⟨u, hu, hcur⟩ := htaken hzero
      exact ⟨u, hu, Or.inr (Or.inr hcur)⟩
    · obtain ⟨u, hu, hobt | hmem⟩ := ho.taken_elsewhere hpt hzero
      · exact ⟨u, hu, Or.inl hobt⟩
      · exact ⟨u, hu, Or.inr (Or.inl hmem)⟩
  intro hapart
  refine hu (hapart i u k.currTerminal ?_ (Or.inl ?_))
  · rcases hold with hobt | hmem | hcur
    · left
      simp only [Function.update_of_ne hu]
      exact hobt
    · exact Or.inr (hlinked.onChain_iff.2 hmem)
    · exact Or.inr (.here (slot?_eq_some.2 hcur))
  · simp only [Function.update_self]
    rfl

theorem start_point (cfg : Config) (machine : Kernel) (loc : Locals) (ht : t ≠ 0) :
    (Threads.start cfg machine loc).point t = .user := by
  show Function.update (fun _ => Point.user) 0 (.lookUp shellCommand loc .boot) t = .user
  rw [Function.update_of_ne ht]

theorem ordered_start (cfg : Config) (machine : Kernel) (loc : Locals) :
    Ordered (Threads.start cfg machine loc).kernel (Threads.start cfg machine loc).point
      fun _ => [] where
  linked := bootState_linked cfg machine
  fits t := by
    by_cases ht : t = 0
    · subst ht
      exact ⟨⟨rfl, rfl⟩, rfl, Nat.zero_le _⟩
    · rw [start_point cfg machine loc ht]
      refine fun _ => ⟨ht, ?_⟩
      change (bootState cfg machine).inUse (baseSlot t) ≠ 0
      rw [bootState_inUse]
      revert ht
      revert t
      decide
  once t u i hi := by
    exfalso
    by_cases ht : t = 0
    · subst ht
      cases hi
    · rw [start_point cfg machine loc ht] at hi
      cases hi
  released _ _ hp := by cases hp
  owned p hge hused := by
    refine absurd ?_ hused
    refine (bootState_inUse cfg machine p).trans (if_neg ?_)
    rintro (rfl | rfl) <;> exact absurd hge (by decide)

/-- In every run, with interrupts between any two steps, the slots of different terminals stay apart if
    and only if every slot `execute` marks is still free then. -/
theorem slotsApart_iff (machine : Kernel) (loc : Locals) {events : List ThreadEvent} {s : Threads}
    (hrun : Runs.run (Threads.next cfg) (Threads.start cfg machine loc) events = some s) :
    Runs.AllStates (Threads.next cfg) SlotsApart (Threads.start cfg machine loc) events ↔
      Runs.AllSteps (Threads.next cfg) StillFree (Threads.start cfg machine loc) events := by
  have hstart := ordered_start cfg machine loc
  refine Runs.allStates_iff_allSteps (P := fun _ _ => True)
    (I := fun s => ∃ stack, Ordered s.kernel s.point stack) ?_ ⟨_, hstart⟩ hstart.slotsApart
    (Runs.allSteps_of_forall (fun _ _ => trivial) _ _) hrun
  rintro s ev s' ⟨stack, ho⟩ - - hnext
  by_cases hfree : StillFree s ev
  · obtain ⟨stack', ho'⟩ := ho.next hfree hnext
    exact ⟨iff_of_true ho'.slotsApart hfree, fun _ => ⟨stack', ho'⟩⟩
  · have hnot := ho.not_slotsApart hfree hnext
    exact ⟨iff_of_false hnot hfree, fun h => absurd h hnot⟩

theorem execute_found {loc : Locals} {c : Bytes} {e : UInt32}
    (hex : execute cfg k (some c) loc = .started k' e) :
    ∃ file, findProgram cfg (commandWord c loc) loc = .ok file := by
  rw [execute_some] at hex
  cases hfind : findProgram cfg (commandWord c loc) loc with
  | error err =>
      rw [hfind] at hex
      cases hex
  | ok file => exact ⟨file, rfl⟩

/-- The small machine boots as far as the reservation of slot 0. -/
theorem slotsApart_boot :
    ∃ s, Runs.run (Threads.next smallConfig) (Threads.start smallConfig smallMachine (localsAt 0))
        [.step, .step, .step] = some s ∧
      Runs.AllStates (Threads.next smallConfig) SlotsApart
        (Threads.start smallConfig smallMachine (localsAt 0)) [.step, .step, .step] := by
  obtain ⟨k1, e1, hex1, -⟩ := @execute_shell smallConfig (bootState smallConfig smallMachine)
    (localsAt 0) smallConfig_hasShell _ (boot_freeSlot smallConfig smallMachine)
  obtain ⟨file, hfind⟩ := execute_found hex1
  set k := bootState smallConfig smallMachine
  set pts := (Threads.start smallConfig smallMachine (localsAt 0)).point
  set call : Call := ⟨file, localsAt 0, .boot⟩
  have hlook : (⟨k, pts⟩ : Threads).next smallConfig .step
      = some ⟨withArgs k shellCommand (localsAt 0), Function.update pts 0 (.scan 0 call)⟩ := by
    refine @Threads.next_step smallConfig k _ (.lookUp shellCommand (localsAt 0) .boot) _ pts rfl ?_
    change lookUpStep smallConfig k shellCommand (localsAt 0) .boot = _
    unfold lookUpStep
    rw [hfind]
  have hscan : (⟨withArgs k shellCommand (localsAt 0), Function.update pts 0 (.scan 0 call)⟩ :
      Threads).next smallConfig .step = some ⟨withArgs k shellCommand (localsAt 0),
        Function.update pts 0 (.reserve 0 call)⟩ := by
    have h := @Threads.next_step smallConfig (withArgs k shellCommand (localsAt 0)) _ _ _
      (Function.update pts 0 (.scan 0 call)) (Function.update_self ..)
      (@advance_scan_free smallConfig call (withArgs k shellCommand (localsAt 0)) 0 rfl)
    rwa [show (withArgs k shellCommand (localsAt 0)).currTerminal = 0 from rfl,
      Function.update_idem] at h
  have hmark : (⟨withArgs k shellCommand (localsAt 0), Function.update pts 0 (.reserve 0 call)⟩ :
      Threads).next smallConfig .step = some ⟨reserveSlot (withArgs k shellCommand (localsAt 0)) 0,
        Function.update (Function.update pts 0 (.reserve 0 call)) 0 (.create 0 call)⟩ :=
    Threads.next_step (Function.update_self ..) rfl
  have hrun : Runs.run (Threads.next smallConfig) ⟨k, pts⟩ [.step, .step, .step] = some _ :=
    Runs.run_cons_eq_some.2 ⟨_, hlook, Runs.run_cons_eq_some.2 ⟨_, hscan,
      Runs.run_cons_eq_some.2 ⟨_, hmark, rfl⟩⟩⟩
  refine ⟨_, hrun, (slotsApart_iff smallMachine (localsAt 0) hrun).2 ?_⟩
  refine (Runs.allSteps_cons hlook).2 ⟨fun i c _ hpt => (by cases hpt), ?_⟩
  refine (Runs.allSteps_cons hscan).2 ⟨fun i c _ hpt => (by cases hpt), ?_⟩
  refine (Runs.allSteps_cons hmark).2 ⟨fun i c _ hpt => ?_, trivial⟩
  cases hpt
  refine ⟨rfl, fun u hu hcur => ?_⟩
  have hidle : (-1 : Int) = ((0 : Slot).val : Int) := hcur
  exact absurd hidle (by decide)

/-! ## A race for a slot -/

/-- `terminal_switch` can exchange the screens. -/
def Kernel.Switchable (lay : Layout) (k : Kernel) : Prop :=
  ScreenTables lay k.paging ∧ ∀ u, u ≠ k.currTerminal → BackedUp k.paging u

theorem bootState_switchable (cfg : Config) (machine : Kernel) :
    (bootState cfg machine).Switchable cfg.lay := by
  obtain ⟨htables, hpages⟩ := pagingInit_displayOk cfg.lay machine.paging
  refine ⟨htables, fun u _ => ?_⟩
  unfold BackedUp
  rw [show (bootState cfg machine).paging = pagingInit cfg.lay machine.paging from rfl, hpages u]
  exact ⟨(backupEntry_bits u).1.1, (backupEntry_bits u).1.2.2⟩

theorem Kernel.Switchable.started {i : Slot} {loc : Locals} (h : k.Switchable cfg.lay)
    (hst : Started cfg k i loc k') : k'.Switchable cfg.lay := by
  refine ⟨?_, fun u hu => ?_⟩
  · rw [hst.paging]
    exact h.1.addProcess _
  · unfold BackedUp
    rw [hst.paging]
    rw [hst.currTerminal] at hu
    exact h.2 u hu

/-- The exchange of the screens in `terminal_switch` goes through. -/
theorem Kernel.Switchable.exchange (h : k.Switchable cfg.lay) (haway : t ≠ k.currTerminal) (p : Slot)
    (esp ebp : Nat) :
    ∃ k1, switchScreens cfg (switched k p t esp ebp) = some k1 ∧ k1.Switchable cfg.lay := by
  have hspec := @switchScreens_spec cfg (switched k p t esp ebp) h.1 haway (h.2 t haway)
  refine ⟨_, hspec, (h.1.mapVirtToPhys k.currTerminal _).mapVirtToPhys t userVideo, fun u hu => ?_⟩
  exact @exchanged_backedUp cfg k t h.2 u hu

theorem interrupt_eq {p : Slot} {loc : Locals} (hp : k.currentPcb? = some p)
    (haway : t ≠ k.currTerminal) (pts : Terminal → Point) (esp ebp : Nat) :
    (⟨k, pts⟩ : Threads).interrupt cfg t.val esp ebp loc =
      match switchScreens cfg (switched k p t esp ebp) with
      | none => none
      | some k1 =>
        if k1.currentProcess k1.currTerminal = -1 then
          some ⟨poked k1, Function.update pts k1.currTerminal (.lookUp shellCommand loc .first)⟩
        else
          match resumeTerminal k1 with
          | .resumed k _ _ => some ⟨k, pts⟩
          | _ => none := by
  have hne : ¬ t.val = k.currTerminal.val := fun heq => haway (Fin.ext heq)
  have hlt : ¬ t.val ≥ 3 := by
    have := t.isLt
    omega
  unfold Threads.interrupt
  rw [if_neg hne, dif_neg hlt]
  simp only [hp]
  rfl

/-- A switch to a terminal that has no session yet. -/
theorem interrupt_first {p : Slot} (h : k.Switchable cfg.lay) (hp : k.currentPcb? = some p)
    (haway : t ≠ k.currTerminal) (hidle : k.currentProcess t = -1) (pts : Terminal → Point)
    (esp ebp : Nat) (loc : Locals) :
    ∃ k', (⟨k, pts⟩ : Threads).interrupt cfg t.val esp ebp loc
        = some ⟨k', Function.update pts t (.lookUp shellCommand loc .first)⟩ ∧
      k'.Switchable cfg.lay ∧ k'.currTerminal = t ∧ k'.inUse = Function.update k.inUse (baseSlot t) 0 ∧
      k'.currentProcess = k.currentProcess ∧ k'.processArray = k.processArray := by
  obtain ⟨k1, hscreens, hswitch⟩ := h.exchange haway p esp ebp
  have hprocs := switchScreens_sameProcs hscreens
  have hterm : k1.currTerminal = t := hprocs.currTerminal
  have hcurrent : k1.currentProcess = k.currentProcess := hprocs.currentProcess
  have hinUse : k1.inUse = k.inUse := hprocs.inUse
  refine ⟨poked k1, ?_, hswitch, hterm, ?_, hcurrent, hprocs.processArray⟩
  · rw [interrupt_eq hp haway, hscreens]
    simp only [hterm, hcurrent, if_pos hidle]
  · unfold poked
    simp only [hinUse, hterm]

/-- A switch back to a terminal with a session. -/
theorem interrupt_back {p q : Slot} (h : k.Switchable cfg.lay) (hp : k.currentPcb? = some p)
    (haway : t ≠ k.currTerminal) (hq : k.currentProcess t = q.val) (harray : k.processArray q = some q)
    (pts : Terminal → Point) (esp ebp : Nat) (loc : Locals) :
    ∃ k', (⟨k, pts⟩ : Threads).interrupt cfg t.val esp ebp loc = some ⟨k', pts⟩ ∧
      k'.currTerminal = t ∧ k'.currentProcess = k.currentProcess := by
  obtain ⟨k1, hscreens, -⟩ := h.exchange haway p esp ebp
  have hprocs := switchScreens_sameProcs hscreens
  have hterm : k1.currTerminal = t := hprocs.currTerminal
  have hcurrent : k1.currentProcess = k.currentProcess := hprocs.currentProcess
  have harray1 : k1.processArray = k.processArray := hprocs.processArray
  have hnot : ¬ k.currentProcess t = -1 := by
    rw [hq]
    omega
  rw [interrupt_eq hp haway, hscreens]
  simp only [hterm, hcurrent, if_neg hnot]
  unfold resumeTerminal
  simp only [currentPcb?, hterm, hcurrent, hq, slot?_val, harray1, harray]
  exact ⟨_, rfl, rfl, rfl⟩

/-- The running program calls `execute` and it starts its program. -/
theorem execute_run {loc : Locals} {c : Bytes} {e : UInt32} (huser : pts k.currTerminal = .user)
    (hex : execute cfg k (some c) loc = .started k' e) :
    ∃ events, Runs.run (Threads.next cfg) ⟨k, pts⟩ events = some ⟨k', pts⟩ := by
  obtain ⟨s1, hnext, n, hn⟩ := @execute_uninterrupted cfg ⟨k, pts⟩ loc huser c k' _ hex
    (Or.inl ⟨e, rfl⟩)
  exact ⟨.execute (some c) loc :: List.replicate n .step, Runs.run_cons_eq_some.2 ⟨s1, hnext, hn⟩⟩

/-- `execute` marks the slot it has tested, writes its PCB and enters it. -/
theorem take_steps {i : Slot} {call : Call} (hpoint : pts k.currTerminal = .reserve i call) :
    ∃ pts', Runs.run (Threads.next cfg) ⟨k, pts⟩ [.step, .step, .step]
      = some ⟨enterProcess (createPcb (reserveSlot k i) i) i, pts'⟩ := by
  have hmark : (⟨k, pts⟩ : Threads).next cfg .step = some ⟨reserveSlot k i,
      Function.update pts k.currTerminal (.create i call)⟩ := Threads.next_step hpoint rfl
  have hcreate : ∀ pts', pts' k.currTerminal = Point.create i call →
      (⟨reserveSlot k i, pts'⟩ : Threads).next cfg .step = some ⟨createPcb (reserveSlot k i) i,
        Function.update pts' k.currTerminal (.enter i call)⟩ := fun _ h => Threads.next_step h rfl
  have henter : ∀ pts', pts' k.currTerminal = Point.enter i call →
      (⟨createPcb (reserveSlot k i) i, pts'⟩ : Threads).next cfg .step
        = some ⟨enterProcess (createPcb (reserveSlot k i) i) i,
          Function.update pts' k.currTerminal (.load i call)⟩ := fun _ h => Threads.next_step h rfl
  refine ⟨_, Runs.run_cons_eq_some.2 ⟨_, hmark, Runs.run_cons_eq_some.2
    ⟨_, hcreate _ (Function.update_self ..), Runs.run_cons_eq_some.2
      ⟨_, henter _ (Function.update_self ..), rfl⟩⟩⟩⟩

/-- The first shell is up: it runs on terminal 0, and the other base slots are kept. -/
structure FirstShell (cfg : Config) (k : Kernel) : Prop where
  currTerminal : k.currTerminal = 0
  currentProcess : ∀ t : Terminal, k.currentProcess t = if t = 0 then 0 else -1
  inUse : ∀ p : Slot, k.inUse p = if p.val < 3 then 1 else 0
  processArray : k.processArray 0 = some 0
  switchable : k.Switchable cfg.lay

theorem boot_shell (hshell : HasShell cfg.fs) (machine : Kernel) (loc : Locals) :
    ∃ k1 e1 file, execute cfg (bootState cfg machine) (some shellCommand) loc = .started k1 e1 ∧
      findProgram cfg (commandWord shellCommand loc) loc = .ok file ∧ FirstShell cfg k1 := by
  obtain ⟨k1, e1, hex1, hst1⟩ := @execute_shell cfg (bootState cfg machine) loc hshell _
    (boot_freeSlot cfg machine)
  obtain ⟨file, hfind⟩ := execute_found hex1
  refine ⟨k1, e1, file, hex1, hfind, hst1.currTerminal, fun t => ?_, fun p => ?_, ?_,
    (bootState_switchable cfg machine).started hst1⟩
  · rw [hst1.currentProcess]
    fin_cases t <;> rfl
  · rw [hst1.inUse]
    fin_cases p <;> rfl
  · rw [hst1.processArray, Function.update_self]

theorem FirstShell.currentPcb (h : FirstShell cfg k) : k.currentPcb? = some 0 := by
  unfold currentPcb?
  rw [h.currTerminal, h.currentProcess]
  exact h.processArray

/-- With the base slots in use and no other, the next slot is 3. -/
theorem freeSlot_three (hinUse : ∀ p : Slot, k.inUse p = if p.val < 3 then 1 else 0) : freeSlot k = some 3 := by
  refine freeSlot_eq_some.2 ⟨hinUse 3, fun j hj => ?_⟩
  rw [hinUse, if_pos (by exact hj)]
  decide

/-- Terminal 0 has tested slot 3 for a second shell. -/
theorem race_tested (hshell : HasShell cfg.fs) (machine : Kernel) (loc : Locals) :
    ∃ events k pts call, Runs.run (Threads.next cfg) (Threads.start cfg machine loc) events = some ⟨k, pts⟩ ∧
      FirstShell cfg k ∧ pts 0 = .reserve 3 call := by
  obtain ⟨k1, e1, file, hex1, hfind, hfirst⟩ := boot_shell hshell machine loc
  obtain ⟨n1, hrun1⟩ := @started_steps cfg loc (bootState cfg machine) k1
    (Threads.start cfg machine loc).point shellCommand .boot e1 rfl hex1
  set pts1 := Function.update (Threads.start cfg machine loc).point
    (bootState cfg machine).currTerminal .user with hpts1
  have huser : pts1 0 = .user := Function.update_self ..
  obtain ⟨n2, hrun2⟩ := @search_steps cfg loc k1
    (Function.update pts1 0 (.lookUp shellCommand loc .program)) shellCommand .program file 3
    (by rw [hfirst.currTerminal, Function.update_self]) hfind (freeSlot_three hfirst.inUse)
  rw [hfirst.currTerminal, Function.update_idem] at hrun2
  have hcall : (⟨k1, pts1⟩ : Threads).next cfg (.execute (some shellCommand) loc)
      = some ⟨k1, Function.update pts1 0 (.lookUp shellCommand loc .program)⟩ := by
    simp only [Threads.next, Threads.call, huser, hfirst.currTerminal]
  have hargs : FirstShell cfg (withArgs k1 shellCommand loc) :=
    ⟨hfirst.currTerminal, hfirst.currentProcess, hfirst.inUse, hfirst.processArray, hfirst.switchable⟩
  refine ⟨List.replicate n1 .step ++ (.execute (some shellCommand) loc :: List.replicate n2 .step),
    withArgs k1 shellCommand loc, Function.update pts1 0 (.reserve 3 ⟨file, loc, .program⟩),
    ⟨file, loc, .program⟩, ?_, hargs, Function.update_self ..⟩
  exact Runs.run_append_eq_some.2 ⟨_, hrun1, Runs.run_cons_eq_some.2 ⟨_, hcall, hrun2⟩⟩

/-- Interrupted there, terminal 1 gets its first shell and starts a second one in slot 3. -/
theorem race_taken (hshell : HasShell cfg.fs) (h : FirstShell cfg k) (pts : Terminal → Point) (loc : Locals) :
    ∃ events k' pts', Runs.run (Threads.next cfg) ⟨k, pts⟩ events = some ⟨k', pts'⟩ ∧ pts' 0 = pts 0 ∧
      k'.currTerminal = 1 ∧ k'.currentProcess 1 = 3 ∧ k'.currentProcess 0 = 0 ∧
      k'.processArray 3 = some 3 ∧ k'.processArray 0 = some 0 ∧ k'.Switchable cfg.lay := by
  obtain ⟨k1, hint, hsw1, hterm1, hpoked, hcur1, harray1⟩ :=
    @interrupt_first cfg k 1 0 h.switchable h.currentPcb (by rw [h.currTerminal]; decide)
      (h.currentProcess 1) pts 0 0 loc
  have hinUse1 : k1.inUse = Function.update k.inUse 1 0 := hpoked
  have hfree1 : freeSlot k1 = some 1 := by
    refine freeSlot_eq_some.2 ⟨?_, fun j hj => ?_⟩
    · rw [hinUse1, Function.update_self]
    · have hj1 : j ≠ 1 := ne_of_lt hj
      rw [hinUse1, Function.update_of_ne hj1, h.inUse, if_pos (by have : j.val < 1 := hj; omega)]
      decide
  -- the shell of terminal 1 gets slot 1, where the switch has put a 0
  obtain ⟨k2, e2, hex2, hst2⟩ := @execute_shell cfg k1 loc hshell 1 hfree1
  obtain ⟨n2, hrun2⟩ := @started_steps cfg loc k1 k2
    (Function.update pts 1 (.lookUp shellCommand loc .first)) shellCommand .first e2
    (by rw [hterm1, Function.update_self]) hex2
  rw [hterm1, Function.update_idem] at hrun2
  have hterm2 : k2.currTerminal = 1 := hst2.currTerminal.trans hterm1
  have hinUse2 : ∀ p : Slot, k2.inUse p = if p.val < 3 then 1 else 0 := by
    intro p
    rw [hst2.inUse, hinUse1]
    by_cases hp : p = 1
    · subst hp
      rw [Function.update_self]
      rfl
    · rw [Function.update_of_ne hp, Function.update_of_ne hp]
      exact h.inUse p
  -- its child gets slot 3, the first that is free
  obtain ⟨k3, e3, hex3, hst3⟩ := @execute_shell cfg k2 loc hshell 3 (freeSlot_three hinUse2)
  obtain ⟨events3, hrun3⟩ := @execute_run cfg k2 k3 (Function.update pts 1 .user) loc shellCommand e3
    (by rw [hterm2, Function.update_self]) hex3
  have hcur3 : k3.currentProcess = Function.update (Function.update k.currentProcess 1 1) 1 3 := by
    rw [hst3.currentProcess, hst2.currentProcess, hcur1, hterm2, hterm1]
    rfl
  have harray3 : k3.processArray
      = Function.update (Function.update k.processArray 1 (some 1)) 3 (some 3) := by
    rw [hst3.processArray, hst2.processArray, harray1]
  refine ⟨.interrupt 1 0 0 loc :: (List.replicate n2 .step ++ events3), k3, Function.update pts 1 .user, ?_,
    Function.update_of_ne (by decide) _ _, hst3.currTerminal.trans hterm2, ?_, ?_, ?_, ?_,
    (hsw1.started hst2).started hst3⟩
  · exact Runs.run_cons_eq_some.2 ⟨_, hint, Runs.run_append_eq_some.2 ⟨_, hrun2, hrun3⟩⟩
  · rw [hcur3]
    rfl
  · rw [hcur3]
    exact h.currentProcess 0
  · rw [harray3]
    rfl
  · rw [harray3]
    exact h.processArray

/-- Back on terminal 0, `execute` goes on to use slot 3 too. -/
theorem race (hshell : HasShell cfg.fs) (machine : Kernel) (loc : Locals) :
    ∃ events s, Runs.run (Threads.next cfg) (Threads.start cfg machine loc) events = some s ∧
      s.kernel.currentProcess 0 = 3 ∧ s.kernel.currentProcess 1 = 3 := by
  obtain ⟨events1, k1, pts1, call, hrun1, hfirst, hpoint1⟩ := race_tested hshell machine loc
  obtain ⟨events2, k2, pts2, hrun2, hpoint2, hterm2, hcur2, hcur0, harray2, harray0, hsw2⟩ :=
    race_taken hshell hfirst pts1 loc
  have hpcb2 : k2.currentPcb? = some 3 := by
    unfold currentPcb?
    rw [hterm2, hcur2]
    exact harray2
  obtain ⟨k3, hint, hterm3, hcur3⟩ := @interrupt_back cfg k2 0 3 0 hsw2 hpcb2 (by rw [hterm2]; decide) hcur0
    harray0 pts2 0 0 loc
  have hpoint3 : pts2 k3.currTerminal = .reserve 3 call := by rw [hterm3, hpoint2, hpoint1]
  obtain ⟨pts4, hrun4⟩ := @take_steps cfg k3 _ 3 call hpoint3
  refine ⟨events1 ++ (events2 ++ (.interrupt 0 0 0 loc :: [.step, .step, .step])),
    ⟨enterProcess (createPcb (reserveSlot k3 3) 3) 3, pts4⟩, ?_, ?_, ?_⟩
  · refine Runs.run_append_eq_some.2 ⟨_, hrun1, Runs.run_append_eq_some.2 ⟨_, hrun2, ?_⟩⟩
    exact Runs.run_cons_eq_some.2 ⟨_, hint, hrun4⟩
  · change Function.update k3.currentProcess k3.currTerminal 3 0 = 3
    rw [hterm3, Function.update_self]
  · change Function.update k3.currentProcess k3.currTerminal 3 1 = 3
    rw [hterm3, hcur3]
    exact hcur2

/-- Two terminals do come to have one slot on their parent chains. -/
theorem slots_not_apart : ¬ ∀ (cfg : Config) (machine : Kernel) (loc : Locals)
    (events : List ThreadEvent) (s : Threads),
    Runs.run (Threads.next cfg) (Threads.start cfg machine loc) events = some s → SlotsApart s := by
  intro hall
  obtain ⟨events, s, hrun, hcur0, hcur1⟩ := race smallConfig_hasShell smallMachine (localsAt 0)
  have hheld : ∀ t, s.kernel.currentProcess t = 3 → s.Holds t 3 :=
    fun t ht => Or.inr (.here (slot?_eq_some.2 ht))
  have heq := hall _ _ _ events s hrun 3 0 1 (hheld 0 hcur0) (hheld 1 hcur1)
  exact absurd heq (by decide)

end BaseOs
