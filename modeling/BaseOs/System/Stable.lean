import BaseOs.Paging.AddressSpace
import BaseOs.Process.Background

set_option autoImplicit false

/-! # Properties of the page and descriptor tables

All operations change the page tables and the descriptor tables in a few ways only: they map a program,
map a screen page, fill or close descriptors, or set up a new process. A property that survives these
(`Stable`) holds in every reachable state. -/

namespace BaseOs

open Kernel

/-- A property of the page tables, the process pointers and the descriptor tables that no elementary
    change of these breaks. -/
structure Stable (cfg : Config) (P : Kernel → Prop) : Prop where
  same : ∀ {k k' : Kernel}, P k → k'.paging = k.paging → k'.processArray = k.processArray →
    (∀ p, (k'.pcb p).fdTable = (k.pcb p).fdTable) → P k'
  program : ∀ (k : Kernel) (processId : UInt32), P k →
    P { k with paging := addProcess k.paging processId }
  screen : ∀ (k : Kernel) (t : Terminal) (phys : UInt32), ScreenEntry t (phys ||| rwPSet) → P k →
    P { k with paging := mapVirtToPhys cfg.lay k.paging (screenPage t) phys }
  descriptors : ∀ (k : Kernel) (p : Slot) (table : FdTable),
    (∀ i, EntryKept ((k.pcb p).fdTable i) (table i)) → P k → P (k.setFdTable p table)
  created : ∀ (k : Kernel) (i : Slot), P k → P (setUp k i)

variable {cfg : Config} {P : Kernel → Prop} {k k' : Kernel} {loc : Locals} {p : Slot} {i : FdIndex}

/-- A change of a PCB outside its descriptor table. -/
theorem fdTable_update {pcb : Slot → Pcb} {q : Pcb} (h : q.fdTable = (pcb p).fdTable) (j : Slot) :
    (Function.update pcb p q j).fdTable = (pcb j).fdTable := by
  by_cases hj : j = p
  · subst hj
    rwa [Function.update_self]
  · rw [Function.update_of_ne hj]

theorem Stable.printf (hP : Stable cfg P) (s : List UInt8) (hk : P k) : P (k.printf s) :=
  hP.same hk rfl rfl fun _ => rfl

/-- The kernel's part of the tables is never changed otherwise. -/
theorem kernelTables_stable (cfg : Config) : Stable cfg fun k => KernelTables cfg.lay k.paging where
  same hk hpaging _ _ := by
    rw [hpaging]
    exact hk
  program _ _ hk := hk.addProcess _
  screen _ _ _ hentry hk := hk.mapVirtToPhys hentry
  descriptors _ _ _ _ hk := hk
  created _ _ hk := hk

/-! ## The descriptor calls -/

theorem Stable.openWith (hP : Stable cfg P) {info : Fd} (hinfo : info.flags ≠ fdOff)
    (message : List UInt8) (hk : P k) : P (openWith k p info message).1 := by
  unfold BaseOs.openWith
  split
  · exact hP.printf message hk
  · exact hP.descriptors k p _ (entryKept_update (Or.inr (Or.inl hinfo))) hk

theorem Stable.openFile (hP : Stable cfg P) {filename : Option Bytes} {dentry : Dentry}
    {r : Kernel × Int32} (h : openFile cfg k filename dentry = some r) (hk : P k) : P r.1 := by
  unfold BaseOs.openFile at h
  split at h
  · obtain rfl := Option.some.inj h
    exact hP.printf _ hk
  · split at h
    · obtain rfl := Option.some.inj h
      exact hk
    · split at h
      · cases h
      · split_ifs at h
        all_goals obtain rfl := Option.some.inj h
        · exact hP.openWith (by decide) _ (hP.same hk rfl rfl (fun _ => rfl))
        · exact hP.openWith (by decide) _ hk
        · exact hP.openWith (show fdOn ≠ fdOff by decide) _ hk

theorem Stable.serves (hP : Stable cfg P) (h : Serves k k') (hk : P k) : P k' := by
  cases h with
  | nothing => exact hk
  | print text => exact hP.printf text hk
  | clock rtc => exact hP.same hk rfl rfl fun _ => rfl
  | entries p hkept => exact hP.descriptors k p _ hkept hk

theorem Stable.readCall (hP : Stable cfg P) {fd : Int} {buf : Option Bytes} {nbytes : Int}
    {line : Bytes} {r : SysResult} (h : readCall cfg k fd buf nbytes line = some r) (hk : P k) :
    P r.kernel := by
  rcases readCall_cases h with hserves | ⟨b, -, -, rfl⟩ | ⟨b, -, -, rfl⟩
  · exact hP.serves hserves hk
  · exact hP.same hk rfl rfl fun _ => rfl
  · exact hP.same hk rfl rfl fun _ => rfl

theorem Stable.vidmap (hP : Stable cfg P) {screenStart : Nat} {r : Kernel × Int32}
    (h : vidmap cfg k screenStart = some r) (hk : P k) : P r.1 := by
  unfold BaseOs.vidmap at h
  split_ifs at h
  · obtain rfl := Option.some.inj h
    exact hP.printf _ hk
  · obtain rfl := Option.some.inj h
    exact hP.printf _ hk
  · simp only at h
    split_ifs at h
    obtain rfl := Option.some.inj h
    exact hP.same (hP.screen k k.currTerminal userVideo (screenEntry_video _) hk) rfl rfl fun _ => rfl

/-! ## The process operations -/

theorem Stable.loadProgram (hP : Stable cfg P) (i : Slot) (file : ProgramFile) (hk : P k) :
    P (loadProgram cfg k i file loc).kernel := by
  have hmapped := hP.program k (UInt32.ofNat i.val) hk
  unfold BaseOs.loadProgram
  split_ifs
  · simp only
    split
    · exact hmapped
    · split_ifs
      · exact hP.same hmapped rfl rfl fun _ => rfl
      · exact hP.same hmapped rfl rfl fun _ => rfl
      · exact hP.same hmapped rfl rfl (fdTable_update rfl)
  · exact hk

theorem Stable.execute (hP : Stable cfg P) (comm : Option Bytes) (loc : Locals) (hk : P k) :
    P (execute cfg k comm loc).kernel := by
  cases comm with
  | none => exact hk
  | some c =>
      have hargs : P (withArgs k c loc) := hP.same hk rfl rfl fun _ => rfl
      rw [execute_some]
      split
      · exact hargs
      · split
        · exact hP.printf _ hargs
        · exact hP.loadProgram _ _ (hP.created _ _ hargs)

theorem Stable.execute_of (hP : Stable cfg P) {comm : Option Bytes} {r : ExecResult}
    (h : BaseOs.execute cfg k comm loc = r) (hk : P k) : P r.kernel := by
  rw [← h]
  exact hP.execute comm loc hk

theorem Stable.haltReturn (hP : Stable cfg P) {status : UInt8} {out : Out}
    (h : (haltReturn k status).toStep = some (k', out)) (hk : P k) : P k' := by
  unfold BaseOs.haltReturn at h
  simp only at h
  split at h
  · split at h
    · cases h
      exact hP.same (hP.program k _ hk) rfl rfl fun _ => rfl
    · cases h
  · cases h

theorem Stable.halt (hP : Stable cfg P) {status : UInt8} {out : Out}
    (h : (halt cfg k status loc).toStep = some (k', out)) (hk : P k) : P k' := by
  unfold BaseOs.halt at h
  split at h
  · cases h
  · next p _ =>
      have hclosed : P (k.setFdTable p closeAllFd) :=
        hP.descriptors k p closeAllFd (fun _ => Or.inr (Or.inr rfl)) hk
      simp only at h
      split_ifs at h
      · split at h
        · next hex =>
            cases h
            exact hP.execute_of hex (hP.same hclosed rfl rfl (fun _ => rfl))
        · cases h
        · next hex =>
            exact hP.haltReturn h (hP.execute_of hex (hP.same hclosed rfl rfl (fun _ => rfl)))
      · exact hP.haltReturn h hclosed

theorem Stable.switchScreens (hP : Stable cfg P) (h : switchScreens cfg k = some k') (hk : P k) :
    P k' := by
  have hold := hP.screen k k.oldTerminal (userBack1 + UInt32.ofNat (k.oldTerminal.val * fourKiB))
    (screenEntry_backup _) hk
  obtain ⟨mem, rfl⟩ := switchScreens_eq_some h
  exact hP.same (hP.screen _ k.currTerminal userVideo (screenEntry_video _) hold) rfl rfl fun _ => rfl

theorem Stable.resumeTerminal (hP : Stable cfg P) {out : Out}
    (h : (resumeTerminal k).toStep = some (k', out)) (hk : P k) : P k' := by
  obtain ⟨rfl, -⟩ := resumeTerminal_eq_some h
  exact hP.same (hP.program k _ hk) rfl rfl fun _ => rfl

theorem Stable.terminalSwitch (hP : Stable cfg P) {newTerminal esp ebp : Nat} {out : Out}
    (h : (terminalSwitch cfg k newTerminal esp ebp loc).toStep = some (k', out)) (hk : P k) : P k' := by
  unfold BaseOs.terminalSwitch at h
  split_ifs at h
  · cases h
    exact hk
  · cases h
    exact hk
  · split at h
    · cases h
    · next p _ =>
        have hsaved : P (k.setPcb p { k.pcb p with returnEsp := esp, returnEbp := ebp }) :=
          hP.same hk rfl rfl (fdTable_update rfl)
        simp only at h
        split at h
        · cases h
        · next k1 hscreens =>
            have hk1 := hP.switchScreens hscreens (hP.same hsaved rfl rfl (fun _ => rfl))
            split_ifs at h
            · split at h
              · next hex =>
                  cases h
                  exact hP.execute_of hex (hP.same hk1 rfl rfl (fun _ => rfl))
              · cases h
              · next hex =>
                  exact hP.resumeTerminal h
                    (hP.execute_of hex (hP.same hk1 rfl rfl (fun _ => rfl)))
            · exact hP.resumeTerminal h hk1

/-! ## Every operation, every run -/

theorem Stable.step (hP : Stable cfg P) {op : Op} {out : Out} (h : k.step cfg op = some (k', out))
    (hk : P k) : P k' := by
  cases op with
  | execute comm loc =>
      change (BaseOs.execute cfg k comm loc).toStep = some (k', out) at h
      cases hex : BaseOs.execute cfg k comm loc with
      | fault k1 =>
          rw [hex] at h
          cases h
      | started k1 entryPoint =>
          rw [hex] at h
          cases h
          exact hP.execute_of hex hk
      | failed e k1 =>
          rw [hex] at h
          cases h
          exact hP.execute_of hex hk
  | halt status loc => exact hP.halt h hk
  | exception i cr2 loc =>
      change (exceptionHandler cfg k i cr2 loc).toStep = some (k', out) at h
      rw [exceptionHandler_eq] at h
      exact hP.halt h (hP.same hk rfl rfl (fun _ => rfl))
  | terminalSwitch newTerminal esp ebp loc => exact hP.terminalSwitch h hk
  | openFile filename dentry =>
      obtain ⟨r, hr, heq⟩ := Option.map_eq_some_iff.1 h
      cases heq
      exact hP.openFile hr hk
  | read fd buf nbytes line =>
      obtain ⟨r, hr, heq⟩ := Option.map_eq_some_iff.1 h
      cases heq
      exact hP.readCall hr hk
  | write fd buf nbytes =>
      obtain ⟨r, hr, heq⟩ := Option.map_eq_some_iff.1 h
      cases heq
      exact hP.serves (writeCall_serves hr) hk
  | close fd =>
      obtain ⟨r, hr, heq⟩ := Option.map_eq_some_iff.1 h
      cases heq
      exact hP.serves (closeCall_serves hr) hk
  | getargs buf nbytes =>
      obtain ⟨r, hr, heq⟩ := Option.map_eq_some_iff.1 h
      cases heq
      rwa [getargs_kernel hr]
  | vidmap screenStart =>
      obtain ⟨r, hr, heq⟩ := Option.map_eq_some_iff.1 h
      cases heq
      exact hP.vidmap hr hk
  | putc | clear | scroll | backspace =>
      cases Option.some.inj h
      exact hP.same hk rfl rfl fun _ => rfl
  | userStore va b =>
      obtain ⟨pa, _, heq⟩ := Option.map_eq_some_iff.1 h
      cases heq
      exact hP.same hk rfl rfl fun _ => rfl

/-- What is stable holds along every run. -/
theorem Stable.run (hP : Stable cfg P) {ops : List Op}
    (hrun : Runs.run (Kernel.next cfg) k ops = some k') (hk : P k) : P k' := by
  refine Runs.run_preserves (P := fun _ _ => True) (fun s op s' hs _ hnext => ?_) hk
    (Runs.allSteps_of_forall (fun _ _ => trivial) _ _) hrun
  obtain ⟨⟨k1, out⟩, hstep, rfl⟩ := Option.map_eq_some_iff.1 hnext
  exact hP.step hstep hs

/-- What is stable and holds before the first shell starts holds in every reachable state. -/
theorem Stable.reachable (hP : Stable cfg P) (hboot : ∀ machine, P (bootState cfg machine))
    (hk : Reachable cfg k) : P k := by
  obtain ⟨machine, loc, ops, hrun⟩ := hk
  exact hP.run hrun (hboot machine)

end BaseOs
