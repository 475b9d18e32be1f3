import BaseOs.Terminal.Display

set_option autoImplicit false

/-! # The terminals' screens are isolated

`terminal_switch` saves video memory in the old terminal's backup and fetches the new terminal's from
its own. Both copies go through the terminals' pages, so what they copy depends on the mapping at that
instant. A run is watched with a record of each terminal's screen at the moment it was last switched
away (`Kernel.watched`); `screens_isolated` says that coming back brings exactly this screen back. -/

namespace BaseOs

open Kernel

variable {cfg : Config} {k k' : Kernel} {loc : Locals}

/-! ## Exchanging the screens -/

/-- The mapping after the screens of `old` and `new` were exchanged. -/
def exchangedPaging (lay : Layout) (pg : Paging) (old new : Terminal) : Paging :=
  mapVirtToPhys lay (mapVirtToPhys lay pg (screenPage old)
    (userBack1 + UInt32.ofNat (old.val * fourKiB))) (screenPage new) userVideo

/-- Memory after it: the screen in the old terminal's backup, the new terminal's backup on the
    screen. -/
def exchangedMem (mem : Bytes) (old new : Terminal) : Bytes :=
  copied videoAddr (backupPage new) fourKiB (copied (backupPage old) videoAddr fourKiB mem)

theorem backups_apart {t u : Terminal} (h : t ≠ u) :
    backupPage t + fourKiB ≤ backupPage u ∨ backupPage u + fourKiB ≤ backupPage t := by
  have hval : t.val ≠ u.val := fun heq => h (Fin.ext heq)
  unfold backupPage fourKiB
  omega

section Exchange

variable {mem : Bytes} {old new : Terminal} {off : Nat}

theorem exchangedMem_video (hne : new ≠ old) (hoff : off < fourKiB) :
    exchangedMem mem old new (videoAddr + off) = mem (backupPage new + off) := by
  unfold exchangedMem
  rw [copied_at _ hoff]
  refine copied_out _ ?_
  have := backups_apart hne
  omega

theorem exchangedMem_backup (hoff : off < fourKiB) :
    exchangedMem mem old new (backupPage old + off) = mem (videoAddr + off) := by
  unfold exchangedMem
  have := video_below_backup old
  rw [copied_out _ (by omega), copied_at _ hoff]

theorem exchangedMem_other {t : Terminal} (ht : t ≠ old) (hoff : off < fourKiB) :
    exchangedMem mem old new (backupPage t + off) = mem (backupPage t + off) := by
  unfold exchangedMem
  have := video_below_backup t
  have := backups_apart ht
  rw [copied_out _ (by omega), copied_out _ (by omega)]

end Exchange

/-- The four lines of `terminal_switch` never fault when the new terminal's page is its backup. -/
theorem switchScreens_spec (htables : ScreenTables cfg.lay k.paging)
    (hne : k.currTerminal ≠ k.oldTerminal) (hnew : BackedUp k.paging k.currTerminal) :
    switchScreens cfg k = some { k with
      mem := exchangedMem k.mem k.oldTerminal k.currTerminal
      paging := exchangedPaging cfg.lay k.paging k.oldTerminal k.currTerminal } := by
  set pg := mapVirtToPhys cfg.lay k.paging (screenPage k.oldTerminal)
    (userBack1 + UInt32.ofNat (k.oldTerminal.val * fourKiB)) with hpg
  have htables' : ScreenTables cfg.lay pg := htables.mapVirtToPhys k.oldTerminal _
  have hbackOld : BackedUp pg k.oldTerminal := by
    unfold BackedUp
    rw [hpg, mapVirtToPhys_screen]
    exact (backupEntry_bits k.oldTerminal).2
  have hbackNew : BackedUp pg k.currTerminal := by
    unfold BackedUp
    rw [hpg, mapVirtToPhys_other hne]
    exact hnew
  have hsave := hbackOld.memcpy_save htables' k.mem
  have hfetch : memcpy (kernelAddr cfg.lay pg) videoAddr (screenPage k.currTerminal) fourKiB
      (copied (backupPage k.oldTerminal) videoAddr fourKiB k.mem)
        = some (exchangedMem k.mem k.oldTerminal k.currTerminal) :=
    hbackNew.memcpy_fetch htables' _
  unfold switchScreens
  simp only
  rw [show virtVidTerm1 + k.oldTerminal.val * fourKiB = screenPage k.oldTerminal from rfl,
    show virtVidTerm1 + k.currTerminal.val * fourKiB = screenPage k.currTerminal from rfl, ← hpg,
    hsave]
  simp only [hfetch]
  rfl

/-! ## `terminal_switch` -/

/-- The state with the screens of the current terminal and `t` exchanged. -/
def exchanged (lay : Layout) (k : Kernel) (t : Terminal) : Kernel :=
  { k with
    currTerminal := t
    mem := exchangedMem k.mem k.currTerminal t
    paging := exchangedPaging lay k.paging k.currTerminal t }

theorem resumeTerminal_sameScreens {out : Out} (h : (resumeTerminal k).toStep = some (k', out)) :
    SameScreens k k' := by
  obtain ⟨rfl, -⟩ := resumeTerminal_eq_some h
  exact ⟨rfl, rfl, rfl, rfl, rfl, fun _ hj => addProcess_of_ne hj, fun _ _ => rfl⟩

variable {t : Terminal} {esp ebp : Nat}

/-- The exchange goes through, and it is all that happens to the screens up to there. -/
theorem switched_screens (hok : DisplayOk cfg.lay k) (haway : t ≠ k.currTerminal) (p : Slot)
    (esp ebp : Nat) :
    ∃ k1, switchScreens cfg (switched k p t esp ebp) = some k1 ∧
      SameScreens (exchanged cfg.lay k t) k1 := by
  have hspec := @switchScreens_spec cfg (switched k p t esp ebp) hok.tables haway
    (hok.backedUp t haway)
  exact ⟨_, hspec, ⟨rfl, rfl, rfl, rfl, rfl, fun _ _ => rfl, fun _ _ => rfl⟩⟩

theorem exchanged_directory (k : Kernel) (t : Terminal) {j : Nat} (hj : j ≠ screenIdx) :
    (exchanged cfg.lay k t).paging.pageDirectory j = k.paging.pageDirectory j :=
  (mapVirtToPhys_directory t userVideo hj).trans (mapVirtToPhys_directory k.currTerminal _ hj)

theorem SameScreens.programEnds (h : SameScreens k k') (hends : k.ProgramEnds) : k'.ProgramEnds := by
  unfold ProgramEnds
  rw [h.directory _ (by decide)]
  exact hends

/-- A switch to another terminal exchanges the screens and does nothing else to them: the first shell it
    may start finds its slot free, so nothing is printed. -/
theorem terminalSwitch_exchanges {out : Out} (hok : DisplayOk cfg.lay k) (haway : t ≠ k.currTerminal)
    (h : k.step cfg (.terminalSwitch t.val esp ebp loc) = some (k', out)) :
    SameScreens (exchanged cfg.lay k t) k' := by
  have h' : (terminalSwitch cfg k t.val esp ebp loc).toStep = some (k', out) := h
  cases hpcb : k.currentPcb? with
  | none =>
      have hne : ¬ t.val = k.currTerminal.val := fun heq => haway (Fin.ext heq)
      have hlt : ¬ t.val ≥ 3 := by have := t.isLt; omega
      unfold terminalSwitch at h'
      rw [if_neg hne, dif_neg hlt] at h'
      simp only [hpcb] at h'
      cases h'
  | some p =>
      obtain ⟨k1, hscreens, hk1⟩ := switched_screens hok haway p esp ebp
      rw [terminalSwitch_eq hpcb haway, hscreens] at h'
      simp only at h'
      split_ifs at h' with hidle
      · -- a first visit
        have hpoked : SameScreens k1 (poked k1) :=
          ⟨rfl, rfl, rfl, rfl, rfl, fun _ _ => rfl, fun _ _ => rfl⟩
        -- the slot of the terminal's shell is free, so the message about full slots is not printed
        obtain ⟨i, hfree⟩ := freeSlot_isSome ⟨baseSlot k1.currTerminal, Function.update_self ..⟩
          (k := poked k1)
        have hends : (poked k1).ProgramEnds := by
          refine (hk1.trans hpoked).programEnds ?_
          unfold ProgramEnds
          rw [exchanged_directory k t (by decide)]
          exact hok.ends
        have hexec : ∀ r, execute cfg (poked k1) (some shellCommand) loc = r →
            (∀ k2, r ≠ .fault k2) → SameScreens (exchanged cfg.lay k t) r.kernel := by
          intro r hr hfault
          rcases execute_screens hends hr hfault with hsame | ⟨hnone, -⟩
          · exact (hk1.trans hpoked).trans hsame
          · rw [hnone] at hfree
            cases hfree
        cases hex : execute cfg (poked k1) (some shellCommand) loc with
        | fault k2 => simp [hex, SwitchResult.toStep] at h'
        | started k2 entryPoint =>
            simp only [hex, SwitchResult.toStep] at h'
            cases h'
            exact hexec _ hex fun _ hf => by cases hf
        | failed e k2 =>
            simp only [hex] at h'
            exact (hexec _ hex fun _ hf => by cases hf).trans (resumeTerminal_sameScreens h')
      · exact hk1.trans (resumeTerminal_sameScreens h')

/-- With a shell in the image, a switch to another terminal always goes through. -/
theorem terminalSwitch_goesThrough {stack : Terminal → List Slot} (hok : DisplayOk cfg.lay k)
    (hs : Sessions k stack) (hshell : HasShell cfg.fs) (haway : t ≠ k.currTerminal) (esp ebp : Nat)
    (loc : Locals) : ∃ k' out, k.step cfg (.terminalSwitch t.val esp ebp loc) = some (k', out) := by
  obtain ⟨p, rest, -, -, hpcb⟩ := hs.running
  obtain ⟨k1, hscreens, -⟩ := switched_screens hok haway p esp ebp
  have hproc := switchScreens_sameProcs hscreens
  have hterm : k1.currTerminal = t := hproc.currTerminal
  have hcurrent : k1.currentProcess = k.currentProcess := hproc.currentProcess
  have harray : k1.processArray = k.processArray := hproc.processArray
  simp only [Kernel.step, terminalSwitch_eq hpcb haway, hscreens, hterm, hcurrent]
  by_cases hidle : stack t = []
  · rw [if_pos (hs.idle t hidle)]
    obtain ⟨i, hfree⟩ := freeSlot_isSome (k := poked k1)
      ⟨baseSlot k1.currTerminal, Function.update_self ..⟩
    obtain ⟨k2, entryPoint, hex, -⟩ := @execute_shell cfg (poked k1) loc hshell _ hfree
    rw [hex]
    exact ⟨_, _, rfl⟩
  · obtain ⟨q, rest', -, hcur, hq⟩ := hs.top hidle
    rw [if_neg (by rw [hcur]; omega)]
    unfold resumeTerminal
    simp only [currentPcb?, hterm, hcurrent, hcur, slot?_val, harray, hq]
    exact ⟨_, _, rfl⟩

/-! ## The screens stay in order -/

/-- Every operation leaves the program page mapped to a program. -/
theorem Effect.programMapped {stack stack' : Terminal → List Slot} {op : Op} {out : Out}
    (he : Effect cfg k stack op k' out stack') (hends : k.ProgramEnds) (hmapped : k.ProgramMapped) :
    k'.ProgramMapped := by
  cases he with
  | stay same =>
      obtain ⟨i, hi⟩ := hmapped
      exact ⟨i, (same.directory processIdx (by decide)).trans hi⟩
  | launched _ _ _ _ mapped => exact ⟨_, mapped.entry⟩
  | botched _ failed =>
      rcases execute_failed hends failed with ⟨hearly, -⟩ | ⟨c, file, i, -, -, -, -, -, rfl⟩
      · cases hearly
      · exact hmapped
  | ended _ _ ended => exact ⟨_, ended.entry⟩
  | restarted _ _ _ _ _ mapped => exact ⟨_, mapped.entry⟩
  | opened _ _ _ _ _ mapped => exact ⟨_, mapped.entry⟩
  | visited _ _ _ mapped => exact ⟨_, mapped.entry⟩

theorem OwnScreen.displayOk (h : OwnScreen cfg.lay k k') (hok : DisplayOk cfg.lay k)
    (hmapped : k'.ProgramMapped) (hends : k'.ProgramEnds) : DisplayOk cfg.lay k' where
  tables := h.tables hok.tables
  backedUp u hu := by
    rw [h.currTerminal] at hu
    unfold BackedUp
    rw [h.otherPages u hu]
    exact hok.backedUp u hu
  own := by
    rw [h.currTerminal]
    rcases h.ownPage with hsame | hshown
    · unfold Shown
      rw [hsame]
      exact hok.own
    · exact Or.inl hshown
  cursors := h.cursors
  mapped := hmapped
  ends := hends

theorem exchanged_shown (k : Kernel) (t : Terminal) : Shown (exchanged cfg.lay k t).paging t :=
  mapVirtToPhys_screen t userVideo

theorem exchanged_backedUp (hback : ∀ u, u ≠ k.currTerminal → BackedUp k.paging u) {u : Terminal}
    (hu : u ≠ t) :
    BackedUp (exchanged cfg.lay k t).paging u := by
  have hother : (exchanged cfg.lay k t).paging.userPageTable u.val
      = (mapVirtToPhys cfg.lay k.paging (screenPage k.currTerminal)
          (userBack1 + UInt32.ofNat (k.currTerminal.val * fourKiB))).userPageTable u.val :=
    mapVirtToPhys_other hu userVideo
  unfold BackedUp
  rw [hother]
  by_cases hold : u = k.currTerminal
  · rw [hold, mapVirtToPhys_screen]
    exact (backupEntry_bits k.currTerminal).2
  · rw [mapVirtToPhys_other hold]
    exact hback u hold

/-- After a switch the new terminal's page is the screen and the others are backups. -/
theorem SameScreens.displayOk (h : SameScreens (exchanged cfg.lay k t) k') (hok : DisplayOk cfg.lay k)
    (hmapped : k'.ProgramMapped) (hends : k'.ProgramEnds) :
    DisplayOk cfg.lay k' ∧ Shown k'.paging t := by
  have hshown : Shown k'.paging t := by
    unfold Shown
    rw [h.userPageTable]
    exact exchanged_shown k t
  have hterm : k'.currTerminal = t := h.currTerminal
  refine ⟨⟨?_, fun u hu => ?_, Or.inl (by rw [hterm]; exact hshown), ?_, hmapped, hends⟩, hshown⟩
  · exact h.tables ((hok.tables.mapVirtToPhys k.currTerminal _).mapVirtToPhys t userVideo)
  · rw [hterm] at hu
    unfold BackedUp
    rw [h.userPageTable]
    exact exchanged_backedUp hok.backedUp hu
  · exact h.cursorsOk hok.cursors

/-! ## Watching a run -/

/-- What is to be seen on a terminal: the page of video memory and the cursor. -/
structure Screen where
  video : Fin fourKiB → UInt8
  x : Nat
  y : Nat

/-- The screen of terminal `t` while it is shown. -/
def Kernel.screen (k : Kernel) (t : Terminal) : Screen where
  video off := k.mem (videoAddr + off.val)
  x := k.screenX t
  y := k.screenY t

/-- The screen of terminal `t` while another one is shown. -/
def Kernel.keptScreen (k : Kernel) (t : Terminal) : Screen where
  video off := k.mem (backupPage t + off.val)
  x := k.screenX t
  y := k.screenY t

/-- One operation, with a record of every terminal's screen when it was last switched away. -/
def Kernel.watched (cfg : Config) (s : Kernel × (Terminal → Option Screen)) (op : Op) :
    Option (Kernel × (Terminal → Option Screen)) :=
  (s.1.next cfg op).map fun k' =>
    (k', if k'.currTerminal = s.1.currTerminal then s.2
      else Function.update s.2 s.1.currTerminal (some (s.1.screen s.1.currTerminal)))

/-- The physical page a terminal's page should lead to. -/
def Kernel.screenFrame (k : Kernel) (t : Terminal) : Nat :=
  if t = k.currTerminal then videoAddr else backupPage t

/-- While watching: the screens are in order, and what was recorded of a terminal is what is kept for
    it. -/
structure Watching (cfg : Config) (s : Kernel × (Terminal → Option Screen)) : Prop where
  display : DisplayOk cfg.lay s.1
  sessions : ∃ stack, Sessions s.1 stack
  kept : ∀ t, t ≠ s.1.currTerminal → ∀ sc, s.2 t = some sc → s.1.keptScreen t = sc

theorem backup_below (t : Terminal) {off : Nat} (hoff : off < fourKiB) :
    backupPage t + off < programMemory ∧ ¬ InVideo (backupPage t + off) := by
  have := video_below_backup t
  have ht : t.val < 3 := t.isLt
  unfold InVideo
  refine ⟨?_, by omega⟩
  unfold backupPage backupVid1 programMemory fourKiB at *
  omega

theorem video_below {off : Nat} (hoff : off < fourKiB) : videoAddr + off < programMemory := by
  unfold videoAddr programMemory
  unfold fourKiB at hoff
  omega

/-- Drawing leaves what is kept for the others. -/
theorem OwnScreen.keptScreen (h : OwnScreen cfg.lay k k') {u : Terminal} (hu : u ≠ k.currTerminal) :
    k'.keptScreen u = k.keptScreen u := by
  obtain ⟨hx, hy⟩ := h.otherCursors u hu
  unfold Kernel.keptScreen
  rw [hx, hy]
  congr 1
  funext off
  obtain ⟨hlt, hout⟩ := backup_below u off.isLt
  exact h.mem _ hlt hout

/-- A switch shows what was kept for the new terminal. -/
theorem SameScreens.screen (h : SameScreens (exchanged cfg.lay k t) k') (haway : t ≠ k.currTerminal) :
    k'.screen t = k.keptScreen t := by
  unfold Kernel.screen Kernel.keptScreen
  rw [h.screenX, h.screenY]
  congr 1
  funext off
  rw [h.mem _ (video_below off.isLt)]
  exact exchangedMem_video haway off.isLt

/-- A switch keeps the screen of the old terminal and leaves what is kept for the third. -/
theorem SameScreens.keptScreen (h : SameScreens (exchanged cfg.lay k t) k') (u : Terminal) :
    k'.keptScreen u = if u = k.currTerminal then k.screen u else k.keptScreen u := by
  unfold Kernel.screen Kernel.keptScreen
  rw [h.screenX, h.screenY]
  have hmem : ∀ off : Fin fourKiB, k'.mem (backupPage u + off.val)
      = exchangedMem k.mem k.currTerminal t (backupPage u + off.val) :=
    fun off => h.mem _ (backup_below u off.isLt).1
  simp only [hmem]
  split_ifs with hu
  · congr 1
    funext off
    rw [hu]
    exact exchangedMem_backup off.isLt
  · congr 1
    funext off
    exact exchangedMem_other hu off.isLt

/-- Every operation either draws on the current terminal's screen or switches to another terminal. -/
theorem step_screens {op : Op} {out : Out} (hok : DisplayOk cfg.lay k) (hhome : op.StaysHome k)
    (h : k.step cfg op = some (k', out)) :
    OwnScreen cfg.lay k k' ∨
      ∃ t, t ≠ k.currTerminal ∧ SameScreens (exchanged cfg.lay k t) k' := by
  by_cases hswitch : ∃ newTerminal esp ebp loc, op = .terminalSwitch newTerminal esp ebp loc
  · obtain ⟨newTerminal, esp, ebp, loc, rfl⟩ := hswitch
    by_cases hgoes : newTerminal ≠ k.currTerminal.val ∧ newTerminal < 3
    · right
      obtain ⟨t, rfl⟩ : ∃ t : Terminal, newTerminal = t.val := ⟨⟨newTerminal, hgoes.2⟩, rfl⟩
      have haway : t ≠ k.currTerminal := fun heq => hgoes.1 (congrArg Fin.val heq)
      exact ⟨t, haway, terminalSwitch_exchanges hok haway h⟩
    · left
      have hstay : ∃ v, terminalSwitch cfg k newTerminal esp ebp loc = .returned k v := by
        unfold terminalSwitch
        by_cases hsame : newTerminal = k.currTerminal.val
        · exact ⟨0, by rw [if_pos hsame]⟩
        · exact ⟨-1, by rw [if_neg hsame, dif_pos (by omega)]⟩
      obtain ⟨v, hv⟩ := hstay
      simp only [Kernel.step, hv, SwitchResult.toStep] at h
      cases h
      exact (SameScreens.refl k).ownScreen hok.cursors cfg.lay
  · left
    exact step_ownScreen hok hhome (fun _ _ _ _ heq => hswitch ⟨_, _, _, _, heq⟩) h

/-- One operation keeps the watch. -/
theorem Watching.step {s s' : Kernel × (Terminal → Option Screen)} {op : Op} (h : Watching cfg s)
    (hhome : op.StaysHome s.1) (hstep : Kernel.watched cfg s op = some s') : Watching cfg s' := by
  obtain ⟨k', hnext, rfl⟩ := Option.map_eq_some_iff.1 hstep
  obtain ⟨⟨k1, out⟩, hop, rfl⟩ := Option.map_eq_some_iff.1 hnext
  obtain ⟨stack, hs⟩ := h.sessions
  obtain ⟨stack', he⟩ := step_effect hs h.display.ends hop
  have hmapped := he.programMapped h.display.ends h.display.mapped
  have hends := next_programEnds h.display.ends hnext
  refine ⟨?_, ⟨stack', he.sessions hs⟩, fun u hu sc hsc => ?_⟩
  · rcases step_screens h.display hhome hop with hown | ⟨t, -, hswitch⟩
    · exact hown.displayOk h.display hmapped hends
    · exact (hswitch.displayOk h.display hmapped hends).1
  · rcases step_screens h.display hhome hop with hown | ⟨t, haway, hswitch⟩
    · simp only [hown.currTerminal, if_true] at hu hsc
      rw [hown.keptScreen hu]
      exact h.kept u hu sc hsc
    · have hterm : k1.currTerminal = t := hswitch.currTerminal
      simp only [hterm, if_neg haway] at hu hsc
      rw [hswitch.keptScreen u]
      by_cases hold : u = s.1.currTerminal
      · rw [if_pos hold]
        rw [hold, Function.update_self] at hsc
        rw [hold]
        exact Option.some.inj hsc
      · rw [if_neg hold]
        rw [Function.update_of_ne hold] at hsc
        exact h.kept u hold sc hsc

/-! ## From boot on -/

/-- After boot the screens are in order and nothing has been recorded. -/
theorem boot_watching {machine : Kernel} (hzero : ∀ t, machine.screenX t = 0 ∧ machine.screenY t = 0)
    (hst : Started cfg (bootState cfg machine) 0 loc k) : Watching cfg (k, fun _ => none) := by
  obtain ⟨htables, hpages⟩ := pagingInit_displayOk cfg.lay machine.paging
  obtain ⟨hs, -⟩ := boot_sessions hst
  have hpaging : k.paging = addProcess (pagingInit cfg.lay machine.paging) (UInt32.ofNat 0) := hst.paging
  have htable : ∀ t : Terminal, k.paging.userPageTable t.val
      = UInt32.ofNat (backupPage t) ||| rwPSet := by
    intro t
    rw [hpaging]
    exact hpages t
  refine ⟨⟨?_, fun u _ => ?_, Or.inr (htable _), fun t => ?_, ⟨0, hst.mapped.entry⟩, ?_⟩, ⟨_, hs⟩,
    fun _ _ _ hnone => by cases hnone⟩
  · rw [hpaging]
    exact htables.addProcess _
  · unfold BackedUp
    rw [htable u]
    exact ⟨(backupEntry_bits u).1.1, (backupEntry_bits u).1.2.2⟩
  · rw [hst.screenX, hst.screenY]
    have hx : (bootState cfg machine).screenX t = 0 := (hzero t).1
    have hy : (bootState cfg machine).screenY t = 0 := (hzero t).2
    rw [hx, hy]
    exact ⟨Nat.zero_le _, by decide⟩
  · unfold ProgramEnds
    rw [hpaging, addProcess_of_ne (by decide)]
    exact bootState_programEnds cfg machine

/-- After a switch every page of a terminal leads to its own physical page. -/
theorem DisplayOk.pages (hok : DisplayOk cfg.lay k) (hshown : Shown k.paging k.currTerminal) :
    (∀ u : Terminal, ∀ off < fourKiB,
      kernelAddr cfg.lay k.paging (screenPage u + off) = some (k.screenFrame u + off)) ∧
    Function.Injective k.screenFrame := by
  constructor
  · intro u off hoff
    unfold screenFrame
    split_ifs with hu
    · rw [hu]
      unfold kernelAddr
      rw [hshown.translate hok.tables hoff]
      rfl
    · exact (hok.backedUp u hu).kernelAddr hok.tables hoff
  · intro u v huv
    by_contra hne
    have hu := video_below_backup u
    have hv := video_below_backup v
    have hapart := backups_apart hne
    unfold screenFrame fourKiB at *
    split_ifs at huv with hcu hcv hcv
    · exact hne (hcu.trans hcv.symm)
    all_goals omega

/-- The static cursors are zero when the kernel is loaded. With a shell in the image, boot starts it; and
    from there, after any run of operations in which programs store only into their own memory and the
    page of the terminal they run on, a switch to another terminal `t` goes through. If `t` was shown
    before, video memory and its cursor are what they were when it was switched away, whatever was
    done since. And the page of `t` leads to video memory, the other two to their own backups. -/
theorem screens_isolated (hshell : HasShell cfg.fs) {machine : Kernel}
    (hzero : ∀ t, machine.screenX t = 0 ∧ machine.screenY t = 0) (loc : Locals) :
    ∃ k0 entryPoint, boot cfg machine loc = .started k0 entryPoint ∧
      ∀ ops s,
        Runs.AllSteps (Kernel.watched cfg) (fun s op => op.StaysHome s.1) (k0, fun _ => none) ops →
        Runs.run (Kernel.watched cfg) (k0, fun _ => none) ops = some s →
        ∀ t, t ≠ s.1.currTerminal → ∀ esp ebp loc', ∃ k' out,
          s.1.step cfg (.terminalSwitch t.val esp ebp loc') = some (k', out) ∧
          k'.currTerminal = t ∧ (∀ sc, s.2 t = some sc → k'.screen t = sc) ∧
          (∀ u : Terminal, ∀ off < fourKiB,
            kernelAddr cfg.lay k'.paging (screenPage u + off) = some (k'.screenFrame u + off)) ∧
          Function.Injective k'.screenFrame := by
  obtain ⟨k0, entryPoint, hboot, hst⟩ := boot_started hshell machine loc
  refine ⟨k0, entryPoint, hboot, fun ops s hhome hrun t haway esp ebp loc' => ?_⟩
  have hwatch : Watching cfg s :=
    Runs.run_preserves (fun _ _ _ hw hhome hstep => Watching.step hw hhome hstep)
      (boot_watching hzero hst) hhome hrun
  obtain ⟨stack, hs⟩ := hwatch.sessions
  obtain ⟨k', out, hstep⟩ :=
    terminalSwitch_goesThrough hwatch.display hs hshell haway esp ebp loc'
  have hswitch := terminalSwitch_exchanges hwatch.display haway hstep
  have hterm : k'.currTerminal = t := hswitch.currTerminal
  have hnext : s.1.next cfg (.terminalSwitch t.val esp ebp loc') = some k' := by
    simp only [Kernel.next, hstep, Option.map_some]
  obtain ⟨stack', he⟩ := step_effect hs hwatch.display.ends hstep
  obtain ⟨hok', hshown⟩ := hswitch.displayOk hwatch.display
    (he.programMapped hwatch.display.ends hwatch.display.mapped)
    (next_programEnds hwatch.display.ends hnext)
  refine ⟨k', out, hstep, hterm, fun sc hsc => ?_, hok'.pages (by rw [hterm]; exact hshown)⟩
  rw [hswitch.screen haway]
  exact hwatch.kept t haway sc hsc

/-- The booted small machine prints a letter, visits terminal 1 and comes back to it. -/
theorem screens_isolated_small :
    ∃ k0 k1 k2 entryPoint out1 out2,
      boot smallConfig smallMachine (localsAt 0) = .started k0 entryPoint ∧
      (k0.setConsole (k0.console.putc 65)).step smallConfig (.terminalSwitch 1 0 0 (localsAt 0))
        = some (k1, out1) ∧
      k1.step smallConfig (.terminalSwitch 0 0 0 (localsAt 1)) = some (k2, out2) ∧
      k2.screen 0 = (k0.setConsole (k0.console.putc 65)).screen 0 := by
  obtain ⟨k0, entryPoint, hboot, hall⟩ := screens_isolated smallConfig_hasShell
    (show ∀ t, smallMachine.screenX t = 0 ∧ smallMachine.screenY t = 0 from fun _ => ⟨rfl, rfl⟩)
    (localsAt 0)
  have hterm : k0.currTerminal = 0 := by
    obtain ⟨_, _, hst⟩ := execute_started hboot
    rw [hst.currTerminal]
    rfl
  set k0' := k0.setConsole (k0.console.putc 65) with hk0'
  have hterm' : k0'.currTerminal = 0 := hterm
  have hput : Kernel.watched smallConfig (k0, fun _ => none) (.putc 65)
      = some (k0', fun _ => none) := by
    simp only [Kernel.watched, Kernel.next, Kernel.step, Option.map_some, ← hk0', hterm, hterm',
      if_true]
  obtain ⟨k1, out1, hstep1, hterm1, -⟩ := hall [.putc 65] (k0', fun _ => none)
    ⟨trivial, fun _ _ => trivial⟩ (Runs.run_cons_eq_some.2 ⟨_, hput, rfl⟩) 1
    (by rw [hterm']; decide) 0 0 (localsAt 0)
  have hswitch : Kernel.watched smallConfig (k0', fun _ => none) (.terminalSwitch 1 0 0 (localsAt 0))
      = some (k1, Function.update (fun _ => none) 0 (some (k0'.screen 0))) := by
    have hstep : k0'.step smallConfig (.terminalSwitch 1 0 0 (localsAt 0)) = some (k1, out1) := hstep1
    have hne : ¬ (1 : Terminal) = 0 := by decide
    simp only [Kernel.watched, Kernel.next, hstep, Option.map_some, hterm1, hterm', if_neg hne]
  obtain ⟨k2, out2, hstep2, -, hscreen, -⟩ := hall [.putc 65, .terminalSwitch 1 0 0 (localsAt 0)]
    (k1, Function.update (fun _ => none) 0 (some (k0'.screen 0)))
    ⟨trivial, fun _ _ => ⟨trivial, fun _ _ => trivial⟩⟩
    (Runs.run_cons_eq_some.2 ⟨_, hput, Runs.run_cons_eq_some.2 ⟨_, hswitch, rfl⟩⟩) 0
    (by rw [hterm1]; decide) 0 0 (localsAt 1)
  exact ⟨k0, k1, k2, entryPoint, out1, out2, hboot, hstep1, hstep2,
    hscreen (k0'.screen 0) (by simp)⟩

end BaseOs
