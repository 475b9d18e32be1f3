import BaseOs.Terminal.Isolation
import BaseOs.User.Others

set_option autoImplicit false

/-! # What is a process's own

While a process waits (another terminal is shown, or a child of it runs), nobody else reaches the 4 MB of
memory its program lies in (`memory_private`): the programs that run meanwhile and the kernel on their behalf
store through a mapping that leads to their own memory, to the kernel or to the screens, and programs are
loaded into free slots only. Its descriptors and arguments are in the kernel's frame, which calls of the
others can be made to store into; if none is, they stay as well (`descriptors_private`). -/

namespace BaseOs

open Kernel

variable {cfg : Config} {map : KernelMap} {k k' : Kernel} {p q : Slot} {t : Terminal} {loc : Locals}

/-! ## The memory of a slot -/

/-- The memory of the program in slot `p`. -/
def InFrame (p : Slot) (a : Nat) : Prop :=
  programMemory + userPageSize * p.val ≤ a ∧ a < programMemory + userPageSize * (p.val + 1)

/-- The memory of the program in slot `p` is what it was. -/
def SameFrame (p : Slot) (k k' : Kernel) : Prop := ∀ a, InFrame p a → k'.mem a = k.mem a

theorem SameFrame.trans {k1 k2 k3 : Kernel} (h12 : SameFrame p k1 k2) (h23 : SameFrame p k2 k3) :
    SameFrame p k1 k3 := fun a ha => (h23 a ha).trans (h12 a ha)

theorem sameFrame_of_mem (h : k'.mem = k.mem) : SameFrame p k k' := fun _ _ => by rw [h]

/-- Programs are above everything the screens are kept in. -/
theorem InFrame.ge {a : Nat} (h : InFrame p a) : programMemory ≤ a := (Nat.le_add_right _ _).trans h.1

/-- Two slots have no memory in common. -/
theorem InFrame.apart {a : Nat} (hne : p ≠ q) (hp : InFrame p a) : ¬ InFrame q a := by
  rintro ⟨hlo, hhi⟩
  obtain ⟨hlo', hhi'⟩ := hp
  unfold userPageSize at *
  exact hne (Fin.ext (by omega))

/-- The program page leads into the memory of the slot it is mapped for. -/
theorem inFrame_program {pg : Paging} (hentry : pg.pageDirectory processIdx = processEntry q) {va a : Nat}
    (hlo : programPage ≤ va) (hhi : va < programPage + userPageSize)
    (h : kernelAddr cfg.lay pg va = some a) : InFrame q a := by
  rw [kernelAddr_program hentry hlo hhi] at h
  obtain rfl := Option.some.inj h
  unfold InFrame programMemory
  unfold programPage userPageSize at *
  omega

/-- No address leads into the memory of a slot that is not mapped. -/
theorem InFrame.unreached {pg : Paging} {a va : Nat} (ha : InFrame p a) (htables : KernelTables cfg.lay pg)
    (hentry : pg.pageDirectory processIdx = processEntry q) (hne : p ≠ q) :
    kernelAddr cfg.lay pg (va % 2 ^ 32) ≠ some a := by
  intro hat
  rcases htables.reach (Nat.mod_lt va (by decide)) hat with hlow | ⟨hlo, hhi⟩
  · have hge := ha.ge
    unfold programMemory at hge
    omega
  · exact ha.apart hne (inFrame_program hentry hlo hhi hat)

/-- Stores through the mapping stay out of it. -/
theorem storeVirt_sameFrame {pg : Paging} {a : Nat} (ha : InFrame p a) (htables : KernelTables cfg.lay pg)
    (hentry : pg.pageDirectory processIdx = processEntry q) (hne : p ≠ q) (va : Nat) (data : List UInt8)
    (mem : Bytes) : (storeVirt (kernelAddr cfg.lay pg) va data mem).1 a = mem a :=
  storeVirt_frame rfl fun _ _ => ha.unreached htables hentry hne

/-! ## Output -/

theorem setConsole_sameFrame {con : Console} (h : k.console.Keeps con) (p : Slot) :
    SameFrame p k (k.setConsole con) := by
  intro a ha
  have hge : programMemory ≤ a := ha.ge
  have hvideo : videoAddr ≤ a := by
    unfold programMemory at hge
    unfold videoAddr
    omega
  have hoff : Console.screenBytes ≤ a - videoAddr := by
    unfold programMemory at hge
    unfold videoAddr Console.screenBytes
    omega
  simp only [setConsole, if_pos hvideo]
  rw [h.video _ hoff]
  simp only [console, Nat.add_sub_cancel' hvideo]

theorem printf_sameFrame (hk : k.CursorsOk) (text : List UInt8) (p : Slot) :
    SameFrame p k (k.printf text) :=
  setConsole_sameFrame (Console.print_keeps (console_onScreen hk) text) p

/-! ## The calls -/

theorem Serves.sameFrame (h : Serves k k') (hk : k.CursorsOk) (p : Slot) : SameFrame p k k' := by
  cases h with
  | nothing => exact sameFrame_of_mem rfl
  | print text => exact printf_sameFrame hk text p
  | clock rtc => exact sameFrame_of_mem rfl
  | entries q _ => exact sameFrame_of_mem rfl

theorem openWith_sameFrame (hk : k.CursorsOk) (q : Slot) (info : Fd) (message : List UInt8) (p : Slot) :
    SameFrame p k (openWith k q info message).1 := by
  unfold openWith
  split
  · exact printf_sameFrame hk message p
  · exact sameFrame_of_mem rfl

theorem openFile_sameFrame {filename : Option Bytes} {dentry : Dentry} {r : Kernel × Int32} (hk : k.CursorsOk)
    (h : openFile cfg k filename dentry = some r) (p : Slot) : SameFrame p k r.1 := by
  unfold openFile at h
  split at h
  · obtain rfl := Option.some.inj h
    exact printf_sameFrame hk _ p
  · split at h
    · obtain rfl := Option.some.inj h
      exact sameFrame_of_mem rfl
    · split at h
      · cases h
      · next q _ =>
          split_ifs at h
          all_goals obtain rfl := Option.some.inj h
          · have hset : SameFrame p k { k with rtc := setFrequency cfg.rtcMemory k.rtc 2 } := sameFrame_of_mem rfl
            exact hset.trans (@openWith_sameFrame { k with rtc := setFrequency cfg.rtcMemory k.rtc 2 } hk q _ _ p)
          · exact openWith_sameFrame hk q _ _ p
          · exact openWith_sameFrame hk q _ _ p

theorem readCall_sameFrame {fd : Int} {buf : Option Bytes} {nbytes : Int} {line : Bytes} {r : SysResult}
    (hk : k.CursorsOk) (h : readCall cfg k fd buf nbytes line = some r) (p : Slot) : SameFrame p k r.kernel := by
  rcases readCall_cases h with hserves | ⟨b, -, -, rfl⟩ | ⟨b, -, -, rfl⟩
  · exact hserves.sameFrame hk p
  · exact sameFrame_of_mem rfl
  · exact sameFrame_of_mem rfl

/-- `vidmap` stores the address of the screen in the memory of the program that is mapped. -/
theorem vidmap_sameFrame {screenStart : Nat} {r : Kernel × Int32} (hk : k.CursorsOk)
    (htables : KernelTables cfg.lay k.paging) (hentry : k.paging.pageDirectory processIdx = processEntry q)
    (hne : p ≠ q) (h : vidmap cfg k screenStart = some r) : SameFrame p k r.1 := by
  unfold vidmap at h
  split_ifs at h
  · obtain rfl := Option.some.inj h
    exact printf_sameFrame hk _ p
  · obtain rfl := Option.some.inj h
    exact printf_sameFrame hk _ p
  · simp only at h
    split_ifs at h
    obtain rfl := Option.some.inj h
    exact fun a ha => storeVirt_sameFrame ha htables hentry hne _ _ _

/-! ## Programs -/

/-- A program is loaded through its own mapping. -/
theorem loadProgram_sameFrame (file : ProgramFile) (htables : KernelTables cfg.lay k.paging) (hne : p ≠ q) :
    SameFrame p k (loadProgram cfg k q file loc).kernel := by
  unfold loadProgram
  split_ifs
  · simp only
    split
    · exact sameFrame_of_mem rfl
    · split_ifs
      all_goals
        exact fun a ha => storeVirt_sameFrame ha (htables.addProcess _) (addProcess_entry q) hne _ _ _
  · exact sameFrame_of_mem rfl

/-- `execute` loads into a free slot. -/
theorem execute_sameFrame {comm : Option Bytes} {r : ExecResult} (hk : k.CursorsOk)
    (htables : KernelTables cfg.lay k.paging) (hbusy : k.inUse p ≠ 0) (h : execute cfg k comm loc = r) :
    SameFrame p k r.kernel := by
  subst h
  cases comm with
  | none => exact sameFrame_of_mem rfl
  | some c =>
      rw [execute_some]
      split
      · exact sameFrame_of_mem rfl
      · split
        · exact printf_sameFrame hk _ p
        · next i hi =>
            have hne : p ≠ i := by
              rintro rfl
              exact hbusy (freeSlot_eq_some.1 hi).1
            have hset : SameFrame p k (setUp (withArgs k c loc) i) := sameFrame_of_mem rfl
            exact hset.trans (loadProgram_sameFrame _ htables hne)

theorem haltReturn_sameFrame {status : UInt8} {out : Out} (h : (haltReturn k status).toStep = some (k', out))
    (p : Slot) : SameFrame p k k' := by
  unfold haltReturn at h
  simp only at h
  split at h
  · split at h
    · cases h
      exact sameFrame_of_mem rfl
    · cases h
  · cases h

theorem halt_sameFrame {stack : Terminal → List Slot} {status : UInt8} {out : Out} (hk : k.CursorsOk)
    (htables : KernelTables cfg.lay k.paging) (hs : Sessions k stack) (hp : p ∈ stack t)
    (hother : k.currentPcb? ≠ some p) (h : (halt cfg k status loc).toStep = some (k', out)) : SameFrame p k k' := by
  obtain ⟨q, rest, hq, -, hpcb⟩ := hs.running
  have hne : p ≠ q := by
    rintro rfl
    exact hother hpcb
  have hid := hs.processId (t := k.currTerminal) (p := q) (by rw [hq]; exact List.mem_cons_self)
  rw [halt_eq hpcb hid] at h
  split_ifs at h
  · have hbusy : (freed k q).inUse p ≠ 0 := by
      change Function.update k.inUse q 0 p ≠ 0
      rw [Function.update_of_ne hne, hs.busy t p hp]
      decide
    have hfreed : SameFrame p k (freed k q) := sameFrame_of_mem rfl
    have hexec : ∀ r, execute cfg (freed k q) (some shellCommand) loc = r → SameFrame p k r.kernel :=
      fun r hr => hfreed.trans (execute_sameFrame hk htables hbusy hr)
    cases hex : execute cfg (freed k q) (some shellCommand) loc with
    | started k1 entryPoint =>
        rw [hex] at h
        cases h
        exact hexec _ hex
    | fault k1 =>
        rw [hex] at h
        cases h
    | failed e k1 =>
        rw [hex] at h
        exact (hexec _ hex).trans (haltReturn_sameFrame h p)
  · have hclosed : SameFrame p k (k.setFdTable q closeAllFd) := sameFrame_of_mem rfl
    exact hclosed.trans (haltReturn_sameFrame h p)

theorem exception_sameFrame {stack : Terminal → List Slot} {i : Nat} {cr2 : UInt32} {out : Out}
    (hk : k.CursorsOk) (htables : KernelTables cfg.lay k.paging) (hs : Sessions k stack) (hp : p ∈ stack t)
    (hother : k.currentPcb? ≠ some p) (h : (exceptionHandler cfg k i cr2 loc).toStep = some (k', out)) :
    SameFrame p k k' := by
  rw [exceptionHandler_eq] at h
  have hclear := setConsole_ownScreen hk (Console.clear_keeps k.console) cfg.lay
  have hprint := printf_ownScreen hclear.cursors (exceptionText i ++ if i = 14 then cr2Text cr2 else []) cfg.lay
  have hcleared : SameFrame p k (k.setConsole k.console.clear) :=
    setConsole_sameFrame (Console.clear_keeps k.console) p
  have hraised : SameFrame p k (raised k i cr2) := hcleared.trans (printf_sameFrame hclear.cursors _ p)
  have hother' : (raised k i cr2).currentPcb? ≠ some p := hother
  have htables' : KernelTables cfg.lay (raised k i cr2).paging := htables
  exact hraised.trans (halt_sameFrame hprint.cursors htables' (raised_sessions hs i cr2) hp hother' h)

/-! ## Terminal switches -/

/-- The screens are exchanged below the programs. -/
theorem exchangedMem_frame (mem : Bytes) (old new : Terminal) {a : Nat} (ha : InFrame p a) :
    exchangedMem mem old new a = mem a := by
  have hge := ha.ge
  have hpositive : 0 < fourKiB := by unfold fourKiB; omega
  have hlast : fourKiB - 1 < fourKiB := Nat.sub_lt hpositive Nat.one_pos
  have hback := (backup_below old hlast).1
  have hvideo := video_below hlast
  unfold exchangedMem
  rw [copied_out _ (Or.inr (by omega)), copied_out _ (Or.inr (by omega))]

theorem terminalSwitch_sameFrame {stack : Terminal → List Slot} {newTerminal esp ebp : Nat} {out : Out}
    (hok : DisplayOk cfg.lay k) (htables : KernelTables cfg.lay k.paging) (hs : Sessions k stack) (hp : p ∈ stack t)
    (h : (terminalSwitch cfg k newTerminal esp ebp loc).toStep = some (k', out)) : SameFrame p k k' := by
  rcases terminalSwitch_cases hs h with ⟨rfl, -⟩ | ⟨u, q, k1, -, haway, hscreens, hgo⟩
  · exact sameFrame_of_mem rfl
  have hk1 : k1 = { switched k q u esp ebp with
      mem := exchangedMem k.mem k.currTerminal u
      paging := exchangedPaging cfg.lay k.paging k.currTerminal u } := by
    have hspec := @switchScreens_spec cfg (switched k q u esp ebp) hok.tables haway (hok.backedUp u haway)
    exact Option.some.inj (hscreens.symm.trans hspec)
  have hexchanged : SameFrame p k k1 := by
    intro a ha
    rw [hk1]
    exact exchangedMem_frame k.mem k.currTerminal u ha
  have hcursors : (poked k1).CursorsOk := by
    rw [hk1]
    exact hok.cursors
  have htables' : KernelTables cfg.lay (poked k1).paging := by
    rw [hk1]
    exact (htables.mapVirtToPhys (screenEntry_backup _)).mapVirtToPhys (screenEntry_video u)
  refine hexchanged.trans ?_
  rcases hgo with ⟨-, hresume⟩ | ⟨-, hbusy, ⟨_, hex, -⟩ | ⟨_, k2, hex, hresume⟩⟩
  · obtain ⟨rfl, -⟩ := resumeTerminal_eq_some hresume
    exact sameFrame_of_mem rfl
  · exact execute_sameFrame hcursors htables' (hbusy t p hp) hex
  · obtain ⟨rfl, -⟩ := resumeTerminal_eq_some hresume
    exact execute_sameFrame hcursors htables' (hbusy t p hp) hex

/-! ## One operation -/

/-- The screens and the tables are in order. -/
structure Walled (cfg : Config) (k : Kernel) : Prop where
  display : DisplayOk cfg.lay k
  tables : KernelTables cfg.lay k.paging
  sessions : ∃ stack, Sessions k stack

/-- The program in slot `p` is not mapped, so what is stored through the mapping is not its doing. -/
def Unmapped (p : Slot) (k : Kernel) : Prop := k.paging.pageDirectory processIdx ≠ processEntry p

theorem Walled.mapped (h : Walled cfg k) (hp : Unmapped p k) :
    ∃ q, p ≠ q ∧ k.paging.pageDirectory processIdx = processEntry q := by
  obtain ⟨q, hq⟩ := h.display.mapped
  refine ⟨q, ?_, hq⟩
  rintro rfl
  exact hp hq

/-- An event that is not brought about by the program in slot `p`. -/
def Outside (p : Slot) (k : Kernel) : KernelEvent → Prop
  | .op (.userStore ..) | .op (.vidmap _) => Unmapped p k
  | .op (.halt ..) | .op (.exception ..) => k.currentPcb? ≠ some p
  | .pointer .. => Unmapped p k ∧ k.currentPcb? ≠ some p
  | .op _ | .shortcut .. => True

theorem Outside.endsProcess {op : Op} (h : Outside p k (.op op)) (hop : op.endsProcess = true) :
    k.currentPcb? ≠ some p := by
  cases op with
  | halt | exception => exact h
  | _ => cases hop

/-- An operation that is not the program's own leaves its memory alone. -/
theorem step_sameFrame {stack : Terminal → List Slot} {op : Op} {out : Out} (hw : Walled cfg k)
    (hs : Sessions k stack) (hp : p ∈ stack t) (houtside : Outside p k (.op op))
    (h : k.step cfg op = some (k', out)) : SameFrame p k k' := by
  have hk := hw.display.cursors
  cases op with
  | execute comm loc =>
      change (execute cfg k comm loc).toStep = some (k', out) at h
      have hbusy : k.inUse p ≠ 0 := by
        rw [hs.busy t p hp]
        decide
      cases hex : execute cfg k comm loc with
      | failed e k1 =>
          rw [hex] at h
          cases h
          exact execute_sameFrame hk hw.tables hbusy hex
      | started k1 entryPoint =>
          rw [hex] at h
          cases h
          exact execute_sameFrame hk hw.tables hbusy hex
      | fault k1 =>
          rw [hex] at h
          cases h
  | halt status loc => exact halt_sameFrame hk hw.tables hs hp houtside h
  | exception i cr2 loc => exact exception_sameFrame hk hw.tables hs hp houtside h
  | terminalSwitch newTerminal esp ebp loc => exact terminalSwitch_sameFrame hw.display hw.tables hs hp h
  | openFile filename dentry =>
      obtain ⟨r, hr, heq⟩ := Option.map_eq_some_iff.1 h
      cases heq
      exact openFile_sameFrame hk hr p
  | read fd buf nbytes line =>
      obtain ⟨r, hr, heq⟩ := Option.map_eq_some_iff.1 h
      cases heq
      exact readCall_sameFrame hk hr p
  | write fd buf nbytes =>
      obtain ⟨r, hr, heq⟩ := Option.map_eq_some_iff.1 h
      cases heq
      exact (writeCall_serves hr).sameFrame hk p
  | close fd =>
      obtain ⟨r, hr, heq⟩ := Option.map_eq_some_iff.1 h
      cases heq
      exact (closeCall_serves hr).sameFrame hk p
  | getargs buf nbytes =>
      obtain ⟨r, hr, heq⟩ := Option.map_eq_some_iff.1 h
      cases heq
      rw [getargs_kernel hr]
      exact sameFrame_of_mem rfl
  | vidmap screenStart =>
      obtain ⟨r, hr, heq⟩ := Option.map_eq_some_iff.1 h
      cases heq
      obtain ⟨q, hne, hentry⟩ := hw.mapped houtside
      exact vidmap_sameFrame hk hw.tables hentry hne hr
  | putc c =>
      cases h
      exact setConsole_sameFrame (Console.putc_keeps (console_onScreen hk) c) p
  | clear =>
      cases h
      exact setConsole_sameFrame (Console.clear_keeps _) p
  | scroll =>
      cases h
      exact setConsole_sameFrame (Console.scroll_keeps (console_onScreen hk)) p
  | backspace =>
      cases h
      exact setConsole_sameFrame (Console.backspace_keeps (console_onScreen hk)) p
  | userStore va b =>
      obtain ⟨pa, hpa, heq⟩ := Option.map_eq_some_iff.1 h
      cases heq
      obtain ⟨q, hne, hentry⟩ := hw.mapped houtside
      intro a ha
      refine Function.update_of_ne ?_ _ _
      rintro rfl
      exact ha.unreached hw.tables hentry hne (kernelAddr_of_userAddr hpa)

/-- Memory apart, nothing the screens depend on has changed. -/
theorem DisplayOk.same (hok : DisplayOk cfg.lay k) (hpaging : k'.paging = k.paging)
    (hterm : k'.currTerminal = k.currTerminal) (hcursors : k'.CursorsOk) : DisplayOk cfg.lay k' where
  tables := by
    rw [hpaging]
    exact hok.tables
  backedUp u hu := by
    rw [hpaging]
    exact hok.backedUp u (hterm ▸ hu)
  own := by
    rw [hpaging, hterm]
    exact hok.own
  cursors := hcursors
  mapped := by
    unfold ProgramMapped
    rw [hpaging]
    exact hok.mapped
  ends := by
    unfold ProgramEnds
    rw [hpaging]
    exact hok.ends

/-- The walls stand after every operation, wherever programs store. -/
theorem Walled.step {op : Op} {out : Out} (hw : Walled cfg k) (h : k.step cfg op = some (k', out)) :
    Walled cfg k' := by
  obtain ⟨stack, hs⟩ := hw.sessions
  obtain ⟨stack', he⟩ := step_effect hs hw.display.ends h
  refine ⟨?_, (kernelTables_stable cfg).step h hw.tables, stack', he.sessions hs⟩
  by_cases hhome : op.StaysHome k
  · have hmapped := he.programMapped hw.display.ends hw.display.mapped
    have hnext : k.next cfg op = some k' := by
      rw [Kernel.next, h]
      rfl
    have hends := next_programEnds hw.display.ends hnext
    rcases step_screens hw.display hhome h with hown | ⟨t, -, hswitch⟩
    · exact hown.displayOk hw.display hmapped hends
    · exact (hswitch.displayOk hw.display hmapped hends).1
  · -- a program stores into another terminal's page
    cases op with
    | userStore va b =>
        obtain ⟨pa, -, heq⟩ := Option.map_eq_some_iff.1 h
        cases heq
        exact hw.display.same rfl rfl hw.display.cursors
    | _ => exact absurd trivial hhome

/-! ## One event -/

/-- Test shortcuts draw on the screen and use descriptors. -/
theorem byDevice_sameFrame (h : ByDevice q k k') (hk : k.CursorsOk) (p : Slot) :
    SameFrame p k k' ∧ k'.CursorsOk ∧ k'.paging = k.paging := by
  induction h with
  | refl => exact ⟨sameFrame_of_mem rfl, hk, rfl⟩
  | tail _ hstep ih =>
      obtain ⟨hframe, hcursors, hpaging⟩ := ih
      cases hstep with
      | print text =>
          exact ⟨hframe.trans (printf_sameFrame hcursors text p), (printf_ownScreen hcursors text smallLayout).cursors,
            hpaging⟩
      | clear =>
          exact ⟨hframe.trans (setConsole_sameFrame (Console.clear_keeps _) p),
            (setConsole_ownScreen hcursors (Console.clear_keeps _) smallLayout).cursors, hpaging⟩
      | clock => exact ⟨hframe, hcursors, hpaging⟩
      | entries => exact ⟨hframe, hcursors, hpaging⟩

/-- The cursors, and the memory of the program in slot `p` where no cell is in it. -/
theorem frame_survives {C : Set Cell} (hC : ∀ a, InFrame p a → Cell.memory a ∉ C) :
    Survives map C q k fun s => SameFrame p k s ∧ s.CursorsOk where
  store s c b s' hc h hs := by
    refine ⟨fun a ha => Eq.trans ?_ (hs.1 a ha), ?_⟩
    · cases c with
      | kernel pa => cases h
      | saved | args | entry =>
          obtain rfl := Option.some.inj h
          rfl
      | memory pa =>
          obtain rfl := Option.some.inj h
          refine Function.update_of_ne ?_ _ _
          rintro rfl
          exact hC a ha hc
    · rw [storeCell_fixed h]
      exact hs.2
  printf text hs :=
    ⟨hs.1.trans (printf_sameFrame hs.2 text p), (printf_ownScreen hs.2 text smallLayout).cursors⟩
  rtc _ hs := hs
  moved _ _ _ _ hs := hs

/-- The cells of a call are where addresses lead. -/
theorem PointerCall.cells_mapped {call : PointerCall} {rest : Bytes} {c : Cell} (h : c ∈ call.cells cfg map rest k) :
    ∃ va, (kernelView cfg map rest).cell k va = some c := by
  cases call with
  | read fd buf nbytes line =>
      obtain ⟨j, -, hc⟩ := h
      exact ⟨_, hc⟩
  | getargs buf nbytes =>
      rcases h with ⟨j, -, hc⟩ | ⟨j, -, hc⟩
      · exact ⟨_, hc⟩
      · exact ⟨_, hc⟩

/-- A cell of memory is at the address it is named by. -/
theorem memory_of_cellAt {pa a : Nat} (h : cellAt map pa = .memory a) : pa = a := by
  unfold cellAt pcbCell at h
  split_ifs at h
  · cases h
    rfl
  · simp only at h
    split_ifs at h

/-- No pointer leads into the memory of a program that is not mapped. -/
theorem pointerCall_sameFrame {call : PointerCall} {rest : Bytes} (hw : Walled cfg k) (hp : Unmapped p k)
    (hq : k.currentPcb? = some q) : SameFrame p k (k.pointerCall cfg map rest call).state := by
  obtain ⟨r, hne, hentry⟩ := hw.mapped hp
  have hcells : ∀ a, InFrame p a → Cell.memory a ∉ call.cells cfg map rest k := by
    intro a ha hmem
    obtain ⟨va, hcell⟩ := PointerCall.cells_mapped hmem
    obtain ⟨pa, hpa, hat⟩ := Option.map_eq_some_iff.1 hcell
    obtain rfl := memory_of_cellAt hat
    exact ha.unreached hw.tables hentry hne hpa
  have hcursors := hw.display.cursors
  exact (pointerCall_survives (frame_survives hcells) ⟨sameFrame_of_mem rfl, hcursors⟩ hq subset_rfl
    (fun _ => ⟨sameFrame_of_mem rfl, hcursors⟩) fun _ => ⟨sameFrame_of_mem rfl, hcursors⟩).1

theorem cursors_survive (map : KernelMap) (C : Set Cell) (q : Slot) (k : Kernel) :
    Survives map C q k Kernel.CursorsOk where
  store _ _ _ _ _ h hs := by
    rw [storeCell_fixed h]
    exact hs
  printf text hs := (printf_ownScreen hs text smallLayout).cursors
  rtc _ hs := hs
  moved _ _ _ _ hs := hs

/-- The walls stand after any call, whatever it stores. -/
theorem Walled.pointerCall {call : PointerCall} {rest : Bytes} (hw : Walled cfg k) (hq : k.currentPcb? = some q) :
    Walled cfg (k.pointerCall cfg map rest call).state := by
  have hcursors := hw.display.cursors
  have hend := @pointerCall_survives cfg map rest Set.univ k q call _ (cursors_survive map _ q k) hcursors hq
    (Set.subset_univ _) (fun _ => hcursors) fun _ => hcursors
  have hprocesses := @pointerCall_processes cfg map rest k q call hq
  have hsame := sameProcs_of_processes hprocesses
  have hpaging : (k.pointerCall cfg map rest call).state.paging = k.paging := by
    simp only [Kernel.processes, Prod.mk.injEq] at hprocesses
    exact hprocesses.2.2.2.2.2.2.2
  obtain ⟨stack, hs⟩ := hw.sessions
  refine ⟨hw.display.same hpaging hsame.currTerminal hend, ?_, stack, hs.same hsame⟩
  rw [hpaging]
  exact hw.tables

/-- The walls stand after every event. -/
theorem Walled.occurs {ev : KernelEvent} {out : Out} (hw : Walled cfg k) (h : Occurs cfg map k ev k' out) :
    Walled cfg k' := by
  obtain ⟨stack, hs⟩ := hw.sessions
  obtain ⟨q, _, -, -, hq⟩ := hs.running
  cases h with
  | op _ hstep => exact hw.step hstep
  | shortcut ran =>
      obtain ⟨r, -, hdevice⟩ := testShortcut_byDevice ran
      obtain ⟨-, hcursors, hpaging⟩ := byDevice_sameFrame hdevice hw.display.cursors q
      have hprocs := hdevice.sameProcs
      refine ⟨hw.display.same hpaging hprocs.currTerminal hcursors, ?_, stack, hs.same hprocs⟩
      rw [hpaging]
      exact hw.tables
  | @returned call rest _ _ _ done =>
      have hend := @Walled.pointerCall cfg map k q call rest hw hq
      rwa [done] at hend
  | @faulted call rest loc k1 _ va _ stopped step =>
      have hend := @Walled.pointerCall cfg map k q call rest hw hq
      rw [stopped] at hend
      exact Walled.step (k := k1) hend step

/-- An event that is not the program's own leaves its memory alone. -/
theorem Occurs.sameFrame {ev : KernelEvent} {out : Out} (h : Occurs cfg map k ev k' out) (hw : Walled cfg k)
    (hin : InSession t p k) (houtside : Outside p k ev) : SameFrame p k k' := by
  obtain ⟨-, stack, hs, hp⟩ := hin
  obtain ⟨q, _, -, -, hq⟩ := hs.running
  cases h with
  | op _ hstep => exact step_sameFrame hw hs hp houtside hstep
  | shortcut ran =>
      obtain ⟨r, -, hdevice⟩ := testShortcut_byDevice ran
      exact (byDevice_sameFrame hdevice hw.display.cursors p).1
  | @returned call rest _ _ _ done =>
      have hend := @pointerCall_sameFrame cfg map k p q call rest hw houtside.1 hq
      rwa [done] at hend
  | @faulted call rest loc k1 _ va _ stopped step =>
      have hframe := @pointerCall_sameFrame cfg map k p q call rest hw houtside.1 hq
      have hwalled := @Walled.pointerCall cfg map k q call rest hw hq
      have hsame := sameProcs_of_processes (@pointerCall_processes cfg map rest k q call hq)
      rw [stopped] at hframe hwalled hsame
      have hother : Outside p k1 (.op (.exception 14 (UInt32.ofNat va) loc)) := fun hp =>
        houtside.2 (hsame.currentPcb?.symm.trans hp)
      have hfault : SameFrame p k1 k' := step_sameFrame (k := k1) hwalled (hs.same hsame) hp hother step
      exact hframe.trans hfault

/-! ## Runs -/

/-- From boot on the walls stand, whatever happens: the static cursors and `user_page_table` are zero when
    the kernel is loaded. -/
theorem runEvents_walled {machine k0 : Kernel} {loc0 : Locals} {entryPoint : UInt32} {events : List KernelEvent}
    (hzero : ∀ t, machine.screenX t = 0 ∧ machine.screenY t = 0)
    (hpages : ∀ i < 1024, machine.paging.userPageTable i = 0)
    (hboot : boot cfg machine loc0 = .started k0 entryPoint)
    (hrun : Runs.run (Kernel.after cfg map) k0 events = some k) : Walled cfg k := by
  obtain ⟨i, hi, hst⟩ := execute_started hboot
  obtain rfl : 0 = i := Option.some.inj ((boot_freeSlot cfg machine).symm.trans hi)
  have hwatching := boot_watching hzero hst
  have hstart : Walled cfg k0 := ⟨hwatching.display,
    (kernelTables_stable cfg).execute_of hboot (pagingInit_mapping hpages).toKernelTables, hwatching.sessions⟩
  refine Runs.run_preserves (P := fun _ _ => True) (fun k ev k' hw _ hafter => ?_) hstart
    (Runs.allSteps_of_forall (fun _ _ => trivial) _ _) hrun
  obtain ⟨out, h⟩ := occurs_of_after hafter
  exact hw.occurs h

/-- An event that leaves the descriptors of `p` alone: one elsewhere, or the start of a child. -/
def Idles (cfg : Config) (map : KernelMap) (p : Slot) (k : Kernel) (ev : KernelEvent) : Prop :=
  (∃ comm loc, ev = .op (.execute comm loc)) ∨ Elsewhere cfg map p k ev

theorem Waiting.idle {table : FdTable} {args : Bytes} {ev : KernelEvent} {out : Out}
    (h : Waiting t p table args k) (hclosed : OffClosed table) (hidle : Idles cfg map p k ev)
    (hoccurs : Occurs cfg map k ev k' out) : Waiting t p table args k' := by
  rcases hidle with ⟨comm, loc, rfl⟩ | helse
  · cases hoccurs with
    | op _ hstep =>
        obtain ⟨-, stack, hs, hp⟩ := h.inSession
        have hpcb := step_execute_pcb hs hp hstep
        exact ⟨inSession_step h.inSession (fun hop => by cases hop) hstep,
          (congrArg Pcb.fdTable hpcb).trans h.fdTable, (congrArg Pcb.args hpcb).trans h.args⟩
  · exact h.occurs hclosed helse hoccurs

/-- While others run, the memory of a program stays. -/
structure Suspended (cfg : Config) (t : Terminal) (p : Slot) (k0 k : Kernel) : Prop where
  inSession : InSession t p k
  walled : Walled cfg k
  frame : SameFrame p k0 k

theorem Suspended.occurs {k0 : Kernel} {ev : KernelEvent} {out : Out} (h : Suspended cfg t p k0 k)
    (houtside : Outside p k ev) (hoccurs : Occurs cfg map k ev k' out) : Suspended cfg t p k0 k' := by
  refine ⟨h.inSession.occurs (fun op hop hends => ?_) hoccurs, h.walled.occurs hoccurs,
    h.frame.trans (hoccurs.sameFrame h.walled h.inSession houtside)⟩
  cases ev with
  | op op' =>
      obtain rfl : op = op' := hop
      exact houtside.endsProcess hends
  | shortcut => exact hop.elim
  | pointer => exact houtside.2

/-- The static cursors and `user_page_table` are zero when the kernel is loaded. After anything that can have
    happened since boot, the memory of the program that runs stays byte for byte what it is through any events
    that are not its own: programs that start, run, store and end in other slots, their system calls with
    pointers to anywhere, output, test shortcuts, terminal switches. -/
theorem memory_private {machine k0 : Kernel} {loc0 : Locals} {entryPoint : UInt32}
    {events others : List KernelEvent} (hzero : ∀ t, machine.screenX t = 0 ∧ machine.screenY t = 0)
    (hpages : ∀ i < 1024, machine.paging.userPageTable i = 0)
    (hboot : boot cfg machine loc0 = .started k0 entryPoint)
    (hrun : Runs.run (Kernel.after cfg map) k0 events = some k) (hp : k.currentPcb? = some p)
    (houtside : Runs.AllSteps (Kernel.after cfg map) (Outside p) k others)
    (hothers : Runs.run (Kernel.after cfg map) k others = some k') {a : Nat} (ha : InFrame p a) :
    k'.mem a = k.mem a := by
  have hend : Suspended cfg k.currTerminal p k k' := by
    refine Runs.run_preserves (fun k ev k' hw ho hafter => ?_) ⟨(runEvents_sessions hboot hrun).running hp,
      runEvents_walled hzero hpages hboot hrun, fun _ _ => rfl⟩ houtside hothers
    obtain ⟨out, hoccurs⟩ := occurs_of_after hafter
    exact hw.occurs ho hoccurs
  exact hend.frame a ha

/-- The first shell starts a second one, which stores into its own memory. -/
theorem memory_private_child :
    ∃ k', Runs.run (Kernel.after smallConfig smallMap) smallBooted
        [.op (.execute (some shellCommand) (localsAt 0)), .op (.userStore programPage 7)] = some k' ∧
      k'.mem 0x1400000 = 7 ∧ k'.mem 0x848000 = smallBooted.mem 0x848000 := by
  obtain ⟨entryPoint0, hboot, -⟩ := smallBooted_spec
  obtain ⟨k1, entryPoint, hex, hst⟩ := @execute_shell smallConfig smallBooted (localsAt 0)
    smallConfig_hasShell _ smallBooted_freeSlot
  have hentry := hst.mapped.entry
  obtain ⟨hpresent, hlarge, huser, hframe⟩ := processEntry_bits 3
  have hpage : programPage / 2 ^ 22 % 1024 = processIdx ∧ programPage % 2 ^ 22 = 0 ∧
      programPage % 2 ^ 32 = programPage := by decide
  have haddr : userAddr smallConfig.lay k1.paging (programPage % 2 ^ 32) = some 0x1400000 := by
    unfold userAddr translate
    simp only [hpage, hentry, hpresent, hlarge, huser, hframe, if_true]
    rfl
  have hfirst : smallBooted.after smallConfig smallMap (.op (.execute (some shellCommand) (localsAt 0))) = some k1 :=
    after_op rfl (next_execute hex)
  have hsecond : k1.after smallConfig smallMap (.op (.userStore programPage 7))
      = some { k1 with mem := Function.update k1.mem 0x1400000 7 } := by
    refine after_op rfl ?_
    simp only [Kernel.next, Kernel.step, haddr, Option.map_some]
  have hrun : Runs.run (Kernel.after smallConfig smallMap) smallBooted
      [.op (.execute (some shellCommand) (localsAt 0)), .op (.userStore programPage 7)]
      = some { k1 with mem := Function.update k1.mem 0x1400000 7 } :=
    Runs.run_cons_eq_some.2 ⟨k1, hfirst, Runs.run_cons_eq_some.2 ⟨_, hsecond, rfl⟩⟩
  have hstored : Function.update k1.mem 0x1400000 7 0x1400000 = 7 := Function.update_self _ _ _
  have houtside : Runs.AllSteps (Kernel.after smallConfig smallMap) (Outside 0) smallBooted
      [.op (.execute (some shellCommand) (localsAt 0)), .op (.userStore programPage 7)] := by
    refine ⟨trivial, fun k1' hk1' => ⟨?_, fun _ _ => trivial⟩⟩
    obtain rfl : k1 = k1' := Option.some.inj (hfirst.symm.trans hk1')
    change k1.paging.pageDirectory processIdx ≠ processEntry 0
    rw [hentry]
    decide
  exact ⟨_, hrun, hstored, @memory_private smallConfig smallMap smallBooted _ 0 smallMachine _ _ _ [] _
    (fun _ => ⟨rfl, rfl⟩) (fun _ _ => rfl) hboot rfl smallBooted_running.1 houtside hrun 0x848000
    ⟨show programMemory + userPageSize * 0 ≤ 0x848000 by decide,
      show 0x848000 < programMemory + userPageSize * (0 + 1) by decide⟩⟩

end BaseOs
