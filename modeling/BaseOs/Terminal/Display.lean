import BaseOs.Console.Bounds
import BaseOs.Process.Table

set_option autoImplicit false

/-! # What an operation does to the screens

The operations of the current terminal draw on video memory and move its own cursor, and may map its own
page to video memory (`OwnScreen`). `terminal_switch` exchanges two screens (`switchScreens_spec`).
Nothing else reaches the four pages. -/

namespace BaseOs

open Kernel

variable {cfg : Config} {k k' : Kernel} {loc : Locals}

/-! ## Drawing -/

/-- Every terminal's cursor is on the screen. -/
def Kernel.CursorsOk (k : Kernel) : Prop := ∀ t, k.screenX t ≤ numCols ∧ k.screenY t < numRows

/-- The page of video memory. -/
def InVideo (a : Nat) : Prop := videoAddr ≤ a ∧ a < videoAddr + fourKiB

/-- What the operations of the current terminal can do to the screens. -/
structure OwnScreen (lay : Layout) (k k' : Kernel) : Prop where
  currTerminal : k'.currTerminal = k.currTerminal
  tables : ScreenTables lay k.paging → ScreenTables lay k'.paging
  otherPages : ∀ u : Terminal, u ≠ k.currTerminal →
    k'.paging.userPageTable u.val = k.paging.userPageTable u.val
  ownPage : k'.paging.userPageTable k.currTerminal.val = k.paging.userPageTable k.currTerminal.val ∨
    Shown k'.paging k.currTerminal
  otherCursors : ∀ u : Terminal, u ≠ k.currTerminal →
    k'.screenX u = k.screenX u ∧ k'.screenY u = k.screenY u
  cursors : k'.CursorsOk
  mem : ∀ a < programMemory, ¬ InVideo a → k'.mem a = k.mem a

theorem OwnScreen.trans {lay : Layout} {k1 k2 k3 : Kernel} (h12 : OwnScreen lay k1 k2)
    (h23 : OwnScreen lay k2 k3) : OwnScreen lay k1 k3 where
  currTerminal := h23.currTerminal.trans h12.currTerminal
  tables h := h23.tables (h12.tables h)
  otherPages u hu := (h23.otherPages u (by rwa [h12.currTerminal])).trans (h12.otherPages u hu)
  ownPage := by
    have h := h23.ownPage
    rw [h12.currTerminal] at h
    rcases h with hsame | hshown
    · rcases h12.ownPage with hsame' | hshown'
      · exact Or.inl (hsame.trans hsame')
      · exact Or.inr (hsame.trans hshown')
    · exact Or.inr hshown
  otherCursors u hu := by
    obtain ⟨hx, hy⟩ := h23.otherCursors u (by rwa [h12.currTerminal])
    obtain ⟨hx', hy'⟩ := h12.otherCursors u hu
    exact ⟨hx.trans hx', hy.trans hy'⟩
  cursors := h23.cursors
  mem a ha hout := (h23.mem a ha hout).trans (h12.mem a ha hout)

theorem SameScreens.tables {lay : Layout} (h : SameScreens k k') (ht : ScreenTables lay k.paging) :
    ScreenTables lay k'.paging where
  low := (h.directory 0 (by decide)).trans ht.low
  video := by rw [h.pageTable]; exact ht.video
  screens := (h.directory screenIdx (by decide)).trans ht.screens

theorem SameScreens.cursorsOk (h : SameScreens k k') (hk : k.CursorsOk) : k'.CursorsOk := by
  intro t
  rw [h.screenX, h.screenY]
  exact hk t

theorem SameScreens.ownScreen (h : SameScreens k k') (hk : k.CursorsOk) (lay : Layout) :
    OwnScreen lay k k' where
  currTerminal := h.currTerminal
  tables := h.tables
  otherPages u _ := by rw [h.userPageTable]
  ownPage := Or.inl (by rw [h.userPageTable])
  otherCursors u _ := ⟨by rw [h.screenX], by rw [h.screenY]⟩
  cursors := h.cursorsOk hk
  mem a ha _ := h.mem a ha

theorem console_onScreen (hk : k.CursorsOk) : k.console.OnScreen := ⟨(hk _).1, (hk _).2⟩

/-- A console routine draws on the screen of the current terminal. -/
theorem setConsole_ownScreen {con : Console} (hk : k.CursorsOk) (h : k.console.Keeps con)
    (lay : Layout) : OwnScreen lay k (k.setConsole con) where
  currTerminal := rfl
  tables ht := ht
  otherPages _ _ := rfl
  ownPage := Or.inl rfl
  otherCursors u hu := ⟨Function.update_of_ne hu _ _, Function.update_of_ne hu _ _⟩
  cursors t := by
    simp only [setConsole]
    by_cases ht : t = k.currTerminal
    · subst ht
      rw [Function.update_self, Function.update_self]
      exact ⟨h.onScreen.x_le, h.onScreen.y_lt⟩
    · rw [Function.update_of_ne ht, Function.update_of_ne ht]
      exact hk t
  mem a _ hout := by
    simp only [setConsole]
    split_ifs with hle
    · have hoff : Console.screenBytes ≤ a - videoAddr := by
        unfold InVideo fourKiB at hout
        unfold Console.screenBytes
        omega
      rw [h.video _ hoff]
      simp only [console, Nat.add_sub_cancel' hle]
    · rfl

theorem printf_ownScreen (hk : k.CursorsOk) (text : List UInt8) (lay : Layout) :
    OwnScreen lay k (k.printf text) :=
  setConsole_ownScreen hk (Console.print_keeps (console_onScreen hk) text) lay

theorem Served.ownScreen (h : Served k k') (hk : k.CursorsOk) (lay : Layout) : OwnScreen lay k k' := by
  obtain ⟨text, hscreens⟩ := h.screens
  have hprint := printf_ownScreen hk text lay
  exact hprint.trans (hscreens.ownScreen hprint.cursors lay)

/-! ## Processes -/

/-- Where the programs are: the program page leads to the memory from 8 MB on. -/
def Kernel.ProgramMapped (k : Kernel) : Prop :=
  ∃ i, k.paging.pageDirectory processIdx = processEntry i

theorem addProcess_sameScreens (k : Kernel) (p : UInt32) :
    SameScreens k { k with paging := addProcess k.paging p } :=
  ⟨rfl, rfl, rfl, rfl, rfl, fun _ hj => addProcess_of_ne hj, fun _ _ => rfl⟩

theorem loadProgram_sameScreens {i : Slot} {file : ProgramFile} (hends : k.ProgramEnds)
    (hfault : ∀ k1, loadProgram cfg k i file loc ≠ .fault k1) :
    SameScreens k (loadProgram cfg k i file loc).kernel := by
  unfold loadProgram at hfault ⊢
  split_ifs with hmagic
  · simp only [if_pos hmagic] at hfault ⊢
    have hmap := addProcess_sameScreens k (UInt32.ofNat i.val)
    cases hd : readDentryByName cfg.fs file.fileName loc.dentry with
    | none => exact hmap
    | some d =>
        simp only [hd] at hfault ⊢
        set r := readData cfg.fs d.inodeIdx 0 (cfg.fs.inodes d.inodeIdx.toNat).fileSize
        set loaded := storeVirt (kernelAddr cfg.lay (addProcess k.paging (UInt32.ofNat i.val)))
          programStart r.data k.mem with hloaded
        by_cases hbad : loaded.2 = true
        · rw [if_pos hbad] at hfault
          exact absurd rfl (hfault _)
        · -- the program was copied without a fault, so it stayed in the program page
          have habove : isPresent ((addProcess k.paging (UInt32.ofNat i.val)).pageDirectory
              aboveProgram) = false := by
            rw [addProcess_of_ne (by decide)]
            exact hends
          have hmem : ∀ a < programMemory, loaded.1 a = k.mem a := fun a ha =>
            load_frame (addProcess_entry i) habove (Prod.ext rfl (Bool.eq_false_iff.2 hbad)) ha
          rw [if_neg hbad]
          split_ifs
          · exact ⟨rfl, rfl, rfl, rfl, rfl, hmap.directory, hmem⟩
          · exact ⟨rfl, rfl, rfl, rfl, rfl, hmap.directory, hmem⟩
  · exact SameScreens.refl k

/-- `execute` leaves the screens alone when a slot is free; else it prints a line. -/
theorem setUp_sameScreens (k : Kernel) (i : Slot) : SameScreens k (setUp k i) := by
  constructor
  all_goals
    simp only [setUp, initProcess, enterProcess, createPcb, reserveSlot, setPcb, implies_true]

theorem execute_screens {comm : Option Bytes} {r : ExecResult} (hends : k.ProgramEnds)
    (h : execute cfg k comm loc = r) (hfault : ∀ k1, r ≠ .fault k1) :
    SameScreens k r.kernel ∨ (freeSlot k = none ∧ Served k r.kernel) := by
  subst h
  cases comm with
  | none => exact Or.inl (SameScreens.refl k)
  | some c =>
      have hargs : SameScreens k (withArgs k c loc) :=
        ⟨rfl, rfl, rfl, rfl, rfl, fun _ _ => rfl, fun _ _ => rfl⟩
      rw [execute_some] at hfault ⊢
      cases hfind : findProgram cfg (commandWord c loc) loc with
      | error e => exact Or.inl hargs
      | ok file =>
          simp only [hfind] at hfault ⊢
          cases hfree : freeSlot k with
          | none =>
              refine Or.inr ⟨rfl, (sameTables_withArgs k c loc).sameProcs.trans
                (sameProcs_printf _ _), ascii "Maximum Possible Processes. Stop and Reconsider.\n", ?_⟩
              exact ⟨rfl, rfl, rfl, rfl, rfl, fun _ _ => rfl, fun _ _ => rfl⟩
          | some i =>
              simp only [hfree] at hfault ⊢
              have hset := hargs.trans (setUp_sameScreens (withArgs k c loc) i)
              have hends' : (setUp (withArgs k c loc) i).ProgramEnds := by
                unfold ProgramEnds
                rw [hset.directory _ (by decide)]
                exact hends
              exact Or.inl (hset.trans (loadProgram_sameScreens hends' hfault))

/-- `execute`, called in a state that still shows what `k` shows. -/
theorem execute_ownScreen {k0 : Kernel} {comm : Option Bytes} {r : ExecResult} (hk : k.CursorsOk)
    (hends : k.ProgramEnds) (hsame : SameScreens k k0) (h : execute cfg k0 comm loc = r)
    (hfault : ∀ k1, r ≠ .fault k1) : OwnScreen cfg.lay k r.kernel := by
  have hk0 := hsame.cursorsOk hk
  have hends0 : k0.ProgramEnds := by
    unfold ProgramEnds
    rw [hsame.directory _ (by decide)]
    exact hends
  refine (hsame.ownScreen hk cfg.lay).trans ?_
  rcases execute_screens hends0 h hfault with hsame' | ⟨-, hserved⟩
  · exact hsame'.ownScreen hk0 cfg.lay
  · exact hserved.ownScreen hk0 cfg.lay

theorem haltReturn_sameScreens {status : UInt8} {out : Out}
    (h : (haltReturn k status).toStep = some (k', out)) : SameScreens k k' := by
  unfold haltReturn at h
  simp only at h
  split at h
  · split at h
    · cases h
      exact ⟨rfl, rfl, rfl, rfl, rfl, fun _ hj => addProcess_of_ne hj, fun _ _ => rfl⟩
    · cases h
  · cases h

theorem halt_ownScreen {status : UInt8} {out : Out} (hk : k.CursorsOk) (hends : k.ProgramEnds)
    (h : (halt cfg k status loc).toStep = some (k', out)) : OwnScreen cfg.lay k k' := by
  unfold halt at h
  split at h
  · cases h
  · next p _ =>
      simp only at h
      have hfreed : ∀ inUse, SameScreens k { k.setFdTable p closeAllFd with inUse := inUse } :=
        fun _ => ⟨rfl, rfl, rfl, rfl, rfl, fun _ _ => rfl, fun _ _ => rfl⟩
      split_ifs at h
      · split at h
        · next k1 entryPoint hex =>
            cases h
            exact execute_ownScreen hk hends (hfreed _) hex fun _ hf => by cases hf
        · cases h
        · next e k1 hex =>
            have hexec := execute_ownScreen hk hends (hfreed _) hex fun _ hf => by cases hf
            exact hexec.trans ((haltReturn_sameScreens h).ownScreen hexec.cursors cfg.lay)
      · have hclosed : OwnScreen cfg.lay k (k.setFdTable p closeAllFd) :=
          (served_setFdTable k p closeAllFd).ownScreen hk cfg.lay
        exact hclosed.trans ((haltReturn_sameScreens h).ownScreen hclosed.cursors cfg.lay)

theorem exception_ownScreen {i : Nat} {cr2 : UInt32} {out : Out} (hk : k.CursorsOk)
    (hends : k.ProgramEnds) (h : (exceptionHandler cfg k i cr2 loc).toStep = some (k', out)) :
    OwnScreen cfg.lay k k' := by
  rw [exceptionHandler_eq] at h
  have hclear := setConsole_ownScreen hk (Console.clear_keeps k.console) cfg.lay
  have hprint := printf_ownScreen hclear.cursors
    (exceptionText i ++ if i = 14 then cr2Text cr2 else []) cfg.lay
  have hraised : OwnScreen cfg.lay k (raised k i cr2) := by
    have htext := hclear.trans hprint
    exact ⟨htext.currTerminal, htext.tables, htext.otherPages, htext.ownPage, htext.otherCursors,
      htext.cursors, htext.mem⟩
  have hends0 : (raised k i cr2).ProgramEnds := hends
  exact hraised.trans (halt_ownScreen hraised.cursors hends0 h)

/-! ## Stores by address -/

/-- The addresses of the program page lead to memory from 8 MB on, and those above it nowhere. -/
theorem kernelAddr_program_ge (hmapped : k.ProgramMapped) (hends : k.ProgramEnds) {va a : Nat}
    (hlo : programPage ≤ va) (hhi : va < programPage + 2 * userPageSize)
    (h : kernelAddr cfg.lay k.paging va = some a) : programMemory ≤ a := by
  unfold programPage userPageSize at *
  by_cases hin : va < 0x08400000
  · obtain ⟨i, hi⟩ := hmapped
    rw [kernelAddr_program hi hlo hin] at h
    unfold programMemory
    have := Option.some.inj h
    omega
  · have habs : kernelAddr cfg.lay k.paging va = none := by
      refine kernelAddr_absent ?_
      rw [show va / 2 ^ 22 % 1024 = aboveProgram by unfold aboveProgram; omega]
      exact hends
    rw [habs] at h
    cases h

theorem vidmap_ownScreen {screenStart : Nat} {r : Kernel × Int32} (hk : k.CursorsOk)
    (hmapped : k.ProgramMapped) (hends : k.ProgramEnds) (h : vidmap cfg k screenStart = some r) :
    OwnScreen cfg.lay k r.1 := by
  unfold vidmap at h
  split_ifs at h with hnull hrange
  · obtain rfl := Option.some.inj h
    exact printf_ownScreen hk _ cfg.lay
  · obtain rfl := Option.some.inj h
    exact printf_ownScreen hk _ cfg.lay
  · simp only at h
    split_ifs at h with hfault
    obtain rfl := Option.some.inj h
    refine ⟨rfl, fun ht => ht.mapVirtToPhys k.currTerminal userVideo,
      fun u hu => mapVirtToPhys_other hu userVideo,
      Or.inr (mapVirtToPhys_screen k.currTerminal userVideo), fun _ _ => ⟨rfl, rfl⟩, hk,
      fun a ha _ => ?_⟩
    refine storeVirt_frame rfl fun j hj hat => ?_
    have hlen : (wordBytes (virtVidTerm1 + k.currTerminal.val * fourKiB)).length = 4 := by
      simp [wordBytes]
    have hmod : (screenStart + j) % 2 ^ 32 = screenStart + j := by
      unfold programPage userPageSize at hrange
      omega
    rw [hmod] at hat
    have hge := kernelAddr_program_ge hmapped hends (by omega)
      (by unfold userPageSize programPage at *; omega) hat
    omega

/-- The screens in order: the tables lead to the four pages, every terminal's page but the current one's
    is its backup, the current one's is video memory, or still what `paging_init` made it. -/
structure DisplayOk (lay : Layout) (k : Kernel) : Prop where
  tables : ScreenTables lay k.paging
  backedUp : ∀ u : Terminal, u ≠ k.currTerminal → BackedUp k.paging u
  own : Shown k.paging k.currTerminal ∨
    k.paging.userPageTable k.currTerminal.val
      = UInt32.ofNat (backupPage k.currTerminal) ||| rwPSet
  cursors : k.CursorsOk
  mapped : k.ProgramMapped
  ends : k.ProgramEnds

/-- Programs store into their own page and into the page `vidmap` gave their terminal. -/
def Op.StaysHome (k : Kernel) : Op → Prop
  | .userStore va _ =>
    (programPage ≤ va ∧ va < programPage + userPageSize) ∨
      (screenPage k.currTerminal ≤ va ∧ va < screenPage k.currTerminal + fourKiB)
  | _ => True

/-- A store by a program goes to its memory or to the screen that is shown. -/
theorem userAddr_home (hok : DisplayOk cfg.lay k) {va pa : Nat}
    (hhome : (programPage ≤ va ∧ va < programPage + userPageSize) ∨
      (screenPage k.currTerminal ≤ va ∧ va < screenPage k.currTerminal + fourKiB))
    (h : userAddr cfg.lay k.paging va = some pa) : programMemory ≤ pa ∨ InVideo pa := by
  rcases hhome with ⟨hlo, hhi⟩ | ⟨hlo, hhi⟩
  · left
    exact kernelAddr_program_ge hok.mapped hok.ends hlo (by omega) (kernelAddr_of_userAddr h)
  · right
    obtain ⟨off, rfl⟩ := Nat.exists_eq_add_of_le hlo
    have hoff : off < fourKiB := by omega
    rcases hok.own with hshown | hback
    · unfold userAddr at h
      rw [hshown.translate hok.tables hoff] at h
      simp only [if_true, Option.some.injEq] at h
      subst h
      exact ⟨by omega, by omega⟩
    · -- the entry of `paging_init` has no user bit
      obtain ⟨⟨hpresent, huser, -⟩, -⟩ := backupEntry_bits k.currTerminal
      unfold userAddr at h
      rw [translate_screen hok.tables k.currTerminal hoff (by rw [hback]; exact hpresent), hback,
        huser] at h
      simp at h

theorem userStore_ownScreen {va : Nat} {b : UInt8} {out : Out} (hok : DisplayOk cfg.lay k)
    (hhome : (Op.userStore va b).StaysHome k)
    (h : k.step cfg (.userStore va b) = some (k', out)) : OwnScreen cfg.lay k k' := by
  obtain ⟨pa, hpa, heq⟩ := Option.map_eq_some_iff.1 h
  cases heq
  have hmod : va % 2 ^ 32 = va := by
    refine Nat.mod_eq_of_lt ?_
    have ht : k.currTerminal.val < 3 := k.currTerminal.isLt
    rcases hhome with ⟨-, hhi⟩ | ⟨-, hhi⟩
    · unfold programPage userPageSize at hhi
      omega
    · unfold screenPage virtVidTerm1 fourKiB at hhi
      omega
  rw [hmod] at hpa
  refine ⟨rfl, id, fun _ _ => rfl, Or.inl rfl, fun _ _ => ⟨rfl, rfl⟩, hok.cursors, fun a ha hout => ?_⟩
  refine Function.update_of_ne ?_ _ _
  rintro rfl
  rcases userAddr_home hok hhome hpa with hge | hin
  · omega
  · exact hout hin

/-! ## One operation -/

/-- Everything but a terminal switch stays on the current terminal's screen. -/
theorem step_ownScreen {op : Op} {out : Out} (hok : DisplayOk cfg.lay k) (hhome : op.StaysHome k)
    (hswitch : ∀ newTerminal esp ebp loc, op ≠ .terminalSwitch newTerminal esp ebp loc)
    (h : k.step cfg op = some (k', out)) : OwnScreen cfg.lay k k' := by
  have hk := hok.cursors
  cases op with
  | terminalSwitch newTerminal esp ebp loc => exact absurd rfl (hswitch _ _ _ _)
  | execute comm loc =>
      cases hex : execute cfg k comm loc with
      | fault k1 => simp [Kernel.step, hex, ExecResult.toStep] at h
      | started k1 entryPoint =>
          simp only [Kernel.step, hex, ExecResult.toStep] at h
          cases h
          exact execute_ownScreen hk hok.ends (SameScreens.refl k) hex fun _ hf => by cases hf
      | failed e k1 =>
          simp only [Kernel.step, hex, ExecResult.toStep] at h
          cases h
          exact execute_ownScreen hk hok.ends (SameScreens.refl k) hex fun _ hf => by cases hf
  | halt status loc => exact halt_ownScreen hk hok.ends h
  | exception i cr2 loc => exact exception_ownScreen hk hok.ends h
  | openFile filename dentry =>
      obtain ⟨r, hr, heq⟩ := Option.map_eq_some_iff.1 h
      cases heq
      exact (openFile_served hr).ownScreen hk cfg.lay
  | read fd buf nbytes line =>
      obtain ⟨r, hr, heq⟩ := Option.map_eq_some_iff.1 h
      cases heq
      exact (readCall_served hr).ownScreen hk cfg.lay
  | write fd buf nbytes =>
      obtain ⟨r, hr, heq⟩ := Option.map_eq_some_iff.1 h
      cases heq
      exact (writeCall_serves hr).served.ownScreen hk cfg.lay
  | close fd =>
      obtain ⟨r, hr, heq⟩ := Option.map_eq_some_iff.1 h
      cases heq
      exact (closeCall_serves hr).served.ownScreen hk cfg.lay
  | getargs buf nbytes =>
      obtain ⟨r, hr, heq⟩ := Option.map_eq_some_iff.1 h
      cases heq
      rw [getargs_kernel hr]
      exact (served_refl k).ownScreen hk cfg.lay
  | vidmap screenStart =>
      obtain ⟨r, hr, heq⟩ := Option.map_eq_some_iff.1 h
      cases heq
      exact vidmap_ownScreen hk hok.mapped hok.ends hr
  | putc c =>
      cases h
      exact setConsole_ownScreen hk (Console.putc_keeps (console_onScreen hk) c) cfg.lay
  | clear =>
      cases h
      exact setConsole_ownScreen hk (Console.clear_keeps _) cfg.lay
  | scroll =>
      cases h
      exact setConsole_ownScreen hk (Console.scroll_keeps (console_onScreen hk)) cfg.lay
  | backspace =>
      cases h
      exact setConsole_ownScreen hk (Console.backspace_keeps (console_onScreen hk)) cfg.lay
  | userStore va b => exact userStore_ownScreen hok hhome h

end BaseOs
