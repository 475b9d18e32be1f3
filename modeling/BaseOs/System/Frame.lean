import BaseOs.Paging.Screens
import BaseOs.Process.Execute
import BaseOs.System

set_option autoImplicit false

/-! # What the device operations leave alone

Reading, writing, opening, closing, mapping the screen and printing change descriptors, devices and
memory. None of them touches the process tables, the kernel stack pointer or a directory entry other
than that of the terminals' pages (`step_device`). On the screen a descriptor call leaves at most a
printed text (`Served`). -/

namespace BaseOs

open Kernel

/-! ## The process tables -/

/-- The part of a PCB the process tables are about. -/
structure PcbCore where
  processId : UInt8
  parentId : Int
  currentEsp : Nat

def Pcb.core (p : Pcb) : PcbCore := ⟨p.processId, p.parentId, p.currentEsp⟩

/-- Two states that agree on the process tables, the stack pointer and the mapping of programs. -/
structure SameProcs (k k' : Kernel) : Prop where
  currTerminal : k'.currTerminal = k.currTerminal
  currentProcess : k'.currentProcess = k.currentProcess
  processArray : k'.processArray = k.processArray
  inUse : k'.inUse = k.inUse
  core : ∀ p, (k'.pcb p).core = (k.pcb p).core
  exceptionFlag : k'.exceptionFlag = k.exceptionFlag
  esp0 : k'.esp0 = k.esp0
  directory : ∀ j, j ≠ screenIdx → k'.paging.pageDirectory j = k.paging.pageDirectory j

theorem SameProcs.trans {k1 k2 k3 : Kernel} (h12 : SameProcs k1 k2) (h23 : SameProcs k2 k3) :
    SameProcs k1 k3 where
  currTerminal := h23.currTerminal.trans h12.currTerminal
  currentProcess := h23.currentProcess.trans h12.currentProcess
  processArray := h23.processArray.trans h12.processArray
  inUse := h23.inUse.trans h12.inUse
  core p := (h23.core p).trans (h12.core p)
  exceptionFlag := h23.exceptionFlag.trans h12.exceptionFlag
  esp0 := h23.esp0.trans h12.esp0
  directory j hj := (h23.directory j hj).trans (h12.directory j hj)

theorem SameTables.sameProcs {k k' : Kernel} (h : SameTables k k') : SameProcs k k' where
  currTerminal := h.currTerminal
  currentProcess := h.currentProcess
  processArray := h.processArray
  inUse := h.inUse
  core p := by rw [h.pcb]
  exceptionFlag := h.exceptionFlag
  esp0 := h.esp0
  directory j _ := by rw [h.paging]

theorem sameProcs_refl (k : Kernel) : SameProcs k k := (SameTables.refl k).sameProcs

theorem sameProcs_printf (k : Kernel) (s : List UInt8) : SameProcs k (k.printf s) :=
  (sameTables_printf k s).sameProcs

theorem core_update_of_core {pcb : Slot → Pcb} {i : Slot} {p : Pcb} (h : p.core = (pcb i).core)
    (j : Slot) : (Function.update pcb i p j).core = (pcb j).core := by
  by_cases hj : j = i
  · subst hj
    rw [Function.update_self, h]
  · rw [Function.update_of_ne hj]

theorem sameProcs_setFdTable (k : Kernel) (i : Slot) (table : FdTable) :
    SameProcs k (k.setFdTable i table) where
  currTerminal := rfl
  currentProcess := rfl
  processArray := rfl
  inUse := rfl
  core := core_update_of_core rfl
  exceptionFlag := rfl
  esp0 := rfl
  directory _ _ := rfl

theorem fdTable_setFdTable (k : Kernel) (p : Slot) (table : FdTable) :
    ((k.setFdTable p table).pcb p).fdTable = table := by
  simp [setFdTable, setPcb]

/-! ## The screens -/

/-- Programs and their stacks are above 8 MB, what the screens need is below. -/
def programMemory : Nat := 0x800000

/-- Two states that show the same: the contents of the screens, shown or kept, their cursors and the
    mapping of their pages. -/
structure SameScreens (k k' : Kernel) : Prop where
  currTerminal : k'.currTerminal = k.currTerminal
  screenX : k'.screenX = k.screenX
  screenY : k'.screenY = k.screenY
  pageTable : k'.paging.pageTable = k.paging.pageTable
  userPageTable : k'.paging.userPageTable = k.paging.userPageTable
  directory : ∀ j, j ≠ processIdx → k'.paging.pageDirectory j = k.paging.pageDirectory j
  mem : ∀ a < programMemory, k'.mem a = k.mem a

theorem SameScreens.refl (k : Kernel) : SameScreens k k :=
  ⟨rfl, rfl, rfl, rfl, rfl, fun _ _ => rfl, fun _ _ => rfl⟩

theorem SameScreens.trans {k1 k2 k3 : Kernel} (h12 : SameScreens k1 k2) (h23 : SameScreens k2 k3) :
    SameScreens k1 k3 where
  currTerminal := h23.currTerminal.trans h12.currTerminal
  screenX := h23.screenX.trans h12.screenX
  screenY := h23.screenY.trans h12.screenY
  pageTable := h23.pageTable.trans h12.pageTable
  userPageTable := h23.userPageTable.trans h12.userPageTable
  directory j hj := (h23.directory j hj).trans (h12.directory j hj)
  mem a ha := (h23.mem a ha).trans (h12.mem a ha)

/-- Printing nothing. -/
theorem printf_nil (k : Kernel) : k.printf [] = k := by
  have hmem : (fun a => if videoAddr ≤ a then k.mem (videoAddr + (a - videoAddr)) else k.mem a)
      = k.mem := by
    funext a
    split_ifs with h
    · rw [Nat.add_sub_cancel' h]
    · rfl
  simp only [printf, setConsole, console, Console.print, List.foldl_nil, Function.update_eq_self, hmem]

/-- What a descriptor call does to everything but descriptors and devices: it prints a text, or
    nothing. -/
structure Served (k k' : Kernel) : Prop where
  procs : SameProcs k k'
  screens : ∃ text, SameScreens (k.printf text) k'

theorem served_printf (k : Kernel) (text : List UInt8) : Served k (k.printf text) :=
  ⟨sameProcs_printf k text, text, SameScreens.refl _⟩

theorem served_of_quiet {k k' : Kernel} (hprocs : SameProcs k k') (hscreens : SameScreens k k') :
    Served k k' := ⟨hprocs, [], by rwa [printf_nil]⟩

theorem served_refl (k : Kernel) : Served k k :=
  served_of_quiet (sameProcs_refl k) (SameScreens.refl k)

theorem served_setFdTable (k : Kernel) (i : Slot) (table : FdTable) :
    Served k (k.setFdTable i table) :=
  served_of_quiet (sameProcs_setFdTable k i table)
    ⟨rfl, rfl, rfl, rfl, rfl, fun _ _ => rfl, fun _ _ => rfl⟩

/-- The devices have no part in the process tables or the screens. -/
theorem served_devices (k : Kernel) (rtc : Rtc) (keyboard : Keyboard) (saveBuff : Terminal → Bytes) :
    Served k { k with rtc := rtc, keyboard := keyboard, saveBuff := saveBuff } :=
  served_of_quiet ⟨rfl, rfl, rfl, rfl, fun _ => rfl, rfl, rfl, fun _ _ => rfl⟩
    ⟨rfl, rfl, rfl, rfl, rfl, fun _ _ => rfl, fun _ _ => rfl⟩

/-! ## Changing one entry -/

/-- An entry as the descriptor operations leave it: as it was, open, or closed. -/
def EntryKept (old new : Fd) : Prop := new = old ∨ new.flags ≠ fdOff ∨ new = Fd.closed

variable {cfg : Config} {k k' : Kernel} {i : FdIndex}

theorem entryKept_update {table : FdTable} {fd : Fd} (h : EntryKept (table i) fd) (j : FdIndex) :
    EntryKept (table j) (Function.update table i fd j) := by
  by_cases hj : j = i
  · subst hj
    rwa [Function.update_self]
  · exact Or.inl (Function.update_of_ne hj _ _)

theorem entryKept_closeFd (table : FdTable) (index : Int) (j : FdIndex) :
    EntryKept (table j) (closeFd table index j) := by
  unfold closeFd
  cases fdIndex? index with
  | none => exact Or.inl rfl
  | some i => exact entryKept_update (Or.inr (Or.inr rfl)) j

/-- Moving the position of an open entry leaves it open. -/
theorem entryKept_addOffset {table : FdTable} (h : (table i).flags ≠ fdOff) (amt : UInt32)
    (j : FdIndex) : EntryKept (table j) (addOffset table i.val amt j) := by
  unfold addOffset
  simp only [fdIndex?_val]
  refine entryKept_update (Or.inr (Or.inl ?_)) j
  exact h

theorem flags_ne_of_valid {table : FdTable} {fd : Int} (hi : fdIndex? fd = some i)
    (hvalid : checkValidFd table fd = true) : (table i).flags ≠ fdOff := by
  unfold checkValidFd at hvalid
  rw [hi] at hvalid
  exact bne_iff_ne.1 hvalid

/-! ## The descriptor calls -/

/-- What a `read`, a `write` or a `close` does to the kernel, unless it takes a typed line. -/
inductive Serves (k : Kernel) : Kernel → Prop
  | nothing : Serves k k
  | print (text : List UInt8) : Serves k (k.printf text)
  | clock (rtc : Rtc) : Serves k { k with rtc := rtc }
  | entries (p : Slot) {table : FdTable} (h : ∀ j, EntryKept ((k.pcb p).fdTable j) (table j)) :
      Serves k (k.setFdTable p table)

theorem openWith_served (k : Kernel) (p : Slot) (info : Fd) (message : List UInt8) :
    Served k (openWith k p info message).1 := by
  unfold openWith
  split
  · exact served_printf k message
  · exact served_setFdTable k p _

/-- The clock is reset before a descriptor is looked for. -/
theorem rtcOpen_served (k : Kernel) (p : Slot) : Served k (rtcOpen cfg k p).1 := by
  obtain ⟨hprocs, text, hscreens⟩ := openWith_served
    { k with rtc := setFrequency cfg.rtcMemory k.rtc 2 } p ⟨some .rtc, -1, 0, fdOn⟩
    (ascii "No Available FD, rtc_open\n")
  have hclock := served_devices k (setFrequency cfg.rtcMemory k.rtc 2) k.keyboard k.saveBuff
  refine ⟨hclock.procs.trans hprocs, text, ?_⟩
  exact ⟨hscreens.currTerminal, hscreens.screenX, hscreens.screenY, hscreens.pageTable,
    hscreens.userPageTable, hscreens.directory, hscreens.mem⟩

theorem openFile_served {filename : Option Bytes} {dentry : Dentry} {r : Kernel × Int32}
    (h : openFile cfg k filename dentry = some r) : Served k r.1 := by
  unfold openFile at h
  split at h
  · obtain rfl := Option.some.inj h
    exact served_printf k _
  · split at h
    · obtain rfl := Option.some.inj h
      exact served_refl k
    · split at h
      · cases h
      · next p _ =>
          split_ifs at h
          all_goals obtain rfl := Option.some.inj h
          · exact rtcOpen_served k p
          · exact openWith_served k p _ _
          · exact openWith_served k p _ _

/-- The jump table a `read` goes through. -/
def readsThrough (k : Kernel) (fd : Int) (buf : Option Bytes) : Option OpsTable :=
  match fdIndex? fd, k.currentPcb?, buf with
  | some i, some p, some _ =>
    if checkValidFd (k.pcb p).fdTable fd then ((k.pcb p).fdTable i).fdJump else none
  | _, _, _ => none

theorem fileRead_serves (k : Kernel) (p : Slot) {i : FdIndex}
    (hopen : ((k.pcb p).fdTable i).flags ≠ fdOff) (buf : Bytes) (nbytes : Int) :
    Serves k (fileRead cfg k p i buf nbytes).kernel := by
  unfold fileRead
  simp only
  split_ifs
  · exact .entries p (entryKept_addOffset hopen _)
  · exact .nothing

theorem dirRead_serves (k : Kernel) (p : Slot) {i : FdIndex}
    (hopen : ((k.pcb p).fdTable i).flags ≠ fdOff) (buf : Bytes) (nbytes : Int) :
    Serves k (dirRead cfg k p i buf nbytes).kernel := by
  unfold dirRead
  simp only
  split_ifs
  · exact .nothing
  · exact .entries p (entryKept_addOffset hopen _)

/-- What a `read` does, by the jump table it goes through. -/
theorem readCall_cases {fd : Int} {buf : Option Bytes} {nbytes : Int} {line : Bytes} {r : SysResult}
    (h : readCall cfg k fd buf nbytes line = some r) :
    Serves k r.kernel ∨
      (∃ b, buf = some b ∧ readsThrough k fd (some b) = some .term ∧ r = terminalReadCall k b nbytes) ∨
      ∃ b, buf = some b ∧ readsThrough k fd (some b) = some .kybd ∧ r = keyboardRead k b nbytes line := by
  unfold readCall at h
  split at h
  · obtain rfl := Option.some.inj h
    exact Or.inl (.print _)
  · next i hi =>
      split at h
      · cases h
      · next p hp =>
          split_ifs at h with hvalid
          · have hopen := flags_ne_of_valid hi hvalid
            split at h
            · obtain rfl := Option.some.inj h
              exact Or.inl .nothing
            · next b =>
                have hthrough : readsThrough k fd (some b) = ((k.pcb p).fdTable i).fdJump := by
                  unfold readsThrough
                  rw [hi, hp]
                  exact if_pos hvalid
                split at h
                · cases h
                · cases h
                all_goals obtain rfl := Option.some.inj h
                · exact Or.inl (.clock _)
                · exact Or.inl (fileRead_serves k p hopen b nbytes)
                · exact Or.inl (dirRead_serves k p hopen b nbytes)
                · next hjump => exact Or.inr (Or.inl ⟨b, rfl, hthrough.trans hjump, rfl⟩)
                · next hjump => exact Or.inr (Or.inr ⟨b, rfl, hthrough.trans hjump, rfl⟩)
          · obtain rfl := Option.some.inj h
            exact Or.inl (.print _)

theorem writeCall_serves {fd : Int} {buf : Option Bytes} {nbytes : Int} {r : Kernel × Int32}
    (h : writeCall cfg k fd buf nbytes = some r) : Serves k r.1 := by
  unfold writeCall at h
  split at h
  · obtain rfl := Option.some.inj h
    exact .print _
  · split at h
    · cases h
    · split_ifs at h
      · split at h
        · obtain rfl := Option.some.inj h
          exact .nothing
        · split at h
          · cases h
          · cases h
          all_goals obtain rfl := Option.some.inj h
          · exact .clock _
          · exact .print _
          · exact .print _
          · exact .print _
          · exact .nothing
      · obtain rfl := Option.some.inj h
        exact .print _

theorem closeCall_serves {fd : Int} {r : Kernel × Int32} (h : closeCall k fd = some r) :
    Serves k r.1 := by
  unfold closeCall at h
  split at h
  · obtain rfl := Option.some.inj h
    exact .print _
  · split at h
    · cases h
    · next p _ =>
        have hclosed := Serves.entries p (entryKept_closeFd (k.pcb p).fdTable fd)
        split_ifs at h
        · split at h
          · cases h
          · cases h
          all_goals obtain rfl := Option.some.inj h
          · unfold rtcClose
            split_ifs
            · exact .print _
            · exact hclosed
          · exact hclosed
          · exact hclosed
          · exact .nothing
          · exact .nothing
        · obtain rfl := Option.some.inj h
          exact .print _

theorem Serves.served (h : Serves k k') : Served k k' := by
  cases h with
  | nothing => exact served_refl k
  | print text => exact served_printf k text
  | clock rtc => exact served_devices k rtc _ _
  | entries p _ => exact served_setFdTable k p _

theorem readCall_served {fd : Int} {buf : Option Bytes} {nbytes : Int} {line : Bytes}
    {r : SysResult} (h : readCall cfg k fd buf nbytes line = some r) : Served k r.kernel := by
  rcases readCall_cases h with hserves | ⟨b, -, -, rfl⟩ | ⟨b, -, -, rfl⟩
  · exact hserves.served
  · exact served_devices k _ _ _
  · exact served_devices k _ _ _

/-! ## `getargs` and `vidmap` -/

theorem toU32_toNat {n : Int} (h0 : 0 ≤ n) (h : n < 2 ^ 31) : (toU32 n).toNat = n.toNat := by
  have hmod : n % 2 ^ 32 = n := Int.emod_eq_of_lt h0 (by omega)
  unfold toU32 UInt32.ofInt
  rw [hmod, UInt32.toNat_ofNat_of_lt' (show n.toNat < 2 ^ 32 by omega)]

/-- `getargs` changes the caller's buffer only. -/
theorem getargs_kernel {buf : Option Bytes} {nbytes : Int} {r : SysResult}
    (h : getargs k buf nbytes = some r) : r.kernel = k := by
  unfold getargs at h
  split at h
  · obtain rfl := Option.some.inj h
    rfl
  · simp only at h
    split at h
    · obtain rfl := Option.some.inj h
      rfl
    · split at h
      · cases h
      · split_ifs at h <;> (obtain rfl := Option.some.inj h; rfl)

theorem vidmap_sameProcs {screenStart : Nat} {r : Kernel × Int32}
    (h : vidmap cfg k screenStart = some r) : SameProcs k r.1 := by
  unfold vidmap at h
  split_ifs at h
  · obtain rfl := Option.some.inj h
    exact sameProcs_printf k _
  · obtain rfl := Option.some.inj h
    exact sameProcs_printf k _
  · simp only at h
    split_ifs at h
    obtain rfl := Option.some.inj h
    exact ⟨rfl, rfl, rfl, rfl, fun _ => rfl, rfl, rfl,
      fun j hj => mapVirtToPhys_directory k.currTerminal userVideo hj⟩

/-! ## One step -/

/-- The operations that are not about processes. -/
def Op.isDevice : Op → Bool
  | .execute .. | .halt .. | .exception .. | .terminalSwitch .. => false
  | _ => true

/-- A device operation leaves the process tables alone and the program goes on. -/
theorem step_device {op : Op} {out : Out} (hop : op.isDevice = true)
    (h : k.step cfg op = some (k', out)) : SameProcs k k' ∧ out.goesOn = true := by
  cases op with
  | execute | halt | exception | terminalSwitch => cases hop
  | openFile filename dentry =>
      obtain ⟨r, hr, heq⟩ := Option.map_eq_some_iff.1 h
      cases heq
      exact ⟨(openFile_served hr).procs, rfl⟩
  | read fd buf nbytes line =>
      obtain ⟨r, hr, heq⟩ := Option.map_eq_some_iff.1 h
      cases heq
      exact ⟨(readCall_served hr).procs, rfl⟩
  | write fd buf nbytes =>
      obtain ⟨r, hr, heq⟩ := Option.map_eq_some_iff.1 h
      cases heq
      exact ⟨(writeCall_serves hr).served.procs, rfl⟩
  | close fd =>
      obtain ⟨r, hr, heq⟩ := Option.map_eq_some_iff.1 h
      cases heq
      exact ⟨(closeCall_serves hr).served.procs, rfl⟩
  | getargs buf nbytes =>
      obtain ⟨r, hr, heq⟩ := Option.map_eq_some_iff.1 h
      cases heq
      rw [getargs_kernel hr]
      exact ⟨sameProcs_refl k, rfl⟩
  | vidmap screenStart =>
      obtain ⟨r, hr, heq⟩ := Option.map_eq_some_iff.1 h
      cases heq
      exact ⟨vidmap_sameProcs hr, rfl⟩
  | putc | clear | scroll | backspace =>
      cases Option.some.inj h
      exact ⟨(sameTables_setConsole k _).sameProcs, rfl⟩
  | userStore va b =>
      obtain ⟨pa, _, heq⟩ := Option.map_eq_some_iff.1 h
      cases heq
      exact ⟨⟨rfl, rfl, rfl, rfl, fun _ => rfl, rfl, rfl, fun _ _ => rfl⟩, rfl⟩

/-! ## Any part of the state the devices do not know -/

/-- A part of the kernel that output, the descriptor tables, the clock, the memory and the page tables
    are not in. -/
structure OffDevices {α : Type*} (f : Kernel → α) : Prop where
  setConsole : ∀ k con, f (k.setConsole con) = f k
  setFdTable : ∀ k i table, f (k.setFdTable i table) = f k
  rtc : ∀ k rtc, f { k with rtc := rtc } = f k
  memory : ∀ k mem paging, f { k with mem := mem, paging := paging } = f k

/-- Does the operation read? -/
def Op.isRead : Op → Bool
  | .read .. => true
  | _ => false

section OffDevices

variable {α : Type*} {f : Kernel → α}

theorem OffDevices.openWith (hf : OffDevices f) (k : Kernel) (p : Slot) (info : Fd)
    (message : List UInt8) : f (openWith k p info message).1 = f k := by
  unfold BaseOs.openWith
  split
  · exact hf.setConsole k _
  · exact hf.setFdTable k p _

theorem OffDevices.openFile (hf : OffDevices f) {filename : Option Bytes} {dentry : Dentry}
    {r : Kernel × Int32} (h : openFile cfg k filename dentry = some r) : f r.1 = f k := by
  unfold BaseOs.openFile at h
  split at h
  · obtain rfl := Option.some.inj h
    exact hf.setConsole k _
  · split at h
    · obtain rfl := Option.some.inj h
      rfl
    · split at h
      · cases h
      · next p _ =>
          split_ifs at h
          all_goals obtain rfl := Option.some.inj h
          · exact (hf.openWith _ p _ _).trans (hf.rtc k _)
          · exact hf.openWith k p _ _
          · exact hf.openWith k p _ _

theorem OffDevices.serves (hf : OffDevices f) (h : Serves k k') : f k' = f k := by
  cases h with
  | nothing => rfl
  | print text => exact hf.setConsole k _
  | clock rtc => exact hf.rtc k rtc
  | entries p _ => exact hf.setFdTable k p _

/-- A read; what `terminal_read` and `keyboard_read` do to the saved lines and the keyboard is left to
    the caller. -/
theorem OffDevices.readCall (hf : OffDevices f) {fd : Int} {buf : Option Bytes} {nbytes : Int}
    {line : Bytes} {r : SysResult} (h : readCall cfg k fd buf nbytes line = some r)
    (hterm : ∀ b, buf = some b → readsThrough k fd (some b) = some .term →
      f (terminalReadCall k b nbytes).kernel = f k)
    (hkybd : ∀ b, buf = some b → readsThrough k fd (some b) = some .kybd →
      f (keyboardRead k b nbytes line).kernel = f k) : f r.kernel = f k := by
  rcases readCall_cases h with hserves | ⟨b, hb, hthrough, rfl⟩ | ⟨b, hb, hthrough, rfl⟩
  · exact hf.serves hserves
  · exact hterm b hb hthrough
  · exact hkybd b hb hthrough

theorem OffDevices.vidmap (hf : OffDevices f) {screenStart : Nat} {r : Kernel × Int32}
    (h : vidmap cfg k screenStart = some r) : f r.1 = f k := by
  unfold BaseOs.vidmap at h
  split_ifs at h
  · obtain rfl := Option.some.inj h
    exact hf.setConsole k _
  · obtain rfl := Option.some.inj h
    exact hf.setConsole k _
  · simp only at h
    split_ifs at h
    obtain rfl := Option.some.inj h
    exact hf.memory k _ _

/-- A device operation that does not read. -/
theorem OffDevices.step (hf : OffDevices f) {op : Op} {out : Out} (hop : op.isDevice = true)
    (hread : op.isRead = false) (h : k.step cfg op = some (k', out)) : f k' = f k := by
  cases op with
  | execute | halt | exception | terminalSwitch => cases hop
  | read => cases hread
  | openFile filename dentry =>
      obtain ⟨r, hr, heq⟩ := Option.map_eq_some_iff.1 h
      cases heq
      exact hf.openFile hr
  | write fd buf nbytes =>
      obtain ⟨r, hr, heq⟩ := Option.map_eq_some_iff.1 h
      cases heq
      exact hf.serves (writeCall_serves hr)
  | close fd =>
      obtain ⟨r, hr, heq⟩ := Option.map_eq_some_iff.1 h
      cases heq
      exact hf.serves (closeCall_serves hr)
  | getargs buf nbytes =>
      obtain ⟨r, hr, heq⟩ := Option.map_eq_some_iff.1 h
      cases heq
      rw [getargs_kernel hr]
  | vidmap screenStart =>
      obtain ⟨r, hr, heq⟩ := Option.map_eq_some_iff.1 h
      cases heq
      exact hf.vidmap hr
  | putc | clear | scroll | backspace =>
      cases Option.some.inj h
      exact hf.setConsole k _
  | userStore va b =>
      obtain ⟨pa, _, heq⟩ := Option.map_eq_some_iff.1 h
      cases heq
      exact hf.memory k _ k.paging

end OffDevices

end BaseOs
