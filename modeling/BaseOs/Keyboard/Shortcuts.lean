import BaseOs.System.Stable

set_option autoImplicit false

/-! # The test shortcuts of the keyboard

Ctrl+1 (`print_file_info`), Ctrl+3 (`test_file_data`) and Ctrl+4 (`print_freq`) are carried out in the
keyboard interrupt. Each opens a descriptor in the table of the process that happens to run, uses it and
closes it again. They touch nothing but that table, the clock and the screen (`testShortcut_byDevice`),
and where every entry that is off is closed they leave the table as it was (`testShortcut_fdTable`). -/

namespace BaseOs

open Kernel

variable (cfg : Config)

/-! ## Ctrl+1 -/

/-- `get_file_position`. The only index outside the table that gets here is `-1`: `args` ends where
    `fd_table` begins, so the entry before the table is its last 16 bytes, with the position at 120. -/
def getFilePosition (pcb : Pcb) (index : Int) : UInt32 :=
  match fdIndex? index with
  | some i => (pcb.fdTable i).filePosition
  | none => word32 fun j => pcb.args (120 + j)

/-- `dir_read` of a descriptor that may be `-1`. -/
def dirReadAt (k : Kernel) (p : Slot) (fd : Int) (buf : Bytes) (nbytes : Int) : SysResult :=
  let dentIndex := getFilePosition (k.pcb p) fd
  if dentIndex ≥ cfg.fs.numEntries then ⟨k, 0, buf⟩
  else
    let name := (cfg.fs.entries dentIndex.toNat).fileName
    let bytesRead := Scan.scan (fun i => name i != 0) 0 (min nbytes.toNat maxNameCharacters)
    ⟨k.setFdTable p (addOffset (k.pcb p).fdTable fd 1), toRet bytesRead,
      fun i => if i < bytesRead then name i else buf i⟩

/-- What `printf` makes of `%d`. -/
def printfInt (value : UInt32) : List UInt8 :=
  if value.toInt32 < 0 then 45 :: itoa (-value) 10 else itoa value 10

/-- The line about one file: `cnt` bytes of the name, spaces up to `NUM_SPACES`, type and size. -/
def printFileLine (k : Kernel) (dent : Dentry) (buffer : Bytes) (cnt : Int32) : Kernel :=
  let k := k.printf (ascii "file name: ")
  let k := (terminalWrite k buffer cnt.toInt).1
  let k := k.printf (List.replicate (34 - cnt.toInt.toNat) 32)
  let k := k.printf (ascii "file type: " ++ printfInt dent.fileType ++ ascii " ")
  k.printf (ascii "file size: " ++ printfInt (cfg.fs.inodes dent.inodeIdx.toNat).fileSize ++ ascii "\n")

/-- The loop of `print_file_info`, for at most so many calls of `dir_read`; `none` is a loop that wants
    another one. -/
def fileInfoLoop (p : Slot) (dirFd : Int) :
    Nat → UInt32 → Dentry → Bytes → Kernel → Option Kernel
  | 0, _, _, _, _ => none
  | calls + 1, dLoop, fileDent, buffer, k =>
    let r := dirReadAt cfg k p dirFd buffer 32
    if r.ret = 0 then some (fileClose r.kernel p dirFd).1
    else
      let fileDent := (readDentryByIndex cfg.fs dLoop fileDent).getD fileDent
      if r.ret = -1 then
        some ((fileClose r.kernel p dirFd).1.printf (ascii "directory entry read failed\n"))
      else
        fileInfoLoop p dirFd calls (dLoop + 1) fileDent r.buf
          (printFileLine cfg r.kernel fileDent r.buf r.ret)

/-- `print_file_info` for the process `p`; `fileDent` and `buffer` are the former contents of its local
    variables. -/
def printFileInfo (k : Kernel) (p : Slot) (fileDent : Dentry) (buffer : Bytes) (calls : Nat) :
    Option Kernel :=
  let opened := dirOpen (k.setConsole k.console.clear) p
  fileInfoLoop cfg p opened.2.toInt calls 0 fileDent buffer opened.1

/-! ## Ctrl+3 and Ctrl+4 -/

/-- The loop of `print_file_text`, for at most so many calls of `file_read`. -/
def fileTextLoop (p : Slot) (fd : FdIndex) : Nat → Bytes → Kernel → Option Kernel
  | 0, _, _ => none
  | calls + 1, buffer, k =>
    let r := fileRead cfg k p fd buffer 500
    if 0 < r.ret then fileTextLoop p fd calls r.buf (terminalWrite r.kernel r.buf r.ret.toInt).1
    else some (fileClose r.kernel p fd.val).1

/-- What `print_name` prints. -/
def nameText (name : Bytes) : List UInt8 :=
  (List.range (Scan.scan (fun i => name i != 0) 0 maxNameCharacters)).map name

/-- `test_file_data`, with `print_file_text`. The one value of `file_open` that names no entry is `-1`. -/
def testFileData (k : Kernel) (p : Slot) (index : Nat) (myDentry : Dentry) (buffer : Bytes)
    (calls : Nat) : Option Kernel :=
  let name := (cfg.fs.entries index).fileName
  let opened := fileOpen cfg k p name myDentry
  match fdIndex? opened.2.toInt with
  | none => some (opened.1.printf (ascii "file doesn't exist.\n"))
  | some fd =>
    (fileTextLoop cfg p fd calls buffer opened.1).map fun k =>
      (k.printf (ascii "\nfile name: ")).printf (nameText name)

/-- `HIGHEST_FREQ`. -/
def highestFreq : UInt32 := 32768

/-- `print_freq`. -/
def printFreq (k : Kernel) (p : Slot) (rate : UInt32) : Kernel :=
  let opened := rtcOpen cfg k p
  if opened.2 = -1 then opened.1.printf (ascii "couldn't open\n")
  else
    let k := opened.1.setConsole opened.1.console.clear
    let currFreq := highestFreq >>> rate
    let k := k.printf (ascii "Frequency at: " ++ printfInt currFreq ++ ascii "\n")
    let k := (rtcWrite cfg k fun i => (wordBytes currFreq.toNat).getD i 0).1
    (rtcClose k p opened.2.toInt).1

/-! ## The shortcuts -/

/-- The shortcuts. `index` and `rate` are what the counters `CTR3` and `CTR4` have got to. -/
inductive TestShortcut
  | testFileData (index : Nat)
  | printFreq (rate : UInt32)
  | printFileInfo

/-- What a shortcut finds on its stack, and how often it goes round its loop at most. -/
structure ShortcutLocals where
  dentry : Dentry
  buffer : Bytes
  calls : Nat

/-- A shortcut, in an interrupt of whatever runs; `none` is a process that is not there, or a loop that
    goes on. -/
def Kernel.testShortcut (k : Kernel) (shortcut : TestShortcut) (loc : ShortcutLocals) : Option Kernel :=
  match k.currentPcb? with
  | none => none
  | some p =>
    match shortcut with
    | .testFileData index =>
      BaseOs.testFileData cfg (k.setConsole k.console.clear) p index loc.dentry loc.buffer loc.calls
    | .printFreq rate => some (BaseOs.printFreq cfg (k.setConsole k.console.clear) p rate)
    | .printFileInfo =>
      BaseOs.printFileInfo cfg (k.setConsole k.console.clear) p loc.dentry loc.buffer loc.calls

/-! ## What they touch -/

/-- One thing a shortcut does for the process `p`: show something, set the clock, or open, move or close
    descriptors. -/
inductive DeviceStep (p : Slot) (k : Kernel) : Kernel → Prop
  | print (text : List UInt8) : DeviceStep p k (k.printf text)
  | clear : DeviceStep p k (k.setConsole k.console.clear)
  | clock (rtc : Rtc) : DeviceStep p k { k with rtc := rtc }
  | entries {table : FdTable} (kept : ∀ j, EntryKept ((k.pcb p).fdTable j) (table j)) :
      DeviceStep p k (k.setFdTable p table)

/-- Any number of such steps. -/
def ByDevice (p : Slot) : Kernel → Kernel → Prop := Relation.ReflTransGen (DeviceStep p)

variable {cfg} {k k' : Kernel} {p q : Slot} {i : FdIndex} {table : FdTable} {fd : Int}

theorem ByDevice.refl (k : Kernel) : ByDevice p k k := Relation.ReflTransGen.refl

theorem ByDevice.step (h : DeviceStep p k k') : ByDevice p k k' := Relation.ReflTransGen.single h

theorem ByDevice.trans {k1 k2 k3 : Kernel} (h12 : ByDevice p k1 k2) (h23 : ByDevice p k2 k3) :
    ByDevice p k1 k3 := Relation.ReflTransGen.trans h12 h23

theorem ByDevice.clear (k : Kernel) : ByDevice p k (k.setConsole k.console.clear) := .step .clear

theorem ByDevice.printf (k : Kernel) (text : List UInt8) : ByDevice p k (k.printf text) := .step (.print text)

theorem ByDevice.sameProcs (h : ByDevice p k k') : SameProcs k k' := by
  induction h with
  | refl => exact sameProcs_refl k
  | tail _ hstep ih =>
      cases hstep with
      | print | clear => exact ih.trans (sameTables_setConsole _ _).sameProcs
      | clock rtc => exact ih.trans (served_devices _ rtc _ _).procs
      | entries _ => exact ih.trans (sameProcs_setFdTable _ p _)

/-- The PCBs of the other processes are left alone. -/
theorem ByDevice.pcb_of_ne (h : ByDevice p k k') (hne : q ≠ p) : k'.pcb q = k.pcb q := by
  induction h with
  | refl => rfl
  | tail _ hstep ih =>
      cases hstep with
      | print | clear | clock => exact ih
      | entries _ => exact (Function.update_of_ne hne _ _).trans ih

theorem ByDevice.offDevices {α : Type*} {f : Kernel → α} (hf : OffDevices f) (h : ByDevice p k k') :
    f k' = f k := by
  induction h with
  | refl => rfl
  | tail _ hstep ih =>
      cases hstep with
      | print | clear => exact (hf.setConsole _ _).trans ih
      | clock rtc => exact (hf.rtc _ rtc).trans ih
      | entries _ => exact (hf.setFdTable _ p _).trans ih

theorem ByDevice.stable {P : Kernel → Prop} (hP : Stable cfg P) (h : ByDevice p k k') (hk : P k) :
    P k' := by
  induction h with
  | refl => exact hk
  | tail _ hstep ih =>
      cases hstep with
      | print | clear | clock => exact hP.same ih rfl rfl fun _ => rfl
      | entries kept => exact hP.descriptors _ p _ kept ih

theorem openWith_byDevice {info : Fd} (hinfo : info.flags ≠ fdOff) (message : List UInt8) :
    ByDevice p k (openWith k p info message).1 := by
  unfold openWith
  split
  · exact .printf k message
  · exact .step (.entries (entryKept_update (Or.inr (Or.inl hinfo))))

theorem rtcOpen_byDevice : ByDevice p k (rtcOpen cfg k p).1 :=
  ByDevice.trans (.step (.clock (setFrequency cfg.rtcMemory k.rtc 2)))
    (openWith_byDevice (show fdOn ≠ fdOff by decide) _)

theorem fileClose_byDevice (fd : Int) : ByDevice p k (fileClose k p fd).1 :=
  .step (.entries (entryKept_closeFd _ fd))

/-- A descriptor the loop can go on with: it is open, or it is `-1`. -/
def LoopFd (table : FdTable) (fd : Int) : Prop := ∀ i, fdIndex? fd = some i → (table i).flags ≠ fdOff

theorem addOffset_kept (h : LoopFd table fd) (amt : UInt32) (j : FdIndex) :
    EntryKept (table j) (addOffset table fd amt j) := by
  cases hfd : fdIndex? fd with
  | none =>
      unfold addOffset
      rw [hfd]
      exact Or.inl rfl
  | some i =>
      obtain rfl := fdIndex?_eq_some.1 hfd
      exact entryKept_addOffset (h i hfd) amt j

/-- Moving a position changes nothing else of the entries. -/
theorem addOffset_entry (table : FdTable) (fd : Int) (amt : UInt32) (j : FdIndex) :
    (addOffset table fd amt j).fdJump = (table j).fdJump ∧ (addOffset table fd amt j).flags = (table j).flags := by
  unfold addOffset
  cases fdIndex? fd with
  | none => exact ⟨rfl, rfl⟩
  | some i =>
      by_cases hj : j = i
      · subst hj
        simp only [Function.update_self, and_self]
      · simp only [Function.update_of_ne hj, and_self]

theorem dirReadAt_byDevice (h : LoopFd (k.pcb p).fdTable fd) (buf : Bytes) (nbytes : Int) :
    ByDevice p k (dirReadAt cfg k p fd buf nbytes).kernel ∧
      LoopFd ((dirReadAt cfg k p fd buf nbytes).kernel.pcb p).fdTable fd := by
  unfold dirReadAt
  simp only
  split_ifs
  · exact ⟨.refl k, h⟩
  · refine ⟨.step (.entries (addOffset_kept h 1)), fun i hi => ?_⟩
    simp only [setFdTable, setPcb, Function.update_self, (addOffset_entry _ _ _ _).2]
    exact h i hi

/-- Printing a line leaves the processes alone. -/
theorem printFileLine_pcb (k : Kernel) (dent : Dentry) (buffer : Bytes) (cnt : Int32) :
    (printFileLine cfg k dent buffer cnt).pcb = k.pcb := rfl

theorem printFileLine_byDevice (k : Kernel) (dent : Dentry) (buffer : Bytes) (cnt : Int32) :
    ByDevice p k (printFileLine cfg k dent buffer cnt) :=
  (((ByDevice.printf k _).trans (.printf _ _)).trans (.printf _ _)).trans
    ((ByDevice.printf _ _).trans (.printf _ _))

theorem fileInfoLoop_byDevice {calls : Nat} {dLoop : UInt32} {fileDent : Dentry} {buffer : Bytes}
    (hfd : LoopFd (k.pcb p).fdTable fd)
    (h : fileInfoLoop cfg p fd calls dLoop fileDent buffer k = some k') : ByDevice p k k' := by
  induction calls generalizing k dLoop fileDent buffer with
  | zero => cases h
  | succ calls ih =>
      obtain ⟨hread, hfd'⟩ := @dirReadAt_byDevice cfg k p fd hfd buffer 32
      rw [fileInfoLoop] at h
      simp only at h
      split_ifs at h
      · obtain rfl := Option.some.inj h
        exact hread.trans (fileClose_byDevice fd)
      · obtain rfl := Option.some.inj h
        exact (hread.trans (fileClose_byDevice fd)).trans (.printf _ _)
      · exact (hread.trans (printFileLine_byDevice _ _ _ _)).trans (ih hfd' h)

theorem toRet_fdIndex (i : FdIndex) : (toRet i.val).toInt = i.val := by
  revert i
  decide

/-- What an `open` routine returns is an open descriptor or `-1`. -/
theorem openWith_loopFd {info : Fd} (hinfo : info.flags ≠ fdOff) (message : List UInt8) :
    LoopFd ((openWith k p info message).1.pcb p).fdTable (openWith k p info message).2.toInt := by
  unfold openWith
  cases getFdIndex (k.pcb p).fdTable with
  | none =>
      intro i hi
      cases hi
  | some i =>
      intro j hj
      rw [toRet_fdIndex, fdIndex?_val] at hj
      obtain rfl := Option.some.inj hj
      simp only [setFdTable, setPcb, setFdInfo, Function.update_self]
      exact hinfo

theorem fileTextLoop_byDevice {calls : Nat} {buffer : Bytes} (hi : ((k.pcb p).fdTable i).flags ≠ fdOff)
    (h : fileTextLoop cfg p i calls buffer k = some k') : ByDevice p k k' := by
  induction calls generalizing k buffer with
  | zero => cases h
  | succ calls ih =>
      have hread : ByDevice p k (fileRead cfg k p i buffer 500).kernel ∧
          (((fileRead cfg k p i buffer 500).kernel.pcb p).fdTable i).flags ≠ fdOff := by
        unfold fileRead
        simp only
        split_ifs
        · refine ⟨.step (.entries (entryKept_addOffset hi _)), ?_⟩
          simp only [setFdTable, setPcb, Function.update_self, (addOffset_entry _ _ _ _).2]
          exact hi
        · exact ⟨.refl k, hi⟩
      rw [fileTextLoop] at h
      split_ifs at h
      · exact (hread.1.trans (.printf _ _)).trans (ih hread.2 h)
      · obtain rfl := Option.some.inj h
        exact hread.1.trans (fileClose_byDevice _)

theorem testFileData_byDevice {index : Nat} {myDentry : Dentry} {buffer : Bytes} {calls : Nat}
    (h : testFileData cfg k p index myDentry buffer calls = some k') : ByDevice p k k' := by
  have hopen : ByDevice p k (fileOpen cfg k p (cfg.fs.entries index).fileName myDentry).1 :=
    openWith_byDevice (show fdOn ≠ fdOff by decide) _
  unfold testFileData at h
  simp only at h
  split at h
  · obtain rfl := Option.some.inj h
    exact hopen.trans (.printf _ _)
  · next i hi =>
      obtain ⟨k1, hloop, rfl⟩ := Option.map_eq_some_iff.1 h
      have hon := openWith_loopFd (k := k) (p := p) (show fdOn ≠ fdOff by decide) _ i hi
      exact (hopen.trans (fileTextLoop_byDevice hon hloop)).trans
        ((ByDevice.printf _ _).trans (.printf _ _))

theorem rtcClose_byDevice (fd : Int) : ByDevice p k (rtcClose k p fd).1 := by
  unfold rtcClose
  split_ifs
  · exact .printf k _
  · exact .step (.entries (entryKept_closeFd _ fd))

theorem rtcWrite_byDevice (k : Kernel) (buf : Bytes) : ByDevice p k (rtcWrite cfg k buf).1 :=
  .step (.clock _)

theorem printFreq_byDevice (rate : UInt32) : ByDevice p k (printFreq cfg k p rate) := by
  have hopen : ByDevice p k (rtcOpen cfg k p).1 := rtcOpen_byDevice
  have hcleared := hopen.trans (.clear _)
  unfold printFreq
  simp only
  split_ifs
  · exact hopen.trans (.printf _ _)
  · exact ((hcleared.trans (.printf _ _)).trans (rtcWrite_byDevice _ _)).trans (rtcClose_byDevice _)

/-- A shortcut touches the descriptors of the process that runs, the clock and the screen. -/
theorem testShortcut_byDevice {shortcut : TestShortcut} {loc : ShortcutLocals}
    (h : k.testShortcut cfg shortcut loc = some k') : ∃ p, k.currentPcb? = some p ∧ ByDevice p k k' := by
  unfold Kernel.testShortcut at h
  split at h
  · cases h
  · next p hp =>
      have hclear : ByDevice p k (k.setConsole k.console.clear) := .clear k
      refine ⟨p, hp, ?_⟩
      split at h
      · exact hclear.trans (testFileData_byDevice h)
      · obtain rfl := Option.some.inj h
        exact hclear.trans (printFreq_byDevice _)
      · have hloop := fileInfoLoop_byDevice
          (openWith_loopFd (show fdOn ≠ fdOff by decide) _) h
        exact ((hclear.trans (.clear _)).trans
          (openWith_byDevice (show fdOn ≠ fdOff by decide) _)).trans hloop

/-! ## Descriptors that are not in use -/

/-- Every entry that is off is closed, as `close_fd` leaves it. -/
def OffClosed (table : FdTable) : Prop := ∀ j, (table j).flags = fdOff → table j = Fd.closed

theorem fdTableInit_offClosed : OffClosed fdTableInit := by
  intro j h
  revert j
  decide

theorem OffClosed.kept {table table' : FdTable} (h : OffClosed table)
    (hkept : ∀ j, EntryKept (table j) (table' j)) : OffClosed table' := by
  intro j hoff
  rcases hkept j with hold | hon | hclosed
  · rw [hold] at hoff ⊢
    exact h j hoff
  · exact absurd hoff hon
  · exact hclosed

theorem setUp_fdTable (k : Kernel) (i : Slot) : ((setUp k i).pcb i).fdTable = fdTableInit := by
  simp only [setUp, initProcess, enterProcess, createPcb, reserveSlot, setPcb, Function.update_self]

/-- It stays so. -/
theorem offClosed_stable (cfg : Config) (p : Slot) : Stable cfg fun k => OffClosed (k.pcb p).fdTable where
  same hk _ _ htables := by
    rw [htables]
    exact hk
  program _ _ hk := hk
  screen _ _ _ _ hk := hk
  descriptors k q table hkept hk := by
    by_cases hpq : p = q
    · subst hpq
      rw [fdTable_setFdTable]
      exact hk.kept hkept
    · simp only [setFdTable, setPcb, Function.update_of_ne hpq]
      exact hk
  created k i hk := by
    by_cases hpi : p = i
    · subst hpi
      rw [setUp_fdTable]
      exact fdTableInit_offClosed
    · simp only [setUp, initProcess, enterProcess, createPcb, reserveSlot, setPcb, Function.update_of_ne hpi]
      exact hk

/-- The tables of all processes are so. -/
def FreeClosed (k : Kernel) : Prop := ∀ i p, k.processArray i = some p → OffClosed (k.pcb p).fdTable

theorem freeClosed_stable (cfg : Config) : Stable cfg FreeClosed where
  same hk hpaging harray htables i p hp := by
    rw [harray] at hp
    exact (offClosed_stable cfg p).same (hk i p hp) hpaging harray htables
  program _ _ hk := hk
  screen _ _ _ _ hk := hk
  descriptors k p table hkept hk i q hq := (offClosed_stable cfg q).descriptors k p table hkept (hk i q hq)
  created k i hk j q hq := by
    by_cases hqi : q = i
    · subst hqi
      rw [setUp_fdTable]
      exact fdTableInit_offClosed
    · have harray : k.processArray j = some q := by
        simp only [setUp, initProcess, enterProcess, createPcb, reserveSlot, setPcb] at hq
        by_cases hji : j = i
        · subst hji
          rw [Function.update_self] at hq
          exact absurd (Option.some.inj hq).symm hqi
        · rwa [Function.update_of_ne hji] at hq
      exact (offClosed_stable cfg q).created k i (hk j q harray)

/-- The running process can get a closed entry for any entry that is off. -/
theorem FreeClosed.running (hk : FreeClosed k) (hp : k.currentPcb? = some p) : OffClosed (k.pcb p).fdTable := by
  unfold Kernel.currentPcb? at hp
  split at hp
  · next j _ => exact hk j p hp
  · cases hp

theorem Reachable.freeClosed (hk : Reachable cfg k) : FreeClosed k :=
  (freeClosed_stable cfg).reachable (fun _ _ _ h => by cases h) hk

/-! ## What they leave of the table -/

/-- Two tables that agree but for the entry `fd` names, if it names one. -/
def SameBut (fd : Int) (table table' : FdTable) : Prop :=
  ∀ j : FdIndex, (j.val : Int) ≠ fd → table' j = table j

/-- Closing the one entry that changed gives the table back, if it was closed. -/
theorem closeFd_sameBut {table' : FdTable} (h : SameBut fd table table')
    (hclosed : ∀ i, fdIndex? fd = some i → table i = Fd.closed) : closeFd table' fd = table := by
  funext j
  cases hfd : fdIndex? fd with
  | none =>
      have hne : (j.val : Int) ≠ fd := by
        rintro rfl
        rw [fdIndex?_val] at hfd
        cases hfd
      unfold closeFd
      rw [hfd]
      exact h j hne
  | some i =>
      unfold closeFd
      rw [hfd]
      obtain rfl := fdIndex?_eq_some.1 hfd
      by_cases hj : j = i
      · subst hj
        simp only [Function.update_self]
        exact (hclosed j hfd).symm
      · simp only [Function.update_of_ne hj]
        exact h j fun heq => hj (Fin.ext (by omega))

theorem SameBut.addOffset {table' : FdTable} (h : SameBut fd table table') (amt : UInt32) :
    SameBut fd table (addOffset table' fd amt) := by
  intro j hj
  rw [← h j hj]
  unfold BaseOs.addOffset
  cases hfd : fdIndex? fd with
  | none => rfl
  | some i =>
      obtain rfl := fdIndex?_eq_some.1 hfd
      exact Function.update_of_ne (fun heq => hj (by rw [heq])) _ _

/-- An `open` routine returns `-1`, or fills an entry that was off and returns it. -/
theorem openWith_cases (info : Fd) (message : List UInt8) :
    ((openWith k p info message).2 = -1 ∧
      ((openWith k p info message).1.pcb p).fdTable = (k.pcb p).fdTable) ∨
    ∃ i : FdIndex, (openWith k p info message).2.toInt = i.val ∧ 2 ≤ i.val ∧
      ((k.pcb p).fdTable i).flags = fdOff ∧
      SameBut i.val (k.pcb p).fdTable ((openWith k p info message).1.pcb p).fdTable := by
  unfold openWith
  cases hfree : getFdIndex (k.pcb p).fdTable with
  | none => exact Or.inl ⟨rfl, rfl⟩
  | some i =>
      have hoff := (Fin.find?_eq_some_iff.1 hfree).1
      rw [Bool.and_eq_true, decide_eq_true_eq, beq_iff_eq] at hoff
      refine Or.inr ⟨i, toRet_fdIndex i, hoff.1, hoff.2, fun j hj => ?_⟩
      rw [fdTable_setFdTable]
      exact Function.update_of_ne (fun heq => hj (by rw [heq])) _ _

theorem fileClose_sameBut (hclosed : ∀ i, fdIndex? fd = some i → table i = Fd.closed)
    (h : SameBut fd table (k.pcb p).fdTable) : ((fileClose k p fd).1.pcb p).fdTable = table := by
  unfold fileClose
  rw [fdTable_setFdTable]
  exact closeFd_sameBut h hclosed

theorem fileInfoLoop_fdTable {calls : Nat} {dLoop : UInt32} {fileDent : Dentry} {buffer : Bytes}
    (hclosed : ∀ i, fdIndex? fd = some i → table i = Fd.closed)
    (hsame : SameBut fd table (k.pcb p).fdTable)
    (h : fileInfoLoop cfg p fd calls dLoop fileDent buffer k = some k') : (k'.pcb p).fdTable = table := by
  induction calls generalizing k dLoop fileDent buffer with
  | zero => cases h
  | succ calls ih =>
      have hread : SameBut fd table ((dirReadAt cfg k p fd buffer 32).kernel.pcb p).fdTable := by
        unfold dirReadAt
        simp only
        split_ifs
        · exact hsame
        · rw [fdTable_setFdTable]
          exact hsame.addOffset 1
      rw [fileInfoLoop] at h
      simp only at h
      split_ifs at h
      · obtain rfl := Option.some.inj h
        exact fileClose_sameBut hclosed hread
      · obtain rfl := Option.some.inj h
        exact fileClose_sameBut hclosed hread
      · exact ih (by rw [printFileLine_pcb]; exact hread) h

theorem fileTextLoop_fdTable {calls : Nat} {buffer : Bytes} (hclosed : table i = Fd.closed)
    (hsame : SameBut i.val table (k.pcb p).fdTable)
    (h : fileTextLoop cfg p i calls buffer k = some k') : (k'.pcb p).fdTable = table := by
  have hclosed' : ∀ j, fdIndex? (i.val : Int) = some j → table j = Fd.closed := fun j hj => by
    rw [fdIndex?_val] at hj
    exact Option.some.inj hj ▸ hclosed
  induction calls generalizing k buffer with
  | zero => cases h
  | succ calls ih =>
      have hread : SameBut i.val table ((fileRead cfg k p i buffer 500).kernel.pcb p).fdTable := by
        unfold fileRead
        simp only
        split_ifs
        · rw [fdTable_setFdTable]
          exact hsame.addOffset _
        · exact hsame
      rw [fileTextLoop] at h
      split_ifs at h
      · refine ih ?_ h
        exact hread
      · obtain rfl := Option.some.inj h
        exact fileClose_sameBut hclosed' hread

theorem testFileData_fdTable {index : Nat} {myDentry : Dentry} {buffer : Bytes} {calls : Nat}
    (hclosed : OffClosed (k.pcb p).fdTable)
    (h : testFileData cfg k p index myDentry buffer calls = some k') :
    (k'.pcb p).fdTable = (k.pcb p).fdTable := by
  unfold testFileData fileOpen at h
  simp only at h
  rcases openWith_cases (k := k) (p := p) _ _ with ⟨hret, htable⟩ | ⟨i, hret, -, hoff, hsame⟩
  · rw [hret, show fdIndex? (-1 : Int32).toInt = none by decide] at h
    obtain rfl := Option.some.inj h
    exact htable
  · rw [hret, fdIndex?_val] at h
    obtain ⟨k1, hloop, rfl⟩ := Option.map_eq_some_iff.1 h
    have htable := fileTextLoop_fdTable (hclosed i hoff) hsame hloop
    exact htable

theorem printFreq_fdTable (rate : UInt32)
    (hclosed : OffClosed (k.pcb p).fdTable) :
    ((printFreq cfg k p rate).pcb p).fdTable = (k.pcb p).fdTable := by
  unfold printFreq rtcOpen
  simp only
  rcases openWith_cases (k := { k with rtc := setFrequency cfg.rtcMemory k.rtc 2 }) (p := p) _ _ with
    ⟨hret, htable⟩ | ⟨i, hret, hi, hoff, hsame⟩
  · rw [if_pos hret]
    exact htable
  · have hne : ¬ (openWith { k with rtc := setFrequency cfg.rtcMemory k.rtc 2 } p
        ⟨some .rtc, -1, 0, fdOn⟩ (ascii "No Available FD, rtc_open\n")).2 = -1 := fun heq => by
      rw [heq, show (-1 : Int32).toInt = -1 by decide] at hret
      omega
    have hvalid : ¬ ((i.val : Int) < firstValidIndex ∨ (i.val : Int) > maxOpenFiles) := by
      unfold firstValidIndex maxOpenFiles
      omega
    rw [if_neg hne, hret]
    unfold rtcClose
    rw [if_neg hvalid, fdTable_setFdTable]
    refine closeFd_sameBut hsame fun j hj => ?_
    rw [fdIndex?_val] at hj
    exact Option.some.inj hj ▸ hclosed i hoff

theorem printFileInfo_fdTable {fileDent : Dentry} {buffer : Bytes} {calls : Nat}
    (hclosed : OffClosed (k.pcb p).fdTable)
    (h : printFileInfo cfg k p fileDent buffer calls = some k') :
    (k'.pcb p).fdTable = (k.pcb p).fdTable := by
  unfold printFileInfo dirOpen at h
  simp only at h
  rcases openWith_cases (k := k.setConsole k.console.clear) (p := p) _ _ with
    ⟨hret, htable⟩ | ⟨i, hret, -, hoff, hsame⟩
  · rw [hret] at h
    exact fileInfoLoop_fdTable (fun i hi => by cases hi) (fun j _ => congrFun htable j) h
  · rw [hret] at h
    refine fileInfoLoop_fdTable (fun j hj => ?_) hsame h
    rw [fdIndex?_val] at hj
    exact Option.some.inj hj ▸ hclosed i hoff

/-- A shortcut that comes back leaves the tables as they were, if what it opens was closed. -/
theorem testShortcut_fdTable {shortcut : TestShortcut} {loc : ShortcutLocals}
    (hq : k.currentPcb? = some q → OffClosed (k.pcb q).fdTable)
    (h : k.testShortcut cfg shortcut loc = some k') : (k'.pcb q).fdTable = (k.pcb q).fdTable := by
  obtain ⟨p, hp, hdevice⟩ := testShortcut_byDevice h
  by_cases hqp : q = p
  · subst hqp
    have hclosed := hq hp
    unfold Kernel.testShortcut at h
    rw [hp] at h
    cases shortcut with
    | testFileData index =>
        exact testFileData_fdTable (k := k.setConsole k.console.clear) hclosed h
    | printFreq rate =>
        obtain rfl := Option.some.inj h
        exact printFreq_fdTable (k := k.setConsole k.console.clear) rate hclosed
    | printFileInfo =>
        exact printFileInfo_fdTable (k := k.setConsole k.console.clear) hclosed h
  · rw [hdevice.pcb_of_ne hqp]

end BaseOs
