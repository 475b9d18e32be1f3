import BaseOs.FileSystem.Lookup
import BaseOs.FileSystem.ReadData
import BaseOs.Paging.Proofs
import BaseOs.Process

set_option autoImplicit false

/-! # What `execute` does to the kernel

One specification lemma per outcome. A started program (`execute_started`) took the lowest free slot
and changed nothing outside it but the current process, the program mapping, the kernel stack pointer
and the loaded memory. An error before the reservation leaves the process tables alone
(`execute_error_early`); the only error after it is the magic number check. -/

namespace BaseOs

open Kernel

variable {cfg : Config} {k k' : Kernel} {comm : Bytes} {loc : Locals}

/-! ## Output leaves the tables alone -/

/-- Two states with the same process tables, mapping and stack pointer. What may differ is the
    screen, the memory, the parsed arguments, the saved lines and the devices. -/
structure SameTables (k k' : Kernel) : Prop where
  currTerminal : k'.currTerminal = k.currTerminal
  currentProcess : k'.currentProcess = k.currentProcess
  processArray : k'.processArray = k.processArray
  inUse : k'.inUse = k.inUse
  pcb : k'.pcb = k.pcb
  exceptionFlag : k'.exceptionFlag = k.exceptionFlag
  esp0 : k'.esp0 = k.esp0
  paging : k'.paging = k.paging

theorem SameTables.refl (k : Kernel) : SameTables k k := ⟨rfl, rfl, rfl, rfl, rfl, rfl, rfl, rfl⟩

theorem sameTables_setConsole (k : Kernel) (con : Console) : SameTables k (k.setConsole con) :=
  ⟨rfl, rfl, rfl, rfl, rfl, rfl, rfl, rfl⟩

theorem sameTables_printf (k : Kernel) (s : List UInt8) : SameTables k (k.printf s) :=
  sameTables_setConsole k _

theorem SameTables.trans {k1 k2 k3 : Kernel} (h12 : SameTables k1 k2) (h23 : SameTables k2 k3) :
    SameTables k1 k3 where
  currTerminal := h23.currTerminal.trans h12.currTerminal
  currentProcess := h23.currentProcess.trans h12.currentProcess
  processArray := h23.processArray.trans h12.processArray
  inUse := h23.inUse.trans h12.inUse
  pcb := h23.pcb.trans h12.pcb
  exceptionFlag := h23.exceptionFlag.trans h12.exceptionFlag
  esp0 := h23.esp0.trans h12.esp0
  paging := h23.paging.trans h12.paging

/-! ## Before the reservation -/

/-- The command word of a command string, as `execute` parses it. -/
def commandWord (comm : Bytes) (loc : Locals) : Bytes :=
  (parseCmdArgs loc.command (fun _ => 0) comm).1

/-- `execute` after parsing: the arguments wait in `cmd_args`. -/
def withArgs (k : Kernel) (comm : Bytes) (loc : Locals) : Kernel :=
  { k with
    cmdArgs := Function.update k.cmdArgs k.currTerminal
      (parseCmdArgs loc.command (k.cmdArgs k.currTerminal) comm).2 }

theorem sameTables_withArgs (k : Kernel) (comm : Bytes) (loc : Locals) :
    SameTables k (withArgs k comm loc) := ⟨rfl, rfl, rfl, rfl, rfl, rfl, rfl, rfl⟩

/-- `execute` once the slot `i` is reserved and its process set up. -/
def setUp (k : Kernel) (i : Slot) : Kernel :=
  initProcess (enterProcess (createPcb (reserveSlot k i) i) i) i

-- by `simp`: with `rfl` the two states are compared field by field first
theorem setUp_memory (k : Kernel) (c : Bytes) (loc : Locals) (i : Slot) :
    (setUp (withArgs k c loc) i).paging = k.paging ∧ (setUp (withArgs k c loc) i).mem = k.mem := by
  simp only [setUp, initProcess, enterProcess, createPcb, reserveSlot, setPcb, withArgs, and_self]

theorem execute_some (cfg : Config) (k : Kernel) (comm : Bytes) (loc : Locals) :
    execute cfg k (some comm) loc =
      match findProgram cfg (commandWord comm loc) loc with
      | .error e => .failed e (withArgs k comm loc)
      | .ok file =>
        match freeSlot k with
        | none =>
          .failed .noFreeSlot ((withArgs k comm loc).printf
            (ascii "Maximum Possible Processes. Stop and Reconsider.\n"))
        | some i => loadProgram cfg (setUp (withArgs k comm loc) i) i file loc := by
  have hword : (parseCmdArgs loc.command (k.cmdArgs k.currTerminal) comm).1 = commandWord comm loc :=
    rfl
  have hargs : { k with
      cmdArgs := Function.update k.cmdArgs k.currTerminal
        (parseCmdArgs loc.command (k.cmdArgs k.currTerminal) comm).2 } = withArgs k comm loc := rfl
  have hfree : freeSlot (withArgs k comm loc) = freeSlot k := rfl
  unfold execute
  simp only [hword, hargs, hfree]
  cases findProgram cfg (commandWord comm loc) loc with
  | error e => rfl
  | ok file => cases freeSlot k <;> rfl

theorem freeSlot_eq_some {i : Slot} :
    freeSlot k = some i ↔ k.inUse i = 0 ∧ ∀ j < i, k.inUse j ≠ 0 := by
  unfold freeSlot
  rw [Fin.find?_eq_some_iff]
  simp only [beq_iff_eq, beq_eq_false_iff_ne]

/-- `findProgram` fails only for the reasons that come before the slot search. -/
theorem findProgram_error {command : Bytes} {e : ExecError}
    (h : findProgram cfg command loc = .error e) :
    e = .nameTooLong ∨ e = .noSuchFile ∨ e = .wrongType ∨ e = .unreadable := by
  unfold findProgram at h
  simp only at h
  repeat' split at h
  all_goals simp_all

/-- What a found program is: a name that resolves to a file of type 2 whose header could be read. -/
theorem findProgram_eq_ok {command : Bytes} {file : ProgramFile} :
    findProgram cfg command loc = .ok file ↔
      copyFileName command loc.fileName = some file.fileName ∧
      ∃ d, readDentryByName cfg.fs file.fileName loc.dentry = some d ∧ d.fileType = 2 ∧
        (readData cfg.fs d.inodeIdx 0 bytesToRead).ret ≠ -1 ∧
        file.buf = store loc.buf (readData cfg.fs d.inodeIdx 0 bytesToRead).data := by
  constructor
  · intro h
    unfold findProgram at h
    split at h
    · cases h
    · next fileName hname =>
        split at h
        · cases h
        · next d hd =>
            simp only at h
            split_ifs at h with htype hret
            simp only [Except.ok.injEq] at h
            subst h
            exact ⟨hname, d, hd, not_not.1 htype, hret, rfl⟩
  · rintro ⟨hname, d, hd, htype, hret, hbuf⟩
    unfold findProgram
    simp only [hname, hd, htype, ne_eq, not_true, if_false, hret, ← hbuf]

/-! ## After the reservation -/

/-- What a started program has changed. -/
structure Started (cfg : Config) (k : Kernel) (i : Slot) (loc : Locals) (k' : Kernel) : Prop where
  currTerminal : k'.currTerminal = k.currTerminal
  inUse : k'.inUse = Function.update k.inUse i 1
  processArray : k'.processArray = Function.update k.processArray i (some i)
  currentProcess : k'.currentProcess = Function.update k.currentProcess k.currTerminal (i.val : Int)
  pcb_of_ne : ∀ j, j ≠ i → k'.pcb j = k.pcb j
  processId : (k'.pcb i).processId = UInt8.ofNat i.val
  parentId : (k'.pcb i).parentId = if i.val < 3 then -1 else k.currentProcess k.currTerminal
  currentEsp : (k'.pcb i).currentEsp = loc.esp
  fdTable : (k'.pcb i).fdTable = fdTableInit
  exceptionFlag : k'.exceptionFlag = k.exceptionFlag
  esp0 : k'.esp0 = stackTop i.val
  paging : k'.paging = addProcess k.paging (UInt32.ofNat i.val)
  screenX : k'.screenX = k.screenX
  screenY : k'.screenY = k.screenY
  mem : ∃ data, storeVirt (kernelAddr cfg.lay k'.paging) programStart data k.mem = (k'.mem, false)

theorem loadProgram_started {i : Slot} {file : ProgramFile} {entryPoint : UInt32}
    (h : loadProgram cfg (setUp k i) i file loc = .started k' entryPoint) :
    Started cfg k i loc k' ∧ hasMagic file.buf = true ∧ entryPoint = entryPointOf file.buf := by
  unfold loadProgram at h
  split_ifs at h with hmagic
  · simp only at h
    split at h
    · cases h
    · next d hd =>
        split_ifs at h with hfault hret
        simp only [ExecResult.started.injEq] at h
        obtain ⟨rfl, rfl⟩ := h
        refine ⟨⟨rfl, rfl, rfl, rfl, fun j hj => ?_, ?_, ?_, ?_, ?_, rfl, rfl, rfl, rfl, rfl, ?_⟩,
          hmagic, rfl⟩
        · simp only [setUp, initProcess, enterProcess, createPcb, reserveSlot, setPcb,
            Function.update_of_ne hj]
        all_goals
          try simp only [setUp, initProcess, enterProcess, createPcb, reserveSlot, setPcb,
            Function.update_self]
        refine ⟨_, Prod.ext rfl ?_⟩
        exact Bool.eq_false_iff.2 hfault

/-- A started program runs in the lowest slot that was free. -/
theorem execute_started {comm : Option Bytes} {entryPoint : UInt32}
    (h : execute cfg k comm loc = .started k' entryPoint) :
    ∃ i, freeSlot k = some i ∧ Started cfg k i loc k' := by
  cases comm with
  | none => cases h
  | some comm =>
      rw [execute_some] at h
      split at h
      · cases h
      · split at h
        · cases h
        · next i hi =>
            obtain ⟨hst, -, -⟩ := loadProgram_started h
            exact ⟨i, hi, ⟨hst.currTerminal, hst.inUse, hst.processArray, hst.currentProcess,
              hst.pcb_of_ne, hst.processId, hst.parentId, hst.currentEsp, hst.fdTable,
              hst.exceptionFlag, hst.esp0, hst.paging, hst.screenX, hst.screenY, hst.mem⟩⟩

/-! ## Errors -/

/-- The exits before the slot is reserved. -/
def ExecError.early : ExecError → Bool
  | .badMagic | .reloadNotFound | .loadFailed => false
  | _ => true

/-- A program that was copied without a fault is too short for its length to be taken for `-1`. -/
theorem load_ret_ne {i : Slot} {inode length : UInt32}
    (habove : isPresent (k.paging.pageDirectory aboveProgram) = false)
    (hread : (readData cfg.fs inode 0 bytesToRead).ret ≠ -1)
    (hfault : (storeVirt (kernelAddr cfg.lay (addProcess k.paging (UInt32.ofNat i.val))) programStart
      (readData cfg.fs inode 0 length).data k.mem).2 = false) :
    (readData cfg.fs inode 0 length).ret ≠ -1 := by
  have habove' : isPresent ((addProcess k.paging (UInt32.ofNat i.val)).pageDirectory aboveProgram)
      = false := by rwa [addProcess_of_ne (by decide)]
  have hlen := load_length_le habove' (Prod.ext rfl hfault)
  rw [readData_zero_ret (by decide) hread, ne_eq, toRet_eq_neg_one]
  unfold programRoom at hlen
  omega

/-- After the reservation, `execute` can only fail on the magic number: the second lookup repeats the
    first, and a load without a fault is not taken for an error. -/
theorem loadProgram_failed {i : Slot} {file : ProgramFile} {command : Bytes} {e : ExecError}
    (hfile : findProgram cfg command loc = .ok file)
    (habove : isPresent (k.paging.pageDirectory aboveProgram) = false)
    (h : loadProgram cfg k i file loc = .failed e k') :
    hasMagic file.buf = false ∧ e = .badMagic ∧ k' = k := by
  obtain ⟨-, d, hd, -, hread, -⟩ := findProgram_eq_ok.1 hfile
  unfold loadProgram at h
  split_ifs at h with hmagic
  · simp only [hd] at h
    split_ifs at h with hfault hret
    exact absurd hret (load_ret_ne habove hread (Bool.eq_false_iff.2 hfault))
  · simp only [ExecResult.failed.injEq] at h
    exact ⟨Bool.eq_false_iff.2 hmagic, h.1.symm, h.2.symm⟩

/-- A failed `execute` either failed before the reservation, and then the tables are as they were, or
    it has set up a process for a file without the magic number. -/
theorem execute_failed {comm : Option Bytes} {e : ExecError}
    (habove : isPresent (k.paging.pageDirectory aboveProgram) = false)
    (h : execute cfg k comm loc = .failed e k') :
    (e.early = true ∧ SameTables k k') ∨
      ∃ c file i, comm = some c ∧ findProgram cfg (commandWord c loc) loc = .ok file ∧
        freeSlot k = some i ∧ hasMagic file.buf = false ∧ e = .badMagic ∧
        k' = setUp (withArgs k c loc) i := by
  cases comm with
  | none =>
      injection h with herr hk
      subst herr hk
      exact Or.inl ⟨rfl, SameTables.refl k⟩
  | some c =>
      rw [execute_some] at h
      split at h
      · next e' herr =>
          simp only [ExecResult.failed.injEq] at h
          obtain ⟨rfl, rfl⟩ := h
          refine Or.inl ⟨?_, sameTables_withArgs k c loc⟩
          rcases findProgram_error herr with rfl | rfl | rfl | rfl <;> rfl
      · next file hfile =>
          split at h
          · injection h with herr hk
            subst herr hk
            have hprint := sameTables_printf (withArgs k c loc)
              (ascii "Maximum Possible Processes. Stop and Reconsider.\n")
            exact Or.inl ⟨rfl, (sameTables_withArgs k c loc).trans hprint⟩
          · next i hi =>
              rw [← (setUp_memory k c loc i).1] at habove
              obtain ⟨hmagic, rfl, rfl⟩ := loadProgram_failed hfile habove h
              exact Or.inr ⟨c, file, i, rfl, hfile, hi, hmagic, rfl, rfl⟩

/-- A file without the magic number makes `execute` fail after it has set up the process. -/
theorem execute_badMagic {c : Bytes} {file : ProgramFile} {i : Slot}
    (hfile : findProgram cfg (commandWord c loc) loc = .ok file) (hi : freeSlot k = some i)
    (hmagic : hasMagic file.buf = false) :
    execute cfg k (some c) loc = .failed .badMagic (setUp (withArgs k c loc) i) := by
  rw [execute_some]
  simp only [hfile, hi, loadProgram, hmagic, Bool.false_eq_true, if_false]

/-! ## Programs that start -/

/-- A name under which the file system holds a program: a regular file, well formed, that begins with
    the magic number and fits into the program page. -/
structure Executable (fs : FileSystem) (name : Bytes) (inode : UInt32) : Prop where
  found : ∀ d, ∃ d', readDentryByName fs name d = some d' ∧ d'.fileType = 2 ∧ d'.inodeIdx = inode
  file : WellFormedFile fs inode
  magic : (fileContents fs inode).take 4 = magicNumbers
  fits : fileSize fs inode ≤ programRoom

/-- Reading a whole program, or its header, from the start. -/
theorem Executable.readData_zero {fs : FileSystem} {name : Bytes} {inode : UInt32}
    (h : Executable fs name inode) (length : UInt32) :
    readData fs inode 0 length =
      ⟨toRet (min length.toNat (fileSize fs inode)),
        (fileContents fs inode).take (min length.toNat (fileSize fs inode))⟩ := by
  rw [readData_of_noWrap h.file (by simpa using length.toNat_lt), UInt32.toNat_zero, Nat.sub_zero,
    fileSlice_zero_eq_take (Nat.min_le_right _ _)]

theorem Executable.four_le_size {fs : FileSystem} {name : Bytes} {inode : UInt32}
    (h : Executable fs name inode) : 4 ≤ fileSize fs inode := by
  have hlen := congrArg List.length h.magic
  rw [List.length_take, length_fileContents] at hlen
  have : magicNumbers.length = 4 := rfl
  omega

/-- The size of a program is never taken for an error. -/
theorem toRet_ne_neg_one {n : Nat} (h : n ≤ programRoom) : toRet n ≠ -1 := by
  rw [Ne, toRet_eq_neg_one]
  unfold programRoom at h
  omega

theorem hasMagic_store {buf : Bytes} {data : List UInt8} (h : data.take 4 = magicNumbers) :
    hasMagic (store buf data) = true := by
  have hlen : 4 ≤ data.length := by
    have := congrArg List.length h
    rw [List.length_take] at this
    have : magicNumbers.length = 4 := rfl
    omega
  have hmap : (List.range 4).map (store buf data) = data.take 4 := by
    apply List.ext_getElem
    · simp [hlen]
    · intro i h1 h2
      simp only [List.length_map, List.length_range] at h1
      rw [List.getElem_map, List.getElem_range, store_of_lt (by omega), List.getElem_take]
  unfold hasMagic
  rw [hmap, h]
  rfl

/-- A program that is there starts in the first free slot. -/
theorem execute_executable {c fileName : Bytes} {inode : UInt32} {i : Slot}
    (hcopy : copyFileName (commandWord c loc) loc.fileName = some fileName)
    (hexec : Executable cfg.fs fileName inode) (hi : freeSlot k = some i) :
    ∃ k' entryPoint, execute cfg k (some c) loc = .started k' entryPoint := by
  obtain ⟨d, hd, htype, hinode⟩ := hexec.found loc.dentry
  have hheader := hexec.readData_zero bytesToRead
  have hfour := hexec.four_le_size
  have hfit := hexec.fits
  have hfind : findProgram cfg (commandWord c loc) loc
      = .ok ⟨fileName, store loc.buf (readData cfg.fs inode 0 bytesToRead).data⟩ := by
    have hret : (readData cfg.fs inode 0 bytesToRead).ret ≠ -1 := by
      rw [hheader]
      exact toRet_ne_neg_one (le_trans (Nat.min_le_right _ _) hfit)
    rw [← hinode] at hret ⊢
    exact findProgram_eq_ok.2 ⟨hcopy, d, hd, htype, hret, rfl⟩
  have hmagic : hasMagic (store loc.buf (readData cfg.fs inode 0 bytesToRead).data) = true := by
    apply hasMagic_store
    rw [hheader]
    have hmin : min 4 (min bytesToRead.toNat (fileSize cfg.fs inode)) = 4 := by
      have : bytesToRead.toNat = 28 := rfl
      omega
    simp only [List.take_take, hmin]
    exact hexec.magic
  have hwhole := hexec.readData_zero (cfg.fs.inodes inode.toNat).fileSize
  have hsize : (cfg.fs.inodes inode.toNat).fileSize.toNat = fileSize cfg.fs inode := rfl
  rw [hsize, Nat.min_self] at hwhole
  have hload := @load_noFault cfg.lay (addProcess (setUp (withArgs k c loc) i).paging
    (UInt32.ofNat i.val)) i ((fileContents cfg.fs inode).take (fileSize cfg.fs inode))
    (setUp (withArgs k c loc) i).mem (addProcess_entry i)
    (by rw [List.length_take, length_fileContents]; omega)
  rw [execute_some]
  simp only [hfind, hi, loadProgram, hmagic, if_true, hd, hinode, hwhole]
  have hload' : (storeVirt (kernelAddr cfg.lay (addProcess (setUp (withArgs k c loc) i).paging
      (UInt32.ofNat i.val))) programStart
      ((fileContents cfg.fs inode).take (fileSize cfg.fs inode))
      (setUp (withArgs k c loc) i).mem).2 = false := hload
  simp only [hload', Bool.false_eq_true, if_false, toRet_ne_neg_one hfit]
  exact ⟨_, _, rfl⟩

/-- The image holds a program under the name `shell`. -/
def HasShell (fs : FileSystem) : Prop := ∃ inode, Executable fs shellCommand inode

/-- What `execute` looks up for a command that begins with the word `s`, whatever its buffers held
    before. -/
theorem copyFileName_word {s : List UInt8} (hchars : ∀ c ∈ s, c ≠ 32 ∧ c ≠ 0 ∧ c ≠ 10)
    (hlen : s.length < fileNameLength) (hcomm : ∀ i < s.length, comm i = cstr s i)
    (hend : comm s.length = 32 ∨ comm s.length = 0) (loc : Locals) :
    ∃ fileName, copyFileName (commandWord comm loc) loc.fileName = some fileName ∧
      ∀ i ≤ s.length, fileName i = cstr s i := by
  have hchar : ∀ i < s.length, cstr s i ≠ 32 ∧ cstr s i ≠ 0 ∧ cstr s i ≠ 10 := by
    intro i hi
    simpa [cstr, hi] using hchars _ (List.getElem_mem hi)
  have hnul : cstr s s.length = 0 := by simp [cstr]
  have hcmd : Scan.scan (fun i => comm i != 32 && comm i != 0) 0 termBuffSize = s.length := by
    refine Scan.scan_eq_of _ (Nat.zero_le _) ?_ (fun i _ hi => ?_) (fun _ => ?_)
    · unfold fileNameLength at hlen
      unfold termBuffSize
      omega
    · simp only [hcomm i hi, Bool.and_eq_true, bne_iff_ne]
      exact ⟨(hchar i hi).1, (hchar i hi).2.1⟩
    · rcases hend with h | h <;> rw [h] <;> rfl
  have hword : ∀ i ≤ s.length, commandWord comm loc i = cstr s i := by
    intro i hi
    unfold commandWord parseCmdArgs
    simp only [hcmd]
    split_ifs with hlt heq
    · exact hcomm i hlt
    · rw [heq, hnul]
    · omega
  -- the name is copied up to its NUL
  have hscan : Scan.scan (fun i => commandWord comm loc i != 32 &&
      commandWord comm loc i != 0 && commandWord comm loc i != 10) 0 fileNameLength
      = s.length := by
    refine Scan.scan_eq_of _ (Nat.zero_le _) (by omega) (fun i _ hi => ?_) (fun _ => ?_)
    · simp only [hword i hi.le, Bool.and_eq_true, bne_iff_ne]
      exact ⟨⟨(hchar i hi).1, (hchar i hi).2.1⟩, (hchar i hi).2.2⟩
    · simp only [hword _ (le_refl _), hnul]
      rfl
  refine ⟨fun i => if i < s.length then commandWord comm loc i
    else if i = s.length then 0 else loc.fileName i, ?_, fun i hi => ?_⟩
  · unfold copyFileName
    simp only [hscan]
    exact if_neg (by omega)
  · simp only
    split_ifs with hlt heq
    · exact hword i hi
    · rw [heq, hnul]
    · omega

/-- With a shell in the image, a command that begins with the word `shell` starts it whenever a slot is
    free. -/
theorem execute_shell_word (hshell : HasShell cfg.fs) {i : Slot} (hi : freeSlot k = some i)
    (hcomm : ∀ i < 5, comm i = shellCommand i) (hend : comm 5 = 32 ∨ comm 5 = 0) :
    ∃ k' entryPoint, execute cfg k (some comm) loc = .started k' entryPoint ∧
      Started cfg k i loc k' := by
  obtain ⟨inode, hexec⟩ := hshell
  obtain ⟨fileName, hcopy, hname⟩ :=
    copyFileName_word (s := ascii "shell") (by simp [ascii]) (by decide) hcomm hend loc
  have hexec' : Executable cfg.fs fileName inode := by
    refine ⟨fun d => ?_, hexec.file, hexec.magic, hexec.fits⟩
    rw [readDentryByName_congr cfg.fs hname rfl]
    exact hexec.found d
  obtain ⟨k', entryPoint, hrun⟩ := execute_executable hcopy hexec' hi
  obtain ⟨j, hj, hstarted⟩ := execute_started hrun
  obtain rfl : i = j := Option.some.inj (hi.symm.trans hj)
  exact ⟨k', entryPoint, hrun, hstarted⟩

/-- `execute("shell")` itself. -/
theorem execute_shell (hshell : HasShell cfg.fs) {i : Slot} (hi : freeSlot k = some i) :
    ∃ k' entryPoint, execute cfg k (some shellCommand) loc = .started k' entryPoint ∧
      Started cfg k i loc k' :=
  execute_shell_word hshell hi (fun _ _ => rfl) (Or.inr rfl)

/-! ## A small image

Four directory entries: a shell of 28 bytes, a text file, the directory and the clock. -/

def smallImage : Image where
  bootBlock :=
    { numDirEntries := 4
      N := 2
      D := 2
      dirEntries := fun i =>
        match i with
        | 0 => ⟨cstr (ascii "shell"), 2, 0⟩
        | 1 => ⟨cstr (ascii "note"), 2, 1⟩
        | 2 => ⟨cstr (ascii "."), 1, 0⟩
        | 3 => ⟨cstr (ascii "rtc"), 0, 0⟩
        | _ => ⟨fun _ => 0, 0, 0⟩ }
  inodes := fun i => if i = 0 then ⟨28, fun _ => 0⟩ else ⟨4, fun _ => 1⟩
  dataBlocks := fun b => if b = 0 then cstr magicNumbers else cstr (ascii "text")

def smallConfig : Config where
  fs := filesystemInit smallImage fun _ => 0
  lay := smallLayout
  rtcMemory := fun _ => 0

/-- Buffers full of zeros, and a stack pointer in the region of slot `p`. -/
def localsAt (p : Nat) : Locals where
  command := fun _ => 0
  fileName := fun _ => 0
  dentry := ⟨fun _ => 0, 0, 0⟩
  buf := fun _ => 0
  esp := kStackBottom - processSize * p - 256
  ebp := kStackBottom - processSize * p - 128

theorem smallConfig_countsNames : smallConfig.fs.CountsNames := filesystemInit_countsNames _ _

theorem smallConfig_hasShell : HasShell smallConfig.fs := by
  refine ⟨0, fun d => ⟨_, rfl, rfl, rfl⟩, ⟨by decide, by decide, fun b _ => ?_⟩, ?_, by decide⟩
  · change (0 : UInt32) < 2
    decide
  · rw [fileContents_eq]
    rfl

theorem note_wellFormed : WellFormedFile smallConfig.fs 1 where
  inode_lt := by decide
  size_le := by decide
  block_lt := by
    intro b hb
    have hidx : (smallConfig.fs.inodes (1 : UInt32).toNat).datablockIdx b = 1 := rfl
    rw [hidx]
    decide

end BaseOs
