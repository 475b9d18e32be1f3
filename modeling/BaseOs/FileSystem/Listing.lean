import BaseOs.FileSystem.Directory
import BaseOs.Keyboard.Shortcuts
import BaseOs.Process.Arguments
import BaseOs.Syscall.Descriptors

set_option autoImplicit false

/-! # The listing behind Ctrl+1

`print_file_info` opens a directory descriptor in the table of whoever is running and reads it to the end.
It does not look at what `dir_open` returned. With a full table that is `-1`, and then the position it
reads is not in the table but in the arguments before it, where nothing moves it on
(`listsCleanly_iff`). -/

namespace BaseOs

open Kernel

variable {cfg : Config} {k k' : Kernel} {p : Slot} {i : FdIndex} {table : FdTable} {img : Image}
  {slots : Nat → Nat} {fileDent : Dentry} {buffer : Bytes}

theorem getFilePosition_entry (pcb : Pcb) (i : FdIndex) :
    getFilePosition pcb i.val = (pcb.fdTable i).filePosition := by
  unfold getFilePosition
  rw [fdIndex?_val]

theorem dirReadAt_entry (k : Kernel) (p : Slot) (i : FdIndex) (buf : Bytes) (nbytes : Int) :
    dirReadAt cfg k p i.val buf nbytes = dirRead cfg k p i buf nbytes := by
  unfold dirReadAt dirRead
  rw [getFilePosition_entry]

theorem toRet_small {n : Nat} (h : n ≤ 32) (hpos : 0 < n) : toRet n ≠ 0 ∧ toRet n ≠ -1 := by
  have htoNat := toRet_toNat (n := n) (by omega)
  constructor
  · intro hzero
    rw [hzero] at htoNat
    have : (0 : Int32).toInt.toNat = 0 := rfl
    omega
  · intro hneg
    rw [hneg] at htoNat
    have : (-1 : Int32).toInt.toNat = 0 := rfl
    omega

/-! ## The loop -/

/-- One round at an entry with a name: a line is printed and the loop goes on. -/
theorem fileInfoLoop_round {dirFd : Int} {calls n : Nat} {dLoop : UInt32}
    (hret : (dirReadAt cfg k p dirFd buffer 32).ret = toRet n) (hn : n ≤ 32) (hpos : 0 < n) :
    ∃ fileDent', fileInfoLoop cfg p dirFd (calls + 1) dLoop fileDent buffer k
      = fileInfoLoop cfg p dirFd calls (dLoop + 1) fileDent'
          (dirReadAt cfg k p dirFd buffer 32).buf
          (printFileLine cfg (dirReadAt cfg k p dirFd buffer 32).kernel fileDent'
            (dirReadAt cfg k p dirFd buffer 32).buf (toRet n)) := by
  obtain ⟨hzero, hneg⟩ := toRet_small hn hpos
  refine ⟨(readDentryByIndex cfg.fs dLoop fileDent).getD fileDent, ?_⟩
  rw [fileInfoLoop]
  simp only [hret, if_neg hzero, if_neg hneg]

theorem min_nameLength {name : Bytes} : min (32 : Int).toNat (nameLength name) = nameLength name :=
  Nat.min_eq_right (nameLength_le name)

/-- With a descriptor at entry `j` of the directory, as many calls are enough as there are entries left,
    and one more; then the descriptor is closed again. -/
theorem fileInfoLoop_entry (hnames : ∀ j < cfg.fs.numEntries.toNat, (cfg.fs.entries j).name ≠ [])
    (hclosed : table i = Fd.closed) {m j : Nat} (hj : j + m = cfg.fs.numEntries.toNat)
    (htable : (k.pcb p).fdTable = Function.update table i ⟨some .dir, -1, UInt32.ofNat j, fdOn⟩)
    (dLoop : UInt32) (fileDent : Dentry) (buffer : Bytes) :
    ∃ k', fileInfoLoop cfg p i.val (m + 1) dLoop fileDent buffer k = some k' ∧
      (k'.pcb p).fdTable = table := by
  have hcount := cfg.fs.numEntries.toNat_lt
  induction m generalizing j k dLoop fileDent buffer with
  | zero =>
      have hend : cfg.fs.numEntries ≤ ((k.pcb p).fdTable i).filePosition := by
        rw [htable, Function.update_self, UInt32.le_iff_toNat_le,
          UInt32.toNat_ofNat_of_lt' (show j < 2 ^ 32 by omega)]
        omega
      refine ⟨_, by rw [fileInfoLoop, dirReadAt_entry, dirRead_end _ _ hend]; rfl, ?_⟩
      unfold fileClose
      rw [fdTable_setFdTable, htable]
      unfold closeFd
      rw [fdIndex?_val]
      simp only [Function.update_idem]
      rw [← hclosed, Function.update_eq_self]
  | succ m ih =>
      have hjnat : (UInt32.ofNat j).toNat = j :=
        UInt32.toNat_ofNat_of_lt' (show j < 2 ^ 32 by omega)
      have hpos : ((k.pcb p).fdTable i).filePosition = UInt32.ofNat j := by
        rw [htable, Function.update_self]
      have hlt : ((k.pcb p).fdTable i).filePosition < cfg.fs.numEntries := by
        rw [hpos, UInt32.lt_iff_toNat_lt, hjnat]
        omega
      have hread := dirRead_eq buffer 32 hlt
      simp only [hpos, hjnat, name_length, min_nameLength] at hread
      have hname : 0 < nameLength (cfg.fs.entries j).fileName := by
        rw [← name_length]
        exact List.length_pos_of_ne_nil (hnames j (by omega))
      obtain ⟨fileDent', hround⟩ := @fileInfoLoop_round cfg k p fileDent buffer i.val (m + 1) _ dLoop
        (by rw [dirReadAt_entry, hread]) (nameLength_le _) hname
      rw [hround, dirReadAt_entry, hread]
      refine ih (show j + 1 + m = _ by omega) ?_ _ _ _
      rw [printFileLine_pcb, fdTable_setFdTable, htable]
      unfold addOffset
      rw [fdIndex?_val]
      simp only [Function.update_idem, Function.update_self]
      rw [UInt32.ofNat_add]
      rfl

/-! ## A table without a free entry -/

theorem dirReadAt_none {fd : Int} (hfd : fdIndex? fd = none) (buf : Bytes) (nbytes : Int) :
    ((dirReadAt cfg k p fd buf nbytes).kernel.pcb p) = k.pcb p := by
  unfold dirReadAt
  simp only
  split_ifs
  · rfl
  · unfold addOffset
    rw [hfd]
    simp only [setFdTable, setPcb, Function.update_self]

/-- Nothing moves the position a failed `dir_open` has left behind: the loop does not end. -/
theorem fileInfoLoop_stuck {fd : Int} (hfd : fdIndex? fd = none)
    (hpos : getFilePosition (k.pcb p) fd < cfg.fs.numEntries)
    (hname : (cfg.fs.entries (getFilePosition (k.pcb p) fd).toNat).name ≠ []) (calls : Nat)
    (dLoop : UInt32) (fileDent : Dentry) (buffer : Bytes) :
    fileInfoLoop cfg p fd calls dLoop fileDent buffer k = none := by
  induction calls generalizing k dLoop fileDent buffer with
  | zero => rfl
  | succ calls ih =>
      have hret : (dirReadAt cfg k p fd buffer 32).ret
          = toRet (nameLength (cfg.fs.entries (getFilePosition (k.pcb p) fd).toNat).fileName) := by
        unfold dirReadAt
        simp only [if_neg (UInt32.not_le.2 hpos), scan_name, min_nameLength]
      have hlen : 0 < nameLength (cfg.fs.entries (getFilePosition (k.pcb p) fd).toNat).fileName := by
        rw [← name_length]
        exact List.length_pos_of_ne_nil hname
      obtain ⟨fileDent', hround⟩ := @fileInfoLoop_round cfg k p fileDent buffer fd calls _ dLoop
        hret (nameLength_le _) hlen
      have hpcb := @dirReadAt_none cfg k p fd hfd buffer 32
      rw [hround]
      refine ih ?_ ?_ _ _ _
      · rw [printFileLine_pcb, hpcb]
        exact hpos
      · rw [printFileLine_pcb, hpcb]
        exact hname

theorem fileInfoLoop_end {fd : Int} (hfd : fdIndex? fd = none)
    (hpos : cfg.fs.numEntries ≤ getFilePosition (k.pcb p) fd) (calls : Nat)
    (dLoop : UInt32) (fileDent : Dentry) (buffer : Bytes) :
    ∃ k', fileInfoLoop cfg p fd (calls + 1) dLoop fileDent buffer k = some k' ∧
      (k'.pcb p).fdTable = (k.pcb p).fdTable := by
  have hread : dirReadAt cfg k p fd buffer 32 = ⟨k, 0, buffer⟩ := by
    unfold dirReadAt
    simp only [ge_iff_le, hpos, if_true]
  refine ⟨_, by rw [fileInfoLoop, hread]; rfl, ?_⟩
  unfold fileClose closeFd
  rw [fdTable_setFdTable, hfd]

/-! ## The listing -/

/-- The listing is over after at most one call of `dir_read` for each entry and one more, and the table
    of the running process is as it was. -/
def ListsCleanly (cfg : Config) (k : Kernel) (p : Slot) (fileDent : Dentry) (buffer : Bytes) : Prop :=
  ∃ k', printFileInfo cfg k p fileDent buffer (cfg.fs.numEntries.toNat + 1) = some k' ∧
    (k'.pcb p).fdTable = (k.pcb p).fdTable

/-- With all entries in use the listing reads at descriptor `-1`. -/
theorem printFileInfo_full (hfree : getFdIndex (k.pcb p).fdTable = none) (calls : Nat)
    (fileDent : Dentry) (buffer : Bytes) :
    ∃ k1, printFileInfo cfg k p fileDent buffer calls
        = fileInfoLoop cfg p (-1) calls 0 fileDent buffer k1 ∧ k1.pcb p = k.pcb p := by
  have htable : ((k.setConsole k.console.clear).pcb p).fdTable = (k.pcb p).fdTable := rfl
  unfold printFileInfo dirOpen openWith
  rw [htable, hfree]
  exact ⟨_, rfl, rfl⟩

/-- And does not come back if it finds the index of an entry there. -/
theorem printFileInfo_stuck (hfree : getFdIndex (k.pcb p).fdTable = none)
    (hnames : ∀ j < cfg.fs.numEntries.toNat, (cfg.fs.entries j).name ≠ [])
    (hlt : (word32 fun j => (k.pcb p).args (120 + j)) < cfg.fs.numEntries) (calls : Nat)
    (fileDent : Dentry) (buffer : Bytes) : printFileInfo cfg k p fileDent buffer calls = none := by
  obtain ⟨k1, hrun, hpcb⟩ := @printFileInfo_full cfg k p hfree calls fileDent buffer
  have hpos : getFilePosition (k1.pcb p) (-1) = word32 fun j => (k.pcb p).args (120 + j) := by
    rw [hpcb]
    rfl
  rw [hrun]
  refine fileInfoLoop_stuck rfl ?_ ?_ calls 0 fileDent buffer
  · rw [hpos]
    exact hlt
  · rw [hpos]
    exact hnames _ (UInt32.lt_iff_toNat_lt.1 hlt)

/-- The listing ends cleanly exactly if there is a free entry in the table or what takes the place of
    the position is not the index of an entry. -/
theorem listsCleanly_iff (hfs : cfg.fs = filesystemInit img slots)
    (hnames : ∀ j < img.bootBlock.numDirEntries.toNat, (img.bootBlock.dirEntries j).name ≠ [])
    (hk : Reachable cfg k) (hp : k.currentPcb? = some p) (fileDent : Dentry) (buffer : Bytes) :
    ListsCleanly cfg k p fileDent buffer ↔
      (∃ i : FdIndex, 2 ≤ i.val ∧ ((k.pcb p).fdTable i).flags = fdOff) ∨
        img.bootBlock.numDirEntries ≤ word32 fun j => (k.pcb p).args (120 + j) := by
  have hentries : cfg.fs.entries = img.bootBlock.dirEntries := by rw [hfs]; rfl
  have hnum : cfg.fs.numEntries = img.bootBlock.numDirEntries := by rw [hfs]; rfl
  rw [← hnum, ← hentries] at hnames
  rw [← hnum]
  cases hfree : getFdIndex (k.pcb p).fdTable with
  | some i =>
      obtain ⟨hi, hoff, -⟩ := getFdIndex_eq_some.1 hfree
      -- with a free descriptor the directory is read to its end
      refine iff_of_true ?_ (Or.inl ⟨i, hi, hoff⟩)
      have htable : ((k.setConsole k.console.clear).pcb p).fdTable = (k.pcb p).fdTable := rfl
      unfold ListsCleanly printFileInfo dirOpen openWith
      rw [htable, hfree]
      simp only [toRet_fdIndex]
      refine fileInfoLoop_entry hnames (hk.freeClosed.running hp _ hoff) (Nat.zero_add _) ?_ 0 fileDent buffer
      rw [fdTable_setFdTable]
      rfl
  | none =>
      have hall := getFdIndex_eq_none.1 hfree
      rw [or_iff_right fun ⟨i, hi, hoff⟩ => hall i hi hoff]
      -- without one the loop asks for the position of descriptor -1, which lies in the arguments
      constructor
      · rintro ⟨k', hrun, -⟩
        by_contra hlt
        rw [printFileInfo_stuck hfree hnames (UInt32.not_le.1 hlt)] at hrun
        cases hrun
      · intro hle
        obtain ⟨k1, hrun, hpcb⟩ := @printFileInfo_full cfg k p hfree (cfg.fs.numEntries.toNat + 1)
          fileDent buffer
        have hpos : getFilePosition (k1.pcb p) (-1) = word32 fun j => (k.pcb p).args (120 + j) := by
          rw [hpcb]
          rfl
        unfold ListsCleanly
        rw [hrun, ← hpcb]
        exact fileInfoLoop_end rfl (by rw [hpos]; exact hle) _ 0 fileDent buffer

/-! ### On the small image -/

/-- The first shell, with all six entries free. -/
theorem listsCleanly_small :
    ListsCleanly smallConfig smallBooted 0 ⟨fun _ => 0, 0, 0⟩ emptyBuf := by
  obtain ⟨hpcb, htable⟩ := smallBooted_running
  refine (listsCleanly_iff rfl smallImage_wellFormed.nonempty smallBooted_reachable hpcb _ _).2
    (Or.inl ⟨2, le_rfl, ?_⟩)
  rw [htable]
  rfl

def openNote : Op := .openFile (some noteCommand) ⟨fun _ => 0, 0, 0⟩

/-- Process 0 runs with the first `m` entries in use, and arguments as the first shell has them. -/
structure FilledUp (k : Kernel) (m : Nat) : Prop where
  running : k.currentPcb? = some 0
  tableOk : TableOk (k.pcb 0).fdTable
  args : (k.pcb 0).args = (smallBooted.pcb 0).args
  on : ∀ i : FdIndex, 2 ≤ i.val → i.val < 2 + m → ((k.pcb 0).fdTable i).flags = fdOn

/-- Opening the text file takes the lowest free entry. -/
theorem FilledUp.openNote {m : Nat} (h : FilledUp k m) :
    ∃ k', k.next smallConfig openNote = some k' ∧ FilledUp k' (m + 1) := by
  obtain ⟨r, hr, hspec⟩ := openFile_spec h.running (smallConfig_note ⟨fun _ => 0, 0, 0⟩)
  have hstep : k.step smallConfig BaseOs.openNote = some (r.1, .ret r.2 emptyBuf) := by
    simp only [BaseOs.openNote, Kernel.step, hr, Option.map_some]
  have hnext : k.next smallConfig BaseOs.openNote = some r.1 := by
    simp only [Kernel.next, hstep, Option.map_some]
  obtain ⟨k2, hnext2, hrunning, hok⟩ := next_tableOk k BaseOs.openNote ⟨h.running, h.tableOk⟩ rfl
  obtain rfl := Option.some.inj (hnext.symm.trans hnext2)
  obtain ⟨r', hr', hchange⟩ := @openFile_change smallConfig k 0 h.running (some noteCommand)
    ⟨fun _ => 0, 0, 0⟩
  obtain rfl := Option.some.inj (hr.symm.trans hr')
  have hframe : ∀ i : FdIndex, r.2 ≠ toRet i.val → (r.1.pcb 0).fdTable i = (k.pcb 0).fdTable i :=
    fun i hne => hchange.frame (fun h => by cases h) fun _ _ _ => hne
  refine ⟨r.1, hnext, hrunning, hok, ((args_offDevices 0).step rfl rfl hstep).trans h.args,
    fun i hi hlt => ?_⟩
  cases hfree : getFdIndex (k.pcb 0).fdTable with
  | none =>
      rw [hfree] at hspec
      rw [hframe i (by rw [hspec]; exact (toRet_fdIndex_ne i).symm)]
      exact (h.tableOk.on_iff i).1 (getFdIndex_eq_none.1 hfree i hi)
  | some i0 =>
      rw [hfree] at hspec
      obtain ⟨hi0, hoff0, hbelow⟩ := getFdIndex_eq_some.1 hfree
      by_cases hii : i = i0
      · subst hii
        exact hspec.2.1
      · have hne : toRet i0.val ≠ toRet i.val := fun heq => hii <| Fin.ext <| by
          have hval := congrArg Int32.toInt heq
          rw [toRet_fdIndex, toRet_fdIndex] at hval
          exact_mod_cast hval.symm
        rw [hframe i (by rw [hspec.1]; exact hne)]
        -- the lowest free entry is `i0`, and the first `m` are in use
        have hpast : ¬ i0.val < 2 + m := fun hlt0 => (h.tableOk.on_iff i0).2 (h.on i0 hi0 hlt0) hoff0
        have hlt0 : i < i0 := by
          rw [Fin.lt_def]
          have : i.val ≠ i0.val := fun heq => hii (Fin.ext heq)
          omega
        exact (h.tableOk.on_iff i).1 (hbelow i hlt0 hi)

theorem run_openNote (m : Nat) :
    ∃ k', Runs.run (Kernel.next smallConfig) smallBooted (List.replicate m openNote) = some k' ∧
      FilledUp k' m := by
  induction m with
  | zero =>
      obtain ⟨hpcb, htable⟩ := smallBooted_running
      exact ⟨smallBooted, rfl, hpcb, by rw [htable]; exact tableOk_init, rfl, fun i _ _ => by omega⟩
  | succ m ih =>
      obtain ⟨k1, hrun, hfilled⟩ := ih
      obtain ⟨k2, hnext, hfilled2⟩ := hfilled.openNote
      refine ⟨k2, ?_, hfilled2⟩
      rw [List.replicate_succ', Runs.run_append_eq_some]
      exact ⟨k1, hrun, Runs.run_cons_eq_some.2 ⟨k2, hnext, rfl⟩⟩

/-- The first shell's PCB has no arguments, and nothing behind them. -/
theorem smallBooted_args (j : Nat) : (smallBooted.pcb 0).args j = 0 := by
  obtain ⟨entryPoint, hboot, -⟩ := smallBooted_spec
  obtain ⟨row, hrow, hargs⟩ := execute_args_eq (boot_freeSlot smallConfig smallMachine) hboot
  have hnone : argumentText shellCommand = [] := by decide
  rw [hnone] at hrow
  rw [hargs]
  unfold strcpy
  rw [hrow.scan (Nat.zero_le _)]
  simp only [List.length_nil, Nat.not_lt_zero, if_false]
  split_ifs
  · rfl
  · rfl

/-- With six files open in the first shell, Ctrl+1 does not come back. -/
theorem not_listsCleanly : ¬ ∀ (cfg : Config) (img : Image) (slots : Nat → Nat) (k : Kernel) (p : Slot)
    (fileDent : Dentry) (buffer : Bytes), cfg.fs = filesystemInit img slots →
    (∀ j < img.bootBlock.numDirEntries.toNat, (img.bootBlock.dirEntries j).name ≠ []) →
    Reachable cfg k → k.currentPcb? = some p → ListsCleanly cfg k p fileDent buffer := by
  intro hall
  obtain ⟨k', hrun, hpcb, -, hargs, hon⟩ := run_openNote 6
  have hreach := smallBooted_reachable.run hrun
  obtain ⟨k'', hends, -⟩ := hall smallConfig smallImage (fun _ => 0) k' 0 ⟨fun _ => 0, 0, 0⟩
    (fun _ => 0) rfl smallImage_wellFormed.nonempty hreach hpcb
  rw [printFileInfo_stuck] at hends
  · cases hends
  · refine getFdIndex_eq_none.2 fun i hi => ?_
    have := i.isLt
    rw [hon i hi (by omega)]
    decide
  · exact smallImage_wellFormed.nonempty
  · simp only [hargs, smallBooted_args]
    decide

end BaseOs
