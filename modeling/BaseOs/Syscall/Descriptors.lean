import BaseOs.Process.Table

set_option autoImplicit false

/-! # The descriptor table over whole runs

`check_valid_fd` tests the flags word, the call then goes through `fd_jump`. `TableOk` ties the two
together, and every descriptor call keeps it: `step_change` says what a call can do to the table. Here the
buffers are values; a buffer that lies in the table itself is the subject of `TableSafety`. -/

namespace BaseOs

open Kernel

/-! ## The table -/

/-- The keyboard and the terminal are open; every other entry is either closed or open on one of the
    clock, the directory and the files. -/
structure TableOk (table : FdTable) : Prop where
  keyboard : (table 0).flags = fdOn ∧ (table 0).fdJump = some .kybd
  terminal : (table 1).flags = fdOn ∧ (table 1).fdJump = some .term
  files : ∀ i : FdIndex, 2 ≤ i.val →
    ((table i).flags = fdOff ∧ (table i).fdJump = none ∧ (table i).inodePtr = -1 ∧
      (table i).filePosition = 0) ∨
    ((table i).flags = fdOn ∧
      ((table i).fdJump = some .rtc ∨ (table i).fdJump = some .dir ∨
        (table i).fdJump = some .filesys))

variable {table : FdTable} {i : FdIndex}

theorem tableOk_init : TableOk fdTableInit where
  keyboard := ⟨rfl, rfl⟩
  terminal := ⟨rfl, rfl⟩
  files i hi := by
    left
    have h0 : i ≠ 0 := by rintro rfl; simp at hi
    have h1 : i ≠ 1 := by rintro rfl; simp at hi
    simp [fdTableInit, h0, h1, Fd.closed]

theorem ne_zero_of_two_le (hi : 2 ≤ i.val) : (0 : FdIndex) ≠ i ∧ (1 : FdIndex) ≠ i := by
  constructor <;> rintro rfl <;> simp at hi

/-- Changing an entry from 2 on, within what is allowed there. -/
theorem TableOk.update (h : TableOk table) (hi : 2 ≤ i.val) {fd : Fd}
    (hfd : fd = Fd.closed ∨ (fd.flags = fdOn ∧
      (fd.fdJump = some .rtc ∨ fd.fdJump = some .dir ∨ fd.fdJump = some .filesys))) :
    TableOk (Function.update table i fd) := by
  obtain ⟨h0, h1⟩ := ne_zero_of_two_le hi
  refine ⟨?_, ?_, fun j hj => ?_⟩
  · rw [Function.update_of_ne h0]; exact h.keyboard
  · rw [Function.update_of_ne h1]; exact h.terminal
  · by_cases hji : j = i
    · subst hji
      rw [Function.update_self]
      rcases hfd with rfl | hopen
      · exact Or.inl ⟨rfl, rfl, rfl, rfl⟩
      · exact Or.inr hopen
    · rw [Function.update_of_ne hji]
      exact h.files j hj

/-- Every entry is closed, or one of the first two, or open on a device of its own. -/
theorem TableOk.entry (h : TableOk table) (i : FdIndex) :
    ((table i).flags = fdOff ∧ 2 ≤ i.val) ∨
    ((table i).flags = fdOn ∧ i.val < 2 ∧
      ((table i).fdJump = some .kybd ∨ (table i).fdJump = some .term)) ∨
    ((table i).flags = fdOn ∧ 2 ≤ i.val ∧
      ((table i).fdJump = some .rtc ∨ (table i).fdJump = some .dir ∨
        (table i).fdJump = some .filesys)) := by
  by_cases hi : 2 ≤ i.val
  · rcases h.files i hi with ⟨hoff, -⟩ | ⟨hon, hkind⟩
    · exact Or.inl ⟨hoff, hi⟩
    · exact Or.inr (Or.inr ⟨hon, hi, hkind⟩)
  · refine Or.inr (Or.inl ?_)
    rcases Nat.lt_or_ge i.val 1 with hz | ho
    · obtain rfl : i = 0 := Fin.ext (by simpa using hz)
      exact ⟨h.keyboard.1, by decide, Or.inl h.keyboard.2⟩
    · obtain rfl : i = 1 := Fin.ext (by simp only [Fin.val_one]; omega)
      exact ⟨h.terminal.1, by decide, Or.inr h.terminal.2⟩

/-- A valid descriptor has a jump table, one of the five. -/
theorem TableOk.jump (h : TableOk table) (hvalid : (table i).flags ≠ fdOff) :
    (table i).fdJump ≠ none ∧ ∀ address, (table i).fdJump ≠ some (.wild address) := by
  rcases h.entry i with ⟨hoff, -⟩ | ⟨-, -, hj | hj⟩ | ⟨-, -, hj | hj | hj⟩
  · exact absurd hoff hvalid
  all_goals simp [hj]

/-- Moving the position of an open file or directory. -/
theorem TableOk.move (h : TableOk table)
    (hjump : (table i).fdJump = some .dir ∨ (table i).fdJump = some .filesys) (pos : UInt32) :
    TableOk (Function.update table i { table i with filePosition := pos }) := by
  have hfile : (table i).flags = fdOn ∧ 2 ≤ i.val := by
    rcases h.entry i with ⟨-, hi⟩ | ⟨-, -, hj | hj⟩ | ⟨hon, hi, -⟩
    · rcases h.files i hi with ⟨-, hnone, -⟩ | ⟨hon, -⟩
      · simp [hnone] at hjump
      · exact ⟨hon, hi⟩
    · simp [hj] at hjump
    · simp [hj] at hjump
    · exact ⟨hon, hi⟩
  exact h.update hfile.2 (Or.inr ⟨hfile.1, Or.inr hjump⟩)

theorem isFree_iff (table : FdTable) (i : FdIndex) :
    (decide (firstValidIndex ≤ i.val) && (table i).flags == fdOff) = true ↔
      2 ≤ i.val ∧ (table i).flags = fdOff := by
  rw [Bool.and_eq_true, decide_eq_true_eq, beq_iff_eq]
  exact Iff.rfl

theorem getFdIndex_eq_some :
    getFdIndex table = some i ↔
      2 ≤ i.val ∧ (table i).flags = fdOff ∧ ∀ j < i, 2 ≤ j.val → (table j).flags ≠ fdOff := by
  unfold getFdIndex
  simp only [Fin.find?_eq_some_iff, isFree_iff, Bool.eq_false_iff, ne_eq, not_and, and_assoc]

theorem getFdIndex_eq_none :
    getFdIndex table = none ↔ ∀ i : FdIndex, 2 ≤ i.val → (table i).flags ≠ fdOff := by
  unfold getFdIndex
  simp only [Fin.find?_eq_none_iff, Bool.eq_false_iff, ne_eq, isFree_iff, not_and]

/-! ## What a call does to the table -/

/-- The system calls on descriptors. -/
def Op.isDescriptor : Op → Bool
  | .openFile .. | .read .. | .write .. | .close .. => true
  | _ => false

/-- The ways a descriptor call can change the table, with the value it returns. -/
inductive Change (table : FdTable) : Op → Int32 → FdTable → Prop
  | same (op : Op) (v : Int32) : Change table op v table
  | opened {filename : Option Bytes} {dentry : Dentry} {i : FdIndex} {fd : Fd}
      (free : getFdIndex table = some i) (on : fd.flags = fdOn) (start : fd.filePosition = 0)
      (kind : fd.fdJump = some .rtc ∨ fd.fdJump = some .dir ∨ fd.fdJump = some .filesys) :
      Change table (.openFile filename dentry) (toRet i.val) (Function.update table i fd)
  | moved {i : FdIndex} {buf : Option Bytes} {nbytes : Int} {line : Bytes} (v : Int32) (pos : UInt32)
      (kind : (table i).fdJump = some .dir ∨ (table i).fdJump = some .filesys) :
      Change table (.read i.val buf nbytes line) v
        (Function.update table i { table i with filePosition := pos })
  | closed {i : FdIndex} (file : 2 ≤ i.val) :
      Change table (.close i.val) 0 (Function.update table i Fd.closed)

theorem Change.tableOk {op : Op} {v : Int32} {table' : FdTable} (hc : Change table op v table')
    (h : TableOk table) : TableOk table' := by
  cases hc with
  | same => exact h
  | opened free on _ kind => exact h.update (getFdIndex_eq_some.1 free).1 (Or.inr ⟨on, kind⟩)
  | moved _ pos kind => exact h.move kind pos
  | closed file => exact h.update file (Or.inl rfl)

/-- The descriptor a call names. -/
def Op.descriptor? : Op → Option Int
  | .read fd .. | .write fd .. | .close fd => some fd
  | _ => none

/-- A call touches only the descriptor it names or returns. -/
theorem Change.frame {op : Op} {v : Int32} {table' : FdTable} (hc : Change table op v table')
    {j : FdIndex} (hnamed : op.descriptor? ≠ some (j.val : Int))
    (hreturned : ∀ filename dentry, op = .openFile filename dentry → v ≠ toRet j.val) :
    table' j = table j := by
  cases hc with
  | same => rfl
  | @opened filename dentry i _ =>
      refine Function.update_of_ne ?_ _ _
      rintro rfl
      exact hreturned filename dentry rfl rfl
  | moved | closed =>
      refine Function.update_of_ne ?_ _ _
      rintro rfl
      exact hnamed rfl

variable {cfg : Config} {k k' : Kernel} {p : Slot}

/-- The common end of the `open` routines. -/
theorem openWith_change {fd : Fd} {message : List UInt8} (filename : Option Bytes) (dentry : Dentry)
    (on : fd.flags = fdOn) (start : fd.filePosition = 0)
    (kind : fd.fdJump = some .rtc ∨ fd.fdJump = some .dir ∨ fd.fdJump = some .filesys) :
    Change (k.pcb p).fdTable (.openFile filename dentry) (openWith k p fd message).2
      ((openWith k p fd message).1.pcb p).fdTable := by
  unfold openWith
  cases hfree : getFdIndex (k.pcb p).fdTable with
  | none => exact .same _ _
  | some i =>
      simp only [fdTable_setFdTable]
      exact .opened hfree on start kind

theorem openFile_change (hp : k.currentPcb? = some p) (filename : Option Bytes) (dentry : Dentry) :
    ∃ r, openFile cfg k filename dentry = some r ∧
      Change (k.pcb p).fdTable (.openFile filename dentry) r.2 (r.1.pcb p).fdTable := by
  unfold openFile
  cases filename with
  | none => exact ⟨_, rfl, .same _ _⟩
  | some filename =>
      cases hfound : readDentryByName cfg.fs filename dentry with
      | none =>
          simp only [hfound]
          exact ⟨_, rfl, .same _ _⟩
      | some found =>
          simp only [hfound, hp]
          split_ifs
          · exact ⟨_, rfl, openWith_change (k := { k with rtc := setFrequency cfg.rtcMemory k.rtc 2 })
              _ _ rfl rfl (Or.inl rfl)⟩
          · exact ⟨_, rfl, openWith_change _ _ rfl rfl (Or.inr (Or.inl rfl))⟩
          · exact ⟨_, rfl, openWith_change _ _ rfl rfl (Or.inr (Or.inr rfl))⟩

theorem checkValidFd_eq {fd : Int} (h : fdIndex? fd = some i) :
    checkValidFd table fd = ((table i).flags != 0) := by
  unfold checkValidFd
  rw [h]

/-- `file_read` moves the position by what `read_data` returned, whatever that was. -/
theorem fileRead_table (k : Kernel) (p : Slot) (i : FdIndex) (buf : Bytes) (nbytes : Int) :
    ((fileRead cfg k p i buf nbytes).kernel.pcb p).fdTable =
      Function.update (k.pcb p).fdTable i { (k.pcb p).fdTable i with
        filePosition := ((k.pcb p).fdTable i).filePosition
          + (fileRead cfg k p i buf nbytes).ret.toUInt32 } := by
  unfold fileRead
  simp only
  split_ifs with hpos
  · simp only [fdTable_setFdTable, addOffset, fdIndex?_val]
  · -- nothing was read: the position stays
    have hzero : (readData cfg.fs ((k.pcb p).fdTable i).inodePtr.toUInt32
        ((k.pcb p).fdTable i).filePosition (toU32 nbytes)).ret.toUInt32 = 0 := by
      by_contra hne
      exact hpos (UInt32.pos_iff_ne_zero.2 hne)
    rw [hzero, UInt32.add_zero, Function.update_eq_self]

theorem fileRead_change (k : Kernel) (p : Slot) (i : FdIndex) (buf : Bytes) (nbytes : Int)
    (buf' : Option Bytes) (line : Bytes) (hjump : ((k.pcb p).fdTable i).fdJump = some .filesys) :
    Change (k.pcb p).fdTable (.read i.val buf' nbytes line) (fileRead cfg k p i buf nbytes).ret
      ((fileRead cfg k p i buf nbytes).kernel.pcb p).fdTable := by
  rw [fileRead_table]
  exact .moved _ _ (Or.inr hjump)

theorem dirRead_change (k : Kernel) (p : Slot) (i : FdIndex) (buf : Bytes) (nbytes : Int)
    (buf' : Option Bytes) (line : Bytes) (hjump : ((k.pcb p).fdTable i).fdJump = some .dir) :
    Change (k.pcb p).fdTable (.read i.val buf' nbytes line) (dirRead cfg k p i buf nbytes).ret
      ((dirRead cfg k p i buf nbytes).kernel.pcb p).fdTable := by
  unfold dirRead
  simp only
  split_ifs
  · exact .same _ _
  · simp only [fdTable_setFdTable, addOffset, fdIndex?_val]
    exact .moved _ _ (Or.inl hjump)

theorem readCall_change (hp : k.currentPcb? = some p) (hok : TableOk (k.pcb p).fdTable) (fd : Int)
    (buf : Option Bytes) (nbytes : Int) (line : Bytes) :
    ∃ r, readCall cfg k fd buf nbytes line = some r ∧
      Change (k.pcb p).fdTable (.read fd buf nbytes line) r.ret (r.kernel.pcb p).fdTable := by
  unfold readCall
  cases hfd : fdIndex? fd with
  | none => exact ⟨_, rfl, .same _ _⟩
  | some i =>
      obtain rfl := fdIndex?_eq_some.1 hfd
      simp only [hp, checkValidFd_eq hfd]
      split_ifs with hvalid
      · cases buf with
        | none => exact ⟨_, rfl, .same _ _⟩
        | some buf =>
            obtain ⟨hnull, hwild⟩ := hok.jump (i := i) (by simpa [fdOff] using hvalid)
            cases hjump : ((k.pcb p).fdTable i).fdJump with
            | none => exact absurd hjump hnull
            | some t =>
                cases t with
                | wild address => exact absurd hjump (hwild address)
                | rtc => exact ⟨_, rfl, .same _ _⟩
                | filesys => exact ⟨_, rfl, fileRead_change k p i buf nbytes _ _ hjump⟩
                | dir => exact ⟨_, rfl, dirRead_change k p i buf nbytes _ _ hjump⟩
                | term => exact ⟨_, rfl, .same _ _⟩
                | kybd => exact ⟨_, rfl, .same _ _⟩
      · exact ⟨_, rfl, .same _ _⟩

theorem writeCall_change (hp : k.currentPcb? = some p) (hok : TableOk (k.pcb p).fdTable) (fd : Int)
    (buf : Option Bytes) (nbytes : Int) :
    ∃ r, writeCall cfg k fd buf nbytes = some r ∧
      Change (k.pcb p).fdTable (.write fd buf nbytes) r.2 (r.1.pcb p).fdTable := by
  unfold writeCall
  cases hfd : fdIndex? fd with
  | none => exact ⟨_, rfl, .same _ _⟩
  | some i =>
      simp only [hp, checkValidFd_eq hfd]
      split_ifs with hvalid
      · cases buf with
        | none => exact ⟨_, rfl, .same _ _⟩
        | some buf =>
            obtain ⟨hnull, hwild⟩ := hok.jump (i := i) (by simpa [fdOff] using hvalid)
            cases hjump : ((k.pcb p).fdTable i).fdJump with
            | none => exact absurd hjump hnull
            | some t =>
                cases t with
                | wild address => exact absurd hjump (hwild address)
                | _ => exact ⟨_, rfl, .same _ _⟩
      · exact ⟨_, rfl, .same _ _⟩

theorem closeFd_change (k : Kernel) (p : Slot) (hi : 2 ≤ i.val) :
    Change (k.pcb p).fdTable (.close i.val) 0
      ((k.setFdTable p (closeFd (k.pcb p).fdTable i.val)).pcb p).fdTable := by
  simp only [fdTable_setFdTable, closeFd, fdIndex?_val]
  exact .closed hi

theorem neg_one_ne_zero : ¬ (-1 : Int32) = 0 := by decide

/-- `close`: it works exactly on the open entries from 2 on. -/
theorem closeCall_change (hp : k.currentPcb? = some p) (hok : TableOk (k.pcb p).fdTable) (fd : Int) :
    ∃ r, closeCall k fd = some r ∧
      Change (k.pcb p).fdTable (.close fd) r.2 (r.1.pcb p).fdTable ∧
      (r.2 = 0 ↔ ∃ i : FdIndex, fd = i.val ∧ 2 ≤ i.val ∧ ((k.pcb p).fdTable i).flags = fdOn) := by
  unfold closeCall
  cases hfd : fdIndex? fd with
  | none =>
      refine ⟨_, rfl, .same _ _, iff_of_false neg_one_ne_zero ?_⟩
      rintro ⟨i, rfl, -⟩
      rw [fdIndex?_val] at hfd
      cases hfd
  | some i =>
      obtain rfl := fdIndex?_eq_some.1 hfd
      have hentry : (∃ j : FdIndex, (i.val : Int) = j.val ∧ 2 ≤ j.val ∧
          ((k.pcb p).fdTable j).flags = fdOn) ↔ 2 ≤ i.val ∧ ((k.pcb p).fdTable i).flags = fdOn := by
        constructor
        · rintro ⟨j, hj, h2, hon⟩
          obtain rfl : i = j := Fin.ext (by omega)
          exact ⟨h2, hon⟩
        · rintro ⟨h2, hon⟩
          exact ⟨i, rfl, h2, hon⟩
      rw [hentry]
      simp only [hp, checkValidFd_eq hfd]
      split_ifs with hvalid
      · rcases hok.entry i with ⟨hoff, -⟩ | ⟨hon, hlt, hj | hj⟩ | ⟨hon, hge, hj | hj | hj⟩
        · rw [hoff] at hvalid
          cases hvalid
        · simp only [hj]
          exact ⟨_, rfl, .same _ _, iff_of_false neg_one_ne_zero fun h => by omega⟩
        · simp only [hj]
          exact ⟨_, rfl, .same _ _, iff_of_false neg_one_ne_zero fun h => by omega⟩
        · simp only [hj]
          have hin : ¬ ((i.val : Int) < firstValidIndex ∨ (i.val : Int) > maxOpenFiles) := by
            unfold firstValidIndex maxOpenFiles
            omega
          unfold rtcClose
          rw [if_neg hin]
          exact ⟨_, rfl, closeFd_change k p hge, iff_of_true rfl ⟨hge, hon⟩⟩
        · simp only [hj]
          exact ⟨_, rfl, closeFd_change k p hge, iff_of_true rfl ⟨hge, hon⟩⟩
        · simp only [hj]
          exact ⟨_, rfl, closeFd_change k p hge, iff_of_true rfl ⟨hge, hon⟩⟩
      · refine ⟨_, rfl, .same _ _, iff_of_false neg_one_ne_zero ?_⟩
        rintro ⟨-, hon⟩
        rw [hon] at hvalid
        exact hvalid rfl

/-! ## `open` of an existing name -/

theorem openWith_spec (k : Kernel) (p : Slot) (fd : Fd) (message : List UInt8) :
    match getFdIndex (k.pcb p).fdTable with
    | none => (openWith k p fd message).2 = -1
    | some i => (openWith k p fd message).2 = toRet i.val ∧
        ((openWith k p fd message).1.pcb p).fdTable i = fd := by
  unfold openWith
  cases getFdIndex (k.pcb p).fdTable with
  | none => rfl
  | some i =>
      simp only [fdTable_setFdTable, setFdInfo, Function.update_self]
      exact ⟨trivial, trivial⟩

/-- The lowest free entry, at position 0; or `-1` when there is none. -/
theorem openFile_spec (hp : k.currentPcb? = some p) {filename : Bytes} {dentry found : Dentry}
    (hfound : readDentryByName cfg.fs filename dentry = some found) :
    ∃ r, openFile cfg k (some filename) dentry = some r ∧
      match getFdIndex (k.pcb p).fdTable with
      | none => r.2 = -1
      | some i => r.2 = toRet i.val ∧ ((r.1.pcb p).fdTable i).flags = fdOn ∧
          ((r.1.pcb p).fdTable i).filePosition = 0 := by
  have hopen : ∃ (k0 : Kernel) (fd : Fd) (message : List UInt8),
      openFile cfg k (some filename) dentry = some (openWith k0 p fd message) ∧
        k0.pcb = k.pcb ∧ fd.flags = fdOn ∧ fd.filePosition = 0 := by
    unfold openFile
    simp only [hfound, hp]
    split_ifs
    · exact ⟨_, _, _, rfl, rfl, rfl, rfl⟩
    · exact ⟨_, _, _, rfl, rfl, rfl, rfl⟩
    · exact ⟨_, _, _, rfl, rfl, rfl, rfl⟩
  obtain ⟨k0, fd, message, hcall, hpcb, hon, hpos⟩ := hopen
  refine ⟨_, hcall, ?_⟩
  have hspec := openWith_spec k0 p fd message
  rw [hpcb] at hspec
  cases hfree : getFdIndex (k.pcb p).fdTable with
  | none =>
      rw [hfree] at hspec
      exact hspec
  | some i =>
      rw [hfree] at hspec
      exact ⟨hspec.1, by rw [hspec.2]; exact hon, by rw [hspec.2]; exact hpos⟩

theorem toRet_fdIndex_ne (i : FdIndex) : toRet i.val ≠ -1 := by
  revert i
  decide

/-! ## Whole runs -/

theorem TableOk.on_iff (h : TableOk table) (i : FdIndex) :
    (table i).flags ≠ fdOff ↔ (table i).flags = fdOn := by
  constructor
  · intro hne
    rcases h.entry i with ⟨hoff, -⟩ | ⟨hon, -⟩ | ⟨hon, -⟩
    · exact absurd hoff hne
    · exact hon
    · exact hon
  · intro hon
    rw [hon]
    decide

/-- One call, seen from the running process. -/
theorem step_change {op : Op} (hp : k.currentPcb? = some p) (hok : TableOk (k.pcb p).fdTable)
    (hop : op.isDescriptor = true) :
    ∃ k' v buf, k.step cfg op = some (k', .ret v buf) ∧
      Change (k.pcb p).fdTable op v (k'.pcb p).fdTable := by
  cases op with
  | openFile filename dentry =>
      obtain ⟨r, hr, hc⟩ := @openFile_change cfg k p hp filename dentry
      exact ⟨r.1, r.2, emptyBuf, by simp only [Kernel.step, hr, Option.map_some], hc⟩
  | read fd buf nbytes line =>
      obtain ⟨r, hr, hc⟩ := @readCall_change cfg k p hp hok fd buf nbytes line
      exact ⟨r.kernel, r.ret, r.buf, by simp only [Kernel.step, hr, Option.map_some], hc⟩
  | write fd buf nbytes =>
      obtain ⟨r, hr, hc⟩ := @writeCall_change cfg k p hp hok fd buf nbytes
      exact ⟨r.1, r.2, emptyBuf, by simp only [Kernel.step, hr, Option.map_some], hc⟩
  | close fd =>
      obtain ⟨r, hr, hc, -⟩ := closeCall_change hp hok fd
      exact ⟨r.1, r.2, emptyBuf, by simp only [Kernel.step, hr, Option.map_some], hc⟩
  | _ => cases hop

theorem SameProcs.currentPcb? (h : SameProcs k k') : k'.currentPcb? = k.currentPcb? := by
  unfold Kernel.currentPcb?
  rw [h.currTerminal, h.currentProcess, h.processArray]

/-- A descriptor call of the process `p` goes through and keeps its table in order. -/
theorem next_tableOk (k : Kernel) (op : Op)
    (h : k.currentPcb? = some p ∧ TableOk (k.pcb p).fdTable) (hop : op.isDescriptor = true) :
    ∃ k', k.next cfg op = some k' ∧ k'.currentPcb? = some p ∧ TableOk (k'.pcb p).fdTable := by
  obtain ⟨k', v, buf, hstep, hc⟩ := @step_change cfg k p op h.1 h.2 hop
  have hdevice : op.isDevice = true := by
    cases op <;> first | rfl | cases hop
  refine ⟨k', by simp only [Kernel.next, hstep, Option.map_some], ?_, hc.tableOk h.2⟩
  rw [(step_device hdevice hstep).1.currentPcb?]
  exact h.1

/-- From a fresh table on, a sequence of descriptor calls goes through and keeps the table in order. -/
theorem run_tableOk (hp : k.currentPcb? = some p) (hinit : (k.pcb p).fdTable = fdTableInit)
    {ops : List Op} (hops : ∀ op ∈ ops, op.isDescriptor = true) :
    ∃ k', Runs.run (Kernel.next cfg) k ops = some k' ∧ k'.currentPcb? = some p ∧
      TableOk (k'.pcb p).fdTable := by
  have hstart : k.currentPcb? = some p ∧ TableOk (k.pcb p).fdTable := by
    rw [hinit]
    exact ⟨hp, tableOk_init⟩
  exact Runs.run_isSome next_tableOk hstart (Runs.allSteps_of_labels hops k)

/-- The first shell of the small machine runs with a fresh table. -/
theorem smallBooted_running :
    smallBooted.currentPcb? = some 0 ∧ (smallBooted.pcb 0).fdTable = fdTableInit := by
  obtain ⟨-, -, hst⟩ := smallBooted_spec
  obtain ⟨hs, -⟩ := boot_sessions hst
  obtain ⟨p, rest, -, hcur, hpcb⟩ := hs.running
  obtain rfl : p = 0 := by
    rw [hst.currentProcess, hst.currTerminal, Function.update_self] at hcur
    exact Fin.ext (by simpa using hcur.symm)
  exact ⟨hpcb, hst.fdTable⟩

end BaseOs
