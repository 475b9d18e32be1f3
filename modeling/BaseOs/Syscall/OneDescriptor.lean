import BaseOs.FileSystem.Directory
import BaseOs.Lib.Logs
import BaseOs.Syscall.Descriptors

set_option autoImplicit false

/-! # Calls around one descriptor

A process has a file or a directory open at descriptor `i` and reads it, with other descriptor calls in
between. Seen from the entry of the table there are two kinds of calls: reads of it, and calls that leave
it alone (`step_around`). The files and the directory are followed over whole runs with this. -/

namespace BaseOs

open Kernel

variable {cfg : Config} {k k' : Kernel} {p : Slot} {i : FdIndex}

/-! ## The two kinds of calls -/

/-- The calls made while descriptor `i` is read: reads of it into a buffer with a size from 0 on, and any
    descriptor call that does not name it. -/
def Op.ReadsOrElsewhere (i : FdIndex) : Op → Prop
  | .read fd buf nbytes _ => fd = i.val → buf.isSome = true ∧ 0 ≤ nbytes ∧ nbytes < 2 ^ 31
  | .openFile .. => True
  | .write fd .. => fd ≠ i.val
  | .close fd => fd ≠ i.val
  | _ => False

/-- A call that names another descriptor leaves an open entry alone: `open` only returns entries that
    are off. -/
theorem Change.keeps {table table' : FdTable} {op : Op} {v : Int32} (hc : Change table op v table')
    (hon : (table i).flags = fdOn) (hnamed : op.descriptor? ≠ some (i.val : Int)) :
    table' i = table i := by
  cases hc with
  | same => rfl
  | opened free =>
      refine Function.update_of_ne ?_ _ _
      rintro rfl
      rw [(getFdIndex_eq_some.1 free).2.1] at hon
      cases hon
  | moved | closed =>
      refine Function.update_of_ne ?_ _ _
      rintro rfl
      exact hnamed rfl

theorem Op.ReadsOrElsewhere.isDescriptor {op : Op} (h : op.ReadsOrElsewhere i) :
    op.isDescriptor = true := by
  cases op <;> first | rfl | cases h

/-- The two kinds of calls. -/
theorem Op.ReadsOrElsewhere.cases {op : Op} (h : op.ReadsOrElsewhere i) :
    (∃ buf nbytes line, op = .read i.val (some buf) nbytes line ∧ 0 ≤ nbytes ∧ nbytes < 2 ^ 31) ∨
    op.descriptor? ≠ some (i.val : Int) := by
  cases op with
  | read fd buf nbytes line =>
      by_cases hfd : fd = i.val
      · obtain ⟨hbuf, h0, hn⟩ := h hfd
        obtain ⟨buf, rfl⟩ := Option.isSome_iff_exists.1 hbuf
        exact Or.inl ⟨buf, nbytes, line, by rw [hfd], h0, hn⟩
      · exact Or.inr fun hsome => hfd (Option.some.inj hsome)
  | openFile => exact Or.inr (by simp [Op.descriptor?])
  | write fd => exact Or.inr fun hsome => h (Option.some.inj hsome)
  | close fd => exact Or.inr fun hsome => h (Option.some.inj hsome)
  | _ => cases h

/-- A read changes nothing of an entry but its position. -/
theorem Change.read_entry {table table' : FdTable} {fd : Int} {buf : Option Bytes} {nbytes : Int}
    {line : Bytes} {v : Int32} (hc : Change table (.read fd buf nbytes line) v table') (j : FdIndex) :
    ∃ pos, table' j = { table j with filePosition := pos } := by
  cases hc with
  | same => exact ⟨(table j).filePosition, rfl⟩
  | @moved i' _ _ _ _ pos _ =>
      by_cases hj : j = i'
      · subst hj
        exact ⟨pos, Function.update_self ..⟩
      · exact ⟨(table j).filePosition, Function.update_of_ne hj _ _⟩

/-! ## While the descriptor is open -/

/-- The process is running with its table in order and descriptor `i` open. -/
structure HasOpen (p : Slot) (i : FdIndex) (k : Kernel) : Prop where
  running : k.currentPcb? = some p
  table : TableOk (k.pcb p).fdTable
  flags : ((k.pcb p).fdTable i).flags = fdOn

/-- One call while descriptor `i` is open: it goes through, and is a read of `i` or leaves the entry
    alone. -/
theorem step_around {op : Op} (h : HasOpen p i k) (hop : op.ReadsOrElsewhere i) :
    ∃ k' v buf', k.step cfg op = some (k', .ret v buf') ∧ HasOpen p i k' ∧
      ((∃ buf nbytes line, op = .read i.val (some buf) nbytes line ∧ 0 ≤ nbytes ∧ nbytes < 2 ^ 31) ∨
        (op.descriptor? ≠ some (i.val : Int) ∧ (k'.pcb p).fdTable i = (k.pcb p).fdTable i)) := by
  obtain ⟨k', v, buf', hstep, hc⟩ := @step_change cfg k p op h.running h.table hop.isDescriptor
  have hdevice : op.isDevice = true := by
    have := hop.isDescriptor
    cases op <;> first | rfl | cases this
  have hrunning : k'.currentPcb? = some p := by
    rw [(step_device hdevice hstep).1.currentPcb?]
    exact h.running
  rcases hop.cases with ⟨buf, nbytes, line, rfl, hn⟩ | hnamed
  · obtain ⟨pos, hentry⟩ := hc.read_entry i
    refine ⟨k', v, buf', hstep, ⟨hrunning, hc.tableOk h.table, ?_⟩, Or.inl ⟨buf, nbytes, line, rfl, hn⟩⟩
    rw [hentry]
    exact h.flags
  · have hkeep := hc.keeps h.flags hnamed
    refine ⟨k', v, buf', hstep, ⟨hrunning, hc.tableOk h.table, ?_⟩, Or.inr ⟨hnamed, hkeep⟩⟩
    rw [hkeep]
    exact h.flags

/-- A read of the descriptor goes to its driver. -/
theorem readCall_around (h : HasOpen p i k) (buf : Bytes) (nbytes : Int) (line : Bytes) :
    (((k.pcb p).fdTable i).fdJump = some .filesys →
      readCall cfg k i.val (some buf) nbytes line = some (fileRead cfg k p i buf nbytes)) ∧
    (((k.pcb p).fdTable i).fdJump = some .dir →
      readCall cfg k i.val (some buf) nbytes line = some (dirRead cfg k p i buf nbytes)) := by
  have hvalid : checkValidFd (k.pcb p).fdTable i.val = true := by
    rw [checkValidFd_eq (fdIndex?_val i), h.flags]
    rfl
  constructor
  · intro hjump
    simp only [readCall, fdIndex?_val, h.running, hvalid, if_true, hjump]
  · intro hjump
    simp only [readCall, fdIndex?_val, h.running, hvalid, if_true, hjump]

/-! ## Opening it -/

theorem toRet_fdIndex_inj {i j : FdIndex} (h : toRet i.val = toRet j.val) : i = j := by
  revert i j
  decide

theorem openFile_free (hp : k.currentPcb? = some p) {name : Bytes} {dentry found : Dentry}
    (hname : readDentryByName cfg.fs name dentry = some found)
    (hfree : getFdIndex (k.pcb p).fdTable = some i) :
    ∃ k', openFile cfg k (some name) dentry = some (k', toRet i.val) := by
  obtain ⟨r, hopen, hspec⟩ := openFile_spec hp hname
  rw [hfree] at hspec
  exact ⟨r.1, by rw [hopen, ← hspec.1]⟩

/-- The entry `open` returns for a directory or a file, at position 0. -/
theorem openFile_entry (hp : k.currentPcb? = some p) (hok : TableOk (k.pcb p).fdTable) {name : Bytes}
    {dentry found : Dentry} (hname : readDentryByName cfg.fs name dentry = some found)
    (htype : found.fileType ≠ 0) (hopen : openFile cfg k (some name) dentry = some (k', toRet i.val)) :
    HasOpen p i k' ∧ (k'.pcb p).fdTable i =
      if found.fileType = 1 then ⟨some .dir, -1, 0, fdOn⟩
      else ⟨some .filesys, found.inodeIdx.toInt32, 0, fdOn⟩ := by
  obtain ⟨info, message, hinfo, hcall⟩ : ∃ info message,
      info = (if found.fileType = 1 then (⟨some .dir, -1, 0, fdOn⟩ : Fd)
        else ⟨some .filesys, found.inodeIdx.toInt32, 0, fdOn⟩) ∧
      openFile cfg k (some name) dentry = some (openWith k p info message) := by
    refine ⟨_, if found.fileType = 1 then ascii "No Available FD, dir_open\n"
      else ascii "No Available FD, file_open\n", rfl, ?_⟩
    simp only [openFile, hname, hp, if_neg htype]
    split_ifs
    · rfl
    · simp only [fileOpen, hname, Option.getD_some]
  have hentry : (k'.pcb p).fdTable i = info := by
    have hspec := openWith_spec k p info message
    rw [hcall] at hopen
    rw [Option.some.inj hopen] at hspec
    cases hfree : getFdIndex (k.pcb p).fdTable with
    | none =>
        rw [hfree] at hspec
        exact absurd hspec (toRet_fdIndex_ne i)
    | some j =>
        rw [hfree] at hspec
        obtain rfl := toRet_fdIndex_inj hspec.1
        exact hspec.2
  obtain ⟨r, hr, hc⟩ := @openFile_change cfg k p hp (some name) dentry
  rw [hopen] at hr
  cases hr
  have hstep : k.step cfg (.openFile (some name) dentry) = some (k', .ret (toRet i.val) emptyBuf) := by
    simp only [Kernel.step, hopen, Option.map_some]
  refine ⟨⟨?_, hc.tableOk hok, ?_⟩, by rw [hentry, hinfo]⟩
  · rw [(step_device rfl hstep).1.currentPcb?]
    exact hp
  · rw [hentry, hinfo]
    split_ifs <;> rfl

end BaseOs
