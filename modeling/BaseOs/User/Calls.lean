import BaseOs.FileSystem.Directory
import BaseOs.Lib.Programs
import BaseOs.Process.Arguments
import BaseOs.Syscall.FileReading

set_option autoImplicit false

/-! # User programs and their system calls (`syscalls/`)

A user program runs in the state of the kernel and makes system calls. What is not its own doing is part
of the state, too: the local variable of `open` that the kernel does not initialise, and the line that the
keyboard has ready. Between two calls anything may happen that leaves the process running and its
descriptors and arguments as they were (`LeavesAlone`): interrupts, output of the kernel, other terminals.
For each call there is one rule about what it answers and what it does to the descriptor table and to the
output of the program; programs are followed with these. -/

namespace BaseOs

open Kernel Programs

/-! ## Calls -/

/-- The system calls of the programs, with their arguments. -/
inductive UserCall
  | getargs (buf : Bytes) (nbytes : Int32)
  | openFile (filename : Bytes)
  | read (fd : Int32) (buf : Bytes) (nbytes : Int32)
  | write (fd : Int32) (buf : Bytes) (nbytes : Int32)
  | close (fd : Int32)

/-- What is in `eax` after a call, and what is in the buffer it was given. -/
structure Answer where
  ret : Int32
  buf : Bytes

/-- The state a program runs in: the kernel, what it has answered so far, and what is not determined by
    them. -/
structure Machine where
  kernel : Kernel
  log : List (Op × Out)
  dentry : Dentry
  line : Bytes

def UserCall.op (m : Machine) : UserCall → Op
  | .getargs buf nbytes => .getargs (some buf) nbytes.toInt
  | .openFile filename => .openFile (some filename) m.dentry
  | .read fd buf nbytes => .read fd.toInt (some buf) nbytes.toInt m.line
  | .write fd buf nbytes => .write fd.toInt (some buf) nbytes.toInt
  | .close fd => .close fd.toInt

/-- The kernel answers a call; `none` if it does not return to the program. -/
def Machine.serve (cfg : Config) (m : Machine) (c : UserCall) : Option (Machine × Answer) :=
  match m.kernel.step cfg (c.op m) with
  | some (k, .ret v buf) =>
    some ({ m with kernel := k, log := m.log ++ [(c.op m, .ret v buf)] }, ⟨v, buf⟩)
  | _ => none

/-- What may happen between two calls of the process `p`. -/
structure LeavesAlone (p : Slot) (m m' : Machine) : Prop where
  log : m'.log = m.log
  running : m'.kernel.currentPcb? = m.kernel.currentPcb?
  fdTable : (m'.kernel.pcb p).fdTable = (m.kernel.pcb p).fdTable
  args : (m'.kernel.pcb p).args = (m.kernel.pcb p).args

/-- A program with a result from `α`. -/
abbrev Program (α : Type) := Prog UserCall Answer α

/-! ## The library (`ece391syscall.S`, `ece391support.c`) -/

def ece391Getargs (buf : Bytes) (nbytes : Int32) : Program Answer := Prog.request (.getargs buf nbytes)

def ece391Open (filename : Bytes) : Program Int32 := do
  let answer ← Prog.request (.openFile filename)
  return answer.ret

def ece391Read (fd : Int32) (buf : Bytes) (nbytes : Int32) : Program Answer :=
  Prog.request (.read fd buf nbytes)

def ece391Write (fd : Int32) (buf : Bytes) (nbytes : Int32) : Program Int32 := do
  let answer ← Prog.request (.write fd buf nbytes)
  return answer.ret

def ece391Close (fd : Int32) : Program Int32 := do
  let answer ← Prog.request (.close fd)
  return answer.ret

/-- `ece391_strlen` of a string that ends within `bound` bytes. -/
def ece391Strlen (s : Bytes) (bound : Nat) : Nat := Scan.scan (fun i => s i != 0) 0 bound

/-- `ece391_fdputs` of a string that ends within `bound` bytes. -/
def ece391Fdputs (fd : Int32) (s : Bytes) (bound : Nat) : Program Unit := do
  let _ ← ece391Write fd s (toRet (ece391Strlen s bound))
  return ()

/-- `ece391_fdputs` of a string literal. -/
def ece391FdputsLit (fd : Int32) (s : List UInt8) : Program Unit := ece391Fdputs fd (cstr s) s.length

/-! ## The output of a program -/

/-- The bytes one entry of the log took from the program for descriptor 1. -/
def outputBy : Op × Out → List UInt8
  | (.write fd (some buf) _, .ret v _) => if fd = 1 then firstBytes buf v.toInt.toNat else []
  | _ => []

/-- All bytes written to descriptor 1, in order. -/
def output (log : List (Op × Out)) : List UInt8 := log.flatMap outputBy

theorem output_snoc (log : List (Op × Out)) (e : Op × Out) :
    output (log ++ [e]) = output log ++ outputBy e := by
  simp [output]

/-- The process `p` is the running one, with these descriptors, and has written `out`. -/
structure Machine.At (m : Machine) (p : Slot) (table : FdTable) (out : List UInt8) : Prop where
  running : m.kernel.currentPcb? = some p
  fdTable : (m.kernel.pcb p).fdTable = table
  output : output m.log = out

variable {cfg : Config} {m m' : Machine} {p : Slot} {table : FdTable} {out : List UInt8} {i : FdIndex}

theorem Machine.At.leftAlone (h : m.At p table out) (hother : LeavesAlone p m m') :
    m'.At p table out :=
  ⟨hother.running.trans h.running, hother.fdTable.trans h.fdTable, by rw [hother.log, h.output]⟩

/-- A call the kernel answers. -/
theorem Machine.serve_eq {c : UserCall} {k : Kernel} {v : Int32} {buf : Bytes}
    (h : m.kernel.step cfg (c.op m) = some (k, .ret v buf)) :
    m.serve cfg c
      = some ({ m with kernel := k, log := m.log ++ [(c.op m, .ret v buf)] }, ⟨v, buf⟩) := by
  rw [Machine.serve, h]

/-- The rule of a call, from what the kernel does with it wherever the process may be. -/
theorem ensures_call {c : UserCall} {Q : Answer → Machine → Prop} (h : m.At p table out)
    (hserve : ∀ m₁ : Machine, m₁.At p table out → (m₁.kernel.pcb p).args = (m.kernel.pcb p).args →
      ∃ k v buf, m₁.kernel.step cfg (c.op m₁) = some (k, .ret v buf) ∧
        Q ⟨v, buf⟩ { m₁ with kernel := k, log := m₁.log ++ [(c.op m₁, .ret v buf)] }) :
    Prog.Ensures (Machine.serve cfg) (LeavesAlone p) (Prog.request c) Q m := by
  refine Prog.ensures_request.2 fun m₁ hother => ?_
  obtain ⟨k, v, buf, hstep, hQ⟩ := hserve m₁ (h.leftAlone hother) hother.args
  exact ⟨_, _, Machine.serve_eq hstep, hQ⟩

/-! ## `write` -/

theorem TableOk.valid_zero (hok : TableOk table) : checkValidFd table 0 = true := by
  rw [checkValidFd_eq (i := 0) rfl, hok.keyboard.1]
  rfl

theorem TableOk.valid_one (hok : TableOk table) : checkValidFd table 1 = true := by
  rw [checkValidFd_eq (i := 1) rfl, hok.terminal.1]
  rfl

/-- Descriptor 1 is the terminal. -/
theorem writeCall_terminal {k : Kernel} (hp : k.currentPcb? = some p)
    (hok : TableOk (k.pcb p).fdTable) (buf : Bytes) (nbytes : Int) :
    writeCall cfg k 1 (some buf) nbytes = some (terminalWrite k buf nbytes) := by
  have hfd : fdIndex? 1 = some 1 := rfl
  simp only [writeCall, hfd, hp, hok.valid_one, if_true, hok.terminal.2]

theorem toInt_toRet {n : Nat} (h : n < 2 ^ 31) : (toRet n).toInt = n := by
  unfold toRet
  rw [UInt32.toInt32_ofNat', Int32.toInt_ofNat_of_lt h]

theorem toRet_eq_zero {n : Nat} (h : n < 2 ^ 31) : toRet n = 0 ↔ n = 0 := by
  have hzero : (0 : Int32) = toRet 0 := rfl
  rw [hzero, toRet_inj]
  omega

/-- A count is not the value for a failure. -/
theorem toRet_ne_failed {n : Nat} (h : n < 2 ^ 31) : toRet n ≠ -1 := by
  rw [Ne, toRet_eq_neg_one]
  omega

theorem ensures_write (h : m.At p table out) (hok : TableOk table) (buf : Bytes) {n : Nat}
    (hn : n < 2 ^ 31) :
    Prog.Ensures (Machine.serve cfg) (LeavesAlone p) (ece391Write 1 buf (toRet n))
      (fun r m' => r = toRet n ∧ m'.At p table (out ++ firstBytes buf n)) m := by
  refine Prog.ensures_bind.2 (ensures_call h fun m₁ h₁ _ => ?_)
  have hcall : writeCall cfg m₁.kernel 1 (some buf) n = some (terminalWrite m₁.kernel buf n) :=
    writeCall_terminal h₁.running (by rw [h₁.fdTable]; exact hok) buf n
  have hop : (UserCall.write 1 buf (toRet n)).op m₁ = .write 1 (some buf) n := by
    rw [UserCall.op, toInt_toRet hn]
    rfl
  rw [hop]
  refine ⟨(terminalWrite m₁.kernel buf n).1, toRet n, emptyBuf,
    by simp only [Kernel.step, hcall, Option.map_some]; rfl, rfl, h₁.running, h₁.fdTable, ?_⟩
  have hby : outputBy (.write 1 (some buf) n, .ret (toRet n) emptyBuf) = firstBytes buf n := by
    simp only [outputBy, if_true, toRet_toNat hn]
  rw [output_snoc, h₁.output, hby]

theorem firstBytes_of_spells {buf : Bytes} {s : List UInt8} (hs : Terminated.Spells buf s) :
    firstBytes buf s.length = s := by
  refine List.ext_getElem (length_firstBytes _ _) fun i hi hi' => ?_
  simp only [firstBytes, List.getElem_map, List.getElem_range]
  exact hs.getElem hi'

/-- A string of known length is written without its terminator. -/
theorem ensures_fdputs (h : m.At p table out) (hok : TableOk table) {buf : Bytes} {s : List UInt8}
    {bound : Nat} (hs : Terminated.Spells buf s) (hbound : s.length ≤ bound) (hlen : s.length < 2 ^ 31) :
    Prog.Ensures (Machine.serve cfg) (LeavesAlone p) (ece391Fdputs 1 buf bound)
      (fun _ m' => m'.At p table (out ++ s)) m := by
  have hstrlen : ece391Strlen buf bound = s.length := hs.scan hbound
  have htext := firstBytes_of_spells hs
  unfold ece391Fdputs
  rw [hstrlen]
  refine Prog.ensures_bind.2 ((ensures_write h hok buf hlen).mono fun r m' hr => ?_)
  rw [htext] at hr
  exact hr.2

theorem spells_cstr {s : List UInt8} (hs : ∀ c ∈ s, c ≠ 0) : Terminated.Spells (cstr s) s :=
  ⟨fun _ _ => rfl, hs⟩

theorem ensures_fdputsLit (h : m.At p table out) (hok : TableOk table) {s : List UInt8}
    (hs : ∀ c ∈ s, c ≠ 0) (hlen : s.length < 2 ^ 31) :
    Prog.Ensures (Machine.serve cfg) (LeavesAlone p) (ece391FdputsLit 1 s)
      (fun _ m' => m'.At p table (out ++ s)) m :=
  ensures_fdputs h hok (spells_cstr hs) le_rfl hlen

/-- A program that writes a message and ends with a status. -/
theorem ensures_message {α : Type} (h : m.At p table out) (hok : TableOk table) {s : List UInt8}
    (hs : ∀ c ∈ s, c ≠ 0) (hlen : s.length < 2 ^ 31) (status : α) :
    Prog.Ensures (Machine.serve cfg) (LeavesAlone p)
      (do
        ece391FdputsLit 1 s
        return status)
      (fun r m' => r = status ∧ m'.At p table (out ++ s)) m :=
  Prog.ensures_bind.2 ((ensures_fdputsLit h hok hs hlen).mono fun _ _ h₁ => ⟨rfl, h₁⟩)

/-! ## `open` and `close` -/

/-- The descriptor `open` sets up for a directory entry. -/
def openEntry (found : Dentry) : Fd :=
  if found.fileType = 0 then ⟨some .rtc, -1, 0, fdOn⟩
  else if found.fileType = 1 then ⟨some .dir, -1, 0, fdOn⟩
  else ⟨some .filesys, found.inodeIdx.toInt32, 0, fdOn⟩

theorem openEntry_flags (found : Dentry) : (openEntry found).flags = fdOn := by
  unfold openEntry
  split_ifs <;> rfl

theorem TableOk.openEntry (h : TableOk table) (hi : 2 ≤ i.val) (found : Dentry) :
    TableOk (Function.update table i (BaseOs.openEntry found)) := by
  refine h.update hi (Or.inr ⟨openEntry_flags found, ?_⟩)
  unfold BaseOs.openEntry
  split_ifs <;> simp

/-- What is found depends on the caller's `dentry` in the name only. -/
theorem readDentryByName_openEntry (fs : FileSystem) (name : Bytes) (d d' : Dentry) :
    (readDentryByName fs name d).map openEntry = (readDentryByName fs name d').map openEntry := by
  unfold readDentryByName
  split_ifs
  · rfl
  · cases Fin.find? fun i : Fin maxEntries => entryMatches fs name i <;> rfl

theorem openWith_update {k : Kernel} (info : Fd) (message : List UInt8)
    (hfree : getFdIndex (k.pcb p).fdTable = some i) :
    openWith k p info message = (k.setFdTable p (Function.update (k.pcb p).fdTable i info), toRet i.val) := by
  simp only [openWith, hfree, setFdInfo]

/-- `open` of a name that is there, with a free descriptor. -/
theorem openFile_update {k : Kernel} (hp : k.currentPcb? = some p) {name : Bytes} {d found : Dentry}
    (hname : readDentryByName cfg.fs name d = some found)
    (hfree : getFdIndex (k.pcb p).fdTable = some i) :
    ∃ k', openFile cfg k (some name) d = some (k', toRet i.val) ∧ k'.currentPcb? = some p ∧
      (k'.pcb p).fdTable = Function.update (k.pcb p).fdTable i (openEntry found) := by
  simp only [openFile, hname, hp, openEntry]
  split_ifs
  · exact ⟨_, congrArg some (openWith_update _ _ hfree), hp, fdTable_setFdTable _ _ _⟩
  · exact ⟨_, congrArg some (openWith_update _ _ hfree), hp, fdTable_setFdTable _ _ _⟩
  · unfold fileOpen
    rw [hname]
    exact ⟨_, congrArg some (openWith_update _ _ hfree), hp, fdTable_setFdTable _ _ _⟩

theorem outputBy_openFile (filename : Option Bytes) (d : Dentry) (o : Out) :
    outputBy (.openFile filename d, o) = [] := rfl

/-- The rule of `open`: it fails for a name that is not there, and takes a free descriptor else. -/
theorem ensures_open (h : m.At p table out) (hfree : getFdIndex table = some i) {name : Bytes}
    {d : Dentry} :
    Prog.Ensures (Machine.serve cfg) (LeavesAlone p) (ece391Open name)
      (fun r m' =>
        match readDentryByName cfg.fs name d with
        | none => r = -1 ∧ m'.At p table out
        | some found => r = toRet i.val ∧ m'.At p (Function.update table i (openEntry found)) out) m := by
  refine Prog.ensures_bind.2 (ensures_call h fun m₁ h₁ _ => ?_)
  have hkind := readDentryByName_openEntry cfg.fs name m₁.dentry d
  have hlog : ∀ v, BaseOs.output (m₁.log ++ [(.openFile (some name) m₁.dentry, .ret v emptyBuf)]) = out := by
    intro v
    rw [output_snoc, outputBy_openFile, List.append_nil, h₁.output]
  cases hname : readDentryByName cfg.fs name m₁.dentry with
  | none =>
      rw [hname, Option.map_none] at hkind
      have hnone := Option.map_eq_none_iff.1 hkind.symm
      refine ⟨m₁.kernel, -1, emptyBuf, ?_, ?_⟩
      · simp only [UserCall.op, Kernel.step, openFile, hname, Option.map_some]
      · simp only [hnone]
        exact ⟨rfl, h₁.running, h₁.fdTable, hlog _⟩
  | some found =>
      rw [hname, Option.map_some] at hkind
      obtain ⟨found', hfound', hentry⟩ := Option.map_eq_some_iff.1 hkind.symm
      obtain ⟨k', hopen, hp', htable⟩ :=
        openFile_update h₁.running hname (by rw [h₁.fdTable]; exact hfree)
      refine ⟨k', toRet i.val, emptyBuf, ?_, ?_⟩
      · simp only [UserCall.op, Kernel.step, hopen, Option.map_some]
      · simp only [hfound', hentry]
        exact ⟨rfl, hp', by rw [htable, h₁.fdTable], hlog _⟩

/-- `close` of a descriptor that was opened. -/
theorem closeCall_update {k : Kernel} (hp : k.currentPcb? = some p) (hok : TableOk (k.pcb p).fdTable)
    (hi : 2 ≤ i.val) (hon : ((k.pcb p).fdTable i).flags = fdOn) :
    ∃ k', closeCall k i.val = some (k', 0) ∧ k'.currentPcb? = some p ∧
      (k'.pcb p).fdTable = Function.update (k.pcb p).fdTable i Fd.closed := by
  have hvalid : checkValidFd (k.pcb p).fdTable i.val = true := by
    rw [checkValidFd_eq (fdIndex?_val i), hon]
    rfl
  have hclosed : closeFd (k.pcb p).fdTable i.val = Function.update (k.pcb p).fdTable i Fd.closed := by
    rw [closeFd, fdIndex?_val]
  have hin : ¬ ((i.val : Int) < firstValidIndex ∨ (i.val : Int) > maxOpenFiles) := by
    unfold firstValidIndex maxOpenFiles
    omega
  refine ⟨k.setFdTable p (Function.update (k.pcb p).fdTable i Fd.closed), ?_, hp, fdTable_setFdTable _ _ _⟩
  rcases hok.files i hi with ⟨hoff, -⟩ | ⟨-, hj | hj | hj⟩
  · rw [hoff] at hon
    cases hon
  · simp only [closeCall, fdIndex?_val, hp, hvalid, if_true, hj, rtcClose, if_neg hin, hclosed]
  · simp only [closeCall, fdIndex?_val, hp, hvalid, if_true, hj, fileClose, hclosed]
  · simp only [closeCall, fdIndex?_val, hp, hvalid, if_true, hj, fileClose, hclosed]

/-- The rule of `close` for a descriptor that was opened. -/
theorem ensures_close (h : m.At p table out) (hok : TableOk table) (hi : 2 ≤ i.val)
    (hon : (table i).flags = fdOn) :
    Prog.Ensures (Machine.serve cfg) (LeavesAlone p) (ece391Close (toRet i.val))
      (fun r m' => r = 0 ∧ m'.At p (Function.update table i Fd.closed) out) m := by
  refine Prog.ensures_bind.2 (ensures_call h fun m₁ h₁ _ => ?_)
  have hfd : (toRet i.val).toInt = i.val := toInt_toRet (by omega)
  obtain ⟨k', hclose, hp', htable⟩ := closeCall_update h₁.running (by rw [h₁.fdTable]; exact hok) hi
    (by rw [h₁.fdTable]; exact hon)
  refine ⟨k', 0, emptyBuf, ?_, rfl, hp', by rw [htable, h₁.fdTable], ?_⟩
  · simp only [UserCall.op, hfd, Kernel.step, hclose, Option.map_some]
  · rw [output_snoc, h₁.output, UserCall.op]
    exact List.append_nil out

/-! ## `read` -/

/-- The rule of `read`, from what the driver does. -/
theorem ensures_read (h : m.At p table out) (buf : Bytes) {n : Nat} (hn : n < 2 ^ 31)
    {Q : Answer → Machine → Prop}
    (hread : ∀ m₁ : Machine, m₁.At p table out →
      ∃ r, readCall cfg m₁.kernel i.val (some buf) n m₁.line = some r ∧
        ∀ m' : Machine, m'.kernel = r.kernel → BaseOs.output m'.log = out → Q ⟨r.ret, r.buf⟩ m') :
    Prog.Ensures (Machine.serve cfg) (LeavesAlone p) (ece391Read (toRet i.val) buf (toRet n)) Q m := by
  refine ensures_call h fun m₁ h₁ _ => ?_
  obtain ⟨r, hr, hQ⟩ := hread m₁ h₁
  have hop : (UserCall.read (toRet i.val) buf (toRet n)).op m₁ = .read i.val (some buf) n m₁.line := by
    rw [UserCall.op, toInt_toRet hn, toInt_toRet (by omega)]
  rw [hop]
  refine ⟨r.kernel, r.ret, r.buf, by simp only [Kernel.step, hr, Option.map_some], hQ _ rfl ?_⟩
  rw [output_snoc, h₁.output]
  exact List.append_nil out

/-- The clock: a read waits for the next interrupt and gives nothing. -/
theorem ensures_read_clock (h : m.At p table out) (hon : (table i).flags = fdOn)
    (hjump : (table i).fdJump = some .rtc) (buf : Bytes) {n : Nat} (hn : n < 2 ^ 31) :
    Prog.Ensures (Machine.serve cfg) (LeavesAlone p) (ece391Read (toRet i.val) buf (toRet n))
      (fun r m' => r = ⟨0, buf⟩ ∧ m'.At p table out) m := by
  refine ensures_read h buf hn fun m₁ h₁ => ⟨rtcRead m₁.kernel buf, ?_, fun m' hk hout => ?_⟩
  · have hvalid : checkValidFd table i.val = true := by
      rw [checkValidFd_eq (fdIndex?_val i), hon]
      rfl
    simp only [readCall, fdIndex?_val, h₁.running, h₁.fdTable, hvalid, if_true, hjump]
  · exact ⟨rfl, by rw [hk]; exact h₁.running, by rw [hk]; exact h₁.fdTable, hout⟩

/-- `file_read` stores what it reads at the start of the buffer and nothing else. -/
theorem fileRead_store {k : Kernel} {inode : UInt32} (hfile : WellFormedFile cfg.fs inode) {pos : UInt32}
    (hentry : (k.pcb p).fdTable i = ⟨some .filesys, inode.toInt32, pos, fdOn⟩)
    (hpos : pos.toNat ≤ fileSize cfg.fs inode) {n : Nat} (hn : n < 2 ^ 31) (buf : Bytes) :
    (fileRead cfg k p i buf n).buf
      = store buf (fileSlice cfg.fs inode pos.toNat (min n (fileSize cfg.fs inode - pos.toNat))) := by
  have hlen : (toU32 (n : Int)).toNat = n := toU32_toNat (by omega) (by omega)
  have hsize := hfile.size_le
  unfold maxInodeDataBlocks maxCharsInData at hsize
  have hdata := readData_of_noWrap hfile (show pos.toNat + (toU32 (n : Int)).toNat < 2 ^ 32 by omega)
  rw [hlen] at hdata
  simp only [fileRead, hentry, UInt32.toUInt32_toInt32, hdata]

/-- A file: the next bytes, as many as asked for or as remain. -/
theorem ensures_read_file {inode : UInt32} (h : m.At p table out) (hok : TableOk table)
    (hfile : WellFormedFile cfg.fs inode) {pos : UInt32}
    (hentry : table i = ⟨some .filesys, inode.toInt32, pos, fdOn⟩)
    (hpos : pos.toNat ≤ fileSize cfg.fs inode) (buf : Bytes) {n : Nat} (hn : n < 2 ^ 31) :
    Prog.Ensures (Machine.serve cfg) (LeavesAlone p) (ece391Read (toRet i.val) buf (toRet n))
      (fun r m' => ∃ (c : Nat) (pos' : UInt32), c = min n (fileSize cfg.fs inode - pos.toNat) ∧
        r = ⟨toRet c, store buf (fileSlice cfg.fs inode pos.toNat c)⟩ ∧ pos'.toNat = pos.toNat + c ∧
        m'.At p (Function.update table i ⟨some .filesys, inode.toInt32, pos', fdOn⟩) out) m := by
  refine ensures_read h buf hn fun m₁ h₁ => ?_
  have htable := h₁.fdTable
  have hentry₁ : (m₁.kernel.pcb p).fdTable i = ⟨some .filesys, inode.toInt32, pos, fdOn⟩ := by
    rw [htable, hentry]
  have hopen : HasOpen p i m₁.kernel :=
    ⟨h₁.running, by rw [htable]; exact hok, by rw [hentry₁]⟩
  refine ⟨fileRead cfg m₁.kernel p i buf n,
    (readCall_around hopen buf n m₁.line).1 (by rw [hentry₁]), fun m' hk hout => ?_⟩
  obtain ⟨c, hc, hret, -, pos', hpos', hmoved⟩ := fileRead_spec hfile
    (show ((m₁.kernel.pcb p).fdTable i).inodePtr = inode.toInt32 by rw [hentry₁])
    (show ((m₁.kernel.pcb p).fdTable i).filePosition.toNat = pos.toNat by rw [hentry₁]) hpos
    (show 0 ≤ (n : Int) by omega) (show (n : Int) < 2 ^ 31 by omega) buf
  rw [Int.toNat_natCast] at hc
  refine ⟨c, pos', hc, ?_, hpos', ⟨?_, ?_, hout⟩⟩
  · rw [hret, fileRead_store hfile hentry₁ hpos hn, hc]
  · rw [hk]
    have hon : ((m₁.kernel.pcb p).fdTable i).flags ≠ fdOff := by
      rw [hentry₁]
      exact (by decide : fdOn ≠ fdOff)
    exact (fileRead_serves m₁.kernel p hon buf n).served.procs.currentPcb?.trans h₁.running
  · rw [hk, fileRead_table, htable]
    congr 1
    rw [fileRead_table, Function.update_self, hentry₁] at hmoved
    rw [hentry]
    exact hmoved

theorem store_firstBytes (buf f : Bytes) (n : Nat) :
    store buf (firstBytes f n) = fun j => if j < n then f j else buf j := by
  funext j
  split_ifs with hj
  · rw [store_of_lt (by rwa [length_firstBytes])]
    simp [firstBytes]
  · rw [store, List.getD_eq_default _ _ (by rw [length_firstBytes]; omega)]

/-- The directory: the name of the next entry, as much as fits, or nothing after the last one. -/
theorem ensures_read_dir (h : m.At p table out) (hok : TableOk table) {pos : UInt32}
    (hentry : table i = ⟨some .dir, -1, pos, fdOn⟩) (buf : Bytes) {n : Nat} (hn : n < 2 ^ 31)
    (hlong : maxNameCharacters ≤ n) :
    Prog.Ensures (Machine.serve cfg) (LeavesAlone p) (ece391Read (toRet i.val) buf (toRet n))
      (fun r m' =>
        if pos < cfg.fs.numEntries then
          r = ⟨toRet (cfg.fs.entries pos.toNat).name.length,
            store buf (cfg.fs.entries pos.toNat).name⟩ ∧
          m'.At p (Function.update table i ⟨some .dir, -1, pos + 1, fdOn⟩) out
        else r = ⟨0, buf⟩ ∧ m'.At p table out) m := by
  refine ensures_read h buf hn fun m₁ h₁ => ?_
  have htable := h₁.fdTable
  have hentry₁ : (m₁.kernel.pcb p).fdTable i = ⟨some .dir, -1, pos, fdOn⟩ := by rw [htable, hentry]
  have hopen : HasOpen p i m₁.kernel :=
    ⟨h₁.running, by rw [htable]; exact hok, by rw [hentry₁]⟩
  refine ⟨dirRead cfg m₁.kernel p i buf n,
    (readCall_around hopen buf n m₁.line).2 (by rw [hentry₁]), fun m' hk hout => ?_⟩
  split_ifs with hlt
  · have hname := nameLength_le (cfg.fs.entries pos.toNat).fileName
    have hmin : min (n : Int).toNat (cfg.fs.entries pos.toNat).name.length
        = (cfg.fs.entries pos.toNat).name.length := by
      rw [name_length, Int.toNat_natCast]
      omega
    have hpos₁ : ((m₁.kernel.pcb p).fdTable i).filePosition = pos := by rw [hentry₁]
    have heq := @dirRead_eq cfg m₁.kernel p i buf n (by rw [hpos₁]; exact hlt)
    rw [hpos₁, hmin] at heq
    rw [heq] at hk ⊢
    refine ⟨?_, by rw [hk]; exact h₁.running, ?_, hout⟩
    · rw [Dentry.name, length_firstBytes, store_firstBytes]
    · rw [hk, fdTable_setFdTable]
      simp only [addOffset, fdIndex?_val, htable, hentry]
  · have heq := @dirRead_end cfg m₁.kernel p i buf n (by rw [hentry₁]; exact UInt32.not_lt.1 hlt)
    rw [heq] at hk ⊢
    exact ⟨rfl, by rw [hk]; exact h₁.running, by rw [hk]; exact htable, hout⟩

/-! ## `getargs` -/

/-- A NUL in the arguments of the PCB is one in the buffer. -/
theorem trimmed_zero {args buf : Bytes} {n j : Nat} (hn : termBuffSize < n) (hj : j < termBuffSize)
    (hzero : args j = 0) : trimBlanks (copyArgs args buf n) n j = 0 := by
  have hcopied : copyArgs args buf n j = 0 := by
    unfold copyArgs
    rwa [if_pos (by omega)]
  obtain ⟨m, -, hbelow, -, hclear⟩ := trimBlanks_spec (copyArgs args buf n) n
  rcases Nat.lt_or_ge j m with hlt | hge
  · rw [hbelow j hlt, hcopied]
  · exact (hclear j hge (by omega)).1

theorem getargs_zero {k : Kernel} {r : SysResult} {buf : Bytes} {nbytes : Int} (hp : k.currentPcb? = some p)
    (hr : getargs k (some buf) nbytes = some r) (hn : 129 ≤ nbytes) (hmax : nbytes < 2 ^ 31) {j : Nat}
    (hj : j < termBuffSize) (hzero : (k.pcb p).args j = 0) : r.buf j = 0 := by
  have hsize : termBuffSize = 128 := rfl
  have htrimmed := @trimmed_zero _ buf nbytes.toNat j (by omega) hj hzero
  unfold getargs at hr
  simp only [toU32_toNat (show 0 ≤ nbytes by omega) hmax, hp] at hr
  rw [if_neg (by omega), if_neg (by omega)] at hr
  split_ifs at hr <;> (obtain rfl := Option.some.inj hr; exact htrimmed)

/-- Without an argument the call fails. -/
theorem getargs_empty {k : Kernel} (hp : k.currentPcb? = some p) (hzero : (k.pcb p).args 0 = 0)
    (buf : Bytes) {nbytes : Int} (hn : 129 ≤ nbytes) (hmax : nbytes < 2 ^ 31) :
    ∃ r, getargs k (some buf) nbytes = some r ∧ r.kernel = k ∧ r.ret = -1 := by
  have hsize : termBuffSize = 128 := rfl
  have htrimmed := @trimmed_zero _ buf nbytes.toNat 0 (by omega) (by decide) hzero
  unfold getargs
  simp only [toU32_toNat (show 0 ≤ nbytes by omega) hmax, hp]
  rw [if_neg (by omega), if_neg (by omega), if_pos htrimmed]
  exact ⟨_, rfl, rfl, rfl⟩

theorem ensures_getargs_empty (h : m.At p table out) (hzero : (m.kernel.pcb p).args 0 = 0) (buf : Bytes)
    {n : Nat} (hn : 129 ≤ n) (hmax : n < 2 ^ 31) :
    Prog.Ensures (Machine.serve cfg) (LeavesAlone p) (ece391Getargs buf (toRet n))
      (fun r m' => r.ret = -1 ∧ m'.At p table out) m := by
  refine ensures_call h fun m₁ h₁ hsame => ?_
  obtain ⟨r, hr, hkernel, hret⟩ := getargs_empty h₁.running (by rwa [hsame]) buf
    (show 129 ≤ (n : Int) by omega) (show (n : Int) < 2 ^ 31 by omega)
  have hop : (UserCall.getargs buf (toRet n)).op m₁ = .getargs (some buf) n := by
    rw [UserCall.op, toInt_toRet hmax]
  rw [hop]
  refine ⟨r.kernel, r.ret, r.buf, by simp only [Kernel.step, hr, Option.map_some], hret,
    ⟨by rw [hkernel]; exact h₁.running, by rw [hkernel]; exact h₁.fdTable, ?_⟩⟩
  rw [output_snoc, h₁.output]
  exact List.append_nil out

/-- Arguments are handed over but for spaces at their end. -/
theorem ensures_getargs {args : List UInt8} {c : UInt8} (h : m.At p table out)
    (hargs : Terminated.Spells (m.kernel.pcb p).args args) (hlen : args.length < termBuffSize)
    (hc : args.head? = some c) (hspace : c ≠ 32) (buf : Bytes) {n : Nat} (hn : 129 ≤ n) (hmax : n < 2 ^ 31) :
    Prog.Ensures (Machine.serve cfg) (LeavesAlone p) (ece391Getargs buf (toRet n))
      (fun r m' => r.ret = 0 ∧ m'.At p table out ∧ ∃ s, Terminated.Spells r.buf s ∧ s.length ≤ args.length ∧
        s.rdropWhile (· == 32) = args.rdropWhile (· == 32)) m := by
  refine ensures_call h fun m₁ h₁ hsame => ?_
  have hargs₁ : Terminated.Spells (m₁.kernel.pcb p).args args := by
    rw [hsame]
    exact hargs
  obtain ⟨r, s, hr, hret, hs, -, htext⟩ := getargs_spells h₁.running hargs₁ hlen hc hspace buf
    (show 129 ≤ (n : Int) by omega) (show (n : Int) < 2 ^ 31 by omega)
  have hop : (UserCall.getargs buf (toRet n)).op m₁ = .getargs (some buf) n := by
    rw [UserCall.op, toInt_toRet hmax]
  rw [hop]
  have hkernel := getargs_kernel hr
  have hle : s.length ≤ args.length := by
    by_contra hgt
    exact hs.ne_zero (Nat.lt_of_not_le hgt)
      (getargs_zero h₁.running hr (by omega) (by omega) hlen hargs₁.zero)
  refine ⟨r.kernel, r.ret, r.buf, by simp only [Kernel.step, hr, Option.map_some], hret,
    ⟨by rw [hkernel]; exact h₁.running, by rw [hkernel]; exact h₁.fdTable, ?_⟩, s, hs, hle, htext⟩
  rw [output_snoc, h₁.output]
  exact List.append_nil out

/-! ## Reading the directory to its end

Both `cat .` and `ls` read the directory name by name and stop at an empty one, as a read of it returns 0. -/

/-- The names in the directory. -/
def FileSystem.names (fs : FileSystem) : List (List UInt8) :=
  (List.range fs.numEntries.toNat).map fun j => (fs.entries j).name

/-- The names a reader gets to see. -/
def FileSystem.namesRead (fs : FileSystem) : List (List UInt8) := fs.names.takeWhile (· != [])

/-- The text is made of one block for each of the names, in their order, as `R` has it. -/
def BlockForEach (R : List UInt8 → List UInt8 → Prop) (names : List (List UInt8)) (text : List UInt8) : Prop :=
  ∃ blocks, List.Forall₂ R names blocks ∧ text = blocks.flatten

theorem blockForEach_snoc {R : List UInt8 → List UInt8 → Prop} {names : List (List UInt8)}
    {text s block : List UInt8} (h : BlockForEach R names text) (hblock : R s block) :
    BlockForEach R (names ++ [s]) (text ++ block) := by
  obtain ⟨blocks, hall, rfl⟩ := h
  exact ⟨blocks ++ [block], List.rel_append hall (List.forall₂_cons.2 ⟨hblock, .nil⟩), by simp⟩

/-- Blocks that are determined by their names. -/
theorem blockForEach_eq {f : List UInt8 → List UInt8} {names : List (List UInt8)} {text : List UInt8}
    (h : BlockForEach (fun s block => block = f s) names text) : text = names.flatMap f := by
  obtain ⟨blocks, hall, rfl⟩ := h
  induction hall with
  | nil => rfl
  | cons hblock _ ih => rw [List.flatten_cons, List.flatMap_cons, hblock, ih]

/-- While the directory is read: the names before the position are not empty, and for each there has been
    written a block. -/
def NamesWritten (cfg : Config) (p : Slot) (i : FdIndex) (table : FdTable)
    (R : List UInt8 → List UInt8 → Prop) (m : Machine) : Prop :=
  ∃ (pos : UInt32) (out : List UInt8), pos.toNat ≤ cfg.fs.numEntries.toNat ∧
    (∀ j < pos.toNat, (cfg.fs.entries j).name ≠ []) ∧
    m.At p (Function.update table i ⟨some .dir, -1, pos, fdOn⟩) out ∧
    BlockForEach R (cfg.fs.names.take pos.toNat) out

/-- A directory that has just been opened. -/
theorem namesWritten_start {R : List UInt8 → List UInt8 → Prop}
    (h : m.At p (Function.update table i ⟨some .dir, -1, 0, fdOn⟩) []) : NamesWritten cfg p i table R m :=
  ⟨0, [], Nat.zero_le _, fun j hj => absurd hj (Nat.not_lt_zero j), h, [], .nil, rfl⟩

/-- A program that opens the directory first: without the entry `.` it gets no descriptor. -/
theorem ensures_openDot (h : m.At p fdTableInit [])
    (hdir : ∀ found, readDentryByName cfg.fs (cstr (ascii ".")) ⟨fun _ => 0, 0, 0⟩ = some found →
      found.fileType = 1) (R : List UInt8 → List UInt8 → Prop) :
    Prog.Ensures (Machine.serve cfg) (LeavesAlone p) (ece391Open (cstr (ascii ".")))
      (fun fd m' =>
        (fd = -1 ∧ readDentryByName cfg.fs (cstr (ascii ".")) ⟨fun _ => 0, 0, 0⟩ = none ∧
          m'.At p fdTableInit []) ∨
        (fd = toRet (2 : FdIndex).val ∧ fd ≠ -1 ∧
          readDentryByName cfg.fs (cstr (ascii ".")) ⟨fun _ => 0, 0, 0⟩ ≠ none ∧
          NamesWritten cfg p 2 fdTableInit R m')) m := by
  have hfree : getFdIndex fdTableInit = some 2 := by decide
  refine (ensures_open h hfree (d := ⟨fun _ => 0, 0, 0⟩)).mono ?_
  intro fd m₁ h₁
  cases hfound : readDentryByName cfg.fs (cstr (ascii ".")) ⟨fun _ => 0, 0, 0⟩ with
  | none =>
      rw [hfound] at h₁
      exact Or.inl ⟨h₁.1, rfl, h₁.2⟩
  | some found =>
      rw [hfound] at h₁
      obtain ⟨rfl, h₁⟩ := h₁
      have hentry : openEntry found = ⟨some .dir, -1, 0, fdOn⟩ := by simp [openEntry, hdir found hfound]
      rw [hentry] at h₁
      exact Or.inr ⟨rfl, by decide, by simp, namesWritten_start h₁⟩

theorem namesRead_eq_take {fs : FileSystem} {n : Nat} (hle : n ≤ fs.numEntries.toNat)
    (hbefore : ∀ j < n, (fs.entries j).name ≠ [])
    (hend : n < fs.numEntries.toNat → (fs.entries n).name = []) : fs.namesRead = fs.names.take n := by
  have hlen : fs.names.length = fs.numEntries.toNat := by simp [FileSystem.names]
  have hget : ∀ j, ∀ hj : j < fs.names.length, fs.names[j] = (fs.entries j).name := by
    intro j hj
    simp [FileSystem.names]
  unfold FileSystem.namesRead
  nth_rewrite 1 [← List.take_append_drop n fs.names]
  rw [List.takeWhile_append_of_pos]
  · have hrest : (fs.names.drop n).takeWhile (· != []) = [] := by
      rcases Nat.lt_or_ge n fs.names.length with hlt | hge
      · rw [List.drop_eq_getElem_cons hlt, List.takeWhile_cons_of_neg]
        rw [hget n hlt, hend (by omega)]
        decide
      · rw [List.drop_eq_nil_of_le hge, List.takeWhile_nil]
    rw [hrest, List.append_nil]
  · intro s hs
    obtain ⟨j, hj, rfl⟩ := List.mem_iff_getElem.1 hs
    rw [List.length_take] at hj
    rw [List.getElem_take, hget j (by omega)]
    exact bne_iff_ne.2 (hbefore j (by omega))

theorem take_names_succ {fs : FileSystem} {n : Nat} (hn : n < fs.numEntries.toNat) :
    fs.names.take (n + 1) = fs.names.take n ++ [(fs.entries n).name] := by
  have hlen : n < fs.names.length := by simpa [FileSystem.names] using hn
  rw [← List.take_append_getElem hlen]
  simp [FileSystem.names]

theorem mem_namesRead {fs : FileSystem} {n : Nat} (hn : n < fs.numEntries.toNat)
    (hbefore : ∀ j < n, (fs.entries j).name ≠ []) (hname : (fs.entries n).name ≠ []) :
    (fs.entries n).name ∈ fs.namesRead := by
  have hall : ∀ s ∈ fs.names.take (n + 1), (s != []) = true := by
    intro s hs
    obtain ⟨j, hj, rfl⟩ := List.mem_iff_getElem.1 hs
    rw [List.length_take] at hj
    have hget : (fs.names.take (n + 1))[j] = (fs.entries j).name := by simp [FileSystem.names]
    rw [hget, bne_iff_ne]
    rcases Nat.lt_succ_iff_lt_or_eq.1 (show j < n + 1 by omega) with hlt | rfl
    · exact hbefore j hlt
    · exact hname
  unfold FileSystem.namesRead
  rw [← List.take_append_drop (n + 1) fs.names, List.takeWhile_append_of_pos hall]
  refine List.mem_append_left _ ?_
  rw [take_names_succ hn]
  simp

theorem TableOk.openDir (h : TableOk table) (hi : 2 ≤ i.val) (pos : UInt32) :
    TableOk (Function.update table i ⟨some .dir, -1, pos, fdOn⟩) :=
  h.update hi (Or.inr ⟨rfl, Or.inr (Or.inl rfl)⟩)

theorem TableOk.openFile (h : TableOk table) (hi : 2 ≤ i.val) (inode pos : UInt32) :
    TableOk (Function.update table i ⟨some .filesys, inode.toInt32, pos, fdOn⟩) :=
  h.update hi (Or.inr ⟨rfl, Or.inr (Or.inr rfl)⟩)

/-- The entries after the position. -/
def namesLeft (cfg : Config) (p : Slot) (i : FdIndex) (m : Machine) : Nat :=
  cfg.fs.numEntries.toNat - ((m.kernel.pcb p).fdTable i).filePosition.toNat

/-- A read of the directory on the way: it gives a name, for which a block is to be written, or it is the
    end and the blocks have been written. -/
theorem ensures_read_names {R : List UInt8 → List UInt8 → Prop} (h : NamesWritten cfg p i table R m)
    (hok : TableOk table) (hi : 2 ≤ i.val) (buf : Bytes) {n : Nat} (hn : n < 2 ^ 31)
    (hlong : maxNameCharacters ≤ n) :
    Prog.Ensures (Machine.serve cfg) (LeavesAlone p) (ece391Read (toRet i.val) buf (toRet n))
      (fun r m' =>
        (r.ret = 0 ∧ BlockForEach R cfg.fs.namesRead (BaseOs.output m'.log)) ∨
        ∃ (s : List UInt8) (pos : UInt32) (out : List UInt8), s ∈ cfg.fs.namesRead ∧
          r = ⟨toRet s.length, store buf s⟩ ∧ s ≠ [] ∧ s.length ≤ maxNameCharacters ∧
          m'.At p (Function.update table i ⟨some .dir, -1, pos, fdOn⟩) out ∧
          ∀ (m'' : Machine) (block : List UInt8), R s block →
            m''.At p (Function.update table i ⟨some .dir, -1, pos, fdOn⟩) (out ++ block) →
            NamesWritten cfg p i table R m'' ∧ namesLeft cfg p i m'' < namesLeft cfg p i m) m := by
  obtain ⟨pos, out, hle, hbefore, hat, hblocks⟩ := h
  have hentry : ∀ pos, (Function.update table i ⟨some .dir, -1, pos, fdOn⟩ : FdTable) i
      = ⟨some .dir, -1, pos, fdOn⟩ := fun _ => Function.update_self ..
  refine (ensures_read_dir hat (hok.openDir hi pos) (hentry pos) buf hn hlong).mono fun r m₁ hread => ?_
  split_ifs at hread with hlt
  · obtain ⟨rfl, h₁⟩ := hread
    rw [Function.update_idem] at h₁
    rw [UInt32.lt_iff_toNat_lt] at hlt
    by_cases hempty : (cfg.fs.entries pos.toNat).name = []
    · -- an empty name looks like the end of the directory
      refine Or.inl ⟨by rw [hempty]; rfl, ?_⟩
      rwa [h₁.output, namesRead_eq_take hle hbefore fun _ => hempty]
    · -- the position moves on behind the name
      have hname := nameLength_le (cfg.fs.entries pos.toNat).fileName
      rw [← name_length] at hname
      have hpos : (pos + 1).toNat = pos.toNat + 1 := by
        have hmax := cfg.fs.numEntries.toNat_lt
        rw [UInt32.toNat_add, UInt32.toNat_one]
        exact Nat.mod_eq_of_lt (by omega)
      refine Or.inr ⟨_, pos + 1, _, mem_namesRead hlt hbefore hempty, rfl, hempty, hname, h₁,
        fun m'' block hblock h'' => ⟨⟨pos + 1, _, ?_, ?_, h'', ?_⟩, ?_⟩⟩
      · omega
      · intro j hj
        rw [hpos] at hj
        rcases Nat.lt_succ_iff_lt_or_eq.1 hj with hj | rfl
        · exact hbefore j hj
        · exact hempty
      · rw [hpos, take_names_succ hlt]
        exact blockForEach_snoc hblocks hblock
      · unfold namesLeft
        rw [h''.fdTable, hat.fdTable, hentry, hentry]
        simp only [hpos]
        omega
  · obtain ⟨rfl, h₁⟩ := hread
    rw [UInt32.lt_iff_toNat_lt] at hlt
    refine Or.inl ⟨rfl, ?_⟩
    rwa [h₁.output, namesRead_eq_take hle hbefore fun h => absurd h hlt]

/-! ## The start of a program -/

/-- A program starts with a fresh table, and with the arguments of its command. -/
theorem started_at {k k1 : Kernel} {comm : Bytes} {loc : Locals} {entryPoint : UInt32} (hi : freeSlot k = some p)
    (hex : execute cfg k (some comm) loc = .started k1 entryPoint) (hm : m.kernel = k1) (hlog : m.log = []) :
    m.At p fdTableInit [] ∧ Terminated.Spells (m.kernel.pcb p).args (argumentText comm) := by
  obtain ⟨j, hj, hst⟩ := execute_started hex
  obtain rfl : p = j := Option.some.inj (hi.symm.trans hj)
  have hpcb : k1.currentPcb? = some p := by
    unfold currentPcb?
    rw [hst.currTerminal, hst.currentProcess, Function.update_self, slot?_val]
    simp only [hst.processArray, Function.update_self]
  subst hm
  exact ⟨⟨hpcb, hst.fdTable, by rw [hlog]; rfl⟩, execute_spells hi hex⟩

/-- Names that agree up to a space or a NUL are the same for a lookup. -/
theorem givenName_of_stop {f g : Bytes} {n : Nat} (hagree : ∀ i < n, f i = g i) (hf : f n = 32 ∨ f n = 0)
    (hg : g n = 32 ∨ g n = 0) : givenName f = givenName g := by
  obtain ⟨hle, hpass, hstop⟩ := givenNameLen_spec g
  have hn : givenNameLen g ≤ n := by
    by_contra hlt
    obtain ⟨hspace, hnul⟩ := hpass n (Nat.lt_of_not_le hlt)
    exact hg.elim hspace hnul
  have hlen : givenNameLen f = givenNameLen g := by
    refine givenNameLen_eq_of hle (fun i hi => ?_) (fun hlt => ?_)
    · rw [hagree i (by omega)]
      exact hpass i hi
    · rcases Nat.eq_or_lt_of_le hn with heq | hbefore
      · rw [heq]
        exact hf
      · rw [hagree _ hbefore]
        exact hstop hlt
  unfold givenName
  rw [firstBytes_eq_iff]
  exact ⟨hlen, fun i hi => hagree i (by omega)⟩

/-- Spaces at the end of a name do not matter. -/
theorem givenName_rdropWhile (s : List UInt8) :
    givenName (cstr (s.rdropWhile (· == 32))) = givenName (cstr s) := by
  induction s using List.reverseRecOn with
  | nil => rfl
  | append_singleton s c ih =>
      rw [List.rdropWhile_concat]
      split_ifs with hc
      · rw [ih]
        refine givenName_of_stop (n := s.length) (fun i hi => ?_) (Or.inr (by simp [cstr])) (Or.inl ?_)
        · rw [cstr, cstr, List.getD_append _ _ _ _ hi]
        · simpa [cstr] using hc
      · rfl

/-- What `getargs` hands over names the same entry as the arguments. -/
theorem readDentryByName_args {fs : FileSystem} (hcount : fs.CountsNames) {buf : Bytes} {s args : List UInt8}
    (hs : Terminated.Spells buf s) (htext : s.rdropWhile (· == 32) = args.rdropWhile (· == 32))
    (d : Dentry) : readDentryByName fs buf d = readDentryByName fs (cstr args) d := by
  have hname : givenName buf = givenName (cstr args) := by
    rw [← givenName_rdropWhile args, ← htext, givenName_rdropWhile]
    exact givenName_congr (n := s.length) (fun i hi => (hs.get i hi).trans rfl) (by simp [cstr])
  rw [readDentryByName_eq hcount, readDentryByName_eq hcount, hname]

end BaseOs
