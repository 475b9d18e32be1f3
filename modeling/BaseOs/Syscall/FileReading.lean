import BaseOs.Syscall.OneDescriptor

set_option autoImplicit false

/-! # Reading a file from start to end

A process opens a file and reads it in pieces of any sizes, with other descriptor calls in between.
`delivered` is what the log of the calls shows the program got. `Reading` is the invariant: the entry
still belongs to the file, and its position is the number of bytes delivered. `sequentialRead_faithful`
says that the pieces put together are the file. -/

namespace BaseOs

open Kernel

variable {cfg : Config} {k : Kernel} {p : Slot} {i : FdIndex} {inode : UInt32}

/-! ## The log of a descriptor -/

/-- The bytes one entry of the log handed to the program from descriptor `i`: as many bytes of its
    buffer as the call returned. -/
def deliveredBy (i : FdIndex) : Op × Out → List UInt8
  | (.read fd _ _ _, .ret v buf) => if fd = i.val then firstBytes buf v.toInt.toNat else []
  | _ => []

/-- The bytes one entry of the log asked descriptor `i` for. -/
def requestedBy (i : FdIndex) : Op × Out → Nat
  | (.read fd _ nbytes _, _) => if fd = i.val then nbytes.toNat else 0
  | _ => 0

/-- All bytes read from descriptor `i`, in order. -/
def delivered (i : FdIndex) (log : List (Op × Out)) : List UInt8 := log.flatMap (deliveredBy i)

/-- The sum of all `nbytes` passed with descriptor `i`. -/
def requested (i : FdIndex) (log : List (Op × Out)) : Nat := (log.map (requestedBy i)).sum

theorem delivered_snoc (log : List (Op × Out)) (e : Op × Out) :
    delivered i (log ++ [e]) = delivered i log ++ deliveredBy i e := by
  simp [delivered]

theorem requested_snoc (log : List (Op × Out)) (e : Op × Out) :
    requested i (log ++ [e]) = requested i log + requestedBy i e := by
  simp [requested]

/-- The calls of the log on descriptor `i` gave out the contents of the file `inode` in order. -/
structure Faithful (fs : FileSystem) (inode : UInt32) (i : FdIndex) (log : List (Op × Out)) : Prop where
  /-- Everything read is a start of the file, as long as what was asked for. -/
  bytes : delivered i log = (fileContents fs inode).take (min (requested i log) (fileSize fs inode))
  /-- Each call returned what was asked for or what remained. -/
  counts : ∀ before after buf nbytes line v buf',
    log = before ++ (.read i.val (some buf) nbytes line, .ret v buf') :: after →
    v.toInt.toNat = min nbytes.toNat (fileSize fs inode - (delivered i before).length)
  /-- At the end of the file there was nothing more. -/
  atEnd : ∀ before after buf nbytes line v buf',
    log = before ++ (.read i.val (some buf) nbytes line, .ret v buf') :: after →
    (delivered i before).length = fileSize fs inode → v = 0

/-! ## One `file_read` -/

/-- What `file_read` gives out of a well-formed file at position `pos`, and the entry it leaves. -/
theorem fileRead_spec (hfile : WellFormedFile cfg.fs inode)
    (hinode : ((k.pcb p).fdTable i).inodePtr = inode.toInt32) {pos : Nat}
    (hpos : ((k.pcb p).fdTable i).filePosition.toNat = pos) (hle : pos ≤ fileSize cfg.fs inode)
    {nbytes : Int} (h0 : 0 ≤ nbytes) (hn : nbytes < 2 ^ 31) (buf : Bytes) :
    ∃ m, m = min nbytes.toNat (fileSize cfg.fs inode - pos) ∧
      (fileRead cfg k p i buf nbytes).ret = toRet m ∧
      firstBytes (fileRead cfg k p i buf nbytes).buf m = fileSlice cfg.fs inode pos m ∧
      ∃ pos' : UInt32, pos'.toNat = pos + m ∧
        ((fileRead cfg k p i buf nbytes).kernel.pcb p).fdTable i =
          { (k.pcb p).fdTable i with filePosition := pos' } := by
  have hlen : (toU32 nbytes).toNat = nbytes.toNat := toU32_toNat h0 hn
  have hsize := hfile.size_le
  unfold maxInodeDataBlocks maxCharsInData at hsize
  have hdata := readData_of_noWrap hfile
    (show ((k.pcb p).fdTable i).filePosition.toNat + (toU32 nbytes).toNat < 2 ^ 32 by omega)
  rw [hlen, hpos] at hdata
  set m := min nbytes.toNat (fileSize cfg.fs inode - pos) with hm
  have hm32 : m < 2 ^ 32 := by omega
  have hrd : readData cfg.fs ((k.pcb p).fdTable i).inodePtr.toUInt32
      ((k.pcb p).fdTable i).filePosition (toU32 nbytes)
        = ⟨toRet m, fileSlice cfg.fs inode pos m⟩ := by
    rw [hinode, UInt32.toUInt32_toInt32, hdata]
  have hret : (fileRead cfg k p i buf nbytes).ret = toRet m := by simp only [fileRead, hrd]
  have hword : (toRet m).toUInt32 = UInt32.ofNat m := UInt32.toUInt32_toInt32 _
  refine ⟨m, rfl, hret, ?_, ((k.pcb p).fdTable i).filePosition + UInt32.ofNat m, ?_, ?_⟩
  · simp only [fileRead, hrd]
    have hmap := map_store_range buf (fileSlice cfg.fs inode pos m)
    rwa [length_fileSlice] at hmap
  · rw [UInt32.toNat_add, UInt32.toNat_ofNat_of_lt' hm32, hpos, Nat.mod_eq_of_lt (by omega)]
  · rw [fileRead_table, hret, hword, Function.update_self]

/-! ## The invariant -/

/-- While the file is being read: the process runs, its table is in order, and entry `i` is open on the
    file, at the number of bytes delivered. -/
structure Reading (cfg : Config) (p : Slot) (i : FdIndex) (inode : UInt32)
    (s : Kernel × List (Op × Out)) : Prop where
  running : s.1.currentPcb? = some p
  table : TableOk (s.1.pcb p).fdTable
  jump : ((s.1.pcb p).fdTable i).fdJump = some .filesys
  inodePtr : ((s.1.pcb p).fdTable i).inodePtr = inode.toInt32
  flags : ((s.1.pcb p).fdTable i).flags = fdOn
  position : ((s.1.pcb p).fdTable i).filePosition.toNat = (delivered i s.2).length
  faithful : Faithful cfg.fs inode i s.2

variable {log : List (Op × Out)}

/-- An entry that is not a read from the descriptor changes nothing. -/
theorem Faithful.snoc_other (h : Faithful cfg.fs inode i log) {e : Op × Out}
    (hother : ∀ buf nbytes line out, e ≠ (.read i.val (some buf) nbytes line, out))
    (hd : deliveredBy i e = []) (hr : requestedBy i e = 0) : Faithful cfg.fs inode i (log ++ [e]) where
  bytes := by rw [delivered_snoc, requested_snoc, hd, hr, List.append_nil, Nat.add_zero, h.bytes]
  counts := by
    intro before after buf nbytes line v buf' heq
    rcases Logs.append_cons_eq_snoc heq.symm with ⟨-, he⟩ | ⟨after', hlog⟩
    · exact absurd he.symm (hother _ _ _ _)
    · exact h.counts before after' buf nbytes line v buf' hlog
  atEnd := by
    intro before after buf nbytes line v buf' heq
    rcases Logs.append_cons_eq_snoc heq.symm with ⟨-, he⟩ | ⟨after', hlog⟩
    · exact absurd he.symm (hother _ _ _ _)
    · exact h.atEnd before after' buf nbytes line v buf' hlog

theorem Faithful.length_delivered (h : Faithful cfg.fs inode i log) :
    (delivered i log).length = min (requested i log) (fileSize cfg.fs inode) := by
  rw [h.bytes, List.length_take, length_fileContents]
  omega

/-- A read that continues where the last one stopped. -/
theorem Faithful.snoc_read (h : Faithful cfg.fs inode i log)
    (hsize : fileSize cfg.fs inode < 2 ^ 31) {buf buf' : Bytes} {nbytes : Int} {line : Bytes} {m : Nat}
    (hm : m = min nbytes.toNat (fileSize cfg.fs inode - (delivered i log).length))
    (hbuf : firstBytes buf' m = fileSlice cfg.fs inode (delivered i log).length m) :
    Faithful cfg.fs inode i (log ++ [(.read i.val (some buf) nbytes line, .ret (toRet m) buf')]) := by
  have hm31 : m < 2 ^ 31 := by omega
  have hcount : (toRet m).toInt.toNat = m := toRet_toNat hm31
  have hlen := h.length_delivered
  refine ⟨?_, ?_, ?_⟩
  · -- the new slice starts where the old one ends
    have hold : delivered i log = fileSlice cfg.fs inode 0 (delivered i log).length := by
      rw [fileSlice_zero_eq_take (by omega), hlen]
      exact h.bytes
    rw [delivered_snoc, requested_snoc]
    simp only [deliveredBy, requestedBy, if_true, hcount, hbuf]
    calc delivered i log ++ fileSlice cfg.fs inode (delivered i log).length m
        = fileSlice cfg.fs inode 0 (delivered i log).length
            ++ fileSlice cfg.fs inode (0 + (delivered i log).length) m := by
          rw [← hold, Nat.zero_add]
      _ = fileSlice cfg.fs inode 0 ((delivered i log).length + m) := fileSlice_append _ _ _
      _ = (fileContents cfg.fs inode).take ((delivered i log).length + m) :=
          fileSlice_zero_eq_take (by omega)
      _ = (fileContents cfg.fs inode).take
            (min (requested i log + nbytes.toNat) (fileSize cfg.fs inode)) := by
          congr 1
          omega
  · intro before after buf1 nbytes1 line1 v buf1' heq
    rcases Logs.append_cons_eq_snoc heq.symm with ⟨rfl, he⟩ | ⟨after', hlog⟩
    · simp only [Prod.mk.injEq, Op.read.injEq, Out.ret.injEq, Option.some.injEq] at he
      obtain ⟨⟨-, -, rfl, -⟩, rfl, -⟩ := he
      rw [hcount, hm]
    · exact h.counts before after' buf1 nbytes1 line1 v buf1' hlog
  · intro before after buf1 nbytes1 line1 v buf1' heq hend
    rcases Logs.append_cons_eq_snoc heq.symm with ⟨rfl, he⟩ | ⟨after', hlog⟩
    · simp only [Prod.mk.injEq, Op.read.injEq, Out.ret.injEq, Option.some.injEq] at he
      obtain ⟨-, rfl, -⟩ := he
      have hzero : m = 0 := by omega
      rw [hzero]
      rfl
    · exact h.atEnd before after' buf1 nbytes1 line1 v buf1' hlog hend

/-! ## One call -/

theorem deliveredBy_other {op : Op} (hnamed : op.descriptor? ≠ some (i.val : Int)) (out : Out) :
    deliveredBy i (op, out) = [] ∧ requestedBy i (op, out) = 0 := by
  cases op with
  | read fd buf nbytes line =>
      have hfd : fd ≠ i.val := fun heq => hnamed (by rw [heq]; rfl)
      cases out <;> simp [deliveredBy, requestedBy, hfd]
  | _ => exact ⟨rfl, rfl⟩

theorem Reading.hasOpen {s : Kernel × List (Op × Out)} (h : Reading cfg p i inode s) :
    HasOpen p i s.1 := ⟨h.running, h.table, h.flags⟩

/-- One call keeps the invariant. -/
theorem Reading.step (hfile : WellFormedFile cfg.fs inode) (s : Kernel × List (Op × Out)) (op : Op)
    (h : Reading cfg p i inode s) (hop : op.ReadsOrElsewhere i) :
    ∃ s', Kernel.logged cfg s op = some s' ∧ Reading cfg p i inode s' := by
  obtain ⟨k', v, buf', hstep, hopen, hkind⟩ := @step_around cfg s.1 p i op h.hasOpen hop
  refine ⟨(k', s.2 ++ [(op, .ret v buf')]),
    by simp only [Kernel.logged, hstep, Option.map_some], ?_⟩
  rcases hkind with ⟨buf, nbytes, line, rfl, h0, hn⟩ | ⟨hnamed, hkeep⟩
  · -- a `file_read` of the file
    have hcall := (@readCall_around cfg s.1 p i h.hasOpen buf nbytes line).1 h.jump
    have hle : (delivered i s.2).length ≤ fileSize cfg.fs inode := by
      rw [h.faithful.length_delivered]
      omega
    obtain ⟨m, hm, hret, hbytes, pos', hpos', hentry⟩ :=
      fileRead_spec hfile h.inodePtr h.position hle h0 hn buf
    simp only [Kernel.step, hcall, Option.map_some, Option.some.injEq, Prod.mk.injEq,
      Out.ret.injEq] at hstep
    obtain ⟨rfl, rfl, rfl⟩ := hstep
    have hsize : fileSize cfg.fs inode < 2 ^ 31 := by
      have := hfile.size_le
      unfold maxInodeDataBlocks maxCharsInData at this
      omega
    have hfaithful : Faithful cfg.fs inode i (s.2 ++ [(.read i.val (some buf) nbytes line,
        .ret (toRet m) (fileRead cfg s.1 p i buf nbytes).buf)]) :=
      h.faithful.snoc_read hsize hm hbytes
    refine ⟨hopen.running, hopen.table, ?_, ?_, hopen.flags, ?_, by rw [hret]; exact hfaithful⟩
    · rw [hentry]; exact h.jump
    · rw [hentry]; exact h.inodePtr
    · rw [hentry, hret, hfaithful.length_delivered, requested_snoc]
      have hlen := h.faithful.length_delivered
      simp only [requestedBy, if_true, hpos']
      omega
  · -- a call on another descriptor
    obtain ⟨hd, hr⟩ := deliveredBy_other hnamed (.ret v buf')
    have hother : ∀ buf nbytes line out,
        ((op, .ret v buf') : Op × Out) ≠ (.read i.val (some buf) nbytes line, out) := by
      intro buf nbytes line out heq
      simp only [Prod.mk.injEq] at heq
      exact hnamed (by rw [heq.1]; rfl)
    refine ⟨hopen.running, hopen.table, ?_, ?_, hopen.flags, ?_, h.faithful.snoc_other hother hd hr⟩
    · rw [hkeep]; exact h.jump
    · rw [hkeep]; exact h.inodePtr
    · rw [hkeep, delivered_snoc, hd, List.append_nil]; exact h.position

/-! ## The whole run -/

/-- `open` of a regular file: the entry it returns is on the file, at position 0. -/
theorem openFile_file (hp : k.currentPcb? = some p) (hok : TableOk (k.pcb p).fdTable) {name : Bytes}
    {dentry found : Dentry} (hname : readDentryByName cfg.fs name dentry = some found)
    (htype : found.fileType = 2) {k' : Kernel}
    (hopen : openFile cfg k (some name) dentry = some (k', toRet i.val)) :
    Reading cfg p i found.inodeIdx (k', []) := by
  obtain ⟨hhas, hentry⟩ := openFile_entry hp hok hname (by rw [htype]; decide) hopen
  rw [if_neg (by rw [htype]; decide)] at hentry
  refine ⟨hhas.running, hhas.table, ?_, ?_, hhas.flags, ?_, ⟨?_, ?_, ?_⟩⟩
  · rw [hentry]
  · rw [hentry]
  · rw [hentry]; rfl
  · simp [delivered, requested]
  · intro before after buf nbytes line v buf' heq
    simp at heq
  · intro before after buf nbytes line v buf' heq
    simp at heq

/-- A process with a fresh table makes any descriptor calls, opens a regular well-formed file and then
    reads it with any sizes, in between any calls on other descriptors. All of these calls return. The
    bytes read are the start of the file as long as the sum of the sizes, or the whole file; each call
    returns what it was asked for or what remains; the position counts the bytes delivered. -/
theorem sequentialRead_faithful (hp : k.currentPcb? = some p)
    (hinit : (k.pcb p).fdTable = fdTableInit) {earlier : List Op}
    (hearlier : ∀ op ∈ earlier, op.isDescriptor = true) {k0 k1 : Kernel}
    (hrun : Runs.run (Kernel.next cfg) k earlier = some k0) {name : Bytes} {dentry found : Dentry}
    (hname : readDentryByName cfg.fs name dentry = some found) (htype : found.fileType = 2)
    (hfile : WellFormedFile cfg.fs found.inodeIdx)
    (hopen : openFile cfg k0 (some name) dentry = some (k1, toRet i.val)) (ops : List Op)
    (hops : ∀ op ∈ ops, op.ReadsOrElsewhere i) :
    ∃ s, Runs.run (Kernel.logged cfg) (k1, []) ops = some s ∧
      Faithful cfg.fs found.inodeIdx i s.2 ∧
      ((s.1.pcb p).fdTable i).filePosition.toNat = (delivered i s.2).length := by
  obtain ⟨k0', hrun', hp0, hok0⟩ := run_tableOk hp hinit hearlier
  rw [hrun] at hrun'
  cases hrun'
  have hreading := openFile_file hp0 hok0 hname htype hopen
  obtain ⟨s, hs, h⟩ :=
    Runs.run_isSome (Reading.step hfile) hreading (Runs.allSteps_of_labels hops (k1, []))
  exact ⟨s, hs, h.faithful, h.position⟩

/-- The text file of the small machine, read three bytes at a time with the directory opened in
    between. -/
theorem sequentialRead_note :
    ∃ k1 s, openFile smallConfig smallBooted (some noteCommand) ⟨fun _ => 0, 0, 0⟩ = some (k1, 2) ∧
      Runs.run (Kernel.logged smallConfig) (k1, [])
        [.read 2 (some emptyBuf) 3 emptyBuf, .openFile (some (cstr (ascii "."))) ⟨fun _ => 0, 0, 0⟩,
          .read 2 (some emptyBuf) 3 emptyBuf] = some s ∧
      Faithful smallConfig.fs 1 2 s.2 := by
  obtain ⟨hpcb, htable⟩ := smallBooted_running
  have hname := smallConfig_note ⟨fun _ => 0, 0, 0⟩
  have hfree : getFdIndex (smallBooted.pcb 0).fdTable = some 2 := by
    rw [htable]
    decide
  obtain ⟨k1, hopen⟩ := openFile_free hpcb hname hfree
  obtain ⟨s, hrun, hfaithful, -⟩ := sequentialRead_faithful (i := 2) hpcb htable
    (by simp : ∀ op ∈ ([] : List Op), op.isDescriptor = true) rfl hname rfl note_wellFormed hopen
    [.read 2 (some emptyBuf) 3 emptyBuf, .openFile (some (cstr (ascii "."))) ⟨fun _ => 0, 0, 0⟩,
      .read 2 (some emptyBuf) 3 emptyBuf] (by simp [Op.ReadsOrElsewhere])
  exact ⟨k1, s, hopen, hrun, hfaithful⟩

end BaseOs
