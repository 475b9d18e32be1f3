import BaseOs.Syscall.OneDescriptor

set_option autoImplicit false

/-! # Listing the directory

A process opens the directory and reads it again and again, with buffers of any size and with other
descriptor calls in between. Which name a call returns depends only on how many reads there were before
it: `directoryListing_exact`. -/

namespace BaseOs

open Kernel

variable {cfg : Config} {k : Kernel} {p : Slot} {i : FdIndex} {bb : BootBlock} {log : List (Op × Out)}

/-! ## The log of a directory -/

/-- Is the entry of the log a read of descriptor `i`? -/
def isReadOf (i : FdIndex) : Op × Out → Bool
  | (.read fd _ _ _, _) => fd == i.val
  | _ => false

/-- The number of reads of descriptor `i`. -/
def readsOf (i : FdIndex) (log : List (Op × Out)) : Nat := log.countP (isReadOf i)

/-- What the read number `j` of the directory returns and stores: as much of the name of entry `j` as
    there is and as fits, and nothing after the last entry. -/
def Lists (bb : BootBlock) (j : Nat) (buf : Bytes) (nbytes : Int) (v : Int32) (buf' : Bytes) : Prop :=
  if j < bb.numDirEntries.toNat then
    v = toRet (min (min nbytes.toNat (bb.dirEntries j).name.length) maxNameCharacters) ∧
    ∀ m, buf' m =
      if m < min (min nbytes.toNat (bb.dirEntries j).name.length) maxNameCharacters then
        (bb.dirEntries j).fileName m
      else buf m
  else v = 0 ∧ buf' = buf

/-- Every read of descriptor `i` in the log lists the entry its number stands for. -/
def Listing (bb : BootBlock) (i : FdIndex) (log : List (Op × Out)) : Prop :=
  Logs.EachEntry (fun before e => ∀ buf nbytes line v buf',
    e = (.read i.val (some buf) nbytes line, .ret v buf') →
      Lists bb (readsOf i before) buf nbytes v buf') log

theorem readsOf_snoc (log : List (Op × Out)) (e : Op × Out) :
    readsOf i (log ++ [e]) = readsOf i log + if isReadOf i e then 1 else 0 := by
  simp [readsOf, List.countP_append, List.countP_cons]

theorem isReadOf_read (buf : Option Bytes) (nbytes : Int) (line : Bytes) (out : Out) :
    isReadOf i (.read i.val buf nbytes line, out) = true := by
  simp [isReadOf]

theorem isReadOf_other {op : Op} (hnamed : op.descriptor? ≠ some (i.val : Int)) (out : Out) :
    isReadOf i (op, out) = false := by
  cases op with
  | read fd buf nbytes line => exact beq_eq_false_iff_ne.2 fun heq => hnamed (by rw [heq]; rfl)
  | _ => rfl

/-! ## One read -/

/-- A read of the directory lists the entry at its position, and moves on unless it is at the end. -/
theorem dirRead_lists (hnum : cfg.fs.numEntries = bb.numDirEntries)
    (hentries : cfg.fs.entries = bb.dirEntries) {r : Nat}
    (hpos : ((k.pcb p).fdTable i).filePosition.toNat = min r bb.numDirEntries.toNat) (buf : Bytes)
    (nbytes : Int) :
    Lists bb r buf nbytes (dirRead cfg k p i buf nbytes).ret (dirRead cfg k p i buf nbytes).buf ∧
      (((dirRead cfg k p i buf nbytes).kernel.pcb p).fdTable i).fdJump
        = ((k.pcb p).fdTable i).fdJump ∧
      (((dirRead cfg k p i buf nbytes).kernel.pcb p).fdTable i).filePosition.toNat
        = min (r + 1) bb.numDirEntries.toNat := by
  unfold Lists
  by_cases hr : r < bb.numDirEntries.toNat
  · have hlt : ((k.pcb p).fdTable i).filePosition < cfg.fs.numEntries := by
      rw [hnum, UInt32.lt_iff_toNat_lt, hpos]
      omega
    have hname : (bb.dirEntries r).name.length ≤ maxNameCharacters := by
      rw [name_length]
      exact nameLength_le _
    have hmin : min (min nbytes.toNat (bb.dirEntries r).name.length) maxNameCharacters
        = min nbytes.toNat (bb.dirEntries r).name.length := by omega
    have hat : ((k.pcb p).fdTable i).filePosition.toNat = r := by omega
    rw [if_pos hr, hmin, dirRead_eq buf nbytes hlt, hat, hentries]
    simp only [fdTable_setFdTable, addOffset, fdIndex?_val, Function.update_self]
    refine ⟨⟨trivial, fun _ => trivial⟩, trivial, ?_⟩
    have hmax := bb.numDirEntries.toNat_lt
    rw [UInt32.toNat_add, hat]
    change (r + 1) % 2 ^ 32 = _
    omega
  · have hend : cfg.fs.numEntries ≤ ((k.pcb p).fdTable i).filePosition := by
      rw [hnum, UInt32.le_iff_toNat_le, hpos]
      omega
    rw [if_neg hr, dirRead_end buf nbytes hend]
    exact ⟨⟨rfl, rfl⟩, rfl, hpos.trans (by omega)⟩

/-! ## The invariant -/

/-- While the directory is being read: the entry is open on it, at the number of reads or at the end. -/
structure Enumerating (bb : BootBlock) (p : Slot) (i : FdIndex) (s : Kernel × List (Op × Out)) :
    Prop where
  hasOpen : HasOpen p i s.1
  jump : ((s.1.pcb p).fdTable i).fdJump = some .dir
  position : ((s.1.pcb p).fdTable i).filePosition.toNat
    = min (readsOf i s.2) bb.numDirEntries.toNat
  listing : Listing bb i s.2

/-- One call keeps the invariant. -/
theorem Enumerating.step (hnum : cfg.fs.numEntries = bb.numDirEntries)
    (hentries : cfg.fs.entries = bb.dirEntries) (s : Kernel × List (Op × Out)) (op : Op)
    (h : Enumerating bb p i s) (hop : op.ReadsOrElsewhere i) :
    ∃ s', Kernel.logged cfg s op = some s' ∧ Enumerating bb p i s' := by
  obtain ⟨k', v, buf', hstep, hopen, hkind⟩ := @step_around cfg s.1 p i op h.hasOpen hop
  refine ⟨(k', s.2 ++ [(op, .ret v buf')]), by simp only [Kernel.logged, hstep, Option.map_some], ?_⟩
  rcases hkind with ⟨buf, nbytes, line, rfl, -⟩ | ⟨hnamed, hkeep⟩
  · -- a read of the directory
    have hcall := (@readCall_around cfg s.1 p i h.hasOpen buf nbytes line).2 h.jump
    obtain ⟨hlists, hjump, hpos⟩ := dirRead_lists hnum hentries h.position buf nbytes
    simp only [Kernel.step, hcall, Option.map_some, Option.some.injEq, Prod.mk.injEq,
      Out.ret.injEq] at hstep
    obtain ⟨rfl, rfl, rfl⟩ := hstep
    refine ⟨hopen, hjump.trans h.jump, ?_, ?_⟩
    · rw [readsOf_snoc, isReadOf_read, if_pos rfl]
      exact hpos
    · refine Logs.eachEntry_snoc.2 ⟨h.listing, ?_⟩
      intro buf1 nbytes1 line1 v1 buf1' heq
      simp only [Prod.mk.injEq, Op.read.injEq, Out.ret.injEq, Option.some.injEq] at heq
      obtain ⟨⟨-, rfl, rfl, -⟩, rfl, rfl⟩ := heq
      exact hlists
  · have hother := isReadOf_other hnamed (.ret v buf')
    refine ⟨hopen, by rw [hkeep]; exact h.jump, ?_, ?_⟩
    · rw [readsOf_snoc, hother, hkeep]
      exact h.position
    · refine Logs.eachEntry_snoc.2 ⟨h.listing, ?_⟩
      intro buf nbytes line v1 buf1 heq
      rw [heq, isReadOf_read] at hother
      cases hother

/-! ## The whole run -/

/-- A process with a fresh table makes any descriptor calls, opens the directory and then reads it with
    buffers of any size, in between any calls on other descriptors. All of these calls return; the read
    number `j` gives as much of the name of entry `j` as there is and as fits and leaves the rest of the
    buffer alone, every read after the last entry returns 0 and stores nothing, and the position counts
    the reads up to the number of entries. -/
theorem directoryListing_exact {img : Image} {table : Nat → Nat} (hfs : cfg.fs = filesystemInit img table)
    (hp : k.currentPcb? = some p) (hinit : (k.pcb p).fdTable = fdTableInit) {earlier : List Op}
    (hearlier : ∀ op ∈ earlier, op.isDescriptor = true) {k0 k1 : Kernel}
    (hrun : Runs.run (Kernel.next cfg) k earlier = some k0) {name : Bytes} {dentry found : Dentry}
    (hname : readDentryByName cfg.fs name dentry = some found) (htype : found.fileType = 1)
    (hopen : openFile cfg k0 (some name) dentry = some (k1, toRet i.val)) (ops : List Op)
    (hops : ∀ op ∈ ops, op.ReadsOrElsewhere i) :
    ∃ s, Runs.run (Kernel.logged cfg) (k1, []) ops = some s ∧ Listing img.bootBlock i s.2 ∧
      ((s.1.pcb p).fdTable i).filePosition.toNat
        = min (readsOf i s.2) img.bootBlock.numDirEntries.toNat := by
  obtain ⟨k0', hrun', hp0, hok0⟩ := run_tableOk hp hinit hearlier
  rw [hrun] at hrun'
  cases hrun'
  obtain ⟨hhas, hentry⟩ := openFile_entry hp0 hok0 hname (by rw [htype]; decide) hopen
  rw [if_pos htype] at hentry
  have hbegin : Enumerating img.bootBlock p i (k1, []) := by
    refine ⟨hhas, by rw [hentry], ?_, Logs.eachEntry_nil⟩
    rw [hentry]
    exact (Nat.zero_min _).symm
  obtain ⟨s, hs, h⟩ := Runs.run_isSome (Enumerating.step (by rw [hfs]; rfl) (by rw [hfs]; rfl)) hbegin
    (Runs.allSteps_of_labels hops (k1, []))
  exact ⟨s, hs, h.listing, h.position⟩

def dotName : Bytes := cstr (ascii ".")

theorem smallConfig_dot (d : Dentry) :
    readDentryByName smallConfig.fs dotName d = some (fillDentry smallConfig.fs 2 d) := by
  have hfind : (Fin.find? fun i : Fin maxEntries => (smallConfig.fs.entries i).name == ascii ".")
      = some ⟨2, by decide⟩ := by decide +kernel
  rw [dotName, readDentryByName_cstr smallConfig_countsNames (by simp [ascii]) (by decide)
    (by decide), hfind]
  rfl

/-- The directory of the small machine, with buffers of 3 and 40 bytes and the clock opened in
    between. -/
theorem directoryListing_small :
    ∃ k1 s, openFile smallConfig smallBooted (some dotName) ⟨fun _ => 0, 0, 0⟩ = some (k1, 2) ∧
      Runs.run (Kernel.logged smallConfig) (k1, [])
        [.read 2 (some emptyBuf) 3 emptyBuf, .openFile (some (cstr (ascii "rtc"))) ⟨fun _ => 0, 0, 0⟩,
          .read 2 (some emptyBuf) 40 emptyBuf] = some s ∧
      Listing smallImage.bootBlock 2 s.2 ∧ ((s.1.pcb 0).fdTable 2).filePosition.toNat
        = min (readsOf 2 s.2) 4 := by
  obtain ⟨hpcb, htable⟩ := smallBooted_running
  have hname := smallConfig_dot ⟨fun _ => 0, 0, 0⟩
  have hfree : getFdIndex (smallBooted.pcb 0).fdTable = some 2 := by
    rw [htable]
    decide
  obtain ⟨k1, hopen⟩ := openFile_free hpcb hname hfree
  have hfs : smallConfig.fs = filesystemInit smallImage fun _ => 0 := rfl
  obtain ⟨s, hrun, hlisting, hpos⟩ := directoryListing_exact (i := 2) hfs hpcb htable
    (by simp : ∀ op ∈ ([] : List Op), op.isDescriptor = true) rfl hname rfl hopen
    [.read 2 (some emptyBuf) 3 emptyBuf, .openFile (some (cstr (ascii "rtc"))) ⟨fun _ => 0, 0, 0⟩,
      .read 2 (some emptyBuf) 40 emptyBuf] (by simp [Op.ReadsOrElsewhere])
  exact ⟨k1, s, hopen, hrun, hlisting, hpos⟩

end BaseOs
