import BaseOs.FileSystem.Requests
import BaseOs.Syscall.TableSafety

set_option autoImplicit false

/-! # Calls that fail

A system call that returns `-1` should leave things as they were. Two do not. `file_read` takes the
`-1` of `read_data` for a number of bytes and moves the position by it (`fileReads_keep_iff`), and
`rtc_open` sets the rate of the clock before it looks for a descriptor (`failedOpen_keeps_iff`). -/

namespace BaseOs

open Kernel Cells

variable {cfg : Config} {map : KernelMap} {k k' : Kernel} {p : Slot} {i : FdIndex}

/-! ## Failed reads -/

/-- The position of a descriptor. -/
def position (k : Kernel) (p : Slot) (i : FdIndex) : Nat := ((k.pcb p).fdTable i).filePosition.toNat

/-- A `file_read` on a descriptor: the address and length of its buffer. -/
structure FileCall where
  buf : Nat
  nbytes : Int
  rest : Bytes

section Reads

variable (cfg : Config) (map : KernelMap) (p : Slot) (i : FdIndex)

/-- How a `file_read` ends. -/
def FileCall.outcome (k : Kernel) (call : FileCall) : CallOutcome :=
  Pointer.fileRead cfg map call.rest k p i call.buf call.nbytes

/-- One `file_read` that comes back. -/
def readStep (k : Kernel) (call : FileCall) : Option Kernel :=
  match call.outcome cfg map p i k with
  | .done k' _ => some k'
  | .stopped _ _ => none

/-- The read fails, on the inode and at the position the descriptor has. -/
def CallFails (k : Kernel) (call : FileCall) : Prop :=
  ReadFails cfg.fs ((k.pcb p).fdTable i).inodePtr.toUInt32 ((k.pcb p).fdTable i).filePosition
    (toU32 call.nbytes)

/-- The read stores nothing into the descriptor table. -/
def BufferElsewhere (k : Kernel) (call : FileCall) : Prop :=
  Disjoint (fileCells cfg map call.rest k p i call.buf call.nbytes) (tableCells p)

/-- A sequence of `file_read` calls in which the failed ones leave the whole table alone, and in which
    the position never goes back. -/
structure ReadsKeep (k : Kernel) (calls : List FileCall) : Prop where
  failed : Runs.AllSteps (readStep cfg map p i) (fun k call =>
    ∀ k', call.outcome cfg map p i k = .done k' (-1) → (k'.pcb p).fdTable = (k.pcb p).fdTable) k calls
  forward : ∀ before calls' after k1 k2, calls = before ++ calls' ++ after →
    Runs.run (readStep cfg map p i) k before = some k1 →
    Runs.run (readStep cfg map p i) k1 calls' = some k2 → position k1 p i ≤ position k2 p i

end Reads

theorem readStep_eq_some {call : FileCall} :
    readStep cfg map p i k call = some k' ↔ ∃ v, call.outcome cfg map p i k = .done k' v := by
  unfold readStep
  cases call.outcome cfg map p i k with
  | done k1 v => simp
  | stopped k1 why => simp

/-- A read that comes back and fails returns `-1`, and moves the position back by one, or from 0 to the
    largest number. -/
theorem CallFails.moves {call : FileCall} (h : CallFails cfg p i k call)
    (helsewhere : BufferElsewhere cfg map p i k call) {v : Int32}
    (hdone : call.outcome cfg map p i k = .done k' v) :
    v = -1 ∧ (k'.pcb p).fdTable ≠ (k.pcb p).fdTable := by
  obtain ⟨hret, htable⟩ := fileRead_moves helsewhere hdone
  obtain rfl : v = -1 := hret.trans ((readData_fails_iff ..).2 h)
  refine ⟨rfl, fun hsame => ?_⟩
  rw [htable] at hsame
  have hentry := congrArg Fd.filePosition (congrFun hsame i)
  rw [Function.update_self] at hentry
  have hneg : (-1 : Int32).toUInt32.toNat = 2 ^ 32 - 1 := by decide
  have hmove := congrArg UInt32.toNat hentry
  rw [UInt32.toNat_add, hneg] at hmove
  have := ((k.pcb p).fdTable i).filePosition.toNat_lt
  omega

/-- A read that does not fail moves the position forward, within the file. -/
theorem position_le_of_not_callFails {call : FileCall} (h : ¬ CallFails cfg p i k call)
    (helsewhere : BufferElsewhere cfg map p i k call) (hstep : readStep cfg map p i k call = some k') :
    position k p i ≤ position k' p i := by
  obtain ⟨v, hdone⟩ := readStep_eq_some.1 hstep
  obtain ⟨hv, htable⟩ := fileRead_moves helsewhere hdone
  rcases readData_cases cfg.fs ((k.pcb p).fdTable i).inodePtr.toUInt32
    ((k.pcb p).fdTable i).filePosition (toU32 call.nbytes) with hfail | ⟨n, hret, hn⟩
  · exact absurd ((readData_fails_iff ..).1 hfail) h
  · have hsize : fileSize cfg.fs ((k.pcb p).fdTable i).inodePtr.toUInt32 < 2 ^ 32 :=
      (cfg.fs.inodes _).fileSize.toNat_lt
    have hpos := ((k.pcb p).fdTable i).filePosition.toNat_lt
    have hn32 : n < 2 ^ 32 := by omega
    unfold position
    rw [htable, hv, hret, Function.update_self]
    unfold toRet
    rw [UInt32.toUInt32_toInt32, UInt32.toNat_add, UInt32.toNat_ofNat_of_lt' hn32]
    omega

/-- Any sequence of reads on a descriptor, with any table and image, into buffers outside the table: the
    failed calls change nothing and the position never goes back, exactly if no call fails. -/
theorem fileReads_keep_iff (cfg : Config) (map : KernelMap) (p : Slot) (i : FdIndex)
    (calls : List FileCall) (hrun : Runs.run (readStep cfg map p i) k calls = some k')
    (helsewhere : Runs.AllSteps (readStep cfg map p i) (BufferElsewhere cfg map p i) k calls) :
    ReadsKeep cfg map p i k calls ↔
      Runs.AllSteps (readStep cfg map p i) (fun k call => ¬ CallFails cfg p i k call) k calls := by
  constructor
  · rintro ⟨hfailed, -⟩
    induction calls generalizing k with
    | nil => trivial
    | cons call calls ih =>
        obtain ⟨k1, hstep, hrest⟩ := Runs.run_cons_eq_some.1 hrun
        rw [Runs.allSteps_cons hstep] at helsewhere hfailed ⊢
        refine ⟨fun hfails => ?_, ih hrest helsewhere.2 hfailed.2⟩
        obtain ⟨v, hdone⟩ := readStep_eq_some.1 hstep
        obtain ⟨rfl, hchanged⟩ := hfails.moves helsewhere.1 hdone
        exact hchanged (hfailed.1 k1 hdone)
  · intro hgood
    have hboth := Runs.allSteps_and.2 ⟨hgood, helsewhere⟩
    refine ⟨?_, fun before calls' after k1 k2 hcalls hbefore hrun' => ?_⟩
    · refine Runs.AllSteps.imp (I := fun _ => True) (fun k call _ h => ⟨fun k' hdone => ?_, ?_⟩)
        trivial hboth
      · have hret := (fileRead_moves h.2 hdone).1
        exact absurd ((readData_fails_iff ..).1 hret.symm) h.1
      · intros; trivial
    · subst hcalls
      rw [List.append_assoc, Runs.allSteps_append hbefore, Runs.allSteps_append hrun'] at hboth
      refine Runs.le_of_allSteps (fun k => position k p i) ?_ hrun'
      refine Runs.AllSteps.imp (I := fun _ => True) (fun k call _ h => ⟨?_, ?_⟩) trivial hboth.2.1
      · exact fun k' hk' => position_le_of_not_callFails h.1 h.2 hk'
      · intros; trivial

/-- One byte of the text file, read into the program's memory. -/
theorem fileReads_keep_note :
    ∃ k, ReadsKeep smallConfig smallMap 0 2 k [⟨programStart, 1, emptyBuf⟩] := by
  obtain ⟨k, -, hhas, hentry, -, hprogram⟩ := nextCall_openNote smallMap
  have hcell : (kernelView smallConfig smallMap emptyBuf).cell k programStart = some (.memory 0x848000) := by
    change (kernelAddr _ k.paging (programStart % 2 ^ 32)).map (cellAt smallMap) = _
    rw [show programStart % 2 ^ 32 = programStart by decide,
      kernelAddr_program hprogram (by decide) (by decide), Option.map_some]
    exact congrArg some (by decide)
  have hdone := @fileRead_note smallMap emptyBuf programStart k hentry _ hcell _ rfl
  obtain ⟨k', hrun⟩ : ∃ k', Runs.run (readStep smallConfig smallMap 0 2) k
      [⟨programStart, 1, emptyBuf⟩] = some k' :=
    ⟨_, Runs.run_cons_eq_some.2 ⟨_, readStep_eq_some.2 ⟨_, hdone⟩, Runs.run_nil _⟩⟩
  refine ⟨k, (fileReads_keep_iff smallConfig smallMap 0 2 [⟨programStart, 1, emptyBuf⟩] hrun
    ⟨?_, fun _ _ => trivial⟩).2 ⟨fun hfails => ?_, fun _ _ => trivial⟩⟩
  · have hcells : fileCells smallConfig smallMap emptyBuf k 0 2 programStart 1 ⊆
        {c | ∃ pa, c = .memory pa} :=
      (View.cells_mono (Nat.min_le_left _ _)).trans (cells_program hprogram (by decide) (by decide))
    exact (clear_of_memory hcells 0).mono_right Set.subset_union_left
  · have hret := (readData_fails_iff ..).2 hfails
    rw [hentry] at hret
    exact absurd hret (by decide)

/-- A process with descriptor 2 freshly opened on an entry of a damaged image, whose inode 7 does not
    exist. -/
def damagedOpen : Kernel :=
  smallMachine.setFdTable 0 (Function.update fdTableInit 2 ⟨some .filesys, 7, 0, fdOn⟩)

/-- A read of one byte from it, into memory that is not mapped: nothing is stored, so it comes back. -/
theorem damagedOpen_read :
    BufferElsewhere smallConfig smallMap 0 2 damagedOpen ⟨programStart, 1, emptyBuf⟩ ∧
      ∃ k', readStep smallConfig smallMap 0 2 damagedOpen ⟨programStart, 1, emptyBuf⟩ = some k' := by
  have hentry : (damagedOpen.pcb 0).fdTable 2 = ⟨some .filesys, 7, 0, fdOn⟩ := rfl
  have hdata : readData smallConfig.fs (7 : Int32).toUInt32 0 (toU32 1) = ⟨-1, []⟩ := by decide
  constructor
  · refine Set.disjoint_left.2 ?_
    rintro c ⟨j, hj, hc⟩ -
    rw [hentry] at hj
    have hone : (toU32 1).toNat = 1 := rfl
    obtain rfl : j = 0 := by
      dsimp only at hj
      omega
    have hnone : (kernelView smallConfig smallMap emptyBuf).cell damagedOpen (programStart + 0) = none := by
      rfl
    rw [hnone] at hc
    cases hc
  · have hdone : FileCall.outcome smallConfig smallMap 0 2 damagedOpen ⟨programStart, 1, emptyBuf⟩
        = .done (damagedOpen.setFdTable 0 (addOffset (damagedOpen.pcb 0).fdTable 2
          (-1 : Int32).toUInt32)) (-1) := by
      unfold FileCall.outcome
      rw [fileRead_eq, hentry]
      simp only [hdata, View.storeBytes, Outcome.done_andThen]
      rfl
    exact ⟨_, readStep_eq_some.2 ⟨-1, hdone⟩⟩

/-- Reading from it returns `-1` and moves the position. -/
theorem fileReads_not_keep :
    ¬ ∀ (cfg : Config) (map : KernelMap) (k : Kernel) (p : Slot) (i : FdIndex) (calls : List FileCall),
      ReadsKeep cfg map p i k calls := by
  intro hall
  have hfails : CallFails smallConfig 0 2 damagedOpen ⟨programStart, 1, emptyBuf⟩ := .noInode (by decide)
  obtain ⟨helsewhere, k', hstep⟩ := damagedOpen_read
  obtain ⟨v, hdone⟩ := readStep_eq_some.1 hstep
  obtain ⟨rfl, hchanged⟩ := hfails.moves helsewhere hdone
  have hkeep := hall smallConfig smallMap damagedOpen 0 2 [⟨programStart, 1, emptyBuf⟩]
  exact hchanged (hkeep.failed.1 k' hdone)

/-! ## Failed opens -/

/-- A failed `open` leaves everything as it was, but for a message on the console. -/
def OpenKeeps (cfg : Config) (k : Kernel) (filename : Option Bytes) (dentry : Dentry) : Prop :=
  ∀ k', openFile cfg k filename dentry = some (k', -1) → k' = k ∨ ∃ s, k' = k.printf s

/-- The clock is at the rate `rtc_open` sets: register A, and the driver's variables. -/
structure AtOpenRate (cfg : Config) (rtc : Rtc) : Prop where
  currRate : rtc.currRate = minRate
  currFrequency : rtc.currFrequency = frequencies cfg.rtcMemory minRate
  regA : rtc.regA &&& 0x0F = 0x0F

/-- The name is that of the clock, no descriptor is free, and the clock is at another rate. -/
structure ClockInVain (cfg : Config) (k : Kernel) (filename : Option Bytes) (dentry : Dentry) : Prop where
  clock : ∃ name found, filename = some name ∧ readDentryByName cfg.fs name dentry = some found ∧
    found.fileType = 0
  full : ∃ p, k.currentPcb? = some p ∧
    ∀ i : FdIndex, 2 ≤ i.val → ((k.pcb p).fdTable i).flags ≠ fdOff
  rate : ¬ AtOpenRate cfg k.rtc

/-- The write of `set_frequency` keeps register A exactly if its low half is already set. -/
theorem regA_iff (a : UInt8) : (a &&& 0xF0) ||| UInt8.ofNat minRate = a ↔ a &&& 0x0F = 0x0F := by
  have hall : ∀ n : Fin 256, (UInt8.ofNat n &&& 0xF0) ||| UInt8.ofNat minRate = UInt8.ofNat n ↔
      UInt8.ofNat n &&& 0x0F = 0x0F := by decide +kernel
  simpa using hall ⟨a.toNat, a.toNat_lt⟩

theorem setFrequency_two_iff (cfg : Config) (rtc : Rtc) :
    setFrequency cfg.rtcMemory rtc 2 = rtc ↔ AtOpenRate cfg rtc := by
  have hrate : rateFor 2 = minRate := by decide
  constructor
  · intro heq
    have hregA := congrArg Rtc.regA heq
    simp only [setFrequency, hrate, regA_iff] at hregA
    refine ⟨?_, ?_, hregA⟩
    · rw [← heq, setFrequency, hrate]
    · rw [← heq, setFrequency, hrate]
  · rintro ⟨hcurr, hfreq, hregA⟩
    unfold setFrequency
    rw [hrate, (regA_iff _).2 hregA, ← hfreq, ← hcurr]

theorem openWith_keeps {info : Fd} {message : List UInt8} (h : openWith k p info message = (k', -1)) :
    k' = k.printf message := by
  unfold openWith at h
  split at h
  · exact (congrArg Prod.fst h).symm
  · next i _ => exact absurd (congrArg Prod.snd h) (toRet_fdIndex_ne i)

/-- `rtc_open` has set the rate by the time it finds no descriptor. -/
theorem ClockInVain.not_keeps {filename : Option Bytes} {dentry : Dentry}
    (h : ClockInVain cfg k filename dentry) : ¬ OpenKeeps cfg k filename dentry := by
  obtain ⟨⟨name, found, rfl, hfound, htype⟩, ⟨p, hp, hfull⟩, hrate⟩ := h
  have hnone := getFdIndex_eq_none.2 hfull
  have hopen : openFile cfg k (some name) dentry
      = some (({ k with rtc := setFrequency cfg.rtcMemory k.rtc 2 } : Kernel).printf
          (ascii "No Available FD, rtc_open\n"), -1) := by
    simp only [openFile, hfound, hp, htype, if_true, rtcOpen, openWith, hnone]
  intro hkeeps
  apply hrate
  rw [← setFrequency_two_iff]
  rcases hkeeps _ hopen with heq | ⟨s, heq⟩
  · exact congrArg Kernel.rtc heq
  · exact congrArg Kernel.rtc heq

/-- For any state, image and name: a failed `open` leaves everything as it was, exactly if it is not an
    attempt to open the clock that finds no free descriptor while the clock is at another rate. -/
theorem failedOpen_keeps_iff (cfg : Config) (k : Kernel) (filename : Option Bytes) (dentry : Dentry) :
    OpenKeeps cfg k filename dentry ↔ ¬ ClockInVain cfg k filename dentry := by
  constructor
  · exact fun hkeeps hvain => hvain.not_keeps hkeeps
  · intro hnot k' hopen
    unfold openFile at hopen
    split at hopen
    · -- the NULL pointer
      exact Or.inr ⟨_, (congrArg Prod.fst (Option.some.inj hopen)).symm⟩
    · next name =>
        split at hopen
        · exact Or.inl (congrArg Prod.fst (Option.some.inj hopen)).symm
        · next found hfound =>
            split at hopen
            · cases hopen
            · next p hp =>
                split_ifs at hopen with hclock hdir
                · have hfail := Option.some.inj hopen
                  have hfull : ∀ i : FdIndex, 2 ≤ i.val → ((k.pcb p).fdTable i).flags ≠ fdOff := by
                    rw [← getFdIndex_eq_none, Option.eq_none_iff_forall_ne_some]
                    intro i hi
                    unfold rtcOpen openWith at hfail
                    simp only [hi] at hfail
                    exact toRet_fdIndex_ne i (congrArg Prod.snd hfail)
                  have hrate : AtOpenRate cfg k.rtc := by
                    by_contra hrate
                    exact hnot ⟨⟨name, found, rfl, hfound, hclock⟩, ⟨p, hp, hfull⟩, hrate⟩
                  have hprint := openWith_keeps hfail
                  rw [(setFrequency_two_iff cfg k.rtc).2 hrate] at hprint
                  exact Or.inr ⟨_, hprint⟩
                · exact Or.inr ⟨_, openWith_keeps (Option.some.inj hopen)⟩
                · exact Or.inr ⟨_, openWith_keeps (Option.some.inj hopen)⟩

/-! ### On the small machine -/

def clockName : Bytes := cstr (ascii "rtc")

/-- The table of a process that has opened the clock `n` times. -/
def clockTable (n : Nat) : FdTable := fun i =>
  if 2 ≤ i.val ∧ i.val < 2 + n then ⟨some .rtc, -1, 0, fdOn⟩ else fdTableInit i

theorem smallConfig_clock (d : Dentry) :
    readDentryByName smallConfig.fs clockName d = some (fillDentry smallConfig.fs 3 d) := by
  have hfind : (Fin.find? fun i : Fin maxEntries => (smallConfig.fs.entries i).name == ascii "rtc")
      = some ⟨3, by decide⟩ := by decide +kernel
  rw [clockName, readDentryByName_cstr smallConfig_countsNames (by simp [ascii]) (by decide)
    (by decide), hfind]
  rfl

theorem clockTable_succ (n : Fin 6) :
    getFdIndex (clockTable n) = some ⟨2 + n, by omega⟩ ∧
      setFdInfo (clockTable n) ⟨2 + n, by omega⟩ ⟨some .rtc, -1, 0, fdOn⟩ = clockTable (n + 1) := by
  revert n
  decide

theorem next_openClock {n : Fin 6} (hp : k.currentPcb? = some p)
    (htable : (k.pcb p).fdTable = clockTable n) (d : Dentry) :
    ∃ k', k.next smallConfig (.openFile (some clockName) d) = some k' ∧ k'.currentPcb? = some p ∧
      (k'.pcb p).fdTable = clockTable (n + 1) := by
  obtain ⟨hfree, hnext⟩ := clockTable_succ n
  have hclock : (fillDentry smallConfig.fs 3 d).fileType = 0 := rfl
  refine ⟨{ k with rtc := setFrequency smallConfig.rtcMemory k.rtc 2 }.setFdTable p
    (clockTable (n + 1)), ?_, hp, fdTable_setFdTable _ _ _⟩
  simp only [Kernel.next, Kernel.step, openFile, smallConfig_clock, hp, hclock, if_true, rtcOpen,
    openWith, htable, hfree, hnext, Option.map_some]

/-- The first shell opens the clock up to six times. -/
theorem run_openClock {n : Nat} (hn : n ≤ 6) (d : Dentry) :
    ∃ k, Runs.run (Kernel.next smallConfig) smallBooted
        (List.replicate n (.openFile (some clockName) d)) = some k ∧
      k.currentPcb? = some 0 ∧ (k.pcb 0).fdTable = clockTable n := by
  induction n with
  | zero =>
      obtain ⟨hp, htable⟩ := smallBooted_running
      refine ⟨smallBooted, rfl, hp, ?_⟩
      rw [htable]
      funext i
      unfold clockTable
      rw [if_neg (by omega)]
  | succ n ih =>
      obtain ⟨k, hrun, hp, htable⟩ := ih (by omega)
      obtain ⟨k', hopen, hp', htable'⟩ := @next_openClock k 0 ⟨n, by omega⟩ hp htable d
      have hlast := Runs.run_cons_eq_some.2 ⟨k', hopen, Runs.run_nil k'⟩
      refine ⟨k', ?_, hp', htable'⟩
      rw [List.replicate_succ', Runs.run_append_eq_some]
      exact ⟨k, hrun, hlast⟩

/-- With all descriptors open on the clock, set to 1024 Hz, opening it once more returns `-1` and sets the
    rate back. -/
theorem failedOpen_not_keeps :
    ¬ ∀ (cfg : Config) (k : Kernel), Reachable cfg k → ∀ filename dentry,
      OpenKeeps cfg k filename dentry := by
  intro hall
  obtain ⟨k, hrun, hp, htable⟩ := run_openClock le_rfl ⟨fun _ => 0, 0, 0⟩
  have hwrite : k.next smallConfig (.write 2 (some (cstr [0, 4])) 4)
      = some { k with rtc := setFrequency smallConfig.rtcMemory k.rtc 1024 } := by
    have hvalid : checkValidFd (clockTable 6) 2 = true := by decide
    have hfd : fdIndex? 2 = some 2 := by decide
    have hjump : (clockTable 6 2).fdJump = some .rtc := by decide
    have hword : word32 (cstr [0, 4]) = 1024 := by decide
    simp only [Kernel.next, Kernel.step, writeCall, hfd, hp, htable, hvalid, if_true, hjump, rtcWrite,
      hword, Option.map_some]
  have hreach := (smallBooted_reachable.run hrun).run
    (Runs.run_cons_eq_some.2 ⟨_, hwrite, Runs.run_nil _⟩)
  have hfull : getFdIndex (clockTable 6) = none := by decide
  have hrate : rateFor 1024 ≠ minRate := by decide
  have hvain : ClockInVain smallConfig
      { k with rtc := setFrequency smallConfig.rtcMemory k.rtc 1024 } (some clockName)
      ⟨fun _ => 0, 0, 0⟩ := by
    refine ⟨⟨clockName, _, rfl, smallConfig_clock _, rfl⟩, ⟨0, hp, ?_⟩, fun hopen => ?_⟩
    · rw [htable]
      exact getFdIndex_eq_none.1 hfull
    · exact hrate hopen.currRate
  exact hvain.not_keeps (hall smallConfig _ hreach (some clockName) ⟨fun _ => 0, 0, 0⟩)

end BaseOs
