import BaseOs.Syscall.OneDescriptor
import BaseOs.Syscall.Reach
import BaseOs.System.Stable

set_option autoImplicit false

/-! # The descriptor table over whole runs, with buffers anywhere

A program may pass any address to `read`, and one of them is that of its own descriptor table. As long as no
read stores there, the table stays in order through any descriptor calls (`descriptorTable_safe`). One byte
of a file stored over the flags of a closed entry turns it on, with a NULL jump table
(`descriptorTable_not_safe`). -/

namespace BaseOs

open Kernel Cells

/-- A descriptor call, with the address `read` gets. -/
inductive DescriptorCall
  | openFile (filename : Option Bytes) (dentry : Dentry)
  | read (fd : Int) (buf : Nat) (nbytes : Int) (line rest : Bytes)
  | write (fd : Int) (buf : Option Bytes) (nbytes : Int)
  | close (fd : Int)

/-- The operation without the address. -/
def DescriptorCall.op : DescriptorCall → Op
  | .openFile filename dentry => .openFile filename dentry
  | .read fd _ nbytes line _ => .read fd none nbytes line
  | .write fd buf nbytes => .write fd buf nbytes
  | .close fd => .close fd

/-- A call that stores into no buffer. -/
def plainCall (k : Kernel) : Option (Kernel × Int32) → CallOutcome
  | some r => .done r.1 r.2
  | none => .stopped k .wild

section Runs

variable (cfg : Config) (map : KernelMap)

/-- How a call ends. -/
def Kernel.descriptorCall (k : Kernel) : DescriptorCall → CallOutcome
  | .openFile filename dentry => plainCall k (BaseOs.openFile cfg k filename dentry)
  | .read fd buf nbytes line rest => Pointer.read cfg map rest k fd buf nbytes line
  | .write fd buf nbytes => plainCall k (writeCall cfg k fd buf nbytes)
  | .close fd => plainCall k (closeCall k fd)

/-- The state after a call that comes back. -/
def Kernel.nextCall (k : Kernel) (call : DescriptorCall) : Option Kernel :=
  match k.descriptorCall cfg map call with
  | .done k' _ => some k'
  | .stopped _ _ => none

/-- The cells of the descriptor table of a process. -/
def tableCells (p : Slot) : Set Cell := {c | ∃ i word byte, c = .entry p i word byte}

/-- The part of the kernel's frame that is not kept track of. -/
def untracked : Set Cell := {c | ∃ pa, c = .kernel pa}

/-- If the call is a read, it stores neither into the descriptor table of the running process nor into the
    kernel's other variables. -/
def ClearOfTable (k : Kernel) (call : DescriptorCall) : Prop :=
  ∀ p fd buf nbytes line rest, k.currentPcb? = some p → call = .read fd buf nbytes line rest →
    Disjoint (Pointer.readCells cfg map rest k fd buf nbytes) (tableCells p ∪ untracked)

/-- What every descriptor call that is clear of the table does when the process `p` is running. -/
structure CallsOk (k : Kernel) (p : Slot) : Prop where
  /-- No call goes through a NULL table: it comes back, or a byte of its buffer is not mapped. -/
  goesThrough : ∀ call, ClearOfTable cfg map k call → (k.descriptorCall cfg map call).OnlyFaults
  /-- `open` of an existing name: `-1` exactly when all six entries are open, else the lowest one that
      is not. -/
  opens : ∀ filename dentry found, readDentryByName cfg.fs filename dentry = some found →
    ∃ k' v, k.descriptorCall cfg map (.openFile (some filename) dentry) = .done k' v ∧
      (v = -1 ↔ ∀ i : FdIndex, 2 ≤ i.val → ((k.pcb p).fdTable i).flags = fdOn) ∧
      ∀ i : FdIndex, 2 ≤ i.val → ((k.pcb p).fdTable i).flags = fdOff →
        (∀ j < i, 2 ≤ j.val → ((k.pcb p).fdTable j).flags = fdOn) →
        v = toRet i.val ∧ ((k'.pcb p).fdTable i).flags = fdOn ∧
          ((k'.pcb p).fdTable i).filePosition = 0
  /-- `close` works exactly on the open entries from 2 on. -/
  closes : ∀ fd : Int, ∃ k' v, k.descriptorCall cfg map (.close fd) = .done k' v ∧
    (v = 0 ↔ ∃ i : FdIndex, fd = i.val ∧ 2 ≤ i.val ∧ ((k.pcb p).fdTable i).flags = fdOn)
  /-- A call changes no descriptor but the one it names or returns. -/
  others : ∀ call k' v, ClearOfTable cfg map k call → k.descriptorCall cfg map call = .done k' v →
    ∀ j : FdIndex, call.op.descriptor? ≠ some (j.val : Int) →
      (∀ filename dentry, call = .openFile filename dentry → v ≠ toRet j.val) →
      (k'.pcb p).fdTable j = (k.pcb p).fdTable j

end Runs

variable {cfg : Config} {map : KernelMap} {rest : Bytes} {C : Set Cell} {k k' : Kernel} {p : Slot}
  {fd : Int} {buf : Nat} {nbytes : Int} {line : Bytes} {call : DescriptorCall} {v : Int32}

/-! ## One call -/

/-- A store outside a descriptor table. -/
theorem storeCell_fdTable {c : Cell} {b : UInt8} (hc : c ∉ tableCells p)
    (h : k.storeCell map c b = some k') : (k'.pcb p).fdTable = (k.pcb p).fdTable := by
  cases c with
  | saved t i | memory pa =>
      obtain rfl := Option.some.inj h
      rfl
  | kernel pa => cases h
  | args q i =>
      obtain rfl := Option.some.inj h
      exact @fdTable_update q k.pcb { k.pcb q with args := Function.update (k.pcb q).args i b } rfl p
  | entry q i word byte =>
      obtain rfl := Option.some.inj h
      have hne : p ≠ q := by
        rintro rfl
        exact hc ⟨i, word, byte, rfl⟩
      simp only [setFdTable, setPcb, Function.update_of_ne hne]

theorem Wrote.fdTable (h : Wrote cfg map rest C k k') (hC : Disjoint C (tableCells p)) :
    (k'.pcb p).fdTable = (k.pcb p).fdTable :=
  View.Wrote.keeps (f := fun k : Kernel => (k.pcb p).fdTable) h fun _ _ _ _ hc hstore =>
    storeCell_fdTable (Set.disjoint_left.1 hC hc) hstore

/-- Stores into what is kept track of. -/
theorem tracked_of_disjoint (h : Disjoint C untracked) : (kernelView cfg map rest).Tracked C := by
  intro c hc k b hnone
  cases c with
  | kernel pa => exact Set.disjoint_left.1 h hc ⟨pa, rfl⟩
  | _ => cases hnone

/-- What a `file_read` may store into. -/
def fileCells (cfg : Config) (map : KernelMap) (rest : Bytes) (k : Kernel) (p : Slot) (i : FdIndex)
    (buf : Nat) (nbytes : Int) : Set Cell :=
  (kernelView cfg map rest).cells k buf (min (toU32 nbytes).toNat
    ((cfg.fs.inodes ((k.pcb p).fdTable i).inodePtr.toUInt32.toNat).fileSize.toNat -
      ((k.pcb p).fdTable i).filePosition.toNat))

/-- A `file_read` that is clear of the table and comes back has moved the position by what `read_data`
    returned, whatever that was. -/
theorem fileRead_moves {i : FdIndex}
    (hclear : Disjoint (fileCells cfg map rest k p i buf nbytes) (tableCells p))
    (h : Pointer.fileRead cfg map rest k p i buf nbytes = .done k' v) :
    v = (readData cfg.fs ((k.pcb p).fdTable i).inodePtr.toUInt32 ((k.pcb p).fdTable i).filePosition
        (toU32 nbytes)).ret ∧
      (k'.pcb p).fdTable = Function.update (k.pcb p).fdTable i { (k.pcb p).fdTable i with
        filePosition := ((k.pcb p).fdTable i).filePosition + v.toUInt32 } := by
  rw [fileRead_eq] at h
  obtain ⟨k1, u, hstore, hend⟩ := Outcome.andThen_eq_done.1 h
  have hwrote := (fileRead_wrote subset_rfl).1.fdTable hclear
  rw [hstore] at hwrote
  have htable : (k1.pcb p).fdTable = (k.pcb p).fdTable := hwrote
  cases hend
  refine ⟨rfl, ?_⟩
  rw [fdTable_setFdTable, htable, addOffset, fdIndex?_val]

/-- A read that is clear of the table changes it as any read does. -/
theorem read_change (hp : k.currentPcb? = some p)
    (hclear : Disjoint (Pointer.readCells cfg map rest k fd buf nbytes) (tableCells p))
    (h : Pointer.read cfg map rest k fd buf nbytes line = .done k' v) :
    Change (k.pcb p).fdTable (.read fd none nbytes line) v (k'.pcb p).fdTable := by
  have hgoes := @read_goes cfg map rest k p hp fd buf nbytes line
  unfold Pointer.readCells at hclear
  rw [h] at hgoes
  generalize ho : (Outcome.done k' v : CallOutcome) = o at hgoes
  cases hgoes with
  | refused | null | rtc =>
      cases ho
      exact .same _ _
  | wild => cases ho
  | @filesys i hi hjump =>
      obtain rfl := fdIndex?_eq_some.1 hi
      rw [reach_eq hp hi, Pointer.entryReach, hjump] at hclear
      rw [(fileRead_moves hclear ho.symm).2]
      exact .moved _ _ (Or.inr hjump)
  | @dir i hi hjump =>
      obtain rfl := fdIndex?_eq_some.1 hi
      rw [reach_eq hp hi, Pointer.entryReach, hjump] at hclear
      unfold Pointer.dirRead at ho
      simp only at ho
      split_ifs at ho
      · cases ho
        exact .same _ _
      · -- the name is stored, which leaves the table alone, and then the position moves
        obtain ⟨k1, u, hstore, hend⟩ := Outcome.andThen_eq_done.1 ho.symm
        have hwrote := (dirName_wrote (cfg.fs.entries
          ((k.pcb p).fdTable i).filePosition.toNat).fileName subset_rfl).1.fdTable hclear
        rw [hstore] at hwrote
        cases hend
        have htable : (k1.pcb p).fdTable = (k.pcb p).fdTable := hwrote
        rw [fdTable_setFdTable, htable, addOffset, fdIndex?_val]
        exact .moved _ _ (Or.inl hjump)
  | term =>
      obtain ⟨-, row, hstate⟩ := @terminalRead_row cfg map rest k buf nbytes
      rw [← ho] at hstate
      obtain rfl : k' = k.setRow row := hstate
      exact .same _ _
  | kybd hi hjump =>
      rw [reach_eq hp hi, Pointer.entryReach, hjump] at hclear
      have hwrote := (@keyboardRead_spec cfg map rest _ k buf nbytes line subset_rfl).1.fdTable hclear
      rw [← ho] at hwrote
      have htable : (k'.pcb p).fdTable = (k.pcb p).fdTable := hwrote
      rw [htable]
      exact .same _ _

/-- A descriptor call that is clear of the table, seen from the running process. -/
theorem descriptorCall_change (hp : k.currentPcb? = some p) (hok : TableOk (k.pcb p).fdTable)
    (hclear : ClearOfTable cfg map k call) :
    (k.descriptorCall cfg map call).OnlyFaults ∧
      ∀ k' v, k.descriptorCall cfg map call = .done k' v →
        Change (k.pcb p).fdTable call.op v (k'.pcb p).fdTable := by
  -- the calls that store into no buffer
  have hplain : ∀ o : Option (Kernel × Int32),
      (∃ r, o = some r ∧ Change (k.pcb p).fdTable call.op r.2 (r.1.pcb p).fdTable) →
        (plainCall k o).OnlyFaults ∧ ∀ k' v, plainCall k o = .done k' v →
          Change (k.pcb p).fdTable call.op v (k'.pcb p).fdTable := by
    rintro o ⟨r, rfl, hchange⟩
    refine ⟨Outcome.onlyFaults_done _ _, fun k' v h => ?_⟩
    cases h
    exact hchange
  cases call with
  | openFile filename dentry => exact hplain _ (openFile_change hp filename dentry)
  | write fd buf nbytes => exact hplain _ (writeCall_change hp hok fd buf nbytes)
  | close fd =>
      obtain ⟨r, hr, hchange, -⟩ := closeCall_change hp hok fd
      exact hplain _ ⟨r, hr, hchange⟩
  | read fd buf nbytes line rest =>
      obtain ⟨htable, hrest⟩ := Set.disjoint_union_right.1 (hclear p fd buf nbytes line rest hp rfl)
      exact ⟨read_onlyFaults hp subset_rfl (tracked_of_disjoint hrest) fun i hi => hok.jump hi,
        fun k' v h => read_change hp htable h⟩

theorem callsOk_of_tableOk (hp : k.currentPcb? = some p) (hok : TableOk (k.pcb p).fdTable) :
    CallsOk cfg map k p where
  goesThrough call hclear := (descriptorCall_change hp hok hclear).1
  opens filename dentry found hfound := by
    obtain ⟨r, hr, hspec⟩ := openFile_spec hp hfound
    refine ⟨r.1, r.2, by simp only [Kernel.descriptorCall, hr, plainCall], ?_⟩
    cases hfree : getFdIndex (k.pcb p).fdTable with
    | none =>
        rw [hfree] at hspec
        have hall := getFdIndex_eq_none.1 hfree
        refine ⟨iff_of_true hspec fun i hi => (hok.on_iff i).1 (hall i hi), ?_⟩
        intro i hi hoff _
        exact absurd hoff (hall i hi)
    | some i =>
        rw [hfree] at hspec
        obtain ⟨hi, hoff, hbelow⟩ := getFdIndex_eq_some.1 hfree
        refine ⟨iff_of_false ?_ fun hall => (hok.on_iff i).2 (hall i hi) hoff, ?_⟩
        · rw [hspec.1]
          exact toRet_fdIndex_ne i
        · intro j hj hoffj hbelowj
          -- both are the lowest free entry
          have hij : j = i := by
            rcases lt_trichotomy j i with hlt | heq | hgt
            · exact absurd hoffj (hbelow j hlt hj)
            · exact heq
            · exact absurd hoff ((hok.on_iff i).2 (hbelowj i hgt hi))
          rw [hij]
          exact hspec
  closes fd := by
    obtain ⟨r, hr, -, hiff⟩ := closeCall_change hp hok fd
    exact ⟨r.1, r.2, by simp only [Kernel.descriptorCall, hr, plainCall], hiff⟩
  others call k' v hclear h j hnamed hreturned := by
    refine ((descriptorCall_change hp hok hclear).2 k' v h).frame hnamed fun filename dentry hop => ?_
    cases call with
    | openFile filename dentry => exact hreturned filename dentry rfl
    | read | write | close => cases hop

/-! ## Whole runs -/

/-- No store reaches the running process's pointer. -/
theorem currentPcb?_unreached : Unreached map Set.univ p Kernel.currentPcb? where
  store k c b k' _ hstore := by
    rw [storeCell_fixed hstore]
    rfl
  setConsole _ _ := rfl
  rtc _ _ := rfl
  setFdTable _ _ := rfl

/-- A descriptor call leaves the running process where it is. -/
theorem descriptorCall_running (hp : k.currentPcb? = some p)
    (h : k.descriptorCall cfg map call = .done k' v) : k'.currentPcb? = k.currentPcb? := by
  have hplain : ∀ (op : Op) (o : Option (Kernel × Int32)), op.isDevice = true →
      (k.step cfg op = o.map fun r => (r.1, .ret r.2 emptyBuf)) → plainCall k o = .done k' v →
      k'.currentPcb? = k.currentPcb? := by
    intro op o hdevice hstep h
    cases o with
    | none => cases h
    | some r =>
        cases h
        exact (step_device hdevice hstep).1.currentPcb?
  cases call with
  | openFile filename dentry => exact hplain (.openFile filename dentry) _ rfl rfl h
  | write fd buf nbytes => exact hplain (.write fd buf nbytes) _ rfl rfl h
  | close fd => exact hplain (.close fd) _ rfl rfl h
  | read fd buf nbytes line rest =>
      have hkept : (Pointer.read cfg map rest k fd buf nbytes line).state.currentPcb? = k.currentPcb? :=
        read_keeps currentPcb?_unreached hp (Set.subset_univ _) (fun _ _ => rfl) fun _ => rfl
      rwa [show Pointer.read cfg map rest k fd buf nbytes line = .done k' v from h] at hkept

/-- The process runs, and its table is in order. -/
def InOrder (p : Slot) (k : Kernel) : Prop := k.currentPcb? = some p ∧ TableOk (k.pcb p).fdTable

theorem nextCall_inOrder (hk : InOrder p k) (hclear : ClearOfTable cfg map k call)
    (h : k.nextCall cfg map call = some k') : InOrder p k' := by
  obtain ⟨hp, hok⟩ := hk
  unfold Kernel.nextCall at h
  split at h
  · next k1 v hdone =>
      obtain rfl := Option.some.inj h
      refine ⟨(descriptorCall_running hp hdone).trans hp, ?_⟩
      exact ((descriptorCall_change hp hok hclear).2 k1 v hdone).tableOk hok
  · cases h

/-- From a fresh table on, through any descriptor calls with any arguments and buffers: as long as no read
    stores into the table or into the kernel's other variables, the table is in order in every state, and
    every such call does there what it should. -/
theorem descriptorTable_safe (hp : k.currentPcb? = some p) (hinit : (k.pcb p).fdTable = fdTableInit)
    (calls : List DescriptorCall)
    (hclear : Runs.AllSteps (Kernel.nextCall cfg map) (ClearOfTable cfg map) k calls) :
    Runs.AllStates (Kernel.nextCall cfg map) (fun k' => k'.currentPcb? = some p ∧
      TableOk (k'.pcb p).fdTable ∧ CallsOk cfg map k' p) k calls := by
  have hstart : InOrder p k := by
    refine ⟨hp, ?_⟩
    rw [hinit]
    exact tableOk_init
  refine Runs.allStates_of_invariant (I := InOrder p) (fun k call k' hk hclear h => ?_) (fun k hk => ?_)
    hstart hclear
  · exact nextCall_inOrder hk hclear h
  · exact ⟨hk.1, hk.2, callsOk_of_tableOk hk.1 hk.2⟩

/-! ## Buffers in the program's page -/

/-- Where the program's page leads. -/
theorem cell_program (hentry : k.paging.pageDirectory processIdx = processEntry p) {va : Nat}
    (hlo : programPage ≤ va) (hhi : va < programPage + userPageSize) :
    (kernelView cfg map rest).cell k va
      = some (.memory (programMemory + userPageSize * p.val + (va - programPage))) := by
  unfold programPage userPageSize programMemory at *
  have haddr : kernelAddr cfg.lay k.paging (va % 2 ^ 32)
      = some (0x800000 + p.val * 0x400000 + (va - 0x08000000)) := by
    rw [Nat.mod_eq_of_lt (by omega)]
    exact kernelAddr_program hentry hlo hhi
  change (kernelAddr cfg.lay k.paging (va % 2 ^ 32)).map (cellAt map) = _
  rw [haddr, Option.map_some, cellAt, if_pos, Nat.mul_comm p.val]
  unfold kStackBottom
  omega

/-- A buffer in the program's page is in the program's memory. -/
theorem cells_program {i : Slot} {n : Nat} (hentry : k.paging.pageDirectory processIdx = processEntry i)
    (hlo : programPage ≤ buf) (hhi : buf + n ≤ programPage + userPageSize) :
    (kernelView cfg map rest).cells k buf n ⊆ {c | ∃ pa, c = .memory pa} := by
  rintro c ⟨j, hj, hc⟩
  rw [cell_program hentry (by omega) (by omega)] at hc
  obtain rfl := Option.some.inj hc
  exact ⟨_, rfl⟩

theorem clear_of_memory (hC : C ⊆ {c | ∃ pa, c = .memory pa}) (p : Slot) :
    Disjoint C (tableCells p ∪ untracked) := by
  refine Set.disjoint_left.2 fun c hc => ?_
  obtain ⟨pa, rfl⟩ := hC hc
  rintro (⟨_, _, _, h⟩ | ⟨_, h⟩) <;> cases h

/-! ## On the small machine -/

/-- The booted small machine maps the kernel, and the program of the first shell. -/
theorem smallBooted_mapped :
    KernelMapped smallBooted.paging ∧ smallBooted.paging.pageDirectory processIdx = processEntry 0 := by
  obtain ⟨-, -, hst⟩ := smallBooted_spec
  rw [hst.paging]
  exact ⟨(addProcess_of_ne (by decide)).trans rfl, addProcess_entry 0⟩

/-- The first shell of the small machine has opened the text file. -/
theorem nextCall_openNote (map : KernelMap) :
    ∃ k, smallBooted.nextCall smallConfig map (.openFile (some noteCommand) ⟨fun _ => 0, 0, 0⟩) = some k ∧
      HasOpen 0 2 k ∧ (k.pcb 0).fdTable 2 = ⟨some .filesys, 1, 0, fdOn⟩ ∧
      KernelMapped k.paging ∧ k.paging.pageDirectory processIdx = processEntry 0 := by
  obtain ⟨hp, htable⟩ := smallBooted_running
  have hname := smallConfig_note ⟨fun _ => 0, 0, 0⟩
  have hfree : getFdIndex (smallBooted.pcb 0).fdTable = some 2 := by
    rw [htable]
    decide
  have hok : TableOk (smallBooted.pcb 0).fdTable := by
    rw [htable]
    exact tableOk_init
  obtain ⟨k, hopen⟩ := openFile_free hp hname hfree
  obtain ⟨hhas, hentry⟩ := openFile_entry hp hok hname (by decide) hopen
  have hprocs := (openFile_served hopen).procs
  obtain ⟨hkernel, hprogram⟩ := smallBooted_mapped
  refine ⟨k, ?_, hhas, hentry.trans rfl, ?_, ?_⟩
  · simp only [Kernel.nextCall, Kernel.descriptorCall, hopen, plainCall]
  · exact (hprocs.directory 1 (by decide)).trans hkernel
  · exact (hprocs.directory processIdx (by decide)).trans hprogram

/-- The text file is opened, read into the program's memory, and closed. -/
theorem descriptorTable_safe_note :
    Runs.AllStates (Kernel.nextCall smallConfig smallMap) (fun k => k.currentPcb? = some 0 ∧
        TableOk (k.pcb 0).fdTable ∧ CallsOk smallConfig smallMap k 0) smallBooted
      [.openFile (some noteCommand) ⟨fun _ => 0, 0, 0⟩, .read 2 programStart 4 emptyBuf emptyBuf,
        .close 2] := by
  obtain ⟨hp, htable⟩ := smallBooted_running
  refine descriptorTable_safe hp htable _ ⟨?_, fun k hk => ⟨?_, fun _ _ => ⟨?_, fun _ _ => trivial⟩⟩⟩
  · intro p fd buf nbytes line rest _ h
    cases h
  · obtain ⟨k', hk', hhas, hentry, -, hprogram⟩ := nextCall_openNote smallMap
    obtain rfl := Option.some.inj (hk.symm.trans hk')
    intro p fd buf nbytes line rest hpk h
    cases h
    have hreach : Pointer.reach smallConfig k 2 4 ≤ 4 := by
      rw [reach_eq (p := 0) hhas.running (show fdIndex? 2 = some 2 from rfl), hentry]
      exact Nat.min_le_left _ _
    refine clear_of_memory ?_ p
    exact (View.cells_mono hreach).trans (cells_program hprogram (by decide) (by decide))
  · intro p fd buf nbytes line rest _ h
    cases h

/-- One byte of the text file, read into any cell. -/
theorem fileRead_note {k : Kernel} (hentry : (k.pcb 0).fdTable 2 = ⟨some .filesys, 1, 0, fdOn⟩) {c : Cell}
    (hcell : (kernelView smallConfig map rest).cell k buf = some c) {k1 : Kernel}
    (hstore : k.storeCell map c 0x74 = some k1) :
    Pointer.fileRead smallConfig map rest k 0 2 buf 1
      = .done (k1.setFdTable 0 (addOffset (k1.pcb 0).fdTable 2 1)) 1 := by
  have hdata : readData smallConfig.fs 1 0 (toU32 1) = ⟨1, [0x74]⟩ := by decide
  have hbyte : (kernelView smallConfig map rest).storeByte k buf 0x74 = .done k1 () := by
    unfold View.storeByte
    rw [hcell]
    simp only [kernelView, hstore]
  rw [fileRead_eq, hentry]
  simp only [show (1 : Int32).toUInt32 = 1 from rfl, hdata, View.storeBytes, hbyte, Outcome.done_andThen]
  rfl

theorem read_note {k : Kernel} (hhas : HasOpen 0 2 k)
    (hentry : (k.pcb 0).fdTable 2 = ⟨some .filesys, 1, 0, fdOn⟩) (hbuf : buf ≠ 0) :
    Pointer.read smallConfig map rest k 2 buf 1 line = Pointer.fileRead smallConfig map rest k 0 2 buf 1 := by
  have hvalid : checkValidFd (k.pcb 0).fdTable 2 = true := by
    rw [checkValidFd_eq (show fdIndex? 2 = some 2 from rfl), hentry]
    rfl
  unfold Pointer.read
  rw [show fdIndex? 2 = some 2 from rfl, hhas.running]
  simp only [hvalid, if_true, if_neg hbuf, hentry]

/-- One byte of the text file, read over the flags of the first free entry. -/
theorem descriptorTable_not_safe :
    ¬ ∀ (cfg : Config) (map : KernelMap) (k : Kernel) (p : Slot), Reachable cfg k →
      k.currentPcb? = some p → (k.pcb p).fdTable = fdTableInit → ∀ calls,
        Runs.AllStates (Kernel.nextCall cfg map) (fun k' => TableOk (k'.pcb p).fdTable) k calls := by
  intro hall
  obtain ⟨hp, htable⟩ := smallBooted_running
  obtain ⟨k, hopen, hhas, hentry, hkernel, -⟩ := nextCall_openNote smallMap
  have hgood := hall smallConfig smallMap smallBooted 0 smallBooted_reachable hp htable
    [.openFile (some noteCommand) ⟨fun _ => 0, 0, 0⟩, .read 2 (entryAddr 0 3 3 0) 1 emptyBuf emptyBuf]
  have hcell : (kernelView smallConfig smallMap emptyBuf).cell k (entryAddr 0 3 3 0)
      = some (.entry 0 3 3 0) := by
    change (kernelAddr _ k.paging (entryAddr 0 3 3 0 % 2 ^ 32)).map (cellAt smallMap) = _
    rw [show entryAddr 0 3 3 0 % 2 ^ 32 = entryAddr 0 3 3 0 by decide,
      hkernel.kernelAddr (by decide) (by decide), Option.map_some, cellAt_entryAddr]
  have hread := @fileRead_note smallMap emptyBuf (entryAddr 0 3 3 0) k hentry _ hcell _ rfl
  rw [← @read_note smallMap emptyBuf _ emptyBuf k hhas hentry (by decide)] at hread
  obtain ⟨k2, hk2, hflags⟩ : ∃ k2, k.nextCall smallConfig smallMap
      (.read 2 (entryAddr 0 3 3 0) 1 emptyBuf emptyBuf) = some k2 ∧
        ((k2.pcb 0).fdTable 3).flags = setWordByte ((k.pcb 0).fdTable 3).flags 0 0x74 := by
    refine ⟨_, by simp only [Kernel.nextCall, Kernel.descriptorCall, hread]; rfl, ?_⟩
    rw [fdTable_setFdTable, fdTable_setFdTable]
    rfl
  have hlast : TableOk (k2.pcb 0).fdTable := (hgood.2 k hopen).2 k2 hk2
  -- the entry was off or on, and is now neither
  have hstored : setWordByte ((k.pcb 0).fdTable 3).flags 0 0x74 = 0x74 := by
    rcases hhas.table.entry 3 with ⟨hoff, -⟩ | ⟨hon, -⟩ | ⟨hon, -⟩
    · rw [hoff]
      decide
    · rw [hon]
      decide
    · rw [hon]
      decide
  rw [hstored] at hflags
  rcases hlast.entry 3 with ⟨hoff, -⟩ | ⟨hon, -⟩ | ⟨hon, -⟩
  · exact absurd (hflags.symm.trans hoff) (by decide)
  · exact absurd (hflags.symm.trans hon) (by decide)
  · exact absurd (hflags.symm.trans hon) (by decide)

end BaseOs
